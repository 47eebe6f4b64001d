import Topograph.Lib.Loops
import Topograph.Translate.NetworkTopology

/-! # What `initTree` computes

When `initTree` accepts a graph, it has visited every vertex below the root once, in breadth first
order. `TreeInvariant` says what the maps hold after each turn of the loop, and `initTree_spec` what
they hold at the end: the vertices and their children by ID, and for every leaf the IDs of the
switches above it. -/

namespace Topograph.Translate

open Topograph.Topology

variable {ρ : Type} {heap : ρ → Vertex (Option ρ)} {root v : ρ}

/-- The children of a vertex that are not nil. -/
def childList (heap : ρ → Vertex (Option ρ)) (v : ρ) : List ρ :=
  (heap v).vertices.entries.filterMap (·.2)

/-- A compute node: nothing is connected below it. -/
def IsLeaf (heap : ρ → Vertex (Option ρ)) (v : ρ) : Prop := (heap v).vertices.entries = []

instance (heap : ρ → Vertex (Option ρ)) (v : ρ) : Decidable (IsLeaf heap v) :=
  inferInstanceAs (Decidable (_ = _))

/-- `Path heap root v p`: the IDs of the vertices above `v`, the closest one last. A vertex without
an ID, as the root of a graph, starts the path afresh. -/
inductive Path (heap : ρ → Vertex (Option ρ)) (root : ρ) : ρ → List String → Prop
  | root : Path heap root root []
  | child {v w : ρ} {p : List String} (h : Path heap root v p) (hw : w ∈ childList heap v) :
      Path heap root w (if (heap v).id = "" then [] else p ++ [(heap v).id])

/-- The first of the visited vertices with a given ID. -/
def findID (heap : ρ → Vertex (Option ρ)) (done : List ρ) (x : String) : Option ρ :=
  done.find? fun v => (heap v).id = x

/-- The last visited leaf with a given name. -/
def findLeaf (heap : ρ → Vertex (Option ρ)) (done : List ρ) (n : String) : Option ρ :=
  done.reverse.find? fun v => IsLeaf heap v ∧ (heap v).name = n

/-- What holds after the vertices `done` are visited. -/
structure TreeInvariant (heap : ρ → Vertex (Option ρ)) (root : ρ) (done : List ρ)
    (st : TreeState ρ) : Prop where
  /-- What was queued so far is the root and the children of the visited vertices. -/
  order : done ++ st.queue = root :: done.flatMap (childList heap)
  nodup : ((done ++ st.queue).map fun v => (heap v).id).Nodup
  seen : ∀ x, x ∈ st.seen ↔ x ∈ (done ++ st.queue).map fun v => (heap v).id
  noNil : ∀ v ∈ done, ∀ e ∈ (heap v).vertices.entries, ∃ w, e.2 = some w
  noSelf : ∀ v ∈ done, ∀ e ∈ (heap v).vertices.entries, e.1 ≠ (heap v).id
  tree : ∀ x, st.tree.lookup x = (findID heap done x).map fun v => (heap v).vertices.keys
  vertices : ∀ x, st.vertices.lookup x = findID heap done x
  /-- Only queued vertices have an entry. -/
  queued : ∀ x, x ∉ (done ++ st.queue).map (fun v => (heap v).id) → st.parentMap.lookup x = none
  path : ∀ v ∈ done ++ st.queue, Path heap root v ((st.parentMap.lookup (heap v).id).getD [])
  nodeInfo : ∀ n, st.nodeInfo.lookup n = (findLeaf heap done n).map fun v =>
    { instanceID := (heap v).id, blockID := "", blockIndx := none
      switches := (st.parentMap.lookup (heap v).id).getD [] }

/-! ## One vertex -/

variable {st st' : TreeState ρ}

/-- **What a child that is accepted changes.** -/
theorem visitChild_eq_ok {child : Σ _ : String, Option ρ} : visitChild heap v st child = .ok st' ↔
      ∃ w, child.2 = some w ∧ child.1 ≠ (heap v).id ∧ (heap w).id ≠ (heap v).id ∧
        (heap w).id ∉ st.seen ∧
        st' = { st with
          seen := (heap w).id :: st.seen
          parentMap :=
            if (heap v).id = "" then st.parentMap
            else st.parentMap.insert (heap w).id
              ((st.parentMap.lookup (heap v).id).getD [] ++ [(heap v).id])
          tree := st.tree.insert (heap v).id ((st.tree.lookup (heap v).id).getD [] ++ [child.1])
          queue := st.queue ++ [w] } := by
  unfold visitChild
  obtain ⟨key, child⟩ := child
  cases child with
  | none => simp
  | some w =>
    dsimp only
    by_cases hself : key = (heap v).id ∨ (heap w).id = (heap v).id
    · rw [if_pos hself]
      refine ⟨fun h => absurd h (by simp), ?_⟩
      rintro ⟨w', hw, h1, h2, -⟩
      obtain rfl := Option.some.inj hw
      exact absurd hself (by simp [h1, h2])
    · rw [if_neg hself]
      by_cases hseen : (heap w).id ∈ st.seen
      · rw [if_pos hseen]
        refine ⟨fun h => absurd h (by simp), ?_⟩
        rintro ⟨w', hw, -, -, h3, -⟩
        obtain rfl := Option.some.inj hw
        exact absurd hseen h3
      · rw [if_neg hseen]
        push Not at hself
        refine ⟨fun h => ⟨w, rfl, hself.1, hself.2, hseen, (Except.ok.inj h).symm⟩, ?_⟩
        rintro ⟨w', hw, -, -, -, rfl⟩
        obtain rfl := Option.some.inj hw
        rfl

/-- What the loop over the children of `v` leaves, when `v` is already in the tree. -/
structure ChildrenVisited (heap : ρ → Vertex (Option ρ)) (v : ρ) (old : List String)
    (entries : List (Σ _ : String, Option ρ)) (st st' : TreeState ρ) : Prop where
  noNil : ∀ e ∈ entries, ∃ w, e.2 = some w
  noSelf : ∀ e ∈ entries, e.1 ≠ (heap v).id
  fresh : ∀ w ∈ entries.filterMap (·.2), (heap w).id ≠ (heap v).id ∧ (heap w).id ∉ st.seen
  nodup : ((entries.filterMap (·.2)).map fun w => (heap w).id).Nodup
  seen : ∀ x, x ∈ st'.seen ↔ x ∈ st.seen ∨ x ∈ (entries.filterMap (·.2)).map fun w => (heap w).id
  queue : st'.queue = st.queue ++ entries.filterMap (·.2)
  vertices : st'.vertices = st.vertices
  nodeInfo : st'.nodeInfo = st.nodeInfo
  tree : ∀ x, st'.tree.lookup x = if x = (heap v).id then some (old ++ entries.map (·.1))
    else st.tree.lookup x
  parentMap : ∀ x, st'.parentMap.lookup x =
    if (heap v).id ≠ "" ∧ x ∈ (entries.filterMap (·.2)).map fun w => (heap w).id then
      some ((st.parentMap.lookup (heap v).id).getD [] ++ [(heap v).id])
    else st.parentMap.lookup x

theorem childrenVisited {entries : List (Σ _ : String, Option ρ)} {old : List String}
    (hold : st.tree.lookup (heap v).id = some old)
    (h : entries.foldlM (visitChild heap v) st = .ok st') :
    ChildrenVisited heap v old entries st st' := by
  induction entries generalizing st old with
  | nil =>
    obtain rfl : st = st' := Except.ok.inj h
    refine ⟨by simp, by simp, by simp, by simp, by simp, by simp, rfl, rfl, ?_, by simp⟩
    intro x
    by_cases hx : x = (heap v).id
    · rw [if_pos hx, hx, hold, List.map_nil, List.append_nil]
    · rw [if_neg hx]
  | cons child entries ih =>
    rw [List.foldlM_cons] at h
    obtain ⟨st₁, hv, h⟩ := Loops.bind_eq_ok h
    obtain ⟨w, hw, hkey, hid, hseen, rfl⟩ := visitChild_eq_ok.mp hv
    have hold' : (st.tree.insert (heap v).id
        ((st.tree.lookup (heap v).id).getD [] ++ [child.1])).lookup (heap v).id
          = some (old ++ [child.1]) := by
      rw [AList.lookup_insert, hold, Option.getD_some]
    have ih' := ih hold' h
    have hlist : (child :: entries).filterMap (·.2) = w :: entries.filterMap (·.2) := by
      rw [List.filterMap_cons, hw]
    have hfresh := ih'.fresh
    simp only [List.mem_cons, not_or] at hfresh
    refine ⟨?_, ?_, ?_, ?_, ?_, ?_, ih'.vertices, ih'.nodeInfo, ?_, ?_⟩
    · intro e he
      rcases List.mem_cons.mp he with rfl | he
      · exact ⟨w, hw⟩
      · exact ih'.noNil e he
    · intro e he
      rcases List.mem_cons.mp he with rfl | he
      · exact hkey
      · exact ih'.noSelf e he
    · intro u hu
      rw [hlist] at hu
      rcases List.mem_cons.mp hu with rfl | hu
      · exact ⟨hid, hseen⟩
      · exact ⟨(hfresh u hu).1, (hfresh u hu).2.2⟩
    · rw [hlist, List.map_cons, List.nodup_cons]
      refine ⟨?_, ih'.nodup⟩
      intro hmem
      obtain ⟨u, hu, huw⟩ := List.mem_map.mp hmem
      exact (hfresh u hu).2.1 huw
    · intro x
      rw [ih'.seen, hlist, List.map_cons, List.mem_cons, List.mem_cons]
      tauto
    · rw [ih'.queue, hlist, List.append_assoc]
      rfl
    · intro x
      rw [ih'.tree]
      by_cases hx : x = (heap v).id
      · rw [if_pos hx, if_pos hx, List.map_cons, List.append_assoc]
        rfl
      · rw [if_neg hx, if_neg hx, AList.lookup_insert_ne hx]
    · intro x
      rw [ih'.parentMap, hlist, List.map_cons]
      by_cases hempty : (heap v).id = ""
      · simp [hempty]
      · -- The entry of `v` itself is not touched by its children.
        have hsame : (AList.insert (heap w).id
            ((st.parentMap.lookup (heap v).id).getD [] ++ [(heap v).id]) st.parentMap).lookup
              (heap v).id = st.parentMap.lookup (heap v).id :=
          AList.lookup_insert_ne (Ne.symm hid)
        simp only [hempty, if_false, hsame, ne_eq, not_false_eq_true, true_and, List.mem_cons]
        rw [GoMap.lookup_insert_eq_ite]
        by_cases hxw : x = (heap w).id
        · simp only [hxw, true_or, if_true, ite_self]
        · simp only [hxw, false_or, if_false]

/-- The state with `v` recorded and taken off the queue. -/
def recorded (heap : ρ → Vertex (Option ρ)) (st : TreeState ρ) (v : ρ) (queue : List ρ) :
    TreeState ρ :=
  { st with
    queue := queue
    tree := st.tree.insert (heap v).id []
    vertices := st.vertices.insert (heap v).id v
    nodeInfo :=
      if (heap v).vertices.entries = [] then
        st.nodeInfo.insert (heap v).name
          { instanceID := (heap v).id, blockID := "", blockIndx := none
            switches := (st.parentMap.lookup (heap v).id).getD [] }
      else st.nodeInfo }

/-- A vertex whose ID is new is recorded. -/
theorem recordVertex_of_none {queue : List ρ} (h : st.tree.lookup (heap v).id = none) :
    recordVertex heap v { st with queue := queue } = recorded heap st v queue := by
  unfold recordVertex
  dsimp only
  rw [h, if_neg (by simp)]
  rfl

theorem findID_append (done : List ρ) (v : ρ) (x : String) :
    findID heap (done ++ [v]) x = (findID heap done x).or (if (heap v).id = x then some v
      else none) := by
  rw [findID, List.find?_append, findID, List.find?_singleton]
  simp

variable {done : List ρ}

theorem findID_eq_none {x : String} (h : x ∉ done.map fun v => (heap v).id) :
    findID heap done x = none := by
  rw [findID, List.find?_eq_none]
  intro v hv
  simpa using fun hx : (heap v).id = x => h (List.mem_map.mpr ⟨v, hv, hx⟩)

theorem findLeaf_append (done : List ρ) (v : ρ) (n : String) :
    findLeaf heap (done ++ [v]) n =
      if IsLeaf heap v ∧ (heap v).name = n then some v else findLeaf heap done n := by
  rw [findLeaf, List.reverse_append, List.reverse_singleton, List.singleton_append, List.find?_cons]
  by_cases h : IsLeaf heap v ∧ (heap v).name = n
  · simp [h]
  · simp [h, findLeaf]

/-- A leaf that is found was visited. -/
theorem mem_of_findLeaf {n : String} {v : ρ} (h : findLeaf heap done n = some v) :
    v ∈ done ∧ IsLeaf heap v ∧ (heap v).name = n := by
  have hmem := List.mem_of_find?_eq_some h
  have hprop := List.find?_some h
  exact ⟨List.mem_reverse.mp hmem, by simpa using hprop⟩

/-! ### One turn of the loop -/

section Turn

variable {queue : List ρ} (h : TreeInvariant heap root done st) (hqueue : st.queue = v :: queue)

include h hqueue

/-- The ID of the next vertex is new to the tree. -/
theorem TreeInvariant.id_new : (heap v).id ∉ done.map fun u => (heap u).id := by
  have hnodup := h.nodup
  rw [hqueue, List.map_append, List.map_cons, List.nodup_append] at hnodup
  exact fun hmem => hnodup.2.2 _ hmem _ List.mem_cons_self rfl

/-- A turn visits the children of its vertex. -/
theorem TreeInvariant.childrenVisited
    (hv : visitVertex heap v { st with queue := queue } = .ok st') :
    ChildrenVisited heap v [] (heap v).vertices.entries (recorded heap st v queue) st' := by
  have hnone : st.tree.lookup (heap v).id = none := by
    rw [h.tree, findID_eq_none (h.id_new hqueue), Option.map_none]
  unfold visitVertex at hv
  rw [recordVertex_of_none hnone] at hv
  exact Translate.childrenVisited (AList.lookup_insert _) hv

variable (hc : ChildrenVisited heap v [] (heap v).vertices.entries (recorded heap st v queue) st')

include hc

omit h in
/-- The children are queued behind the vertices that were known. -/
theorem ChildrenVisited.split (done : List ρ) :
    done ++ [v] ++ st'.queue = done ++ st.queue ++ childList heap v := by
  have hqueue' : st'.queue = queue ++ childList heap v := hc.queue
  rw [hqueue', hqueue]
  simp

omit hqueue in
/-- The children are new: their IDs were not seen. -/
theorem TreeInvariant.child_new {w : ρ} (hw : w ∈ childList heap v) :
    (heap w).id ∉ (done ++ st.queue).map fun u => (heap u).id :=
  fun hmem => (hc.fresh w hw).2 ((h.seen _).mpr hmem)

omit hqueue in
/-- The paths of the vertices that were known stay. -/
theorem TreeInvariant.lookup_parentMap {u : ρ} (hu : u ∈ done ++ st.queue) :
    st'.parentMap.lookup (heap u).id = st.parentMap.lookup (heap u).id := by
  rw [hc.parentMap, if_neg]
  · rfl
  · rintro ⟨-, hmem⟩
    obtain ⟨w, hw, hwu⟩ := List.mem_map.mp hmem
    exact h.child_new hc hw (List.mem_map.mpr ⟨u, hu, hwu.symm⟩)

/-- A child extends the path of its parent by its ID, unless the parent has none. -/
theorem TreeInvariant.path_child {u : ρ} (hu : u ∈ childList heap v) :
    Path heap root u ((st'.parentMap.lookup (heap u).id).getD []) := by
  have hstep := Path.child (h.path v (by simp [hqueue])) hu
  have hmem : (heap u).id ∈ (childList heap v).map fun w => (heap w).id :=
    List.mem_map.mpr ⟨u, hu, rfl⟩
  rw [hc.parentMap]
  by_cases hempty : (heap v).id = ""
  · have hnew : (recorded heap st v queue).parentMap.lookup (heap u).id = none :=
      h.queued _ (h.child_new hc hu)
    rw [if_pos hempty] at hstep
    rw [if_neg fun hc => hc.1 hempty, hnew]
    exact hstep
  · rw [if_neg hempty] at hstep
    rw [if_pos ⟨hempty, hmem⟩]
    exact hstep

/-- The last leaf of a name has its switches recorded. -/
theorem TreeInvariant.nodeInfo_turn (n : String) : st'.nodeInfo.lookup n =
    (findLeaf heap (done ++ [v]) n).map fun u =>
      { instanceID := (heap u).id, blockID := "", blockIndx := none
        switches := (st'.parentMap.lookup (heap u).id).getD [] } := by
  have hold : st.nodeInfo.lookup n = (findLeaf heap done n).map fun u =>
      { instanceID := (heap u).id, blockID := "", blockIndx := none
        switches := (st'.parentMap.lookup (heap u).id).getD [] } := by
    rw [h.nodeInfo]
    cases hfind : findLeaf heap done n with
    | none => rfl
    | some u =>
      rw [Option.map_some, Option.map_some,
        h.lookup_parentMap hc (List.mem_append_left _ (mem_of_findLeaf hfind).1)]
  rw [hc.nodeInfo, findLeaf_append, recorded]
  by_cases hleaf : (heap v).vertices.entries = []
  · rw [if_pos hleaf, GoMap.lookup_insert_eq_ite]
    by_cases hn : n = (heap v).name
    · rw [if_pos hn, if_pos ⟨hleaf, hn.symm⟩, Option.map_some,
        h.lookup_parentMap hc (by simp [hqueue])]
    · rw [if_neg hn, if_neg fun hc => hn hc.2.symm]
      exact hold
  · rw [if_neg hleaf, if_neg fun hc => hleaf hc.1]
    exact hold

end Turn

/-- **One turn of the loop keeps the invariant**, with one more vertex visited. -/
theorem TreeInvariant.step {queue : List ρ} (h : TreeInvariant heap root done st)
    (hqueue : st.queue = v :: queue)
    (hv : visitVertex heap v { st with queue := queue } = .ok st') :
    TreeInvariant heap root (done ++ [v]) st' := by
  have hc := h.childrenVisited hqueue hv
  have hsplit := hc.split hqueue done
  have hvnew := h.id_new hqueue
  constructor
  case order =>
    rw [hsplit, h.order, List.flatMap_append]
    simp
  case nodup =>
    rw [hsplit, List.map_append, List.nodup_append]
    refine ⟨h.nodup, hc.nodup, fun a ha b hb hab => ?_⟩
    obtain ⟨w, hw, rfl⟩ := List.mem_map.mp hb
    exact h.child_new hc hw (hab ▸ ha)
  case seen =>
    intro x
    rw [hsplit, hc.seen, List.map_append, List.mem_append]
    exact or_congr (h.seen x) Iff.rfl
  case noNil => exact List.forall_mem_append.mpr ⟨h.noNil, List.forall_mem_singleton.mpr hc.noNil⟩
  case noSelf => exact List.forall_mem_append.mpr ⟨h.noSelf,
    List.forall_mem_singleton.mpr hc.noSelf⟩
  case tree =>
    intro x
    rw [hc.tree, findID_append, recorded]
    by_cases hx : x = (heap v).id
    · rw [if_pos hx, hx, findID_eq_none hvnew, if_pos rfl]
      rfl
    · rw [if_neg hx, if_neg (Ne.symm hx), AList.lookup_insert_ne hx, Option.or_none]
      exact h.tree x
  case vertices =>
    intro x
    rw [hc.vertices, findID_append, recorded, GoMap.lookup_insert_eq_ite]
    by_cases hx : x = (heap v).id
    · rw [if_pos hx, hx, findID_eq_none hvnew, if_pos rfl]
      rfl
    · rw [if_neg hx, if_neg (Ne.symm hx), Option.or_none]
      exact h.vertices x
  case queued =>
    intro x hx
    rw [hsplit, List.map_append, List.mem_append, not_or] at hx
    rw [hc.parentMap, if_neg fun hc => hx.2 hc.2]
    exact h.queued x hx.1
  case path =>
    intro u hu
    rw [hsplit] at hu
    rcases List.mem_append.mp hu with hu | hu
    · rw [h.lookup_parentMap hc hu]
      exact h.path u hu
    · exact h.path_child hqueue hc hu
  case nodeInfo => exact h.nodeInfo_turn hqueue hc

/-- The invariant holds before the loop. -/
theorem TreeInvariant.start : TreeInvariant heap root [] (treeStart heap root) where
  order := rfl
  nodup := List.nodup_singleton _
  seen x := Iff.rfl
  noNil := by simp
  noSelf := by simp
  tree x := rfl
  vertices x := rfl
  queued x _ := rfl
  path u hu := by
    rw [List.mem_singleton.mp hu]
    exact Path.root
  nodeInfo n := rfl

/-- **The whole loop**: when it ends, the invariant holds with an empty queue. -/
theorem TreeInvariant.treeLoop {fuel : Nat} (h : TreeInvariant heap root done st)
    (hloop : Translate.treeLoop heap fuel st = some (.ok st')) :
    ∃ l, TreeInvariant heap root l st' ∧ st'.queue = [] := by
  induction fuel generalizing done st with
  | zero => exact absurd hloop (by simp [Translate.treeLoop])
  | succ fuel ih =>
    unfold Translate.treeLoop at hloop
    split at hloop
    · rename_i hqueue
      obtain rfl := Except.ok.inj (Option.some.inj hloop)
      exact ⟨done, h, hqueue⟩
    · rename_i v queue hqueue
      split at hloop
      · exact absurd hloop (by simp)
      · rename_i st₁ hv
        exact ih (h.step hqueue hv) hloop

/-! ## The accepted tree -/

/-- The graph below the root is a tree: `l` lists its vertices, each once, and nothing is
missing. -/
structure IsTree (heap : ρ → Vertex (Option ρ)) (root : ρ) (l : List ρ) : Prop where
  order : l = root :: l.flatMap (childList heap)
  nodup : (l.map fun v => (heap v).id).Nodup
  noNil : ∀ v ∈ l, ∀ e ∈ (heap v).vertices.entries, ∃ w, e.2 = some w
  noSelf : ∀ v ∈ l, ∀ e ∈ (heap v).vertices.entries, e.1 ≠ (heap v).id
  path : ∀ v ∈ l, ∃ p, Path heap root v p

namespace IsTree

variable {l : List ρ} (h : IsTree heap root l)

include h

theorem root_mem : root ∈ l := by
  rw [h.order]
  exact List.mem_cons_self

/-- The children of a listed vertex are listed. -/
theorem child_mem {v w : ρ} (hv : v ∈ l) (hw : w ∈ childList heap v) : w ∈ l := by
  rw [h.order]
  exact List.mem_cons_of_mem _ (List.mem_flatMap.mpr ⟨v, hv, hw⟩)

theorem nodup_list : l.Nodup := List.Nodup.of_map _ h.nodup

/-- Vertices have different IDs. -/
theorem eq_of_id {v w : ρ} (hv : v ∈ l) (hw : w ∈ l) (hid : (heap v).id = (heap w).id) : v = w :=
  List.inj_on_of_nodup_map h.nodup hv hw hid

theorem findID_eq_some {v : ρ} (hv : v ∈ l) : findID heap l (heap v).id = some v := by
  cases hfind : findID heap l (heap v).id with
  | none =>
    have := List.find?_eq_none.mp hfind v hv
    simp at this
  | some w =>
    have hid : (heap w).id = (heap v).id := by simpa using List.find?_some hfind
    rw [h.eq_of_id (List.mem_of_find?_eq_some hfind) hv hid]

theorem root_not_child {v : ρ} (hv : v ∈ l) : root ∉ childList heap v := by
  intro hmem
  have hnodup := h.nodup_list
  rw [h.order, List.nodup_cons] at hnodup
  exact hnodup.1 (List.mem_flatMap.mpr ⟨v, hv, hmem⟩)

/-- **A vertex has one parent.** -/
theorem parent_unique {u v w : ρ} (hu : u ∈ l) (hv : v ∈ l) (hwu : w ∈ childList heap u)
    (hwv : w ∈ childList heap v) : u = v := by
  have hnodup := h.nodup_list
  rw [h.order, List.nodup_cons, List.nodup_flatMap] at hnodup
  have : Std.Symm (Function.onFun List.Disjoint (childList heap)) :=
    ⟨fun _ _ hd _ h1 h2 => hd h2 h1⟩
  by_contra hne
  exact hnodup.2.2.forall hu hv hne hwu hwv

/-- What a path reaches was visited. -/
theorem mem_of_path {v : ρ} {p : List String} (hp : Path heap root v p) : v ∈ l := by
  induction hp with
  | root => exact h.root_mem
  | child _ hw ih => exact h.child_mem ih hw

/-- **A vertex has one path.** -/
theorem path_unique {v : ρ} {p q : List String} (hp : Path heap root v p)
    (hq : Path heap root v q) : p = q := by
  induction hp generalizing q with
  | root =>
    cases hq with
    | root => rfl
    | child hq hw => exact absurd hw (h.root_not_child (h.mem_of_path hq))
  | child hp hw ih =>
    cases hq with
    | root => exact absurd hw (h.root_not_child (h.mem_of_path hp))
    | child hq hw' =>
      obtain rfl := h.parent_unique (h.mem_of_path hp) (h.mem_of_path hq) hw hw'
      rw [ih hq]

end IsTree

/-- What `initTree` leaves of a graph with tiers. -/
structure TreeSpec (heap : ρ → Vertex (Option ρ)) (root : ρ) (l : List ρ) (st : TreeState ρ) : Prop
    extends IsTree heap root l where
  tree : ∀ x, st.tree.lookup x =
    (findID heap l x).map fun v => (heap v).vertices.keys.insertionSort (· ≤ ·)
  vertices : ∀ x, st.vertices.lookup x = findID heap l x
  /-- A node is known by the last leaf of its name. -/
  nodeInfo : ∀ n i, st.nodeInfo.lookup n = some i ↔ ∃ v p, findLeaf heap l n = some v ∧
    Path heap root v p ∧
      i = { instanceID := (heap v).id, blockID := "", blockIndx := none, switches := p }

/-- **What `initTree` computes on an accepted graph.** -/
theorem initTree_spec {fuel : Nat} {graph : Graph ρ} {st : TreeState ρ}
    (htiers : graph.tiers = some root) (h : initTree fuel (some graph) = some (.ok st)) :
    ∃ l, TreeSpec graph.heap root l st := by
  unfold initTree at h
  simp only [htiers] at h
  cases hloop : treeLoop graph.heap fuel (treeStart graph.heap root) with
  | none =>
    rw [hloop] at h
    exact absurd h (by simp)
  | some r =>
    cases r with
    | error err =>
      rw [hloop] at h
      exact absurd h (by simp)
    | ok st₁ =>
      rw [hloop] at h
      obtain rfl := Except.ok.inj (Option.some.inj h)
      obtain ⟨l, hinv, hqueue⟩ := TreeInvariant.start.treeLoop hloop
      have horder := hinv.order
      have hnodup := hinv.nodup
      have hpath := hinv.path
      rw [hqueue, List.append_nil] at horder hnodup hpath
      have htree : IsTree graph.heap root l :=
        ⟨horder, hnodup, hinv.noNil, hinv.noSelf, fun v hv => ⟨_, hpath v hv⟩⟩
      refine ⟨l, htree, ?_, hinv.vertices, ?_⟩
      · intro x
        rw [sortTree, GoMap.lookup_filterMap, hinv.tree]
        cases findID graph.heap l x <;> rfl
      · intro n i
        rw [hinv.nodeInfo, Option.map_eq_some_iff]
        refine ⟨?_, ?_⟩
        · rintro ⟨v, hv, rfl⟩
          exact ⟨v, _, hv, hpath v (mem_of_findLeaf hv).1, rfl⟩
        · rintro ⟨v, p, hv, hp, rfl⟩
          refine ⟨v, hv, ?_⟩
          rw [htree.path_unique (hpath v (mem_of_findLeaf hv).1) hp]

end Topograph.Translate
