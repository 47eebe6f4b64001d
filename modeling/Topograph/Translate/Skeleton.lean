import Topograph.Translate.Treeness
import Topograph.Translate.TreeUnit

/-! # Skeleton output

A skeleton declares the top-level switches by name and nothing else. What it contains is read off
from the children of the root (`toTreeTopology` with `skeletonOnly`), or from the top-level switches
above the nodes of a partition (`copySkeleton`); whatever lies below has no influence. -/

namespace Topograph.Translate

open Topograph.Topology

variable {pkg : RegexpPackage} {ρ : Type}

/-- Lists in order with the same elements, none twice, are equal. -/
theorem eq_of_mem_iff {l l' : List String} (hl : l.Pairwise (· ≤ ·)) (hl' : l'.Pairwise (· ≤ ·))
    (hnodup : l.Nodup) (hnodup' : l'.Nodup) (h : ∀ x, x ∈ l ↔ x ∈ l') : l = l' :=
  ((List.perm_ext_iff_of_nodup hnodup hnodup').mpr h).eq_of_pairwise' hl hl'

theorem flatMap_ite_singleton {α : Type} (l : List α) (p : α → Prop) [DecidablePred p] :
    (l.flatMap fun x => if p x then [x] else []) = l.filter p := by
  induction l with
  | nil => rfl
  | cons x l ih =>
    rw [List.flatMap_cons, ih, List.filter_cons]
    by_cases hx : p x <;> simp [hx]

/-! ## The whole cluster -/

section Cluster

variable {g : Graph ρ} {root : ρ} {l : List ρ} {nt : NetworkTopology pkg ρ}

/-- The IDs of the children of a vertex, in order. -/
def childIDs (heap : ρ → Vertex (Option ρ)) (v : ρ) : List String :=
  (heap v).vertices.keys.insertionSort (· ≤ ·)

theorem childIDs_pairwise (heap : ρ → Vertex (Option ρ)) (v : ρ) :
    (childIDs heap v).Pairwise (· ≤ ·) :=
  List.pairwise_insertionSort _ _

theorem childIDs_nodup (heap : ρ → Vertex (Option ρ)) (v : ρ) : (childIDs heap v).Nodup :=
  (List.perm_insertionSort _ _).nodup_iff.mpr (heap v).vertices.nodupKeys

/-- The tree lists the IDs of the children. -/
theorem lookup_tree (ht : TreeOf g.heap root l nt) {v : ρ} (hv : v ∈ l) :
    nt.tree.lookup (g.heap v).id = some (childIDs g.heap v) := by
  rw [ht.tree, ht.toIsTree.findID_eq_some hv]
  rfl

theorem mem_childIDs (ht : TreeOf g.heap root l nt) (hk : g.Keyed) {v : ρ} (hv : v ∈ l)
    {x : String} : x ∈ childIDs g.heap v ↔ ∃ w ∈ childList g.heap v, (g.heap w).id = x := by
  have h := lookup_tree_getD ht hk hv (x := x)
  rwa [lookup_tree ht hv] at h

/-- The loop over top-level IDs: each is written once, and nothing is queued. -/
theorem treeLinesLoop_skeleton (heap : ρ → Vertex (Option ρ)) (nt : NetworkTopology pkg ρ)
    {ids : List String} (hnodup : ids.Nodup) {visited : List String}
    (hfresh : ∀ id ∈ ids, id ∉ visited) (hne : ∀ id ∈ ids, id ≠ "")
    (hvertex : ∀ id ∈ ids, (nt.vertices.lookup id).isSome) (fuel : Nat) :
    treeLinesLoop heap nt true fuel visited ids =
      if ids.length < fuel then
        some (.ok (ids.flatMap fun id => (nt.vertices.lookup id).elim [] fun v =>
          writeVertex heap true (heap v)))
      else none := by
  induction ids generalizing visited fuel with
  | nil =>
    cases fuel with
    | zero => rfl
    | succ fuel => simp [treeLinesLoop]
  | cons id ids ih =>
    obtain ⟨hid, hnodup⟩ := List.nodup_cons.mp hnodup
    obtain ⟨hidv, hfresh⟩ := List.forall_mem_cons.mp hfresh
    obtain ⟨hidne, hne⟩ := List.forall_mem_cons.mp hne
    obtain ⟨hidvertex, hvertex⟩ := List.forall_mem_cons.mp hvertex
    obtain ⟨v, hv⟩ := Option.isSome_iff_exists.mp hidvertex
    cases fuel with
    | zero => rfl
    | succ fuel =>
      have hfresh' : ∀ x ∈ ids, x ∉ id :: visited := by
        intro x hx
        rw [List.mem_cons, not_or]
        exact ⟨fun heq => hid (heq ▸ hx), hfresh x hx⟩
      have hrest := ih hnodup hfresh' hne hvertex fuel
      rw [treeLinesLoop, if_neg hidv, hv]
      simp only [nextIDs, hidne, ne_eq, not_false_eq_true, and_self, if_true,
        List.append_nil, hrest,
        List.length_cons, Nat.add_lt_add_iff_right]
      split_ifs
      · simp [hv, Except.map]
      · rfl

/-- **The skeleton of a cluster**: a line for every child of the root, in the order of the IDs. -/
theorem toTreeTopology_skeleton (ht : TreeOf g.heap root l nt) (hk : g.Keyed)
    (htiers : g.tiers = some root) (fuel : Nat) :
    toTreeTopology g.heap nt true fuel =
      if (childIDs g.heap root).length + 1 < fuel then
        some (.ok ((childIDs g.heap root).flatMap fun id =>
          (findID g.heap l id).elim [] fun v => writeVertex g.heap true (g.heap v)))
      else none := by
  have hroot := hk.root root htiers
  have hchild : ∀ id ∈ childIDs g.heap root, ∃ w ∈ l, w ≠ root ∧ (g.heap w).id = id := by
    intro id hid
    obtain ⟨w, hw, rfl⟩ := (mem_childIDs ht hk ht.root_mem).mp hid
    exact ⟨w, ht.child_mem ht.root_mem hw, fun heq => ht.root_not_child ht.root_mem (heq ▸ hw), rfl⟩
  have hne : ∀ id ∈ childIDs g.heap root, id ≠ "" := by
    intro id hid
    obtain ⟨w, hw, hwr, rfl⟩ := hchild id hid
    exact id_ne_empty ht.toIsTree hroot hw hwr
  have hvertex : ∀ id ∈ childIDs g.heap root, (nt.vertices.lookup id).isSome := by
    intro id hid
    obtain ⟨w, hw, -, rfl⟩ := hchild id hid
    rw [ht.vertices, ht.toIsTree.findID_eq_some hw, Option.isSome_some]
  have hstart : nt.vertices.lookup "" = some root := by
    rw [ht.vertices, ← hroot, ht.toIsTree.findID_eq_some ht.root_mem]
  have hnext : nextIDs nt true "" = childIDs g.heap root := by
    rw [nextIDs, if_neg (by simp), ← hroot, lookup_tree ht ht.root_mem, Option.getD_some]
  cases fuel with
  | zero => rfl
  | succ fuel =>
    have hfresh : ∀ id ∈ childIDs g.heap root, id ∉ [""] :=
      fun id hid => List.mem_singleton.not.mpr (hne id hid)
    have hloop := treeLinesLoop_skeleton g.heap nt (childIDs_nodup g.heap root) hfresh
      hne hvertex fuel
    rw [toTreeTopology, treeLinesLoop, if_neg List.not_mem_nil, hstart]
    -- The root writes nothing.
    have hwrite : writeVertex g.heap true (g.heap root) = [] := by rw [writeVertex, if_pos hroot]
    simp only [List.nil_append, hnext, hloop, hwrite, Nat.add_lt_add_iff_right, ht.vertices]
    split_ifs
    · rfl
    · rfl

/-- The roots have the same children by ID and name, with the same kind: a switch or a node. -/
def SameTop {ρ' : Type} (heap : ρ → Vertex (Option ρ)) (root : ρ) (heap' : ρ' → Vertex (Option ρ'))
    (root' : ρ') : Prop :=
  ∀ id name kind, (∃ w ∈ childList heap root, (heap w).id = id ∧ (heap w).name = name ∧
    (IsLeaf heap w ↔ kind)) ↔
    ∃ w ∈ childList heap' root', (heap' w).id = id ∧ (heap' w).name = name ∧ (IsLeaf heap' w ↔ kind)

/-- A skeleton line depends on the name, the ID and the kind of a vertex. -/
theorem writeVertex_skeleton_congr {ρ' : Type} {heap : ρ → Vertex (Option ρ)}
    {heap' : ρ' → Vertex (Option ρ')} {v : ρ} {v' : ρ'} (hid : (heap v).id = (heap' v').id)
    (hname : (heap v).name = (heap' v').name) (hleaf : IsLeaf heap v ↔ IsLeaf heap' v') :
    writeVertex heap true (heap v) = writeVertex heap' true (heap' v') := by
  rw [IsLeaf, IsLeaf] at hleaf
  simp only [writeVertex, nameComment, displayName, hid, hname, hleaf, if_true]

/-- **The cluster skeleton is determined by the top.** -/
theorem toTreeTopology_skeleton_congr {ρ' : Type} {g' : Graph ρ'} {root' : ρ'} {l' : List ρ'}
    {nt' : NetworkTopology pkg ρ'} (ht : TreeOf g.heap root l nt) (hk : g.Keyed)
    (htiers : g.tiers = some root) (ht' : TreeOf g'.heap root' l' nt') (hk' : g'.Keyed)
    (htiers' : g'.tiers = some root') (hsame : SameTop g.heap root g'.heap root') (fuel : Nat) :
    toTreeTopology g.heap nt true fuel = toTreeTopology g'.heap nt' true fuel := by
  have hids : childIDs g.heap root = childIDs g'.heap root' := by
    refine eq_of_mem_iff (childIDs_pairwise ..) (childIDs_pairwise ..) (childIDs_nodup ..)
      (childIDs_nodup ..) ?_
    intro x
    rw [mem_childIDs ht hk ht.root_mem, mem_childIDs ht' hk' ht'.root_mem]
    constructor
    · rintro ⟨w, hw, rfl⟩
      obtain ⟨w', hw', hid, -⟩ := (hsame _ _ (IsLeaf g.heap w)).mp ⟨w, hw, rfl, rfl, Iff.rfl⟩
      exact ⟨w', hw', hid⟩
    · rintro ⟨w', hw', rfl⟩
      obtain ⟨w, hw, hid, -⟩ := (hsame _ _ (IsLeaf g'.heap w')).mpr ⟨w', hw', rfl, rfl, Iff.rfl⟩
      exact ⟨w, hw, hid⟩
  have hlines : ∀ id ∈ childIDs g'.heap root',
      ((findID g.heap l id).elim [] fun v => writeVertex g.heap true (g.heap v)) =
        (findID g'.heap l' id).elim [] fun v => writeVertex g'.heap true (g'.heap v) := by
    intro id hid
    obtain ⟨w', hw', rfl⟩ := (mem_childIDs ht' hk' ht'.root_mem).mp hid
    obtain ⟨w, hw, hwid, hname, hleaf⟩ :=
      (hsame _ _ (IsLeaf g'.heap w')).mpr ⟨w', hw', rfl, rfl, Iff.rfl⟩
    rw [ht'.toIsTree.findID_eq_some (ht'.child_mem ht'.root_mem hw'), ← hwid,
      ht.toIsTree.findID_eq_some (ht.child_mem ht.root_mem hw)]
    exact writeVertex_skeleton_congr hwid hname hleaf
  rw [toTreeTopology_skeleton ht hk htiers, toTreeTopology_skeleton ht' hk' htiers', hids,
    List.flatMap_congr hlines]

end Cluster

/-! ## A partition -/

section Partition

variable {g : Graph ρ} {root : ρ} {l : List ρ} {nt : NetworkTopology pkg ρ}
  {ids selected : List String}
  {tree : GoMap String (List String)}

/-- A top-level switch with a known node of the list below it. -/
def TopSwitch (heap : ρ → Vertex (Option ρ)) (root : ρ) (nt : NetworkTopology pkg ρ)
    (nodeNames : List String) (x : String) : Prop :=
  ∃ w ∈ childList heap root, ¬ IsLeaf heap w ∧ (heap w).id = x ∧
  Needed heap (selectedIDs nt nodeNames) w

/-- The lines that the loop writes at an ID. -/
def entryLines (heap : ρ → Vertex (Option ρ)) (nt : NetworkTopology pkg ρ) (selected : List String)
    (tree : GoMap String (List String)) (id : String) : List Switch :=
  match tree.lookup id, nt.vertices.lookup id with
  | some connects, some v =>
    if id ≠ "" ∧ ((unitLine heap selected connects v).children ≠ [] ∨
      (unitLine heap selected connects v).nodes ≠ []) then
      [unitLine heap selected connects v]
    else []
  | _, _ => []

theorem switches_visitEntry (heap : ρ → Vertex (Option ρ)) (nt : NetworkTopology pkg ρ)
    (selected : List String) (tree : GoMap String (List String)) (st : TreeTopo) (id : String) :
    (visitEntry heap nt selected tree st id).switches = st.switches ++
      entryLines heap nt selected tree id := by
  rw [visitEntry, entryLines]
  cases tree.lookup id with
  | none => exact (List.append_nil _).symm
  | some connects =>
    rw [Option.elim_some, visitID]
    by_cases hid : id = ""
    · rw [if_pos hid]
      cases nt.vertices.lookup id <;> simp [hid]
    · rw [if_neg hid]
      cases nt.vertices.lookup id with
      | none => exact (List.append_nil _).symm
      | some v =>
        simp only [switches_visitSwitch, ne_eq, hid, not_false_eq_true, true_and]

/-- The walk writes the lines of its entries in order. -/
theorem switches_foldl_visitEntry (out : List String) (st : TreeTopo) :
    (out.foldl (visitEntry g.heap nt selected tree) st).switches =
      st.switches ++ out.flatMap (entryLines g.heap nt selected tree) := by
  induction out generalizing st with
  | nil => exact (List.append_nil _).symm
  | cons id out ih =>
    rw [List.foldl_cons, ih, switches_visitEntry, List.append_assoc, List.flatMap_cons]

variable {id : String}

/-- Only the root sets the top level. -/
theorem topLevel_visitEntry {st : TreeTopo} (hid : id ≠ "") :
    (visitEntry g.heap nt selected tree st id).topLevel = st.topLevel := by
  rw [visitEntry]
  cases tree.lookup id with
  | none => rfl
  | some connects =>
    rw [Option.elim_some, visitID, if_neg hid]
    cases nt.vertices.lookup id <;> rfl

/-- Only the root sets the top level. -/
theorem topLevel_foldl_visitEntry {out : List String} (hout : "" ∉ out) (st : TreeTopo) :
    (out.foldl (visitEntry g.heap nt selected tree) st).topLevel = st.topLevel := by
  induction out generalizing st with
  | nil => rfl
  | cons id out ih =>
    rw [List.mem_cons, not_or] at hout
    rw [List.foldl_cons, ih hout.2, topLevel_visitEntry (Ne.symm hout.1)]

variable (ht : TreeOf g.heap root l nt)

include ht

/-- A line has the name of its entry. -/
theorem name_entryLines {sw : Switch} (h : sw ∈ entryLines g.heap nt selected tree id) :
    sw.name = id := by
  rw [entryLines] at h
  split at h
  · rename_i connects v _ hv
    split_ifs at h
    · rw [List.mem_singleton.mp h]
      rw [ht.vertices] at hv
      show (g.heap v).id = id
      simpa using List.find?_some hv
    · exact absurd h List.not_mem_nil
  · exact absurd h List.not_mem_nil

/-- At most one line is written at an ID, under its name. -/
theorem map_name_entryLines (id : String) :
    (entryLines g.heap nt selected tree id).map (·.name) = if entryLines g.heap nt selected tree
      id ≠ [] then [id] else [] := by
  have hlen : (entryLines g.heap nt selected tree id).length ≤ 1 := by
    rw [entryLines]
    split
    · split_ifs <;> simp
    · simp
  cases hlines : entryLines g.heap nt selected tree id with
  | nil => simp
  | cons sw rest =>
    have hmem : sw ∈ entryLines g.heap nt selected tree id := by
      rw [hlines]
      exact List.mem_cons_self
    have hname := name_entryLines ht hmem
    rw [hlines, List.length_cons] at hlen
    rw [List.eq_nil_of_length_eq_zero (show rest.length = 0 by omega), if_pos (by simp),
      List.map_singleton, hname]

variable {fuel : Nat}

/-- A partition tree with its root: the needed children of the root, in order. -/
theorem lookup_root (hk : g.Keyed) (htiers : g.tiers = some root)
    (h : getPartitionTree nt fuel ids = some tree) (hb : Branches g.heap ids root) :
    ∃ connects, tree.lookup "" = some connects ∧ connects.Pairwise (· ≤ ·) ∧ connects.Nodup ∧
      ∀ y, y ∈ connects ↔ ∃ w ∈ childList g.heap root, (g.heap w).id = y ∧ Needed g.heap ids w := by
  have hroot := hk.root root htiers
  have hpart := partitionOf ht hk htiers h
  obtain ⟨connects, hlook⟩ := Option.isSome_iff_exists.mp (hpart.isSome root ht.root_mem hb)
  rw [hroot] at hlook
  obtain ⟨v, hv, hid, -, hconnects⟩ := hpart.lookup _ _ hlook
  obtain rfl := ht.eq_of_id hv ht.root_mem (hid.trans hroot.symm)
  obtain ⟨required, -, rfl⟩ := Option.map_eq_some_iff.mp h
  -- The list is a part of the children of the root.
  have hsub : connects.Sublist (childIDs g.heap v) := by
    rw [buildSubTree, GoMap.lookup_filterMap, ← hroot, lookup_tree ht ht.root_mem, Option.bind_some]
      at hlook
    split_ifs at hlook
    rw [← Option.some.inj hlook]
    exact List.filter_sublist
  exact ⟨connects, hlook, (childIDs_pairwise ..).sublist hsub, (childIDs_nodup ..).sublist hsub,
    hconnects⟩

variable {nodeNames : List String}

/-- **A switch with a needed child has a line.** -/
theorem entryLines_of_branches
    (hpart : PartitionOf g.heap l (selectedIDs nt nodeNames) tree) (hroot : (g.heap root).id = "")
    {v : ρ} (hv : v ∈ l) (hne : v ≠ root) (hb : Branches g.heap (selectedIDs nt nodeNames) v) :
    ∃ connects, tree.lookup (g.heap v).id = some connects ∧
      entryLines g.heap nt (selectedNodes nt nodeNames) tree (g.heap v).id =
      [unitLine g.heap (selectedNodes nt nodeNames) connects v] := by
  obtain ⟨connects, hlook⟩ := Option.isSome_iff_exists.mp (hpart.isSome v hv hb)
  obtain ⟨v', hv', hid, -, hconnects⟩ := hpart.lookup _ _ hlook
  obtain rfl := ht.eq_of_id hv' hv hid
  refine ⟨connects, hlook, ?_⟩
  have hvertex : nt.vertices.lookup (g.heap v').id = some v' := by
    rw [ht.vertices, ht.toIsTree.findID_eq_some hv]
  rw [entryLines, hvertex, hlook]
  -- A needed child is on the line.
  have hline : (unitLine g.heap (selectedNodes nt nodeNames) connects v').children ≠ [] ∨
      (unitLine g.heap (selectedNodes nt nodeNames) connects v').nodes ≠ [] := by
    obtain ⟨c, hc, hcneed⟩ := hb
    by_cases hcleaf : IsLeaf g.heap c
    · right
      exact List.ne_nil_of_mem (mem_lineNodes.mpr ⟨c, hc, hcleaf, rfl,
        needed_leaf ht (ht.child_mem hv hc) hcleaf hcneed⟩)
    · left
      exact List.ne_nil_of_mem (mem_lineChildren.mpr ⟨c, hc, hcleaf, rfl,
        (hconnects _).mpr ⟨c, hc, rfl, hcneed⟩⟩)
  simp only [ne_eq, id_ne_empty ht.toIsTree hroot hv hne, not_false_eq_true, true_and, if_pos hline]

omit ht in
/-- Only a switch with a needed child has a line. -/
theorem exists_of_entryLines_ne_nil (hpart : PartitionOf g.heap l ids tree)
    (hroot : (g.heap root).id = "") (h : entryLines g.heap nt selected tree id ≠ []) :
    ∃ v ∈ l, v ≠ root ∧ (g.heap v).id = id ∧ Branches g.heap ids v := by
  rw [entryLines] at h
  split at h
  · rename_i connects _ hlook _
    obtain ⟨v, hv, rfl, hb, -⟩ := hpart.lookup _ _ hlook
    refine ⟨v, hv, ?_, rfl, hb⟩
    rintro rfl
    exact absurd hroot (fun hid => h (if_neg fun hcond => hcond.1 hid))
  · exact absurd rfl h

/-- The switches that stand above nothing that is needed have no line, all others one. -/
theorem entryLines_top (hpart : PartitionOf g.heap l (selectedIDs nt nodeNames) tree)
    (hroot : (g.heap root).id = "") {w : ρ} (hw : w ∈ childList g.heap root)
    (hneed : Needed g.heap (selectedIDs nt nodeNames) w) :
    (entryLines g.heap nt (selectedNodes nt nodeNames) tree (g.heap w).id).map (·.name) =
      if IsLeaf g.heap w then [] else [(g.heap w).id] := by
  have hwl := ht.child_mem ht.root_mem hw
  by_cases hleaf : IsLeaf g.heap w
  · rw [if_pos hleaf, List.map_eq_nil_iff]
    by_contra hne
    obtain ⟨v, hv, -, hid, c, hc, -⟩ := exists_of_entryLines_ne_nil hpart hroot hne
    obtain rfl := ht.eq_of_id hv hwl hid
    exact not_leaf_of_child hc hleaf
  · rw [if_neg hleaf]
    have hroot' : w ≠ root := fun heq => ht.root_not_child ht.root_mem (heq ▸ hw)
    obtain ⟨connects, -, hline⟩ :=
      entryLines_of_branches ht hpart hroot hwl hroot' (hneed.branches ht hwl hleaf)
    rw [hline]
    rfl

/-- What a unit with lines keeps in its skeleton: the lines at the IDs of the top level. -/
theorem map_name_skeleton {connects rest : List String} (hrest : ∀ id ∈ rest, id ∉ connects)
    {st : TreeTopo} (hst : st.switches = (connects ++ rest).flatMap
      (entryLines g.heap nt selected tree))
    (htop : st.topLevel = connects) :
    st.skeleton.switches =
      (connects.flatMap fun id => (entryLines g.heap nt selected tree id).map (·.name)).map
      fun name => { name := name, children := [], nodes := [] } := by
  have hkeep : ∀ id ∈ connects, (entryLines g.heap nt selected tree id).filter (fun sw =>
      sw.name ∈ connects) =
      entryLines g.heap nt selected tree id := by
    intro id hid
    refine List.filter_eq_self.mpr fun sw hsw => ?_
    rw [name_entryLines ht hsw]
    exact decide_eq_true hid
  have hdrop : ∀ id ∈ rest, (entryLines g.heap nt selected tree id).filter (fun sw => sw.name ∈
      connects) = [] := by
    intro id hid
    refine List.filter_eq_nil_iff.mpr fun sw hsw => ?_
    rw [name_entryLines ht hsw]
    simpa using hrest id hid
  rw [TreeTopo.skeleton, hst, htop, List.filter_flatMap, List.flatMap_append,
    List.flatMap_congr hkeep,
    List.flatMap_eq_nil_iff.mpr hdrop, List.append_nil, List.map_flatMap, List.map_flatMap]
  simp only [List.map_map, Function.comp_def]

omit ht in
/-- The loop visits the root first, and its needed children next. -/
theorem visitOrder_root {connects out : List String} (hlook : tree.lookup "" = some connects)
    (hnodup : connects.Nodup) (hempty : "" ∉ connects)
    (hout : visitOrder (fun id => (tree.lookup id).getD []) fuel [] [""] = some out) :
    ∃ rest, out = "" :: (connects ++ rest) ∧ "" ∉ connects ++ rest ∧
    ∀ id ∈ rest, id ∉ connects := by
  obtain ⟨rest, rfl⟩ : ∃ rest, out = "" :: (connects ++ rest) := by
    cases fuel with
    | zero => exact absurd hout (by simp [visitOrder])
    | succ fuel =>
      rw [visitOrder, if_neg List.not_mem_nil, hlook] at hout
      obtain ⟨out', hout', rfl⟩ := Option.map_eq_some_iff.mp hout
      rw [List.nil_append, Option.getD_some, ← List.append_nil connects] at hout'
      obtain ⟨rest, rfl⟩ := visitOrder_append hout' hnodup fun y hy => by
        rw [List.mem_singleton]
        exact fun heq => hempty (heq ▸ hy)
      exact ⟨rest, rfl⟩
  obtain ⟨hfirst, hnodup⟩ := List.nodup_cons.mp (visitOrder_spec hout).nodup
  exact ⟨rest, rfl, hfirst, fun id hid hmem => (List.nodup_append.mp hnodup).2.2 id hmem id hid rfl⟩

/-- One name for every top-level switch that is needed. -/
theorem exists_topNames (hpart : PartitionOf g.heap l (selectedIDs nt nodeNames) tree)
    (hroot : (g.heap root).id = "") {connects : List String} (hconnects : ∀ y, y ∈ connects ↔
      ∃ w ∈ childList g.heap root, (g.heap w).id = y ∧ Needed g.heap (selectedIDs nt nodeNames) w) :
    ∃ names, names.Sublist connects ∧ (∀ x, x ∈ names ↔ TopSwitch g.heap root nt nodeNames x) ∧
      (connects.flatMap fun id => (entryLines g.heap nt (selectedNodes nt nodeNames) tree id).map
        (·.name)) = names := by
  refine ⟨_, List.filter_sublist, fun y => ?_,
    (List.flatMap_congr fun id _ => map_name_entryLines ht id).trans (flatMap_ite_singleton ..)⟩
  rw [List.mem_filter, hconnects, decide_eq_true_iff]
  constructor
  · rintro ⟨⟨w, hw, rfl, hneed⟩, hne⟩
    refine ⟨w, hw, fun hleaf => hne ?_, rfl, hneed⟩
    have hline := entryLines_top ht hpart hroot hw hneed
    rw [if_pos hleaf] at hline
    exact List.map_eq_nil_iff.mp hline
  · rintro ⟨w, hw, hleaf, rfl, hneed⟩
    have hline := entryLines_top ht hpart hroot hw hneed
    rw [if_neg hleaf] at hline
    refine ⟨⟨w, hw, rfl, hneed⟩, fun hnil => ?_⟩
    rw [hnil] at hline
    simp at hline

variable {topoSpec : TopologySpec pkg}

/-- **The skeleton of a partition**: the top-level switches above its known nodes, in order. -/
theorem copySkeleton_treeUnit (hk : g.Keyed) (htiers : g.tiers = some root) {topoName : String}
    {tu : TopologyUnit} (hexp : Cluset.expandWithLimit topoSpec.nodes = .ok nodeNames)
    (hne : ∃ x, TopSwitch g.heap root nt nodeNames x)
    (h : getTreeTopologyUnit g.heap nt fuel topoName topoSpec = some (.ok tu)) :
    ∃ names : List String, names.Pairwise (· ≤ ·) ∧ names.Nodup ∧
      (∀ x, x ∈ names ↔ TopSwitch g.heap root nt nodeNames x) ∧
      copySkeleton [tu] =
        [{ name := topoName, clusterDefault := topoSpec.clusterDefault, flat := false
           tree := some
            { switches := names.map fun name => { name := name, children := [], nodes := [] }
              parents := ∅, topLevel := [] }
           block := none }] := by
  have hroot := hk.root root htiers
  obtain ⟨x, w, hw, -, -, hneed⟩ := hne
  rw [getTreeTopologyUnit, hexp] at h
  obtain ⟨tree, htree, h⟩ := Option.bind_eq_some_iff.mp h
  have hpart := partitionOf ht hk htiers htree
  obtain ⟨connects, hlook, hsorted, hnodup, hconnects⟩ :=
    lookup_root ht hk htiers htree ⟨w, hw, hneed⟩
  have hempty : "" ∉ connects := by
    intro hmem
    obtain ⟨u, hu, hid, -⟩ := (hconnects "").mp hmem
    exact id_ne_empty ht.toIsTree hroot (ht.child_mem ht.root_mem hu)
      (fun heq => ht.root_not_child ht.root_mem (heq ▸ hu)) hid
  rw [if_neg fun hnil =>
    absurd ((GoMap.entries_eq_nil_iff.mp hnil "").symm.trans hlook) (by simp)] at h
  obtain ⟨st, hloop, htu⟩ := Option.map_eq_some_iff.mp h
  obtain rfl := Except.ok.inj htu
  rw [treeUnitLoop_eq] at hloop
  obtain ⟨out, hout, rfl⟩ := Option.map_eq_some_iff.mp hloop
  obtain ⟨rest, rfl, hfirst, hrest⟩ := visitOrder_root hlook hnodup hempty hout
  -- The root has no line and sets the top level.
  have hlines : entryLines g.heap nt (selectedNodes nt nodeNames) tree "" = [] := by
    rw [entryLines, hlook]
    cases nt.vertices.lookup "" <;> simp
  have hswitches : (("" :: (connects ++ rest)).foldl
      (visitEntry g.heap nt (selectedNodes nt nodeNames) tree)
      { switches := [], parents := ∅, topLevel := [] }).switches = _ :=
    switches_foldl_visitEntry _ _
  rw [List.nil_append, List.flatMap_cons, hlines, List.nil_append] at hswitches
  have htop : (("" :: (connects ++ rest)).foldl
      (visitEntry g.heap nt (selectedNodes nt nodeNames) tree)
      { switches := [], parents := ∅, topLevel := [] }).topLevel = connects := by
    rw [List.foldl_cons, topLevel_foldl_visitEntry hfirst, visitEntry, hlook, Option.elim_some,
      visitID, if_pos rfl]
  obtain ⟨names, hsub, hmem, hnames⟩ := exists_topNames ht hpart hroot hconnects
  have hskel := map_name_skeleton ht hrest hswitches htop
  rw [hnames] at hskel
  refine ⟨names, hsorted.sublist hsub, hnodup.sublist hsub, hmem, ?_⟩
  rw [← hskel]
  rfl

/-- **The unit is built** for every list of nodes that can be expanded. -/
theorem exists_treeUnit (hk : g.Keyed) (htiers : g.tiers = some root) (topoName : String)
    (hexp : Cluset.expandWithLimit topoSpec.nodes = .ok nodeNames) :
    ∃ enough, ∀ fuel ≥ enough, ∃ tu, getTreeTopologyUnit g.heap nt fuel topoName topoSpec = some
      (.ok tu) := by
  obtain ⟨enough, henough⟩ := exists_getTreeTopologyUnit ht hk htiers
  refine ⟨enough, fun fuel hfuel => ?_⟩
  obtain ⟨r, hr, hok⟩ := henough fuel hfuel topoName topoSpec
  obtain ⟨tu, rfl⟩ := hok nodeNames hexp
  exact ⟨tu, hr⟩

end Partition

/-! ## Both skeletons -/

/-- **Skeletons hide everything below the top tier.** On accepted graphs whose roots have the same
children, `toTreeTopology` writes the same skeleton; and when the known nodes of two node lists lie
under the same top-level switches, at least one, the tree units have the same copies. -/
theorem skeleton_noninterference {ρ' : Type} (g : Graph ρ) (g' : Graph ρ') (cfg cfg' : Config pkg)
    (nt : NetworkTopology pkg ρ) (nt' : NetworkTopology pkg ρ') (root : ρ) (root' : ρ')
    (hnt : Accepts (some g) cfg nt) (hnt' : Accepts (some g') cfg' nt')
    (htiers : g.tiers = some root) (htiers' : g'.tiers = some root') (hk : g.Keyed)
    (hk' : g'.Keyed) :
    (SameTop g.heap root g'.heap root' →
      (∀ fuel, toTreeTopology g.heap nt true fuel = toTreeTopology g'.heap nt' true fuel) ∧
      ∃ fuel lines, toTreeTopology g.heap nt true fuel = some (.ok lines)) ∧
    ∀ topoName (topoSpec topoSpec' : TopologySpec pkg) nodeNames nodeNames',
      topoSpec.clusterDefault = topoSpec'.clusterDefault →
      Cluset.expandWithLimit topoSpec.nodes = .ok nodeNames →
      Cluset.expandWithLimit topoSpec'.nodes = .ok nodeNames' →
      (∃ x, TopSwitch g.heap root nt nodeNames x) →
      (∀ x, TopSwitch g.heap root nt nodeNames x ↔ TopSwitch g'.heap root' nt' nodeNames' x) →
      (∃ fuel tu, getTreeTopologyUnit g.heap nt fuel topoName topoSpec = some (.ok tu)) ∧
      (∃ fuel tu, getTreeTopologyUnit g'.heap nt' fuel topoName topoSpec' = some (.ok tu)) ∧
      ∀ fuel fuel' tu tu', getTreeTopologyUnit g.heap nt fuel topoName topoSpec = some (.ok tu) →
        getTreeTopologyUnit g'.heap nt' fuel' topoName topoSpec' = some (.ok tu') →
          copySkeleton [tu] = copySkeleton [tu'] := by
  obtain ⟨l, ht⟩ := hnt.treeOf htiers
  obtain ⟨l', ht'⟩ := hnt'.treeOf htiers'
  refine ⟨fun hsame => ⟨toTreeTopology_skeleton_congr ht hk htiers ht' hk' htiers' hsame, ?_⟩, ?_⟩
  · exact ⟨(childIDs g.heap root).length + 2, _, by
      rw [toTreeTopology_skeleton ht hk htiers, if_pos (Nat.lt_succ_self _)]⟩
  · intro topoName topoSpec topoSpec' nodeNames nodeNames' hdefault hexp hexp' hne hsame
    refine ⟨(exists_treeUnit ht hk htiers topoName hexp).imp fun fuel h => h fuel le_rfl,
      (exists_treeUnit ht' hk' htiers' topoName hexp').imp fun fuel h => h fuel le_rfl, ?_⟩
    intro fuel fuel' tu tu' h h'
    obtain ⟨names, hsorted, hnodup, hmem, hcopy⟩ := copySkeleton_treeUnit ht hk htiers hexp hne h
    have hne' : ∃ x, TopSwitch g'.heap root' nt' nodeNames' x := hne.imp fun x => (hsame x).mp
    obtain ⟨names', hsorted', hnodup', hmem', hcopy'⟩ :=
      copySkeleton_treeUnit ht' hk' htiers' hexp' hne' h'
    obtain rfl : names = names' := by
      refine eq_of_mem_iff hsorted hsorted' hnodup hnodup' fun x => ?_
      rw [hmem, hmem', hsame]
    rw [hcopy, hcopy', hdefault]

/-- A switch `S1` with one node or with two: the skeletons are the same. -/
theorem oneSwitch_twoNodes_skeleton :
    ∃ nt nt', Accepts (some (oneSwitch "")) (treePlugin noRegexp) nt ∧
    Accepts (some twoNodes) (treePlugin noRegexp) nt' ∧
    (∀ fuel, toTreeTopology (oneSwitch "").heap nt true fuel = toTreeTopology twoNodes.heap
      nt' true fuel) ∧
    ∃ tu tu', getTreeTopologyUnit (oneSwitch "").heap nt 9 "p1" ⟨topologyTree, [], none, true,
      ["n1"]⟩ = some (.ok tu) ∧
      getTreeTopologyUnit twoNodes.heap nt' 9 "p1" ⟨topologyTree, [], none, true, ["n2"]⟩ =
        some (.ok tu') ∧
      copySkeleton [tu] = copySkeleton [tu'] := by
  obtain ⟨nt, hnt, hids, tu, htu⟩ : ∃ nt,
      newNetworkTopology 9 (some (oneSwitch "")) (treePlugin noRegexp) = some (.ok nt) ∧
        selectedIDs nt ["n1"] = ["i1"] ∧ ∃ tu, getTreeTopologyUnit (oneSwitch "").heap nt 9 "p1"
          ⟨topologyTree, [], none, true, ["n1"]⟩ = some (.ok tu) :=
    ⟨_, rfl, rfl, _, rfl⟩
  obtain ⟨nt', hnt', hids', tu', htu'⟩ : ∃ nt,
      newNetworkTopology 9 (some twoNodes) (treePlugin noRegexp) = some (.ok nt) ∧
        selectedIDs nt ["n2"] = ["i2"] ∧ ∃ tu, getTreeTopologyUnit twoNodes.heap nt 9 "p1"
          ⟨topologyTree, [], none, true, ["n2"]⟩ = some (.ok tu) :=
    ⟨_, rfl, rfl, _, rfl⟩
  obtain ⟨hcluster, hpartition⟩ :=
    skeleton_noninterference (oneSwitch "") twoNodes _ _ nt nt' .root .top ⟨9, hnt⟩
    ⟨9, hnt'⟩ rfl rfl (oneSwitch_keyed "") twoNodes_keyed
  have htop : ∀ w ∈ childList (oneSwitch "").heap .root, w = .switch := by decide
  have htop' : ∀ w ∈ childList twoNodes.heap .top, w = .switch := by decide
  have hswitch : TopSwitch (oneSwitch "").heap .root nt ["n1"] "S1" :=
    ⟨.switch, by decide, by decide, rfl, .node, .single (by decide), by rw [hids]; decide⟩
  have hswitch' : TopSwitch twoNodes.heap .top nt' ["n2"] "S1" :=
    ⟨.switch, by decide, by decide, rfl, .second, .single (by decide), by rw [hids']; decide⟩
  refine ⟨nt, nt', ⟨9, hnt⟩, ⟨9, hnt'⟩, (hcluster ?_).1, tu, tu', htu, htu', ?_⟩
  · intro id name kind
    constructor
    · rintro ⟨w, hw, rfl, rfl, hkind⟩
      obtain rfl := htop w hw
      exact ⟨.switch, by decide, rfl, rfl, by rw [← hkind]; decide⟩
    · rintro ⟨w, hw, rfl, rfl, hkind⟩
      obtain rfl := htop' w hw
      exact ⟨.switch, by decide, rfl, rfl, by rw [← hkind]; decide⟩
  · refine (hpartition "p1" ⟨topologyTree, [], none, true, ["n1"]⟩ ⟨topologyTree, [], none, true,
      ["n2"]⟩ ["n1"] ["n2"]
      rfl rfl rfl ⟨"S1", hswitch⟩ fun x => ?_).2.2 9 9 tu tu' htu htu'
    constructor
    · rintro ⟨w, hw, -, rfl, -⟩
      obtain rfl := htop w hw
      exact hswitch'
    · rintro ⟨w, hw, -, rfl, -⟩
      obtain rfl := htop' w hw
      exact hswitch

/-- **A root with an ID has no skeleton**: below roots with and without an ID stands the same switch
`s1`, and only the second one is written. -/
theorem namedRoot_skeleton_fails :
    ∃ nt nt', Accepts (some (chainGraph "" "s1")) (treePlugin noRegexp) nt ∧
    Accepts (some (chainGraph "r" "s1")) (treePlugin noRegexp) nt' ∧
    SameTop (chainGraph "" "s1").heap none (chainGraph "r" "s1").heap none ∧
    toTreeTopology (chainGraph "" "s1").heap nt true 5 = some (.ok [⟨"", "s1", [], []⟩]) ∧
    toTreeTopology (chainGraph "r" "s1").heap nt' true 5 =
      some (.error ⟨502, "missing vertex with ID " ++ goQuote ""⟩) := by
  obtain ⟨nt, hnt, hlines⟩ : ∃ nt,
      newNetworkTopology 5 (some (chainGraph "" "s1")) (treePlugin noRegexp) = some (.ok nt) ∧
        toTreeTopology (chainGraph "" "s1").heap nt true 5 = some (.ok [⟨"", "s1", [], []⟩]) :=
        ⟨_, rfl, rfl⟩
  obtain ⟨nt', hnt', herr⟩ : ∃ nt,
      newNetworkTopology 5 (some (chainGraph "r" "s1")) (treePlugin noRegexp) = some (.ok nt) ∧
        toTreeTopology (chainGraph "r" "s1").heap nt true 5 =
          some (.error ⟨502, "missing vertex with ID " ++ goQuote ""⟩) :=
    ⟨_, rfl, rfl⟩
  have hchild : ∀ r, childList (chainGraph r "s1").heap none = [some false] := fun _ => rfl
  refine ⟨nt, nt', ⟨5, hnt⟩, ⟨5, hnt'⟩, fun id name kind => ?_, hlines, herr⟩
  simp only [hchild, List.mem_singleton, exists_eq_left]
  exact Iff.rfl

end Topograph.Translate
