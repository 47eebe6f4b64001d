import Topograph.Translate.PartitionTree

/-! # What a tree unit holds

The loop of `getTreeTopologyUnit` visits the switches above the selected nodes, each behind its
parent (`treeUnitLoop_eq`), and a line lists the children that lead to a selected node
(`LineOf`). -/

namespace Topograph.Translate

open Topograph.Topology

variable {pkg : RegexpPackage} {ρ : Type}

/-- Node names are unique. -/
def NamesUnique (heap : ρ → Vertex (Option ρ)) (root : ρ) : Prop :=
  ∀ v w, AtOrUnder heap root v → AtOrUnder heap root w → IsLeaf heap v → IsLeaf heap w →
    (heap v).name = (heap w).name → v = w

/-! ## The children of a switch -/

section Children

variable (heap : ρ → Vertex (Option ρ)) (selected connects : List String)

/-- The sub-switches that a line lists. -/
def lineChildren (ws : List ρ) : List String :=
  ws.filterMap fun w => if ¬ IsLeaf heap w ∧ (heap w).id ∈ connects then some (heap w).id else none

/-- The nodes that a line lists. -/
def lineNodes (ws : List ρ) : List String :=
  ws.filterMap fun w => if IsLeaf heap w ∧ (heap w).name ∈ selected then
    some (heap w).name else none

variable {heap selected connects}

theorem lineChildren_append (ws ws' : List ρ) :
    lineChildren heap connects (ws ++ ws') = lineChildren heap connects ws ++
      lineChildren heap connects ws' :=
  List.filterMap_append ..

theorem lineNodes_append (ws ws' : List ρ) :
    lineNodes heap selected (ws ++ ws') = lineNodes heap selected ws ++
      lineNodes heap selected ws' :=
  List.filterMap_append ..

variable {ws : List ρ}

/-- The switches on a line. -/
theorem mem_lineChildren {x : String} :
    x ∈ lineChildren heap connects ws ↔ ∃ w ∈ ws, ¬ IsLeaf heap w ∧ (heap w).id = x ∧
    x ∈ connects := by
  rw [lineChildren, List.mem_filterMap]
  constructor
  · rintro ⟨w, hw, hx⟩
    split_ifs at hx with hcond
    obtain rfl := Option.some.inj hx
    exact ⟨w, hw, hcond.1, rfl, hcond.2⟩
  · rintro ⟨w, hw, hleaf, rfl, hx⟩
    exact ⟨w, hw, if_pos ⟨hleaf, hx⟩⟩

/-- The nodes on a line. -/
theorem mem_lineNodes {n : String} :
    n ∈ lineNodes heap selected ws ↔ ∃ w ∈ ws, IsLeaf heap w ∧
    (heap w).name = n ∧ n ∈ selected := by
  rw [lineNodes, List.mem_filterMap]
  constructor
  · rintro ⟨w, hw, hx⟩
    split_ifs at hx with hcond
    obtain rfl := Option.some.inj hx
    exact ⟨w, hw, hcond.1, rfl, hcond.2⟩
  · rintro ⟨w, hw, hleaf, rfl, hx⟩
    exact ⟨w, hw, if_pos ⟨hleaf, hx⟩⟩

/-- One child. -/
theorem recordChild_fst (vID : String) (st : Switch × GoMap String (List String)) (w : ρ) :
    (recordChild heap selected connects vID st w).1 =
      { name := st.1.name, children := st.1.children ++ lineChildren heap connects [w]
        nodes := st.1.nodes ++ lineNodes heap selected [w] } := by
  rw [recordChild, lineChildren, lineNodes]
  by_cases hleaf : IsLeaf heap w
  · by_cases hsel : (heap w).name ∈ selected
    · simp [show (heap w).vertices.entries = [] from hleaf, IsLeaf, hsel]
    · simp [show (heap w).vertices.entries = [] from hleaf, IsLeaf, hsel]
  · by_cases hconn : (heap w).id ∈ connects
    · simp [show ¬ (heap w).vertices.entries = [] from hleaf, IsLeaf, hconn]
    · simp [show ¬ (heap w).vertices.entries = [] from hleaf, IsLeaf, hconn]

/-- **The loop over the children** fills the lists of the line. -/
theorem foldl_recordChild_fst (selected connects : List String) (vID : String) (ws : List ρ)
    (st : Switch × GoMap String (List String)) :
    (ws.foldl (recordChild heap selected connects vID) st).1 =
      { name := st.1.name, children := st.1.children ++ lineChildren heap connects ws
        nodes := st.1.nodes ++ lineNodes heap selected ws } := by
  induction ws generalizing st with
  | nil => simp [lineChildren, lineNodes]
  | cons w ws ih =>
    rw [List.foldl_cons, ih, recordChild_fst, List.append_assoc, List.append_assoc,
      ← lineChildren_append, ← lineNodes_append,
      List.singleton_append]

end Children

/-! ## The loop as a fold over what it visits -/

/-- What the loop does at an ID. -/
def visitEntry (heap : ρ → Vertex (Option ρ)) (nt : NetworkTopology pkg ρ) (selected : List String)
    (tree : GoMap String (List String)) (st : TreeTopo) (id : String) : TreeTopo :=
  (tree.lookup id).elim st fun connects => visitID heap nt selected connects id st

/-- The loop visits entries breadth-first. -/
theorem treeUnitLoop_eq (heap : ρ → Vertex (Option ρ)) (nt : NetworkTopology pkg ρ)
    (selected : List String) (tree : GoMap String (List String)) (fuel : Nat)
    (visited queue : List String) (st : TreeTopo) :
    treeUnitLoop heap nt selected tree fuel visited queue st =
      (visitOrder (fun id => (tree.lookup id).getD []) fuel visited queue).map fun out =>
        out.foldl (visitEntry heap nt selected tree) st := by
  induction fuel generalizing visited queue st with
  | zero => rfl
  | succ fuel ih =>
    cases queue with
    | nil => rfl
    | cons id queue =>
      rw [treeUnitLoop, visitOrder]
      split_ifs with hid
      · exact ih ..
      · rw [Option.map_map]
        cases hlook : tree.lookup id with
        | none =>
          rw [Option.getD_none, List.append_nil]
          show treeUnitLoop heap nt selected tree fuel (id :: visited) queue st = _
          rw [ih]
          congr 1
          funext out
          rw [Function.comp_apply, List.foldl_cons, visitEntry, hlook, Option.elim_none]
        | some connects =>
          rw [Option.getD_some]
          show treeUnitLoop heap nt selected tree fuel (id :: visited) (queue ++ connects)
            (visitID heap nt selected connects id st) = _
          rw [ih]
          congr 1
          funext out
          rw [Function.comp_apply, List.foldl_cons, visitEntry, hlook, Option.elim_some]

/-! ## The invariant -/

section Unit

variable {g : Graph ρ} {root : ρ} {l : List ρ} {nt : NetworkTopology pkg ρ}

/-- The line of a switch: the sub-switches that lead to a target, and the selected nodes. -/
structure LineOf (heap : ρ → Vertex (Option ρ)) (ids selected : List String) (v : ρ) (sw : Switch) :
    Prop where
  name : sw.name = (heap v).id
  children : ∀ x, x ∈ sw.children ↔
    ∃ w ∈ childList heap v, ¬ IsLeaf heap w ∧ (heap w).id = x ∧ Needed heap ids w
  nodes : ∀ n, n ∈ sw.nodes ↔ ∃ w ∈ childList heap v, IsLeaf heap w ∧
    (heap w).name = n ∧ n ∈ selected

/-- The line that the loop writes for a switch. -/
def unitLine (heap : ρ → Vertex (Option ρ)) (selected connects : List String) (v : ρ) : Switch where
  name := (heap v).id
  children := lineChildren heap connects (childList heap v)
  nodes := lineNodes heap selected (childList heap v)

/-- **What the visit of a switch writes**: its line, unless it is empty. -/
theorem switches_visitSwitch (heap : ρ → Vertex (Option ρ)) (selected connects : List String)
    (v : ρ) (st : TreeTopo) :
    (visitSwitch heap selected connects (heap v) st).switches = st.switches ++
      if (unitLine heap selected connects v).children ≠ [] ∨
        (unitLine heap selected connects v).nodes ≠ [] then
        [unitLine heap selected connects v]
      else [] := by
  have hline : ((childList heap v).foldl (recordChild heap selected connects (heap v).id)
      ({ name := (heap v).id, children := [], nodes := [] }, st.parents)).1 =
        unitLine heap selected connects v := by
    rw [foldl_recordChild_fst, List.nil_append, List.nil_append]
    rfl
  show (if ((childList heap v).foldl (recordChild heap selected connects (heap v).id)
      _).1.children ≠ [] ∨
      ((childList heap v).foldl (recordChild heap selected connects (heap v).id) _).1.nodes ≠ []
    then st.switches ++
      [((childList heap v).foldl (recordChild heap selected connects (heap v).id) _).1]
    else st.switches) = _
  rw [hline]
  split_ifs
  · rfl
  · exact (List.append_nil _).symm

variable {v : ρ}

theorem lineOf_unitLine (ht : IsTree g.heap root l) {ids selected connects : List String}
    (hv : v ∈ l)
    (hconnects : ∀ y, y ∈ connects ↔ ∃ w ∈ childList g.heap v, (g.heap w).id = y ∧
      Needed g.heap ids w) :
    LineOf g.heap ids selected v (unitLine g.heap selected connects v) where
  name := rfl
  nodes _ := mem_lineNodes
  children x := by
    rw [unitLine, mem_lineChildren]
    constructor
    · rintro ⟨w, hw, hleaf, rfl, hx⟩
      obtain ⟨w', hw', hid, hneed⟩ := (hconnects _).mp hx
      obtain rfl := ht.eq_of_id (ht.child_mem hv hw') (ht.child_mem hv hw) hid
      exact ⟨w', hw, hleaf, rfl, hneed⟩
    · rintro ⟨w, hw, hleaf, rfl, hneed⟩
      exact ⟨w, hw, hleaf, rfl, (hconnects _).mpr ⟨w, hw, rfl, hneed⟩⟩

variable {heap : ρ → Vertex (Option ρ)}

theorem not_leaf_of_child {v w : ρ} (hw : w ∈ childList g.heap v) : ¬ IsLeaf g.heap v := by
  intro hleaf
  rw [childList, show (g.heap v).vertices.entries = [] from hleaf] at hw
  exact absurd hw List.not_mem_nil

variable {ids selected pre : List String} {st : TreeTopo} {p : List ρ}

variable {tree : GoMap String (List String)}

/-- The switch that queued an ID is the parent of its vertex. -/
theorem PartitionOf.parent {ids : List String} (hpart : PartitionOf g.heap l ids tree)
    (ht : IsTree g.heap root l) {u v : ρ} (hu : u ∈ l) (hv : v ∈ childList g.heap u) {y : String}
    (hy : (g.heap v).id ∈ (tree.lookup y).getD []) :
    (g.heap u).id = y := by
  cases hlook : tree.lookup y with
  | none =>
    rw [hlook, Option.getD_none] at hy
    exact absurd hy List.not_mem_nil
  | some connects =>
    rw [hlook, Option.getD_some] at hy
    obtain ⟨u', hu', rfl, -, hconnects⟩ := hpart.lookup y connects hlook
    obtain ⟨w, hw, hid, -⟩ := (hconnects _).mp hy
    obtain rfl := ht.eq_of_id (ht.child_mem hu' hw) (ht.child_mem hu hv) hid
    rw [ht.parent_unique hu hu' hv hw]

section

variable (ht : TreeOf g.heap root l nt) (hk : g.Keyed) (htiers : g.tiers = some root)

include ht hk htiers

/-- Every switch with a target below it is visited. -/
theorem mem_of_branches {ids out : List String} (hpart : PartitionOf g.heap l ids tree)
    (hout : VisitOrder (fun id => (tree.lookup id).getD []) [] [""] out)
    (hp : SwitchPath g.heap root v p) (hneed : Needed g.heap ids v) : (g.heap v).id ∈ out := by
  have hstep : ∀ u ∈ l, (g.heap u).id ∈ out → ∀ w ∈ childList g.heap u, Needed g.heap ids w →
      (g.heap w).id ∈ out := by
    intro u hu huout w hw hneed
    obtain ⟨connects, hlook⟩ := Option.isSome_iff_exists.mp (hpart.isSome u hu ⟨w, hw, hneed⟩)
    obtain ⟨u', hu', hid, -, hconnects⟩ := hpart.lookup _ connects hlook
    obtain rfl := ht.eq_of_id hu' hu hid
    refine (hout.closed _ huout _ ?_).resolve_left List.not_mem_nil
    rw [hlook, Option.getD_some]
    exact (hconnects _).mpr ⟨w, hw, rfl, hneed⟩
  induction hp with
  | top hw =>
    refine hstep root ht.root_mem ?_ _ hw hneed
    rw [hk.root root htiers]
    exact (hout.queued "" List.mem_cons_self).resolve_left List.not_mem_nil
  | under hu hw ih =>
    have hparent := ih (Branches.needed ⟨_, hw, hneed⟩)
    exact hstep _ (hu.mem ht.toIsTree) hparent _ hw hneed

/-- **The loop comes to an end**: it queues no more than the tree has. -/
theorem exists_treeUnitLoop {fuel : Nat} {ids : List String}
    (h : getPartitionTree nt fuel ids = some tree)
    (hfuel : 1 + pending (nextIDs nt false) [] (l.map fun v => (g.heap v).id) < fuel)
    (selected : List String) (st : TreeTopo) :
    ∃ st', treeUnitLoop g.heap nt selected tree fuel [] [""] st = some st' := by
  have hpart := partitionOf ht hk htiers h
  have hlen : ∀ x, ((tree.lookup x).getD []).length ≤ (nextIDs nt false x).length := by
    intro x
    obtain ⟨required, -, rfl⟩ := Option.map_eq_some_iff.mp h
    rw [buildSubTree, GoMap.lookup_filterMap]
    show _ ≤ ((nt.tree.lookup x).getD []).length
    cases nt.tree.lookup x with
    | none => exact Nat.le_refl 0
    | some children =>
      rw [Option.bind_some]
      split_ifs
      · exact List.length_filter_le _ _
      · exact Nat.zero_le _
  have hle := pending_mono hlen [] (l.map fun v => (g.heap v).id)
  obtain ⟨out, hout⟩ :
      ∃ out, visitOrder (fun id => (tree.lookup id).getD []) fuel [] [""] = some out := by
    have hclosed : ∀ x ∈ l.map (fun v => (g.heap v).id), ∀ y ∈ (tree.lookup x).getD [],
        y ∈ l.map fun v => (g.heap v).id := by
      intro x _ y hy
      cases hlook : tree.lookup x with
      | none =>
        rw [hlook, Option.getD_none] at hy
        exact absurd hy List.not_mem_nil
      | some connects =>
        rw [hlook, Option.getD_some] at hy
        obtain ⟨v, hv, -, -, hconnects⟩ := hpart.lookup x connects hlook
        obtain ⟨w, hw, rfl, -⟩ := (hconnects y).mp hy
        exact List.mem_map.mpr ⟨w, ht.child_mem hv hw, rfl⟩
    refine exists_visitOrder_of_lt hclosed ?_ ?_
    · intro x hx
      rw [List.mem_singleton.mp hx]
      exact List.mem_map.mpr ⟨root, ht.root_mem, hk.root root htiers⟩
    · rw [List.length_singleton]
      omega
  exact ⟨_, by rw [treeUnitLoop_eq, hout, Option.map_some]⟩

end

/-! ## Selected nodes -/

variable {w : ρ} {nodeNames : List String}

/-- A selected ID belongs to a node, and the name of the node is selected. -/
theorem selectedIDs_leaf (ht : TreeOf g.heap root l nt) (hw : w ∈ l)
    (h : (g.heap w).id ∈ selectedIDs nt nodeNames) :
    IsLeaf g.heap w ∧ (g.heap w).name ∈ selectedNodes nt nodeNames := by
  obtain ⟨n, hn, hmap⟩ := List.mem_filterMap.mp h
  obtain ⟨info, hinfo, hid⟩ := Option.map_eq_some_iff.mp hmap
  obtain ⟨v, p, hv, -, hinst, -⟩ := ht.nodeInfo n info hinfo
  obtain ⟨hvl, hleaf, rfl⟩ := mem_of_findLeaf hv
  obtain rfl := ht.eq_of_id hvl hw (hinst.symm.trans hid)
  exact ⟨hleaf, List.mem_filter.mpr ⟨hn, by rw [hinfo]; rfl⟩⟩

/-- A needed switch has a needed child. -/
theorem Needed.branches (ht : TreeOf g.heap root l nt) (hw : w ∈ l) (hleaf : ¬ IsLeaf g.heap w)
    (h : Needed g.heap (selectedIDs nt nodeNames) w) :
    Branches g.heap (selectedIDs nt nodeNames) w := by
  obtain ⟨u, hu, hid⟩ := h
  rcases Relation.ReflTransGen.cases_head_iff.mp hu with rfl | ⟨c, hc, hcu⟩
  · exact absurd (selectedIDs_leaf ht hw hid).1 hleaf
  · exact ⟨c, hc, u, hcu, hid⟩

theorem findLeaf_eq_some (ht : IsTree g.heap root l) (hd : NamesUnique g.heap root) (hw : w ∈ l)
    (hleaf : IsLeaf g.heap w) : findLeaf g.heap l (g.heap w).name = some w := by
  cases hfind : findLeaf g.heap l (g.heap w).name with
  | none =>
    have := List.find?_eq_none.mp hfind w (List.mem_reverse.mpr hw)
    simp [hleaf] at this
  | some v =>
    obtain ⟨hv, hvl, hname⟩ := mem_of_findLeaf hfind
    rw [hd v w (exists_under_root ht hv) (exists_under_root ht hw) hvl hleaf hname]

/-- A leaf is known, by its ID. -/
theorem exists_nodeInfo (ht : TreeOf g.heap root l nt) (hd : NamesUnique g.heap root) (hw : w ∈ l)
    (hleaf : IsLeaf g.heap w) :
    ∃ i, nt.nodeInfo.lookup (g.heap w).name = some i ∧ i.instanceID = (g.heap w).id := by
  have hfind := findLeaf_eq_some ht.toIsTree hd hw hleaf
  obtain ⟨i, hi⟩ := Option.isSome_iff_exists.mp (ht.known _ w hfind)
  obtain ⟨v, -, hv, -, hid, -⟩ := ht.nodeInfo _ i hi
  obtain rfl := Option.some.inj (hfind.symm.trans hv)
  exact ⟨i, hi, hid⟩

variable {names : List String}

section

variable (ht : TreeOf g.heap root l nt) (hd : NamesUnique g.heap root)

include ht hd

/-- The selected IDs are those of the selected leaves. -/
theorem mem_selectedIDs (hw : w ∈ l) :
    (g.heap w).id ∈ selectedIDs nt names ↔ IsLeaf g.heap w ∧ (g.heap w).name ∈ names := by
  rw [selectedIDs, List.mem_filterMap]
  constructor
  · rintro ⟨n, hn, hmap⟩
    obtain ⟨i, hi, hid⟩ := Option.map_eq_some_iff.mp hmap
    obtain ⟨v, -, hv, -, hvid, -⟩ := ht.nodeInfo n i hi
    obtain ⟨hvl, hleaf, rfl⟩ := mem_of_findLeaf hv
    obtain rfl := ht.eq_of_id hw hvl (hid.symm.trans hvid)
    exact ⟨hleaf, hn⟩
  · rintro ⟨hleaf, hn⟩
    obtain ⟨i, hi, hid⟩ := exists_nodeInfo ht hd hw hleaf
    exact ⟨_, hn, by rw [hi, Option.map_some, hid]⟩

/-- A node of the tree is selected by its name. -/
theorem mem_selectedNodes
    (hw : w ∈ l) (hleaf : IsLeaf g.heap w) :
    (g.heap w).name ∈ selectedNodes nt names ↔ (g.heap w).name ∈ names := by
  obtain ⟨i, hi, -⟩ := exists_nodeInfo ht hd hw hleaf
  rw [selectedNodes, List.mem_filter, hi]
  simp

/-- A switch is needed when a selected node is under it. -/
theorem needed_selectedIDs (hv : v ∈ l) :
    Needed g.heap (selectedIDs nt names) v ↔
      ∃ u, AtOrUnder g.heap v u ∧ IsLeaf g.heap u ∧ (g.heap u).name ∈ names := by
  constructor
  · rintro ⟨u, hvu, hid⟩
    exact ⟨u, hvu, (mem_selectedIDs ht hd (hvu.mem ht.toIsTree hv)).mp hid⟩
  · rintro ⟨u, hvu, hu⟩
    exact ⟨u, hvu, (mem_selectedIDs ht hd (AtOrUnder.mem ht.toIsTree hv hvu)).mpr hu⟩

end

/-- A needed node is selected. -/
theorem needed_leaf (ht : TreeOf g.heap root l nt) (hw : w ∈ l) (hleaf : IsLeaf g.heap w)
    (h : Needed g.heap (selectedIDs nt nodeNames) w) :
    (g.heap w).name ∈ selectedNodes nt nodeNames := by
  obtain ⟨u, hwu, hid⟩ := h
  rcases Relation.ReflTransGen.cases_head hwu with rfl | ⟨c, hc, -⟩
  · exact (selectedIDs_leaf ht hw hid).2
  · exact absurd hleaf (not_leaf_of_child hc)

/-! ## The unit -/

/-- A listed node lies at or below the vertex. -/
def HasListed (heap : ρ → Vertex (Option ρ)) (names : List String) (v : ρ) : Prop :=
  ∃ u, AtOrUnder heap v u ∧ IsLeaf heap u ∧ (heap u).name ∈ names

variable {spec : TopologySpec pkg} {topoName : String} {tu : TopologyUnit} {fuel : Nat}

/-- The outcomes of `getTreeTopologyUnit`: a flat unit when no switch has a listed node below it, or
the result of the loop. -/
theorem getTreeTopologyUnit_cases
    (h : getTreeTopologyUnit heap nt fuel topoName spec = some (.ok tu)) :
    tu.name = topoName ∧ tu.block = none ∧
    ∃ names tree, Cluset.expandWithLimit spec.nodes = .ok names ∧
      getPartitionTree nt fuel (selectedIDs nt names) = some tree ∧
      (tu.tree = none ∧ tree.entries = [] ∨
        ∃ st, tu.tree = some st ∧ treeUnitLoop heap nt (selectedNodes nt names) tree fuel [] [""]
          { switches := [], parents := ∅, topLevel := [] } = some st) := by
  unfold getTreeTopologyUnit at h
  split at h
  · exact absurd (Option.some.inj h) (by simp)
  · rename_i names hnames
    obtain ⟨tree, htree, h⟩ := Option.bind_eq_some_iff.mp h
    split_ifs at h with hempty
    · obtain rfl := Except.ok.inj (Option.some.inj h)
      exact ⟨rfl, rfl, names, tree, hnames, htree, Or.inl ⟨rfl, hempty⟩⟩
    · obtain ⟨st, hst, htu⟩ := Option.map_eq_some_iff.mp h
      obtain rfl := Except.ok.inj htu
      exact ⟨rfl, rfl, names, tree, hnames, htree, Or.inr ⟨st, rfl, hst⟩⟩

/-- `getTreeTopologyUnit` returns once the fuel is enough for both walks, and with a unit if the
nodes can be expanded. -/
theorem exists_getTreeTopologyUnit (ht : TreeOf g.heap root l nt) (hk : g.Keyed)
    (htiers : g.tiers = some root) :
    ∃ enough, ∀ fuel ≥ enough, ∀ topoName (spec : TopologySpec pkg), ∃ r, getTreeTopologyUnit g.heap
      nt fuel topoName spec = some r ∧
      ∀ names, Cluset.expandWithLimit spec.nodes = .ok names → ∃ tu, r = .ok tu := by
  refine ⟨1 + pending (nextIDs nt false) [] (l.map fun v => (g.heap v).id) + l.length + 1,
    fun fuel hfuel topoName spec => ?_⟩
  unfold getTreeTopologyUnit
  split
  · rename_i err herr
    exact ⟨_, rfl, fun names hnames => absurd (herr.symm.trans hnames) (by simp)⟩
  · rename_i names _
    obtain ⟨tree, htree⟩ :=
      exists_getPartitionTree ht hk htiers (selectedIDs nt names) (show l.length < fuel by omega)
    rw [htree, Option.bind_some]
    split_ifs
    · exact ⟨_, rfl, fun _ _ => ⟨_, rfl⟩⟩
    · obtain ⟨st, hst⟩ := exists_treeUnitLoop ht hk htiers htree (by omega) (selectedNodes nt names)
        { switches := [], parents := ∅, topLevel := [] }
      rw [hst, Option.map_some]
      exact ⟨_, rfl, fun _ _ => ⟨_, rfl⟩⟩

end Unit

/-- The vertices of a switch with two nodes. -/
inductive Corner where
  | top | switch | first | second
  deriving DecidableEq

/-- The switch `S1` with the nodes `n1` and `n2`. -/
def twoNodes : Graph Corner where
  heap
    | .top =>
      { name := "", id := "",
        vertices := (∅ : GoMap String (Option Corner)).insert "S1" (some .switch) }
    | .switch =>
      { name := "", id := "S1"
        vertices := ((∅ : GoMap String (Option Corner)).insert "i2" (some .second)).insert "i1"
          (some .first) }
    | .first => { name := "n1", id := "i1", vertices := ∅ }
    | .second => { name := "n2", id := "i2", vertices := ∅ }
  tiers := some .top
  domains := none

/-- A tree topology `p1` for the given nodes. -/
def treePartition (nodes : List String) : Config noRegexp where
  plugin := ""
  blockSizes := []
  blockName := none
  topologies := (∅ : GoMap String (TopologySpec noRegexp)).insert "p1"
    { plugin := topologyTree, blockSizes := [], blockName := none, clusterDefault := true,
      nodes := nodes }

theorem twoNodes_keyed : twoNodes.Keyed where
  root r hr := by
    obtain rfl : Corner.top = r := Option.some.inj hr
    rfl
  child v key w h := by
    have hentry := GoMap.lookup_eq_some_iff.mp h
    cases v with
    | top =>
      obtain ⟨rfl, rfl⟩ : key = "S1" ∧ w = .switch := by simpa [twoNodes] using hentry
      rfl
    | switch =>
      have hcases : (⟨key, some w⟩ : Σ _ : String, Option Corner) ∈
          [⟨"i1", some .first⟩, ⟨"i2", some .second⟩] := hentry
      obtain ⟨rfl, rfl⟩ | ⟨rfl, rfl⟩ : key = "i1" ∧ w = .first ∨ key = "i2" ∧ w = .second := by
        simpa using hcases
      · rfl
      · rfl
    | first => simp [twoNodes] at hentry
    | second => simp [twoNodes] at hentry

theorem twoNodes_namesUnique : NamesUnique twoNodes.heap .top := by
  intro v w _ _ hv hw hname
  cases v <;> cases w
  all_goals
    first | rfl | exact absurd hname (by decide) | exact absurd hv (by decide)

end Topograph.Translate
