import Topograph.Translate.Skeleton
import Topograph.Translate.Treeness

/-! # A tree unit restricts the cluster tree

The switches of a partition are those with a listed node below them, every one behind its parent,
with the compacted texts of its own listed nodes and of its emitted sub-switches
(`getTreeTopologyUnit_restricts`). Node names must be unique; that a node may be named like a switch
does no harm, since only the recorded parents are found by name. The walk starts at the empty ID, so
the root must have it. -/

namespace Topograph.Translate

open Topograph.Topology

variable {pkg : RegexpPackage} {ρ : Type} {g : Graph ρ} {root : ρ} {l : List ρ}
  {nt : NetworkTopology pkg ρ}

theorem filterMap_ite_some {α β : Type} (l : List α) (p : α → Prop) [DecidablePred p] (f : α → β) :
    l.filterMap (fun x => if p x then some (f x) else none) = (l.filter p).map f := by
  induction l with
  | nil => rfl
  | cons x l ih =>
    rw [List.filterMap_cons, List.filter_cons, ih]
    by_cases hx : p x <;> simp [hx]

/-- A switch below the root. -/
def SwitchBelow (g : Graph ρ) (v : ρ) : Prop :=
  ¬ IsLeaf g.heap v ∧ ∃ root p, g.tiers = some root ∧ SwitchPath g.heap root v p

/-- `text` is what `Compact` makes of exactly the names in `P`, each taken once; it reads as these
names if the list is kept. -/
def Compacts (srt : Cluset.NumberSort) (P : String → Prop) (text : String) : Prop :=
  ∃ l : List String, l.Nodup ∧ (∀ n, n ∈ l ↔ P n) ∧ text = Cluset.hostList srt l ∧
    (Cluset.Kept srt l → ∀ n, n ∈ Cluset.hosts text ↔ P n)

/-- The host list of different nodes names these nodes. -/
theorem compacts_hostList {P : String → Prop} {l : List String} (hnodup : l.Nodup)
    (hl : ∀ n, n ∈ l ↔ P n) (srt : Cluset.NumberSort) : Compacts srt P (Cluset.hostList srt l) :=
  ⟨l, hnodup, hl, rfl, fun hkept n => (hkept n).trans (hl n)⟩

/-- The emitted switches of a unit are the part of the tree above the listed nodes. -/
structure Restricts (srt : Cluset.NumberSort) (g : Graph ρ) (names : List String)
    (switches : List Switch) : Prop where
  once : (switches.map (·.name)).Nodup
  emitted : ∀ x, x ∈ switches.map (·.name) ↔ ∃ v, SwitchBelow g v ∧ (g.heap v).id = x ∧
    HasListed g.heap names v
  /-- A parent is emitted, and in front. -/
  behind : ∀ u v, SwitchBelow g u → v ∈ childList g.heap u → (g.heap v).id ∈ switches.map (·.name) →
    [(g.heap u).id, (g.heap v).id].Sublist (switches.map (·.name))
  nodes : ∀ sw ∈ switches, ∀ v, SwitchBelow g v → (g.heap v).id = sw.name →
    Compacts srt (fun n => ∃ w ∈ childList g.heap v, IsLeaf g.heap w ∧
      (g.heap w).name = n ∧ n ∈ names)
      (sw.emitted srt).nodes
  children : ∀ sw ∈ switches, ∀ v, SwitchBelow g v → (g.heap v).id = sw.name →
    Compacts srt (fun x => ∃ w ∈ childList g.heap v, ¬ IsLeaf g.heap w ∧ (g.heap w).id = x ∧
      x ∈ switches.map (·.name)) (sw.emitted srt).children

/-- Without a switch above a listed node there is nothing to emit. -/
theorem restricts_nil {srt : Cluset.NumberSort} {names : List String}
    (h : ∀ v, SwitchBelow g v → ¬ HasListed g.heap names v) : Restricts srt g names [] where
  once := List.nodup_nil
  emitted x := by
    constructor
    · exact fun hx => absurd hx List.not_mem_nil
    · rintro ⟨v, hv, -, hlisted⟩
      exact absurd hlisted (h v hv)
  behind _ _ _ _ hv := absurd hv List.not_mem_nil
  nodes _ hsw := absurd hsw List.not_mem_nil
  children _ hsw := absurd hsw List.not_mem_nil

section Lines

variable (ht : TreeOf g.heap root l nt)

include ht

variable {v : ρ}

theorem SwitchBelow.mem (htiers : g.tiers = some root) (h : SwitchBelow g v) :
    v ∈ l ∧ v ≠ root := by
  obtain ⟨-, root', p, hroot, hp⟩ := h
  obtain rfl := Option.some.inj (htiers.symm.trans hroot)
  exact ⟨hp.mem ht.toIsTree, hp.ne_root ht.toIsTree⟩

/-- Every switch but the root is below it. -/
theorem switchBelow_of_mem (htiers : g.tiers = some root) (hv : v ∈ l) (hne : v ≠ root)
    (hleaf : ¬ IsLeaf g.heap v) : SwitchBelow g v := by
  obtain ⟨p, hp⟩ := exists_switchPath ht.toIsTree hv hne
  exact ⟨hleaf, root, p, htiers, hp⟩

/-- The children of a vertex are different, so a line lists none twice. -/
theorem nodup_childList (hv : v ∈ l) : ((childList g.heap v).map fun w => (g.heap w).id).Nodup := by
  have hnodup := ht.nodup
  rw [ht.order, List.map_cons, List.nodup_cons, List.map_flatMap, List.nodup_flatMap] at hnodup
  exact hnodup.2.1 v hv

theorem nodup_lineChildren (hv : v ∈ l) (connects : List String) :
    (lineChildren g.heap connects (childList g.heap v)).Nodup := by
  rw [lineChildren, filterMap_ite_some]
  exact (nodup_childList ht hv).sublist (List.filter_sublist.map _)

theorem nodup_lineNodes (hu : NamesUnique g.heap root) (hv : v ∈ l) (selected : List String) :
    (lineNodes g.heap selected (childList g.heap v)).Nodup := by
  rw [lineNodes, filterMap_ite_some]
  refine List.Nodup.map_on ?_ ((List.Nodup.of_map _ (nodup_childList ht hv)).filter _)
  intro w hw w' hw' hname
  obtain ⟨hw, hleaf⟩ := List.mem_filter.mp hw
  obtain ⟨hw', hleaf'⟩ := List.mem_filter.mp hw'
  exact hu w w' (exists_under_root ht.toIsTree (ht.child_mem hv hw))
    (exists_under_root ht.toIsTree (ht.child_mem hv hw'))
    (of_decide_eq_true hleaf).1 (of_decide_eq_true hleaf').1 hname

variable {names : List String} {tree : GoMap String (List String)}

/-- The line of an emitted switch. -/
theorem exists_unitLine (hpart : PartitionOf g.heap l (selectedIDs nt names) tree)
    (hroot : (g.heap root).id = "") {sw : Switch}
    (hsw : sw ∈ entryLines g.heap nt (selectedNodes nt names) tree (g.heap v).id) (hv : v ∈ l)
    (hne : v ≠ root) :
    ∃ connects, sw = unitLine g.heap (selectedNodes nt names) connects v ∧
      LineOf g.heap (selectedIDs nt names) (selectedNodes nt names) v sw := by
  obtain ⟨v', hv', -, hid, hb⟩ := exists_of_entryLines_ne_nil hpart hroot (List.ne_nil_of_mem hsw)
  obtain rfl := ht.eq_of_id hv' hv hid
  obtain ⟨connects, hlook, hlines⟩ := entryLines_of_branches ht hpart hroot hv hne hb
  obtain ⟨u, hu, huid, -, hconnects⟩ := hpart.lookup _ _ hlook
  obtain rfl := ht.eq_of_id hu hv huid
  rw [hlines, List.mem_singleton] at hsw
  exact ⟨connects, hsw, hsw ▸ lineOf_unitLine ht.toIsTree hv hconnects⟩

/-- A switch has a listed node below it exactly when it has a needed child. -/
theorem hasListed_iff_branches (hu : NamesUnique g.heap root) (hv : v ∈ l)
    (hleaf : ¬ IsLeaf g.heap v) :
    HasListed g.heap names v ↔ Branches g.heap (selectedIDs nt names) v :=
  (needed_selectedIDs ht hu hv).symm.trans ⟨fun h => h.branches ht hv hleaf, Branches.needed⟩

variable {out : List String} (hk : g.Keyed) (htiers : g.tiers = some root)
  (hpart : PartitionOf g.heap l (selectedIDs nt names) tree)
  (hspec : VisitOrder (fun id => (tree.lookup id).getD []) [] [""] out)

include hk htiers hpart hspec

/-- The visited IDs with a line. -/
theorem mem_filter_entryLines (x : String) :
    (x ∈ out.filter fun id => entryLines g.heap nt (selectedNodes nt names) tree id ≠ []) ↔
      ∃ v ∈ l, v ≠ root ∧ (g.heap v).id = x ∧ Branches g.heap (selectedIDs nt names) v := by
  have hroot := hk.root root htiers
  rw [List.mem_filter, decide_eq_true_iff]
  constructor
  · exact fun h => exists_of_entryLines_ne_nil hpart hroot h.2
  · rintro ⟨v, hv, hne, rfl, hb⟩
    obtain ⟨p, hp⟩ := exists_switchPath ht.toIsTree hv hne
    obtain ⟨connects, -, hline⟩ := entryLines_of_branches ht hpart hroot hv hne hb
    exact ⟨mem_of_branches ht hk htiers hpart hspec hp hb.needed, by simp [hline]⟩

/-- An emitted switch stands behind its parent, which put it into the queue. -/
theorem parent_sublist {u v : ρ} (hu : u ∈ l) (hne : u ≠ root) (hv : v ∈ childList g.heap u)
    (hmem : (g.heap v).id ∈ out.filter fun id => entryLines g.heap nt (selectedNodes nt names)
      tree id ≠ []) :
    [(g.heap u).id, (g.heap v).id].Sublist
      (out.filter fun id => entryLines g.heap nt (selectedNodes nt names) tree id ≠ []) := by
  have hroot := hk.root root htiers
  have hvl := ht.child_mem hu hv
  obtain ⟨v', hv', -, hid, hb⟩ := (mem_filter_entryLines ht hk htiers hpart hspec _).mp hmem
  obtain rfl := ht.eq_of_id hv' hvl hid
  have humem := (mem_filter_entryLines ht hk htiers hpart hspec (g.heap u).id).mpr ⟨u, hu, hne, rfl,
    v', hv, hb.needed⟩
  obtain ⟨pre, post, hout⟩ := List.append_of_mem (List.mem_filter.mp hmem).1
  have hpre : (g.heap u).id ∈ pre := by
    rcases hspec.behind pre _ post hout with hq | ⟨y, hy, hnext⟩
    · -- Only the root has no ID, and it is no child.
      obtain rfl := ht.eq_of_id hvl ht.root_mem ((List.mem_singleton.mp hq).trans hroot.symm)
      exact absurd hv (ht.root_not_child hu)
    · rwa [hpart.parent ht.toIsTree hu hv hnext]
  have hsub : [(g.heap u).id, (g.heap v').id].Sublist out := by
    rw [hout]
    exact (List.singleton_sublist.mpr hpre).append (List.singleton_sublist.mpr List.mem_cons_self)
  have hfilter := hsub.filter fun id => entryLines g.heap nt (selectedNodes nt names) tree id ≠ []
  rwa [List.filter_eq_self.mpr] at hfilter
  intro x hx
  simp only [List.mem_cons, List.not_mem_nil, or_false] at hx
  rcases hx with rfl | rfl
  · exact (List.mem_filter.mp humem).2
  · exact (List.mem_filter.mp hmem).2

/-- **The lines of the visited IDs** restrict the tree to the listed nodes. -/
theorem restricts_flatMap (hu : NamesUnique g.heap root) (srt : Cluset.NumberSort) :
    Restricts srt g names (out.flatMap (entryLines g.heap nt (selectedNodes nt names) tree)) := by
  have hroot := hk.root root htiers
  have hnames : (out.flatMap (entryLines g.heap nt (selectedNodes nt names) tree)).map (·.name) =
      out.filter fun id => entryLines g.heap nt (selectedNodes nt names) tree id ≠ [] := by
    rw [List.map_flatMap]
    exact (List.flatMap_congr fun id _ => map_name_entryLines ht id).trans
      (flatMap_ite_singleton ..)
  have hemit := mem_filter_entryLines ht hk htiers hpart hspec
  -- The line with the name of a switch is the line of that switch: IDs are unique.
  have hline : ∀ sw ∈ out.flatMap (entryLines g.heap nt (selectedNodes nt names) tree), ∀ v,
      SwitchBelow g v → (g.heap v).id = sw.name →
      ∃ connects, sw = unitLine g.heap (selectedNodes nt names) connects v ∧
        LineOf g.heap (selectedIDs nt names) (selectedNodes nt names) v sw := by
    intro sw hsw v hv hid
    obtain ⟨hvl, hne⟩ := hv.mem ht htiers
    obtain ⟨x, -, hx⟩ := List.mem_flatMap.mp hsw
    refine exists_unitLine ht hpart hroot ?_ hvl hne
    rwa [hid, name_entryLines ht hx]
  refine ⟨?_, ?_, ?_, ?_, ?_⟩
  · rw [hnames]
    exact hspec.nodup.filter _
  · intro x
    rw [hnames, hemit]
    constructor
    · rintro ⟨v, hv, hne, rfl, hb⟩
      have hleaf : ¬ IsLeaf g.heap v := by
        obtain ⟨w, hw, -⟩ := hb
        exact not_leaf_of_child hw
      exact ⟨v, switchBelow_of_mem ht htiers hv hne hleaf, rfl,
        (hasListed_iff_branches ht hu hv hleaf).mpr hb⟩
    · rintro ⟨v, hv, rfl, hhas⟩
      obtain ⟨hvl, hne⟩ := hv.mem ht htiers
      exact ⟨v, hvl, hne, rfl, (hasListed_iff_branches ht hu hvl hv.1).mp hhas⟩
  · intro u v hsu hv hmem
    obtain ⟨hul, hne⟩ := hsu.mem ht htiers
    rw [hnames] at hmem ⊢
    exact parent_sublist ht hk htiers hpart hspec hul hne hv hmem
  · intro sw hsw v hv hid
    obtain ⟨connects, rfl, hof⟩ := hline sw hsw v hv hid
    obtain ⟨hvl, -⟩ := hv.mem ht htiers
    refine compacts_hostList (nodup_lineNodes ht hu hvl _) (fun n => (hof.nodes n).trans ?_) srt
    refine exists_congr fun w => and_congr_right fun hw => and_congr_right fun hleaf =>
      and_congr_right ?_
    rintro rfl
    exact mem_selectedNodes ht hu (ht.child_mem hvl hw) hleaf
  · intro sw hsw v hv hid
    obtain ⟨connects, rfl, hof⟩ := hline sw hsw v hv hid
    obtain ⟨hvl, -⟩ := hv.mem ht htiers
    refine compacts_hostList (nodup_lineChildren ht hvl _) (fun x => (hof.children x).trans ?_) srt
    rw [hnames]
    refine exists_congr fun w => and_congr_right fun hw => and_congr_right fun hleaf =>
      and_congr_right ?_
    rintro rfl
    have hwl := ht.child_mem hvl hw
    rw [hemit]
    constructor
    · exact fun hneed => ⟨w, hwl, fun heq => ht.root_not_child hvl (heq ▸ hw), rfl,
        hneed.branches ht hwl hleaf⟩
    · rintro ⟨w', hw', -, hid', hb⟩
      obtain rfl := ht.eq_of_id hw' hwl hid'
      exact hb.needed

end Lines

variable {spec : TopologySpec pkg}

/-- Without tiers there is no tree. -/
theorem Accepts.tree_eq_empty {cfg : Config pkg} (h : Accepts (some g) cfg nt)
    (htiers : g.tiers = none) : nt.tree = ∅ ∧ nt.vertices = ∅ := by
  obtain ⟨fuel, config, st, r, -, hst, -, rfl⟩ := h.parts
  simp only [initTree, htiers] at hst
  obtain rfl := Except.ok.inj (Option.some.inj hst)
  exact ⟨rfl, rfl⟩

/-- A unit without a tree is flat. -/
theorem getTreeTopologyUnit_of_tree_empty (htree : nt.tree = ∅) {names : List String}
    (hnames : Cluset.expandWithLimit spec.nodes = .ok names) (heap : ρ → Vertex (Option ρ))
    (fuel : Nat) (topoName : String) :
    getTreeTopologyUnit heap nt (fuel + 1) topoName spec =
      some (.ok { name := topoName, clusterDefault := spec.clusterDefault, flat := true,
                  tree := none, block := none }) := by
  obtain ⟨r, hr⟩ : ∃ r, dfs nt.tree (selectedIDs nt names) (fuel + 1) "" [] = some r := by
    rw [htree]
    exact ⟨_, rfl⟩
  have hpart : getPartitionTree nt (fuel + 1) (selectedIDs nt names) =
      some (buildSubTree nt r.2) := by
    rw [getPartitionTree, findRequiredNodes, hr, Option.map_some, Option.map_some]
  have hempty : (buildSubTree nt r.2).entries = [] := by
    rw [buildSubTree, htree]
    rfl
  simp only [getTreeTopologyUnit, hnames, hpart, Option.bind_some, if_pos hempty]

/-- **`getTreeTopologyUnit` returns a unit** on an accepted graph, once the fuel is large enough. -/
theorem Accepts.exists_treeUnit {cfg : Config pkg} (h : Accepts (some g) cfg nt) (hk : g.Keyed)
    (topoName : String) {names : List String}
    (hnames : Cluset.expandWithLimit spec.nodes = .ok names) :
    ∃ enough, ∀ fuel ≥ enough, ∃ tu, getTreeTopologyUnit g.heap nt fuel topoName spec = some
      (.ok tu) := by
  cases htiers : g.tiers with
  | none =>
    refine ⟨1, fun fuel hfuel => ?_⟩
    obtain ⟨fuel, rfl⟩ : ∃ n, fuel = n + 1 := ⟨fuel - 1, by omega⟩
    exact ⟨_, getTreeTopologyUnit_of_tree_empty (h.tree_eq_empty htiers).1 hnames g.heap
      fuel topoName⟩
  | some root =>
    obtain ⟨l, ht⟩ := h.treeOf htiers
    exact Translate.exists_treeUnit ht hk htiers topoName hnames

/-- **A tree unit restricts the cluster tree to its listed nodes.** -/
theorem getTreeTopologyUnit_restricts {cfg : Config pkg} (h : Accepts (some g) cfg nt)
    (hk : g.Keyed) (hu : ∀ root, g.tiers = some root → NamesUnique g.heap root) (topoName : String)
    (spec : TopologySpec pkg) {names : List String}
    (hnames : Cluset.expandWithLimit spec.nodes = .ok names) (srt : Cluset.NumberSort) :
    ∃ enough, ∀ fuel ≥ enough, ∃ tu, getTreeTopologyUnit g.heap nt fuel topoName spec =
      some (.ok tu) ∧
      tu.block = none ∧ Restricts srt g names ((tu.tree.map (·.switches)).getD []) := by
  obtain ⟨enough, henough⟩ := h.exists_treeUnit hk topoName hnames
  refine ⟨enough, fun fuel hfuel => ?_⟩
  obtain ⟨tu, hr⟩ := henough fuel hfuel
  obtain ⟨-, hblock, names', tree, hnames', htree, hcases⟩ := getTreeTopologyUnit_cases hr
  obtain rfl := Except.ok.inj (hnames.symm.trans hnames')
  refine ⟨tu, hr, hblock, ?_⟩
  cases htiers : g.tiers with
  | none =>
    -- Without tiers there is no switch, and the partition tree is empty.
    have hnone : ∀ v, ¬ SwitchBelow g v := by
      rintro v ⟨-, root, -, hroot, -⟩
      exact absurd (htiers.symm.trans hroot) (by simp)
    rcases hcases with ⟨hflat, -⟩ | ⟨st, hst, -⟩
    · rw [hflat]
      exact restricts_nil fun v hv => absurd hv (hnone v)
    · obtain ⟨fuel, rfl⟩ : ∃ n, fuel = n + 1 := by
        cases fuel with
        | zero => exact absurd htree (by simp [getPartitionTree, findRequiredNodes, dfs])
        | succ fuel => exact ⟨fuel, rfl⟩
      rw [getTreeTopologyUnit_of_tree_empty (h.tree_eq_empty htiers).1 hnames, Option.some_inj,
        Except.ok.injEq] at hr
      rw [← hr] at hst
      exact absurd hst (by simp)
  | some root =>
    obtain ⟨l, ht⟩ := h.treeOf htiers
    have hunique := hu root htiers
    rcases hcases with ⟨hflat, hempty⟩ | ⟨st, hst, hloop⟩
    · -- A switch above a listed node would have an entry.
      rw [hflat]
      refine restricts_nil fun v hv hlisted => ?_
      obtain ⟨hvl, -⟩ := hv.mem ht htiers
      have hsome := (partitionOf ht hk htiers htree).isSome v hvl
        ((hasListed_iff_branches ht hunique hvl hv.1).mp hlisted)
      rw [GoMap.entries_eq_nil_iff.mp hempty] at hsome
      exact absurd hsome (by simp)
    · rw [treeUnitLoop_eq] at hloop
      obtain ⟨out, hout, rfl⟩ := Option.map_eq_some_iff.mp hloop
      rw [hst, Option.map_some, Option.getD_some, switches_foldl_visitEntry]
      exact restricts_flatMap ht hk htiers (partitionOf ht hk htiers htree)
        (visitOrder_spec hout) hunique srt

/-- A tree topology for the given nodes. -/
def treeSpecOf (nodes : List String) : TopologySpec noRegexp where
  plugin := topologyTree
  blockSizes := []
  blockName := none
  clusterDefault := true
  nodes := nodes

theorem twoNodes_restricts : ∃ nt, Accepts (some twoNodes) (treePartition ["n1"]) nt ∧ ∀ srt,
    ∃ enough, ∀ fuel ≥ enough, ∃ tu, getTreeTopologyUnit twoNodes.heap nt fuel "p1"
      (treeSpecOf ["n1"]) = some (.ok tu) ∧
      tu.block = none ∧ Restricts srt twoNodes ["n1"] ((tu.tree.map (·.switches)).getD []) := by
  obtain ⟨nt, hnt⟩ :
      ∃ nt, newNetworkTopology 9 (some twoNodes) (treePartition ["n1"]) = some (.ok nt) := ⟨_, rfl⟩
  refine ⟨nt, ⟨9, hnt⟩, fun srt => getTreeTopologyUnit_restricts ⟨9, hnt⟩ twoNodes_keyed
    ?_ _ _ rfl srt⟩
  intro r htiers
  obtain rfl : .top = r := Option.some.inj htiers
  exact twoNodes_namesUnique

/-- The switch `S1` with the nodes `n` and `n1`. -/
def stemNodes : Graph Corner where
  heap
    | .first => { twoNodes.heap .first with name := "n" }
    | .second => { twoNodes.heap .second with name := "n1" }
    | v => twoNodes.heap v
  tiers := some .top
  domains := none

/-- **Partitions that do not restrict the tree.** A root with an ID leaves its partitions flat: the
switch `s1` has the listed node below it, but the walk from the empty ID finds nothing. And
`Compact` drops the listed node `n` beside `n1`. -/
theorem partition_not_restricts :
    (∃ nt tu, Accepts (some (chainGraph "r" "s1")) (treePartition ["n1"]) nt ∧
      NamesUnique (chainGraph "r" "s1").heap none ∧
      getTreeTopologyUnit (chainGraph "r" "s1").heap nt 5 "p1" (treeSpecOf ["n1"]) = some (.ok tu) ∧
      tu.flat = true ∧ tu.tree = none ∧
      ∃ v, SwitchBelow (chainGraph "r" "s1") v ∧ HasListed (chainGraph "r" "s1").heap ["n1"] v) ∧
    ∃ nt tu tree, Accepts (some stemNodes) (treePartition ["n", "n1"]) nt ∧
    NamesUnique stemNodes.heap .top ∧
      getTreeTopologyUnit stemNodes.heap nt 9 "p1" (treeSpecOf ["n", "n1"]) = some (.ok tu) ∧
      tu.tree = some tree ∧
      ∀ srt, tree.switches.map (·.emitted srt) =
        [{ name := "S1", children := "", nodes := "n1" }] := by
  constructor
  · obtain ⟨nt, hnt, tu, htu, hflat, htree⟩ : ∃ nt,
        newNetworkTopology 5 (some (chainGraph "r" "s1")) (treePartition ["n1"]) = some (.ok nt) ∧
        ∃ tu, getTreeTopologyUnit (chainGraph "r" "s1").heap nt 5 "p1" (treeSpecOf ["n1"]) =
        some (.ok tu) ∧
          tu.flat = true ∧ tu.tree = none := ⟨_, rfl, _, rfl, rfl, rfl⟩
    refine ⟨nt, tu, ⟨5, hnt⟩, ?_, htu, hflat, htree, some false,
      ⟨by decide, none, [], rfl, .top ?_⟩, some true,
      .single ?_, ?_, ?_⟩
    · -- The node is the only leaf.
      intro v w _ _ hv hw _
      have honly : ∀ u, IsLeaf (chainGraph "r" "s1").heap u → u = some true := by
        intro u hu
        rcases u with _ | _ | _
        · exact absurd hu (by decide)
        · exact absurd hu (by decide)
        · rfl
      rw [honly v hv, honly w hw]
    · exact List.mem_cons_self
    · exact List.mem_cons_self
    · decide
    · decide
  · obtain ⟨nt, hnt, tu, htu, tree, htree, hswitches⟩ : ∃ nt,
        newNetworkTopology 9 (some stemNodes) (treePartition ["n", "n1"]) = some (.ok nt) ∧
        ∃ tu, getTreeTopologyUnit stemNodes.heap nt 9 "p1" (treeSpecOf ["n", "n1"]) =
        some (.ok tu) ∧
          ∃ tree, tu.tree = some tree ∧
          tree.switches = [{ name := "S1", children := [], nodes := ["n", "n1"] }] :=
      ⟨_, rfl, _, rfl, _, rfl, rfl⟩
    refine ⟨nt, tu, tree, ⟨9, hnt⟩, ?_, htu, htree, fun srt => ?_⟩
    · intro v w _ _ hv hw hname
      cases v <;> cases w
      all_goals first | rfl | exact absurd hname (by decide) | exact absurd hv (by decide)
    · rw [hswitches, List.map_singleton, Switch.emitted, Cluset.hostList_stem_first]
      rfl

end Topograph.Translate
