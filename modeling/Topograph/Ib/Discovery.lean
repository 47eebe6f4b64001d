import Topograph.Ib.Levels
import Topograph.Topology.MergerSpec

/-! # Which nodes InfiniBand discovery keeps

`buildTree` returns its last level alone, so a node is kept only if one of its leaf switches lies on
a shortest chain of links to a farthest switch; a fabric that is less deep than another one is lost
as a whole. The merger then keeps the nodes, except those that are named like a leaf switch of the
forest (`keepsNodes_iff`). -/

namespace Topograph.Ib

open Topograph.Topology

/-- `GenerateTopologyConfig`, behind the parser and the resolution of host names. -/
def generateTopologyConfig (fuel : Nat) (switches : GoMap String Switch) (hca : GoMap String String)
    (nodes : GoMap String Bool) : Option (List MVertex) :=
  mergedTop fuel (buildTree switches hca nodes).values

/-! ## Leaf switches and their nodes -/

section Nodes

variable (hca : GoMap String String) (nodesInCluster : GoMap String Bool)

/-- The link `conID` ends in an HCA of the requested node `n`. -/
def LinkTo (conID n : String) : Prop := hca.lookup conID = some n ∧ n ≠ "" ∧ n ∈ nodesInCluster

end Nodes

/-! ## The levels of the forest -/

/-- The vertices by level: the nodes, the leaf switches, and the switches above. -/
def fabricLevel (switches : GoMap String Switch) : Nat → String → Option VTree
  | 0, n =>
    if ∃ t ∈ (leafLevel switches).values, n ∈ t.vertices.map (·.1) then
      some (.node n n []) else none
  | k + 1, s => (levelsAt switches k).2.lookup s

section Forest

variable {switches : GoMap String Switch} {hca : GoMap String String}
  {nodesInCluster : GoMap String Bool}

/-- The node `n` has an HCA on the switch `s`. -/
def HoldsNode (switches : GoMap String Switch) (hca : GoMap String String)
    (nodesInCluster : GoMap String Bool) (s n : String) : Prop :=
  ∃ sw, switches.lookup s = some sw ∧ ∃ conID ∈ sw.conn, LinkTo hca nodesInCluster conID n

variable (hparsed : ∀ s sw, switches.lookup s = some sw → sw.nodes = ∅)

include hparsed

/-- The children of a leaf switch are its requested nodes. -/
theorem mem_leafLevel_vertices {s : String} {t : VTree}
    (h : (leafLevel (attached switches hca nodesInCluster)).lookup s = some t)
    (e : String × VTree) :
    e ∈ t.vertices ↔ ∃ n, HoldsNode switches hca nodesInCluster s n ∧ e = (n, .node n n []) := by
  rw [leafLevel, GoMap.lookup_filterMap, lookup_attached, Option.bind_eq_some_iff] at h
  obtain ⟨sw', hsw', ht⟩ := h
  obtain ⟨sw, hsw, rfl⟩ := Option.map_eq_some_iff.mp hsw'
  split_ifs at ht
  obtain rfl := Option.some.inj ht
  rw [mem_leafVertex]
  refine exists_congr fun n => and_congr_left fun _ => ?_
  rw [mem_values_attachHCAs hca nodesInCluster sw (hparsed s sw hsw)]
  constructor
  · exact fun h => ⟨sw, hsw, h⟩
  · rintro ⟨sw₂, hsw₂, h⟩
    obtain rfl := Option.some.inj (hsw.symm.trans hsw₂)
    exact h

/-- **The forest is leveled.** -/
theorem leveled_fabric : Leveled (fabricLevel (attached switches hca nodesInCluster)) where
  id {i s t} h := by
    cases i with
    | zero =>
      rw [fabricLevel] at h
      split_ifs at h
      rw [← Option.some.inj h, VTree.id_node]
    | succ k => exact (lookup_levelsAt h).1
  leaf {s t} h := by
    rw [fabricLevel] at h
    split_ifs at h
    rw [← Option.some.inj h, VTree.vertices_node]
  switch h := (lookup_levelsAt h).2
  child {i s t key u} h he := by
    cases i with
    | zero =>
      obtain ⟨n, -, heq⟩ := (mem_leafLevel_vertices hparsed h _).mp he
      obtain ⟨rfl, rfl⟩ := Prod.mk.inj heq
      exact if_pos ⟨t, GoMap.mem_values.mpr ⟨s, GoMap.lookup_eq_some_iff.mp h⟩,
        List.mem_map_of_mem he⟩
    | succ k => exact (((lookup_upperLevel h).2.2 key u).mp he).2
  apart {i j s} hi hij h := by
    -- A level is a distance, and distances are unique.
    obtain ⟨i, rfl⟩ := Nat.exists_eq_succ_of_ne_zero (Nat.ne_of_gt hi)
    obtain ⟨j, rfl⟩ := Nat.exists_eq_succ_of_ne_zero (Nat.ne_of_gt (Nat.lt_trans hi hij))
    have hdist := (mem_levelsAt hparsed i s).2.mp (AList.lookup_isSome.mp h)
    refine AList.lookup_eq_none.mpr fun hmem => ?_
    have := hdist.unique ((mem_levelsAt hparsed j s).2.mp hmem)
    omega

/-- The vertices that `buildTree` returns for the level `k`. -/
theorem onLevel_levelsAt (k : Nat) :
    OnLevel (fabricLevel (attached switches hca nodesInCluster)) (k + 1)
        (levelsAt (attached switches hca nodesInCluster) k).2.values ∧
      ((levelsAt (attached switches hca nodesInCluster) k).2.values.map (·.id)).Nodup :=
  onLevel_values (leveled_fabric hparsed) fun _ => rfl

/-- The leaf switches of the forest: those on a shortest chain to a farthest switch. -/
theorem under_iff {k : Nat} (hmax : ∀ m t, Distance switches hca nodesInCluster m t → m ≤ k)
    (htop : k = 0 ∨ ∃ t, Distance switches hca nodesInCluster k t) {s : String} :
    (∃ t, fabricLevel (attached switches hca nodesInCluster) 1 s = some t ∧
        Under (levelsAt (attached switches hca nodesInCluster) k).2.values t) ↔
      HoldsRequested switches hca nodesInCluster s ∧
      OnLongestClimb switches hca nodesInCluster s := by
  constructor
  · rintro ⟨t, ht, r, hr, hunder⟩
    have hzero := (mem_levelsAt hparsed 0 s).2.mp (GoMap.mem_iff_lookup.mpr ⟨t, ht⟩)
    have hlook := (onLevel_levelsAt hparsed k).1 r hr
    have hdist := (mem_levelsAt hparsed k r.id).2.mp (GoMap.mem_iff_lookup.mpr ⟨r, hlook⟩)
    have hasc : Ascent switches hca k s r.id := by
      rcases hunder with rfl | hb
      · obtain rfl := (leveled_fabric hparsed).id ht
        obtain rfl := hdist.unique hzero
        exact .refl _
      · obtain ⟨j, n, rfl, hj, hasc⟩ :=
          (below_levelsAt hb hlook).resolve_left ((leveled_fabric hparsed).switch ht)
        rw [(leveled_fabric hparsed).id ht] at hj hasc
        obtain rfl := ((mem_levelsAt hparsed j s).2.mp (GoMap.mem_iff_lookup.mpr ⟨t, hj⟩)).unique
          hzero
        rwa [show 0 + n + 1 = n + 1 by omega]
    refine ⟨(mem_leafLevel hparsed s).mp (GoMap.mem_iff_lookup.mpr ⟨t, ht⟩), 0, k, r.id,
      hzero, hasc, ?_, ?_⟩
    · rwa [Nat.zero_add]
    · rwa [Nat.zero_add]
  · rintro ⟨hholds, j, n, r, hs, hasc, hr, hfar⟩
    obtain rfl := hs.unique ⟨.base hholds, by simp⟩
    -- The farthest switches are on the level that is returned.
    obtain rfl : k = 0 + n := by
      have h1 := hmax _ _ hr
      rcases htop with rfl | ⟨t, ht⟩
      · omega
      · have h2 := hfar _ _ ht
        omega
    obtain ⟨ts, tr, hts, htr, hbelow⟩ := hasc.exists_below hparsed hs hr
    exact ⟨ts, hts, tr, GoMap.mem_values.mpr ⟨r, GoMap.lookup_eq_some_iff.mp htr⟩, hbelow⟩

/-- The nodes of the forest: those of its leaf switches. -/
theorem hasLeaf_buildTree_iff {n : String} :
    (∃ r ∈ (buildTree switches hca nodesInCluster).values, r.HasLeaf n) ↔
      ∃ s, HoldsNode switches hca nodesInCluster s n ∧
      OnLongestClimb switches hca nodesInCluster s := by
  obtain ⟨k, hbuild, hmax, htop⟩ := @buildTree_eq_levelsAt switches hca nodesInCluster hparsed
  have hlev := @leveled_fabric switches hca nodesInCluster hparsed
  rw [hbuild, hasLeaf_iff_under]
  constructor
  · rintro ⟨t, ⟨v, hv, ht⟩, hnil, rfl⟩
    have hlook := (onLevel_levelsAt hparsed k).1 v hv
    have hb : VTree.Below t v := by
      refine ht.resolve_left ?_
      rintro rfl
      exact hlev.switch hlook hnil
    obtain ⟨s, u, key, hu, hunder, hmem⟩ := hb.exists_parent hlev hlook hnil
    obtain ⟨n, hn, heq⟩ := (mem_leafLevel_vertices hparsed hu _).mp hmem
    obtain ⟨-, rfl⟩ := Prod.mk.inj heq
    exact ⟨s, hn, ((under_iff hparsed hmax htop).mp ⟨u, hu, v, hv, hunder⟩).2⟩
  · rintro ⟨s, hn, hclimb⟩
    have hholds : HoldsRequested switches hca nodesInCluster s := by
      obtain ⟨sw, hsw, conID, hconn, hlink⟩ := hn
      exact ⟨sw, hsw, conID, hconn, n, hlink⟩
    obtain ⟨u, hu, hunder⟩ := (under_iff hparsed hmax htop).mpr ⟨hholds, hclimb⟩
    exact ⟨_, hunder.child ((mem_leafLevel_vertices hparsed hu _).mpr ⟨n, hn, rfl⟩), rfl, rfl⟩

end Forest

/-! ## The nodes that are kept -/

/-- A node of the cluster with an HCA that is connected to some switch. -/
def Connected (switches : GoMap String Switch) (hca : GoMap String String)
    (nodesInCluster : GoMap String Bool) (n : String) : Prop :=
  n ∈ nodesInCluster ∧ ∃ s sw conID, switches.lookup s = some sw ∧ conID ∈ sw.conn ∧
  hca.lookup conID = some n

/-- Every connected node is a leaf of the forest that `buildTree` returns, and one of the merged
forest. -/
def KeepsNodes (switches : GoMap String Switch) (hca : GoMap String String)
    (nodesInCluster : GoMap String Bool) : Prop :=
  ∀ n, Connected switches hca nodesInCluster n →
    (∃ r ∈ (buildTree switches hca nodesInCluster).values, r.HasLeaf n) ∧
      ∃ fuel merged, generateTopologyConfig fuel switches hca nodesInCluster = some merged ∧
      ∃ w ∈ merged, w.HasLeaf n

/-- **Discovery loses no node** exactly when every connected node has a name, one of its leaf
switches is on a shortest chain to a farthest switch, and no leaf switch on such a chain is named
like the node. -/
theorem keepsNodes_iff (switches : GoMap String Switch) (hca : GoMap String String)
    (nodesInCluster : GoMap String Bool)
    (hparsed : ∀ s sw, switches.lookup s = some sw → sw.nodes = ∅) :
    KeepsNodes switches hca nodesInCluster ↔
      ∀ n, Connected switches hca nodesInCluster n →
        (∃ s, HoldsNode switches hca nodesInCluster s n ∧
          OnLongestClimb switches hca nodesInCluster s) ∧
        ∀ s, HoldsRequested switches hca nodesInCluster s →
          OnLongestClimb switches hca nodesInCluster s → s ≠ n := by
  obtain ⟨k, hbuild, hmax, htop⟩ := @buildTree_eq_levelsAt switches hca nodesInCluster hparsed
  have hlev := @leveled_fabric switches hca nodesInCluster hparsed
  constructor
  · intro h n hn
    obtain ⟨hleaf, fuel, merged, hrun, hmerged⟩ := h n hn
    refine ⟨(hasLeaf_buildTree_iff hparsed).mp hleaf, fun s hholds hclimb => ?_⟩
    obtain ⟨t, ht, hunder⟩ := (under_iff hparsed hmax htop).mpr ⟨hholds, hclimb⟩
    rw [generateTopologyConfig, hbuild] at hrun
    exact (ne_of_hasLeaf_mergedTop hlev hrun (onLevel_levelsAt hparsed k).1 hmerged ht hunder).symm
  · intro hcond n hn
    -- Every leaf of the forest is a connected node.
    have hfresh : ∀ s t, (∃ v ∈ (levelsAt (attached switches hca nodesInCluster) k).2.values,
        v.HasLeaf s) →
        fabricLevel (attached switches hca nodesInCluster) 1 s = some t →
          ¬ Under (levelsAt (attached switches hca nodesInCluster) k).2.values t := by
      intro s t hleaf ht hunder
      rw [← hbuild, hasLeaf_buildTree_iff hparsed] at hleaf
      obtain ⟨s', ⟨sw, hsw, conID, hconn, hlook, -, hin⟩, -⟩ := hleaf
      obtain ⟨hholds, hclimb⟩ := (under_iff hparsed hmax htop).mp ⟨t, ht, hunder⟩
      exact (hcond s ⟨hin, s', sw, conID, hsw, hconn, hlook⟩).2 s hholds hclimb rfl
    have hleaf := (hasLeaf_buildTree_iff hparsed).mpr (hcond n hn).1
    obtain ⟨fuel, merged, hrun, hiff⟩ :=
      mergedTop_leaves hlev (onLevel_levelsAt hparsed k).1 (onLevel_levelsAt hparsed k).2 hfresh
    rw [← hbuild] at hrun hiff
    exact ⟨hleaf, fuel, merged, hrun, (hiff n).mpr hleaf⟩

/-- Both nodes of the fabric with one spine are kept. -/
theorem keepsNodes_spine :
    KeepsNodes spineSwitches spineHCAs ((AList.singleton "n1" true).insert "n2" true) := by
  have hnode1 : HoldsNode spineSwitches spineHCAs ((AList.singleton "n1" true).insert "n2" true)
      "L1" "n1" :=
    ⟨parsedSwitch "L1" ["h1", "S"], rfl, "h1", by decide, by decide, by decide, by decide⟩
  have hnode2 : HoldsNode spineSwitches spineHCAs ((AList.singleton "n1" true).insert "n2" true)
      "L2" "n2" :=
    ⟨parsedSwitch "L2" ["h2", "S"], rfl, "h2", by decide, by decide, by decide, by decide⟩
  have hleaf : ∀ {s n}, HoldsNode spineSwitches spineHCAs
      ((AList.singleton "n1" true).insert "n2" true) s n →
      Distance spineSwitches spineHCAs ((AList.singleton "n1" true).insert "n2" true) 0 s := by
    rintro s n ⟨sw, hsw, conID, hconn, hlink⟩
    exact ⟨.base ⟨sw, hsw, conID, hconn, n, hlink⟩, by simp⟩
  have hup1 : Uplink spineSwitches spineHCAs "L1" "S" :=
    ⟨parsedSwitch "S" ["L1", "L2"], rfl, by decide, by decide⟩
  have hup2 : Uplink spineSwitches spineHCAs "L2" "S" :=
    ⟨parsedSwitch "S" ["L1", "L2"], rfl, by decide, by decide⟩
  have hspine : Distance spineSwitches spineHCAs ((AList.singleton "n1" true).insert "n2" true) 1
      "S" := by
    refine ⟨.step (hleaf hnode1).1 hup1, fun m hm hclimb => ?_⟩
    obtain rfl : m = 0 := by omega
    cases hclimb with
    | base h =>
      -- The spine has no HCA.
      obtain ⟨sw, hsw, conID, hconn, n, hlook, -⟩ := h
      obtain rfl := Option.some.inj
        (hsw.symm.trans (rfl : _ = some (parsedSwitch "S" ["L1", "L2"])))
      have hkeys : ∀ c ∈ (parsedSwitch "S" ["L1", "L2"]).conn.keys, spineHCAs.lookup c = none := by
        decide
      exact absurd (hlook.symm.trans (hkeys conID (AList.mem_keys.mp hconn))) (by simp)
  have hfar : ∀ m t, Distance spineSwitches spineHCAs ((AList.singleton "n1" true).insert "n2" true)
      m t → m ≤ 0 + 1 := by
    intro m t hd
    obtain ⟨sw, hsw⟩ := GoMap.mem_iff_lookup.mp (AList.mem_keys.mpr hd.mem_switches)
    rcases lookup_spineSwitches hsw with ⟨rfl, -⟩ | ⟨rfl, -⟩ | ⟨rfl, -⟩
    · rw [hd.unique (hleaf hnode2)]
      omega
    · rw [hd.unique (hleaf hnode1)]
      omega
    · rw [hd.unique hspine]
  refine (keepsNodes_iff _ _ _ ?_).mpr ?_
  · intro s sw h
    rcases lookup_spineSwitches h with ⟨-, rfl⟩ | ⟨-, rfl⟩ | ⟨-, rfl⟩ <;> rfl
  · rintro n ⟨hin, -⟩
    have hn : n = "n2" ∨ n = "n1" := (AList.mem_insert _).mp hin |>.imp_right List.mem_singleton.mp
    constructor
    · rcases hn with rfl | rfl
      · exact ⟨"L2", hnode2, 0, 1, "S", hleaf hnode2, .step (.refl _) hup2, hspine, hfar⟩
      · exact ⟨"L1", hnode1, 0, 1, "S", hleaf hnode1, .step (.refl _) hup1, hspine, hfar⟩
    · rintro s ⟨sw, hsw, -⟩ - rfl
      rcases lookup_spineSwitches hsw with ⟨rfl, -⟩ | ⟨rfl, -⟩ | ⟨rfl, -⟩
      all_goals exact absurd hn (by decide)

/-! ## Two fabrics of different depth -/

/-- A leaf switch `L1` that is connected to nothing else, and a leaf switch `L2` under a spine. -/
def unevenSwitches : GoMap String Switch :=
  ((AList.singleton "S" (parsedSwitch "S" ["L2"])).insert "L1" (parsedSwitch "L1" ["h1"])).insert
    "L2"
    (parsedSwitch "L2" ["h2", "S"])

/-- The node of the switch that stands alone is connected, and lost. -/
theorem uneven_node_lost :
    Connected unevenSwitches spineHCAs ((AList.singleton "n1" true).insert "n2" true) "n1" ∧
      ¬ ∃ r ∈ (buildTree unevenSwitches spineHCAs
        ((AList.singleton "n1" true).insert "n2" true)).values, r.HasLeaf "n1" := by
  refine ⟨⟨by decide, "L1", parsedSwitch "L1" ["h1"], "h1", rfl, by decide, by decide⟩, ?_⟩
  have hvalues : (buildTree unevenSwitches spineHCAs ((AList.singleton "n1" true).insert "n2"
      true)).values =
      [.node "" "S" [("L2", .node "" "L2" [("n2", .node "n2" "n2" [])])]] := rfl
  rw [hvalues]
  simp

end Topograph.Ib
