import Topograph.Ib.BuildTree
import Topograph.Lib.Layering

/-! # Levels of the InfiniBand forest are link distances

`buildTree` places a switch on level `k` exactly when `k` is the length of a shortest chain of links
from a switch that holds requested nodes (`isSome_levelAt_iff`). So a leaf switch of the fabric
whose nodes are not requested is a switch like any other: it ends up above the spines as soon as it
lies on such a chain to a farthest switch, and only then (`noLeafAbove_iff`). -/

namespace Topograph.Ib

open Topograph.Topology

section Fabric

variable (switches : GoMap String Switch) (hca : GoMap String String)
  (nodesInCluster : GoMap String Bool)

/-- The link `conID` ends in the HCA of a requested node. -/
def RequestedHCA (conID : String) : Prop :=
  ∃ nodeName, hca.lookup conID = some nodeName ∧ nodeName ≠ "" ∧ nodeName ∈ nodesInCluster

/-- The switch `s` has an HCA attached: it is a leaf switch of the fabric. -/
def HasHCA (s : String) : Prop :=
  ∃ sw, switches.lookup s = some sw ∧ ∃ conID ∈ sw.conn, conID ∈ hca

/-- The switch `s` has the HCA of a requested node attached. -/
def HoldsRequested (s : String) : Prop :=
  ∃ sw, switches.lookup s = some sw ∧ ∃ conID ∈ sw.conn, RequestedHCA hca nodesInCluster conID

/-- The switch `s` lists the link to `c`, and `c` is not an HCA. -/
def Uplink (c s : String) : Prop :=
  ∃ sw, switches.lookup s = some sw ∧ c ∈ sw.conn ∧ c ∉ hca

/-- `Climb n s`: a chain of `n` links leads from a switch with requested nodes up to `s`. -/
inductive Climb : Nat → String → Prop
  | base {s : String} (h : HoldsRequested switches hca nodesInCluster s) : Climb 0 s
  | step {n : Nat} {c s : String} (hc : Climb n c) (h : Uplink switches hca c s) : Climb (n + 1) s

/-- `Distance k s`: a shortest chain from a switch with requested nodes to `s` has `k` links. -/
def Distance (k : Nat) (s : String) : Prop :=
  Climb switches hca nodesInCluster k s ∧ ∀ m < k, ¬ Climb switches hca nodesInCluster m s

/-- `Ascent n s r`: a chain of `n` links leads from `s` up to `r`. -/
inductive Ascent : Nat → String → String → Prop
  | refl (s : String) : Ascent 0 s s
  | step {n : Nat} {s c r : String} (h : Ascent n s c) (hr : Uplink switches hca c r) :
      Ascent (n + 1) s r

/-- The switch `s` lies on a shortest chain from a switch with requested nodes to a switch that is
farthest from all of them. -/
def OnLongestClimb (s : String) : Prop :=
  ∃ k n r, Distance switches hca nodesInCluster k s ∧ Ascent switches hca n s r ∧
    Distance switches hca nodesInCluster (k + n) r ∧
    ∀ m t, Distance switches hca nodesInCluster m t → m ≤ k + n

end Fabric

/-! ## The first pass -/

section FirstPass

variable (hca : GoMap String String) (nodesInCluster : GoMap String Bool)

/-- The links after inspecting some of them: those that end in an HCA are gone. -/
theorem lookup_conn_foldl_attachLink (l : List String) (sw : Switch) (c : String) :
    (l.foldl (attachLink hca nodesInCluster) sw).conn.lookup c
      = if c ∈ l ∧ c ∈ hca then none else sw.conn.lookup c := by
  induction l generalizing sw with
  | nil => simp
  | cons conID l ih =>
    rw [List.foldl_cons, ih]
    cases hlook : hca.lookup conID with
    | none =>
      have hnot : conID ∉ hca := AList.lookup_eq_none.mp hlook
      rw [attachLink, hlook]
      by_cases hc : c = conID
      · subst hc
        simp [hnot]
      · simp [hc]
    | some nodeName =>
      have hmem : conID ∈ hca := GoMap.mem_iff_lookup.mpr ⟨nodeName, hlook⟩
      rw [attachLink, hlook]
      by_cases hc : c = conID
      · subst hc
        simp [hmem]
      · simp [hc, AList.lookup_erase_ne hc]

/-- The requested node at the end of a link. -/
def requestedNode (conID : String) : Option String :=
  (hca.lookup conID).bind fun nodeName => if nodeName ≠ "" ∧ nodeName ∈ nodesInCluster then
    some nodeName else none

/-- A link to a requested node attaches the node. -/
theorem lookup_nodes_attachLink (sw : Switch) (conID c : String) :
    (attachLink hca nodesInCluster sw conID).nodes.lookup c =
      (if c = conID then requestedNode hca nodesInCluster c else none).or (sw.nodes.lookup c) := by
  rw [attachLink]
  by_cases hc : c = conID
  · subst hc
    rw [if_pos rfl, requestedNode]
    cases hca.lookup c with
    | none => rfl
    | some nodeName =>
      dsimp only [Option.bind_some]
      split_ifs
      · rw [AList.lookup_insert, Option.some_or]
      · rw [Option.none_or]
  · rw [if_neg hc, Option.none_or]
    cases hca.lookup conID with
    | none => rfl
    | some nodeName =>
      dsimp only
      split_ifs
      · rw [AList.lookup_insert_ne hc]
      · rfl

/-- The nodes after inspecting some links: those of the requested HCAs among them are recorded. -/
theorem lookup_nodes_foldl_attachLink (l : List String) (sw : Switch) (c : String) :
    (l.foldl (attachLink hca nodesInCluster) sw).nodes.lookup c =
      (if c ∈ l then requestedNode hca nodesInCluster c else none).or (sw.nodes.lookup c) := by
  induction l generalizing sw with
  | nil => simp
  | cons conID l ih =>
    rw [List.foldl_cons, ih, lookup_nodes_attachLink, ← Option.or_assoc]
    congr 1
    by_cases hc : c = conID
    · subst hc
      by_cases hl : c ∈ l <;> simp [hl]
    · simp [hc]

/-- After the first pass a switch keeps exactly its links to other switches. -/
theorem mem_conn_attachHCAs (sw : Switch) (c : String) :
    c ∈ (attachHCAs hca nodesInCluster sw).conn ↔ c ∈ sw.conn ∧ c ∉ hca := by
  rw [← AList.lookup_isSome, ← AList.lookup_isSome, attachHCAs, lookup_conn_foldl_attachLink]
  by_cases hc : c ∈ hca
  · by_cases hmem : c ∈ sw.conn
    · simp [hc, AList.mem_keys.mp hmem]
    · simp [hc, AList.lookup_eq_none.mpr hmem]
  · simp [hc]

/-- The nodes of a parsed switch after the first pass. -/
theorem mem_values_attachHCAs (sw : Switch) (hnodes : sw.nodes = ∅) (n : String) :
    n ∈ (attachHCAs hca nodesInCluster sw).nodes.values ↔
      ∃ conID ∈ sw.conn, hca.lookup conID = some n ∧ n ≠ "" ∧ n ∈ nodesInCluster := by
  simp only [GoMap.mem_values, ← GoMap.lookup_eq_some_iff, attachHCAs,
    lookup_nodes_foldl_attachLink, hnodes, AList.lookup_empty,
    Option.or_none, ← AList.mem_keys]
  refine exists_congr fun c => ?_
  by_cases hc : c ∈ sw.conn
  · simp [hc, requestedNode, Option.bind_eq_some_iff, ← and_assoc, and_comm]
  · simp [hc]

/-- A parsed switch has nodes after the first pass exactly when it has a requested HCA. -/
theorem nodes_attachHCAs_ne_nil (sw : Switch) (hnodes : sw.nodes = ∅) :
    (attachHCAs hca nodesInCluster sw).nodes.entries ≠ [] ↔
      ∃ conID ∈ sw.conn, RequestedHCA hca nodesInCluster conID := by
  have hmem := mem_values_attachHCAs hca nodesInCluster sw hnodes
  constructor
  · intro hne
    obtain ⟨e, he⟩ := List.exists_mem_of_ne_nil _ hne
    obtain ⟨conID, hconn, hlink⟩ := (hmem e.2).mp (GoMap.mem_values.mpr ⟨e.1, he⟩)
    exact ⟨conID, hconn, e.2, hlink⟩
  · rintro ⟨conID, hconn, n, hlink⟩
    obtain ⟨key, he⟩ := GoMap.mem_values.mp ((hmem n).mpr ⟨conID, hconn, hlink⟩)
    exact List.ne_nil_of_mem he

end FirstPass

/-! ## The level loop -/

/-- The placed vertices and the level after `k` rounds of the level loop. -/
def levelsAt (switches : GoMap String Switch) : Nat → GoMap String VTree × GoMap String VTree
  | 0 => (leafLevel switches, leafLevel switches)
  | k + 1 =>
    (upperLevel switches (levelsAt switches k).1 (levelsAt switches k).2
        ∪ (levelsAt switches k).1,
      upperLevel switches (levelsAt switches k).1 (levelsAt switches k).2)

/-- A switch has children on a level exactly when one of its links ends there. -/
theorem childrenOf_ne_nil (level : GoMap String VTree) (sw : Switch) :
    (childrenOf level sw).entries ≠ [] ↔ ∃ c ∈ sw.conn, c ∈ level := by
  rw [Ne, GoMap.entries_eq_nil_iff, not_forall]
  simp only [childrenOf, GoMap.lookup_filterMap, GoMap.mem_iff_lookup (m := level),
    GoMap.mem_iff_lookup (m := sw.conn)]
  constructor
  · rintro ⟨c, hc⟩
    obtain ⟨t, ht⟩ := Option.ne_none_iff_exists'.mp hc
    obtain ⟨b, hb, hlevel⟩ := Option.bind_eq_some_iff.mp ht
    exact ⟨c, ⟨b, hb⟩, t, hlevel⟩
  · rintro ⟨c, ⟨b, hb⟩, t, ht⟩
    exact ⟨c, by simp [hb, ht]⟩

/-- The loop stops at some round: every round up to it found a new level, and either the next one
finds none or the fuel is spent. -/
theorem buildLevels_eq_levelsAt (switches : GoMap String Switch) (fuel k : Nat) :
    ∃ j ≤ fuel, buildLevels switches fuel (levelsAt switches k).1 (levelsAt switches k).2
        = (levelsAt switches (k + j)).2 ∧
      (∀ i < j, (levelsAt switches (k + i + 1)).2.entries ≠ []) ∧
      (j < fuel → (levelsAt switches (k + j + 1)).2.entries = []) :=
  Layering.exists_lastRound (fun fuel k => buildLevels switches fuel (levelsAt switches k).1
    (levelsAt switches k).2)
    (fun k => (levelsAt switches (k + 1)).2.entries = []) (fun _ _ hlast => if_pos hlast)
    (fun _ _ hnext => if_neg hnext) fuel k

/-! ## Levels and distances -/

section Distances

variable (switches : GoMap String Switch) (hca : GoMap String String)
  (nodesInCluster : GoMap String Bool)

/-- The switches after the first pass. -/
def attached : GoMap String Switch :=
  switches.filterMap fun _ sw => some (attachHCAs hca nodesInCluster sw)

/-- Attaching works switch by switch. -/
theorem lookup_attached (s : String) :
    (attached switches hca nodesInCluster).lookup s
      = (switches.lookup s).map (attachHCAs hca nodesInCluster) := by
  rw [attached, GoMap.lookup_filterMap]
  cases switches.lookup s <;> rfl

/-- The upper level holds the unplaced switches with a link into the level. -/
theorem mem_upperLevel (vertices level : GoMap String VTree) (s : String) :
    s ∈ upperLevel (attached switches hca nodesInCluster) vertices level ↔
      s ∉ vertices ∧ ∃ c, Uplink switches hca c s ∧ c ∈ level := by
  rw [← AList.lookup_isSome, upperLevel, GoMap.lookup_filterMap, lookup_attached]
  cases hs : switches.lookup s with
  | none =>
    simp only [Option.map_none, Option.bind_none, Option.isSome_none, Bool.false_eq_true,
      false_iff, not_and, not_exists]
    rintro - c ⟨sw, hsw, -⟩
    rw [hs] at hsw
    cases hsw
  | some sw =>
    have hlinks : (childrenOf level (attachHCAs hca nodesInCluster sw)).entries ≠ [] ↔
        ∃ c, Uplink switches hca c s ∧ c ∈ level := by
      rw [childrenOf_ne_nil]
      constructor
      · rintro ⟨c, hc, hlevel⟩
        exact ⟨c, ⟨sw, hs, (mem_conn_attachHCAs hca nodesInCluster sw c).mp hc⟩, hlevel⟩
      · rintro ⟨c, ⟨sw', hsw', hc⟩, hlevel⟩
        rw [hs] at hsw'
        cases hsw'
        exact ⟨c, (mem_conn_attachHCAs hca nodesInCluster sw c).mpr hc, hlevel⟩
    rw [← hlinks]
    by_cases hv : s ∈ vertices
    · simp [hv]
    · by_cases hch : (childrenOf level (attachHCAs hca nodesInCluster sw)).entries = []
      · simp [hv, hch]
      · simp [hv, hch]

variable {switches} {hca} {nodesInCluster} {s : String}

/-- Climbs in the fabric are climbs along uplinks. -/
theorem climb_iff {n : Nat} : Climb switches hca nodesInCluster n s ↔
    Layering.Climb (HoldsRequested switches hca nodesInCluster) (Uplink switches hca) n s := by
  constructor <;> intro h <;> induction h with
  | base h => exact .base h
  | step _ hup ih => exact .step ih hup

/-- The distances are those of the layers over the switches with requested nodes. -/
theorem distance_iff {k : Nat} : Distance switches hca nodesInCluster k s ↔
    Layering.Distance (HoldsRequested switches hca nodesInCluster) (Uplink switches hca) k s := by
  simp only [Distance, Layering.Distance, climb_iff]

theorem Ascent.layering {n : Nat} {r : String} (h : Ascent switches hca n s r) :
    Layering.Ascent (Uplink switches hca) n s r := by
  induction h with
  | refl => exact .refl _
  | step _ hup ih => exact .step ih hup

/-- Distances are unique. -/
theorem Distance.unique {j k : Nat} (hj : Distance switches hca nodesInCluster j s)
    (hk : Distance switches hca nodesInCluster k s) : j = k :=
  (distance_iff.mp hj).unique (distance_iff.mp hk)

variable {k : Nat}

/-- The last link of a shortest chain starts one step closer. -/
theorem Distance.exists_pred (h : Distance switches hca nodesInCluster (k + 1) s) :
    ∃ c, Uplink switches hca c s ∧ Distance switches hca nodesInCluster k c := by
  simpa only [distance_iff] using (distance_iff.mp h).exists_pred

variable (hparsed : ∀ s sw, switches.lookup s = some sw → sw.nodes = ∅)

include hparsed in
/-- The lowest level holds the switches with requested nodes. -/
theorem mem_leafLevel (s : String) :
    s ∈ leafLevel (attached switches hca nodesInCluster) ↔
      HoldsRequested switches hca nodesInCluster s := by
  rw [← AList.lookup_isSome, leafLevel, GoMap.lookup_filterMap, lookup_attached]
  cases hs : switches.lookup s with
  | none =>
    simp only [Option.map_none, Option.bind_none, Option.isSome_none, Bool.false_eq_true,
      false_iff]
    rintro ⟨sw, hsw, -⟩
    rw [hs] at hsw
    cases hsw
  | some sw =>
    have hnodes := nodes_attachHCAs_ne_nil hca nodesInCluster sw (hparsed s sw hs)
    have hholds : HoldsRequested switches hca nodesInCluster s ↔
        ∃ conID ∈ sw.conn, RequestedHCA hca nodesInCluster conID := by
      constructor
      · rintro ⟨sw', hsw', h⟩
        rw [hs] at hsw'
        cases hsw'
        exact h
      · exact fun h => ⟨sw, hs, h⟩
    rw [hholds, ← hnodes]
    by_cases hempty : (attachHCAs hca nodesInCluster sw).nodes.entries = []
    · simp [hempty]
    · simp [hempty]

include hparsed in
/-- **A level is a distance**: after `k` rounds the placed switches are those at distance at most
`k`, and the level holds those at distance `k`. -/
theorem mem_levelsAt (k : Nat) (s : String) :
    (s ∈ (levelsAt (attached switches hca nodesInCluster) k).1 ↔
        ∃ j ≤ k, Distance switches hca nodesInCluster j s) ∧
      (s ∈ (levelsAt (attached switches hca nodesInCluster) k).2 ↔
        Distance switches hca nodesInCluster k s) := by
  have hplaced : ∀ k s, s ∈ (levelsAt (attached switches hca nodesInCluster) k).1 ↔
      ∃ j ≤ k, s ∈ (levelsAt (attached switches hca nodesInCluster) j).2 := by
    intro k s
    induction k with
    | zero => simp [levelsAt]
    | succ k ih =>
      rw [levelsAt, AList.mem_union, ih]
      simp only [Nat.le_succ_iff, or_and_right, exists_or, exists_eq_left]
      exact or_comm
  have hlevel : ∀ k s, s ∈ (levelsAt (attached switches hca nodesInCluster) k).2 ↔
      Distance switches hca nodesInCluster k s := by
    intro k s
    rw [distance_iff]
    refine Layering.level_iff_distance (fun k s => s ∈
      (levelsAt (attached switches hca nodesInCluster) k).2)
      (fun s => mem_leafLevel hparsed s) (fun k s => ?_) k s
    rw [levelsAt, mem_upperLevel, hplaced]
    simp only [not_exists, not_and]
  exact ⟨by simp only [hplaced, hlevel], hlevel k s⟩

/-- Only listed switches have a distance. -/
theorem Distance.mem_switches (h : Distance switches hca nodesInCluster k s) :
    s ∈ switches.keys := by
  rw [← AList.mem_keys, GoMap.mem_iff_lookup]
  cases h.1 with
  | base hreq =>
    obtain ⟨sw, hsw, -⟩ := hreq
    exact ⟨sw, hsw⟩
  | step _ hup =>
    obtain ⟨sw, hsw, -⟩ := hup
    exact ⟨sw, hsw⟩

/-- A distance is smaller than the number of switches: the chain passes each at most once. -/
theorem Distance.lt_length (h : Distance switches hca nodesInCluster k s) :
    k < switches.entries.length := by
  have hlen := (distance_iff.mp h).le_length (a := 0) fun i t _ ht =>
    (distance_iff.mpr ht).mem_switches
  rwa [GoMap.length_keys] at hlen

include hparsed in
/-- **The builder returns the farthest level**: the switches at the greatest distance. -/
theorem buildTree_eq_levelsAt :
    ∃ k, buildTree switches hca nodesInCluster
        = (levelsAt (attached switches hca nodesInCluster) k).2 ∧
      (∀ m t, Distance switches hca nodesInCluster m t → m ≤ k) ∧
      (k = 0 ∨ ∃ t, Distance switches hca nodesInCluster k t) := by
  have hlen : (attached switches hca nodesInCluster).entries.length = switches.entries.length := by
    rw [← GoMap.length_keys, ← GoMap.length_keys, attached,
      GoMap.keys_filterMap_of_isSome fun _ _ => rfl]
  obtain ⟨j, hj, heq, hne, hlast⟩ := buildLevels_eq_levelsAt
    (attached switches hca nodesInCluster) (attached switches hca nodesInCluster).entries.length 0
  simp only [Nat.zero_add] at heq hne hlast
  refine ⟨j, heq, ?_, ?_⟩
  · intro m t hd
    -- A level past the returned one would need more switches than there are.
    by_contra hmj
    obtain ⟨u, hu⟩ := (distance_iff.mp hd).exists_below (j + 1) (by omega)
    rw [← distance_iff] at hu
    have hlt := hu.lt_length
    have hempty := hlast (by omega)
    have hmem := (mem_levelsAt hparsed (j + 1) u).2.mpr hu
    rw [AList.mem_keys, AList.keys, hempty] at hmem
    cases hmem
  · cases j with
    | zero => exact Or.inl rfl
    | succ j =>
      obtain ⟨⟨t, v⟩, hmem⟩ := List.exists_mem_of_ne_nil _ (hne j (by omega))
      refine Or.inr ⟨t, (mem_levelsAt hparsed (j + 1) t).2.mp ?_⟩
      exact GoMap.mem_iff_lookup.mpr ⟨v, GoMap.lookup_eq_some_iff.mpr hmem⟩

/-! ## The returned forest -/

/-- The children of a leaf switch are its nodes. -/
theorem mem_leafVertex {swID : String} {sw : Switch} {e : String × VTree} :
    e ∈ (leafVertex swID sw).vertices ↔ ∃ n ∈ sw.nodes.values, e = (n, .node n n []) := by
  obtain ⟨key, v⟩ := e
  have hmem : (key, v) ∈ (leafVertex swID sw).vertices ↔
      (sw.nodes.values.foldl (fun vs n => vs.insert n (.node n n []))
        (∅ : GoMap String VTree)).lookup key = some v := by
    rw [leafVertex, VTree.vertices_node, List.mem_map, GoMap.lookup_eq_some_iff]
    constructor
    · rintro ⟨e, he, heq⟩
      obtain ⟨rfl, rfl⟩ := Prod.mk.inj heq
      exact he
    · exact fun he => ⟨_, he, rfl⟩
  rw [hmem, GoMap.lookup_foldl_insert_iff (fun n => n) fun _ _ _ _ h => by rw [h]]
  simp [eq_comm]

/-- The vertex of a leaf switch has plain nodes below it, at least one. -/
theorem leafVertex_vertices (swID : String) {sw : Switch} (hne : sw.nodes.entries ≠ []) :
    (leafVertex swID sw).IsSwitch ∧ ∀ e ∈ (leafVertex swID sw).vertices, e.2.vertices = [] := by
  constructor
  · have hvalues : sw.nodes.values ≠ [] := by rwa [GoMap.values, Ne, List.map_eq_nil_iff]
    obtain ⟨n, hn⟩ := List.exists_mem_of_ne_nil _ hvalues
    exact List.ne_nil_of_mem (mem_leafVertex.mpr ⟨n, hn, rfl⟩)
  · intro e he
    obtain ⟨n, -, rfl⟩ := mem_leafVertex.mp he
    rfl

/-- The vertices of the lowest level: named after their switch, with plain nodes below. -/
theorem lookup_leafLevel {t : VTree}
    (h : (leafLevel (attached switches hca nodesInCluster)).lookup s = some t) :
    t.id = s ∧ t.IsSwitch ∧ ∀ e ∈ t.vertices, e.2.vertices = [] := by
  rw [leafLevel, GoMap.lookup_filterMap, Option.bind_eq_some_iff] at h
  obtain ⟨sw, -, ht⟩ := h
  split_ifs at ht with hne
  cases ht
  obtain ⟨hsw, hch⟩ := leafVertex_vertices s hne
  exact ⟨rfl, hsw, hch⟩

/-- The vertices of an upper level: named after their switch, and their children are the vertices of
the level below that the switch links to. -/
theorem lookup_upperLevel {vertices level : GoMap String VTree} {t : VTree}
    (h : (upperLevel (attached switches hca nodesInCluster) vertices level).lookup s = some t) :
    t.id = s ∧ t.IsSwitch ∧
      ∀ key u, (key, u) ∈ t.vertices ↔ Uplink switches hca key s ∧ level.lookup key = some u := by
  rw [upperLevel, GoMap.lookup_filterMap, lookup_attached, Option.bind_eq_some_iff] at h
  obtain ⟨sw', hsw', ht⟩ := h
  obtain ⟨sw, hsw, rfl⟩ := Option.map_eq_some_iff.mp hsw'
  split_ifs at ht with hv hch
  cases ht
  refine ⟨rfl, by simpa [VTree.IsSwitch] using hch, ?_⟩
  intro key u
  have hmem : (key, u) ∈ (childrenOf level (attachHCAs hca nodesInCluster sw)).entries.map
        (fun e => (e.1, e.2)) ↔
      (⟨key, u⟩ : Σ _ : String, VTree) ∈
        (childrenOf level (attachHCAs hca nodesInCluster sw)).entries := by
    rw [List.mem_map]
    constructor
    · rintro ⟨⟨k, v⟩, he, heq⟩
      cases heq
      exact he
    · exact fun he => ⟨_, he, rfl⟩
  rw [VTree.vertices_node, hmem, childrenOf, GoMap.mem_entries_filterMap]
  constructor
  · rintro ⟨b, hb, hu⟩
    have hconn : key ∈ (attachHCAs hca nodesInCluster sw).conn :=
      GoMap.mem_iff_lookup.mpr ⟨b, GoMap.lookup_eq_some_iff.mpr hb⟩
    exact ⟨⟨sw, hsw, (mem_conn_attachHCAs hca nodesInCluster sw key).mp hconn⟩, hu⟩
  · rintro ⟨⟨sw₂, hsw₂, hconn⟩, hu⟩
    rw [hsw] at hsw₂
    cases hsw₂
    obtain ⟨b, hb⟩ := GoMap.mem_iff_lookup.mp
      ((mem_conn_attachHCAs hca nodesInCluster sw key).mpr hconn)
    exact ⟨b, GoMap.lookup_eq_some_iff.mp hb, hu⟩

/-- Every vertex of a level is a switch named after its key. -/
theorem lookup_levelsAt {t : VTree}
    (h : (levelsAt (attached switches hca nodesInCluster) k).2.lookup s = some t) :
    t.id = s ∧ t.IsSwitch := by
  cases k with
  | zero => exact ⟨(lookup_leafLevel h).1, (lookup_leafLevel h).2.1⟩
  | succ k => exact ⟨(lookup_upperLevel h).1, (lookup_upperLevel h).2.1⟩

include hparsed in
/-- A switch at distance `k` that climbs to `r` in as few links as possible has its vertex in the
tree of `r`. -/
theorem Ascent.exists_below {k n : Nat} {s r : String} (h : Ascent switches hca n s r)
    (hs : Distance switches hca nodesInCluster k s)
    (hr : Distance switches hca nodesInCluster (k + n) r) :
    ∃ ts tr, (levelsAt (attached switches hca nodesInCluster) k).2.lookup s = some ts ∧
      (levelsAt (attached switches hca nodesInCluster) (k + n)).2.lookup r = some tr ∧
      (ts = tr ∨ VTree.Below ts tr) := by
  induction h with
  | refl =>
    obtain ⟨t, ht⟩ := GoMap.mem_iff_lookup.mp ((mem_levelsAt hparsed k _).2.mpr hs)
    exact ⟨t, t, ht, ht, Or.inl rfl⟩
  | @step n s c r hsc hup ih =>
    -- The chain to `r` is shortest, so the chain to the switch before it is.
    have hc : Distance switches hca nodesInCluster (k + n) c :=
      distance_iff.mpr (hsc.layering.distance_pred hup (distance_iff.mp hs) (distance_iff.mp hr))
    obtain ⟨ts, tc, hts, htc, hbelow⟩ := ih hs hc
    obtain ⟨tr, htr⟩ := GoMap.mem_iff_lookup.mp ((mem_levelsAt hparsed (k + (n + 1)) r).2.mpr hr)
    have hchild : (c, tc) ∈ tr.vertices := ((lookup_upperLevel htr).2.2 c tc).mpr ⟨hup, htc⟩
    refine ⟨ts, tr, hts, htr, Or.inr ?_⟩
    rcases hbelow with rfl | hb
    · exact .child hchild
    · exact .step hchild hb

/-- What lies below a vertex of level `k`: a plain node, or a vertex of a lower level whose switch
climbs to it. -/
theorem below_levelsAt {r : String} {tr t : VTree} (hb : VTree.Below t tr)
    (hr : (levelsAt (attached switches hca nodesInCluster) k).2.lookup r = some tr) :
    t.vertices = [] ∨ ∃ j n, k = j + n + 1 ∧
      (levelsAt (attached switches hca nodesInCluster) j).2.lookup t.id = some t ∧
      Ascent switches hca (n + 1) t.id r := by
  induction hb generalizing k r with
  | @child tr key hmem =>
    cases k with
    | zero => exact Or.inl ((lookup_leafLevel hr).2.2 _ hmem)
    | succ k =>
      obtain ⟨hup, ht⟩ := ((lookup_upperLevel hr).2.2 _ _).mp hmem
      obtain rfl := (lookup_levelsAt ht).1
      exact Or.inr ⟨k, 0, rfl, ht, .step (.refl _) hup⟩
  | @step w tr key hmem hb ih =>
    cases k with
    | zero =>
      have hnil := (lookup_leafLevel hr).2.2 _ hmem
      cases hb with
      | child h =>
        rw [hnil] at h
        cases h
      | step h _ =>
        rw [hnil] at h
        cases h
    | succ k =>
      obtain ⟨hup, hw⟩ := ((lookup_upperLevel hr).2.2 _ _).mp hmem
      rcases ih hw with hnil | ⟨j, n, rfl, ht, hasc⟩
      · exact Or.inl hnil
      · exact Or.inr ⟨j, n + 1, rfl, ht, .step hasc hup⟩

end Distances

/-! ## Leaf switches above other switches -/

/-- No switch of the forest that has an HCA attached is an ancestor of another switch. -/
def NoLeafAbove (switches : GoMap String Switch) (hca : GoMap String String)
    (forest : GoMap String VTree) : Prop :=
  ∀ r ∈ forest.values, ∀ t, (t = r ∨ VTree.Below t r) → HasHCA switches hca t.id →
    ∀ u, VTree.Below u t → ¬ u.IsSwitch

/-- **When leaf switches stay at the bottom.** No switch with an HCA is placed above another switch
exactly when every switch with an HCA that lies on a shortest chain from the requested nodes to a
farthest switch holds a requested node itself. -/
theorem noLeafAbove_iff (switches : GoMap String Switch) (hca : GoMap String String)
    (nodesInCluster : GoMap String Bool)
    (hparsed : ∀ s sw, switches.lookup s = some sw → sw.nodes = ∅) :
    NoLeafAbove switches hca (buildTree switches hca nodesInCluster) ↔
      ∀ s, HasHCA switches hca s → OnLongestClimb switches hca nodesInCluster s →
        HoldsRequested switches hca nodesInCluster s := by
  obtain ⟨top, hbuild, hmax, htop⟩ := @buildTree_eq_levelsAt switches hca
    nodesInCluster hparsed
  rw [hbuild]
  constructor
  · rintro hno s hhca ⟨k, n, r, hs, hasc, hr, hfar⟩
    by_contra hidle
    obtain rfl : top = k + n := by
      have h1 := hmax _ _ hr
      rcases htop with rfl | ⟨t, ht⟩
      · omega
      · have h2 := hfar _ _ ht
        omega
    obtain ⟨ts, tr, hts, htr, hbelow⟩ := hasc.exists_below hparsed hs hr
    cases k with
    | zero =>
      cases hs.1 with
      | base h => exact hidle h
    | succ k =>
      obtain ⟨c, hup, hc⟩ := hs.exists_pred
      obtain ⟨tc, htc⟩ := GoMap.mem_iff_lookup.mp ((mem_levelsAt hparsed k c).2.mpr hc)
      obtain ⟨hid, -, hch⟩ := lookup_upperLevel hts
      refine hno tr ?_ ts hbelow (by rwa [hid]) tc (.child ((hch c tc).mpr ⟨hup, htc⟩))
        (lookup_levelsAt htc).2
      exact GoMap.mem_values.mpr ⟨r, GoMap.lookup_eq_some_iff.mp htr⟩
  · intro hcond r hr t ht hhca u hu
    obtain ⟨key, hkey⟩ := GoMap.mem_values.mp hr
    have hlook := GoMap.lookup_eq_some_iff.mpr hkey
    obtain rfl := (lookup_levelsAt hlook).1
    have hdr := (mem_levelsAt hparsed top r.id).2.mp (GoMap.mem_iff_lookup.mpr ⟨r, hlook⟩)
    -- Wherever `t` stands in the forest, it climbs to the root `r` in as few links as possible.
    have hpos : t.vertices = [] ∨ ∃ j n, top = j + n ∧
        (levelsAt (attached switches hca nodesInCluster) j).2.lookup t.id = some t ∧
        Ascent switches hca n t.id r.id := by
      rcases ht with rfl | hb
      · exact Or.inr ⟨top, 0, rfl, hlook, .refl _⟩
      · rcases below_levelsAt hb hlook with hnil | ⟨j, n, hj, hjt, hasc⟩
        · exact Or.inl hnil
        · exact Or.inr ⟨j, n + 1, by omega, hjt, hasc⟩
    rcases hpos with hnil | ⟨j, n, rfl, hjt, hasc⟩
    · cases hu with
      | child h =>
        rw [hnil] at h
        cases h
      | step h _ =>
        rw [hnil] at h
        cases h
    · have hdt := (mem_levelsAt hparsed j t.id).2.mp (GoMap.mem_iff_lookup.mpr ⟨t, hjt⟩)
      have hholds := hcond t.id hhca ⟨j, n, r.id, hdt, hasc, hdr, hmax⟩
      obtain rfl := hdt.unique ⟨.base hholds, by simp⟩
      rcases below_levelsAt hu hjt with hnil | ⟨i, m, hi, -⟩
      · exact fun hsw => hsw hnil
      · omega

/-! ## A spine between two leaf switches -/

/-- A parsed switch record with the given links. -/
def parsedSwitch (id : String) (conn : List String) : Switch :=
  ⟨id, id, conn.foldl (fun m c => m.insert c c) ∅, ∅⟩

/-- The switches of a small fabric: leaf switches `L1` and `L2`, each with one HCA, under the
spine `S`. -/
def spineSwitches : GoMap String Switch :=
  ((AList.singleton "S" (parsedSwitch "S" ["L1", "L2"])).insert "L1"
    (parsedSwitch "L1" ["h1", "S"])).insert "L2" (parsedSwitch "L2" ["h2", "S"])

/-- The host names of its two HCAs. -/
def spineHCAs : GoMap String String := (AList.singleton "h1" "n1").insert "h2" "n2"

/-- When only `n1` is requested, the idle leaf switch `L2` is built as the root above the spine. -/
theorem noLeafAbove_fails_for_idle_leaf :
    ¬ NoLeafAbove spineSwitches spineHCAs
      (buildTree spineSwitches spineHCAs (AList.singleton "n1" true)) := by
  intro hno
  let leaf : VTree := .node "" "L1" [("n1", .node "n1" "n1" [])]
  let spine : VTree := .node "" "S" [("L1", leaf)]
  have hvalues : (buildTree spineSwitches spineHCAs (AList.singleton "n1" true)).values
      = [.node "" "L2" [("S", spine)]] := rfl
  refine hno (.node "" "L2" [("S", spine)]) (by rw [hvalues]; exact List.mem_singleton.mpr rfl)
    _ (Or.inl rfl) ⟨_, rfl, "h2", by decide, by decide⟩ spine (.child List.mem_cons_self) ?_
  simp [VTree.IsSwitch, spine]

theorem lookup_spineSwitches {s : String} {sw : Switch} (h : spineSwitches.lookup s = some sw) :
    (s = "L2" ∧ sw = parsedSwitch "L2" ["h2", "S"]) ∨
      (s = "L1" ∧ sw = parsedSwitch "L1" ["h1", "S"]) ∨
      (s = "S" ∧ sw = parsedSwitch "S" ["L1", "L2"]) := by
  have hmem : (⟨s, sw⟩ : Σ _ : String, Switch) ∈
      [⟨"L2", parsedSwitch "L2" ["h2", "S"]⟩, ⟨"L1", parsedSwitch "L1" ["h1", "S"]⟩,
        ⟨"S", parsedSwitch "S" ["L1", "L2"]⟩] :=
    GoMap.lookup_eq_some_iff.mp h
  simpa using hmem

/-- With both nodes requested no leaf switch is idle, and both stay below the spine. -/
theorem noLeafAbove_both_requested :
    NoLeafAbove spineSwitches spineHCAs
      (buildTree spineSwitches spineHCAs ((AList.singleton "n1" true).insert "n2" true)) := by
  refine (noLeafAbove_iff _ _ _ ?_).mpr ?_
  · intro s sw h
    rcases lookup_spineSwitches h with ⟨-, rfl⟩ | ⟨-, rfl⟩ | ⟨-, rfl⟩ <;> rfl
  · rintro s ⟨sw, hsw, conID, hconn, hin⟩ -
    rcases lookup_spineSwitches hsw with ⟨rfl, rfl⟩ | ⟨rfl, rfl⟩ | ⟨rfl, rfl⟩
    · exact ⟨_, hsw, "h2", by decide, "n2", by decide, by decide, by decide⟩
    · exact ⟨_, hsw, "h1", by decide, "n1", by decide, by decide, by decide⟩
    · -- The links of the spine are the leaf switches; neither is an HCA.
      have hkeys : ∀ c ∈ (parsedSwitch "S" ["L1", "L2"]).conn.keys, c ∉ spineHCAs := by decide
      exact absurd hin (hkeys conID (AList.mem_keys.mp hconn))

end Topograph.Ib
