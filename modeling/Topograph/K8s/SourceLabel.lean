import Topograph.K8s.LabelFrame

/-! # The source label of the accelerator domain

A node may carry its accelerator domain in a label of its own, the source label. Reconciliation has
to leave it alone. The removal pass excludes it, and the generated accelerator labels are dropped
while it has a value; but generated labels are copied in last, and `getParameters` does not compare
the source label with the keys that are written. So the source label is safe exactly when it is none
of these keys (`sourceLabel_iff`). -/

namespace Topograph.K8s

open Topograph.Topology

variable {keys : TopologyLabelKeys}

/-- What the patch does to the source label is decided by the generated labels that are kept. -/
theorem lookup_patch_source {source : String} (hne : source ≠ "") (current labels : Labels) :
    (nodeLabelPatch current (mergeNodeLabels current labels keys source)).lookup source =
      ((skipAcceleratorLabelsWhenSourceExists current labels keys source).lookup source).bind
        fun value =>
        if current.lookup source = some value then none else some (some value) := by
  rw [lookup_nodeLabelPatch, lookup_mergeNodeLabels, if_pos (Or.inl ⟨hne, rfl⟩)]
  cases (skipAcceleratorLabelsWhenSourceExists current labels keys source).lookup source with
  | none => simp
  | some value =>
    rw [Option.some_or, Option.bind_some]

/-! ## Every output key is written for some graph -/

/-- A vertex below a line of switches, closest first. -/
def tower (v : VTree) : List String → VTree
  | [] => v
  | sw :: switches => tower (.node sw sw [(v.id, v)]) switches

/-- A tower of switches only adds layers. -/
theorem visits_tower (v : VTree) (switches layers : List String) :
    visits (tower v switches) ((tower v switches).id :: layers) = visits v
      (v.id :: (switches ++ layers)) := by
  induction switches generalizing v with
  | nil => rfl
  | cons sw switches ih =>
    rw [tower, ih, visits, childVisits, childVisits, List.append_nil]
    rfl

/-- A node `n` below a line of switches and in no domain. -/
def towerGraph (switches : List String) : ValueGraph where
  tiers := some (.node "" "" [((tower (.node "n" "n" []) switches).id,
    tower (.node "n" "n" []) switches)])
  domains := none

theorem visits_towerGraph (switches : List String) :
    (towerGraph switches).visits = [⟨"n", switches⟩] := by
  have hroot : (towerGraph switches).visits = visits (tower (.node "n" "n" []) switches)
      ((tower (.node "n" "n" []) switches).id :: []) ++ [] := rfl
  rw [hroot, visits_tower, List.append_nil, List.append_nil]
  rfl

/-- The loop over the switches goes on as long as they have IDs and the tiers have keys. -/
theorem exists_mem_tierLabels {switches : List String} (hsw : ∀ sw ∈ switches, sw ≠ "")
    {tier i : Nat} (hi : i < switches.length) (hkeys : ∀ j ≤ i, keys.fabricKey (tier + j) ≠ "") :
    ∃ l ∈ tierLabels keys tier switches, l.1 = keys.fabricKey (tier + i) := by
  induction switches generalizing tier i with
  | nil => exact absurd hi (Nat.not_lt_zero i)
  | cons sw switches ih =>
    obtain ⟨hsw₁, hsw⟩ := List.forall_mem_cons.mp hsw
    have hkey₁ : keys.fabricKey tier ≠ "" := hkeys 0 (Nat.zero_le i)
    rw [tierLabels, if_neg (not_or.mpr ⟨hsw₁, hkey₁⟩)]
    cases i with
    | zero => exact ⟨_, List.mem_cons_self, rfl⟩
    | succ i =>
      obtain ⟨l, hl, hkey⟩ :
          ∃ l ∈ tierLabels keys (tier + 1) switches, l.1 = keys.fabricKey (tier + 1 + i) := by
        refine ih hsw (Nat.lt_of_succ_lt_succ hi) fun j hj => ?_
        have := hkeys (j + 1) (by omega)
        rwa [Nat.add_assoc, Nat.add_comm 1 j]
      exact ⟨l, List.mem_cons_of_mem _ hl, by rw [hkey]; congr 1; omega⟩

/-- Tiers below one with a key have keys. -/
theorem fabricKey_ne_empty {grammar : LabelGrammar} (hvalid : keys.validate grammar = .ok ())
    {tier i : Nat} (hi : i ≤ tier) (hne : keys.fabricKey tier ≠ "") : keys.fabricKey i ≠ "" := by
  rw [TopologyLabelKeys.fabricKey] at hne ⊢
  split_ifs at hne ⊢ with hfabric
  · intro habs
    have hlen := congrArg String.length habs
    rw [fabricTierKey, String.length_append] at hlen
    exact absurd hlen (by simp [keyFabricTierPrefix])
  · have htier : tier < keys.fabric.length := by
      by_contra hge
      exact hne (by rw [List.getElem?_eq_none (Nat.le_of_not_lt hge), Option.getD_none])
    rw [List.getElem?_eq_getElem (Nat.lt_of_le_of_lt hi htier), Option.getD_some]
    exact TopologyLabelKeys.ne_empty_of_mem hvalid (List.mem_append_left _ (List.getElem_mem _))

/-- A host `n` in a domain and a sub-domain, and no fabric. -/
def domainGraph : ValueGraph where
  tiers := none
  domains := some (DomainMap.new.addHostInfo
    { domain := "d", instanceID := "i", hostName := "n", subDomain := "s" })

/-- **Every output key is written.** -/
theorem exists_produces {grammar : LabelGrammar} (hvalid : keys.validate grammar = .ok ())
    {key : String} (hkey : keys.OutputKey key) : ∃ labels, Produces keys labels ∧ key ∈ labels := by
  have hdomain : buildNodeLabels keys (some domainGraph) =
      .ok ((∅ : NodeLabelMap).insert "n" (hostLabels keys "d" ⟨"d", "i", "n", "s"⟩ ∅)) := rfl
  have hproduces : Produces keys (hostLabels keys "d" ⟨"d", "i", "n", "s"⟩ ∅) :=
    ⟨domainGraph, by simp [domainGraph, ValueGraph.visits], _, "n", hdomain, AList.lookup_insert _⟩
  rcases hkey with rfl | rfl | ⟨tier, htier, rfl, hne⟩
  · refine ⟨_, hproduces, ?_⟩
    rw [hostLabels, if_pos (by decide)]
    exact mem_insert_iff.mpr (Or.inr (mem_insert_iff.mpr (Or.inl rfl)))
  · refine ⟨_, hproduces, ?_⟩
    rw [hostLabels, if_pos (by decide)]
    exact mem_insert_iff.mpr (Or.inl rfl)
  · -- A line of switches up to the tier.
    let switches := (List.range (tier + 1)).map toString
    have hmap : buildNodeLabels keys (some (towerGraph switches)) =
        .ok ((∅ : NodeLabelMap).insert "n"
        ((tierLabels keys 0 switches).foldl (fun labels l => labels.insert l.1 l.2) ∅)) := by
      rw [buildNodeLabels_eq, visits_towerGraph]
      rfl
    have hsw : ∀ sw ∈ switches, sw ≠ "" := by
      intro sw hmem hempty
      obtain ⟨i, -, rfl⟩ := List.mem_map.mp hmem
      have hdigits := toList_toString i
      rw [hempty] at hdigits
      exact Nat.toDigits_ne_nil hdigits.symm
    have hlen : switches.length = tier + 1 := by simp [switches]
    obtain ⟨l, hl, hkey⟩ : ∃ l ∈ tierLabels keys 0 switches, l.1 = keys.fabricKey (0 + tier) := by
      refine exists_mem_tierLabels hsw (by omega) fun j hj => ?_
      rw [Nat.zero_add]
      exact fabricKey_ne_empty hvalid hj hne
    rw [Nat.zero_add] at hkey
    refine ⟨_, ⟨towerGraph switches, ?_, _, "n", hmap, AList.lookup_insert _⟩,
      GoMap.mem_foldl_insert.mpr (Or.inr ⟨l, hl, hkey⟩)⟩
    rw [visits_towerGraph]
    simpa [hlen] using htier

/-! ## The source label -/

/-- **The source label is left alone** for all current and all generated labels exactly when it is
none of the keys that are written. -/
theorem sourceLabel_iff (grammar : LabelGrammar) (p : Params) (keys : TopologyLabelKeys)
    (hparams : getParameters grammar p = .ok keys) (hsource : p.acceleratorDomainSourceLabel ≠ "") :
    (∀ current labels, Produces keys labels →
      let patch := nodeLabelPatch current (mergeNodeLabels current labels keys
        p.acceleratorDomainSourceLabel)
      patch.lookup p.acceleratorDomainSourceLabel = none ∧
        ∀ server, (applyPatch server patch).lookup p.acceleratorDomainSourceLabel =
          server.lookup p.acceleratorDomainSourceLabel) ↔
      ¬ keys.OutputKey p.acceleratorDomainSourceLabel := by
  obtain ⟨-, hvalid⟩ := getParameters_eq_ok hparams
  constructor
  · intro h hout
    -- A node without labels gets the key.
    obtain ⟨labels, hproduces, hmem⟩ := exists_produces hvalid hout
    obtain ⟨value, hvalue⟩ := GoMap.mem_iff_lookup.mp hmem
    have hpatch := (h ∅ labels hproduces).1
    rw [lookup_patch_source hsource, skipAcceleratorLabelsWhenSourceExists,
      if_pos (Or.inr (by rfl)), hvalue] at hpatch
    exact absurd hpatch (by simp)
  · intro hout current labels hproduces
    have hnone : (nodeLabelPatch current (mergeNodeLabels current labels keys
        p.acceleratorDomainSourceLabel)).lookup
        p.acceleratorDomainSourceLabel = none := by
      rw [lookup_patch_source hsource]
      cases hskip : (skipAcceleratorLabelsWhenSourceExists current labels keys
        p.acceleratorDomainSourceLabel).lookup
          p.acceleratorDomainSourceLabel with
      | none => rfl
      | some value =>
        exact absurd (hproduces.outputKey (GoMap.mem_iff_lookup.mpr ⟨value, mem_of_mem_skip hskip⟩))
          hout
    refine ⟨hnone, fun server => ?_⟩
    rw [lookup_applyPatch, hnone, Option.getD_none]

/-- A source label that is not written is safe. -/
theorem clique_sourceLabel :
    getParameters anyKey (defaultParams "nvidia.com/gpu.clique") = .ok
      (newTopologyLabelKeys [] "") ∧
    ∀ current labels, Produces (newTopologyLabelKeys [] "") labels →
      (nodeLabelPatch current (mergeNodeLabels current labels (newTopologyLabelKeys [] "")
        "nvidia.com/gpu.clique")).lookup "nvidia.com/gpu.clique" = none := by
  have h := (sourceLabel_iff anyKey (defaultParams "nvidia.com/gpu.clique")
    (newTopologyLabelKeys [] "") rfl
    (by decide)).mpr (by
      rintro (habs | habs | ⟨tier, -, habs, -⟩)
      · exact absurd habs (by decide)
      · exact absurd habs (by decide)
      · -- The first letters differ.
        have hhead := congrArg (fun s : String => s.toList.head?) habs
        have hfabric : (newTopologyLabelKeys [] "").fabric = [] := rfl
        rw [TopologyLabelKeys.fabricKey, if_pos hfabric, fabricTierKey, String.toList_append]
          at hhead
        exact absurd hhead (by simp [keyFabricTierPrefix, defaultParams]))
  exact ⟨rfl, fun current labels hproduces => (h current labels hproduces).1⟩

/-- **A default fabric key is accepted as source label**, and the switch of the node overwrites its
value. -/
theorem tierKey_source_overwritten :
    getParameters anyKey (defaultParams (fabricTierKey 0)) = .ok (newTopologyLabelKeys [] "") ∧
      ∃ current labels, Produces (newTopologyLabelKeys [] "") labels ∧
        current.lookup (fabricTierKey 0) = some "clique" ∧
        (nodeLabelPatch current (mergeNodeLabels current labels (newTopologyLabelKeys [] "")
          (fabricTierKey 0))).lookup (fabricTierKey 0) = some (some "s") :=
  ⟨rfl, (∅ : Labels).insert (fabricTierKey 0) "clique", belowSwitchLabels "s",
    produces_belowSwitch (by decide) (by decide), by decide, by decide⟩

end Topograph.K8s
