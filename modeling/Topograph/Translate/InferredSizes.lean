import Topograph.Translate.Slots

/-! # Inferred block sizes

Without configured block sizes, `complementBlocks` takes the largest named sub-domain as base size
`S` and the smallest `S * 2 ^ k` that holds the largest domain as last size
(`InferTwoLevelBlockSizes`). The tree gives every sub-domain of a domain, the fallback one included,
a slot as wide as that of the largest of them, so a domain of many small sub-domains outgrows the
last size although its hosts would fit (`inferredSizes_fit_iff`). -/

namespace Topograph.Translate

open Topograph.Topology

/-! ## What is inferred -/

/-- Every named sub-domain is counted, with at least one host. -/
theorem subSizes_pos {hosts : Hosts} {host : HostInfo} (hmem : host ∈ hosts.values)
    (hsub : host.subDomain ≠ "") : ∃ n ∈ (subSizes hosts).values, 0 < n := by
  have hrun : ∀ (l : List HostInfo) (sizes : GoMap String Nat),
      (host ∈ l ∨ ∃ n, sizes.lookup host.subDomain = some n ∧ 0 < n) →
      ∃ n, (l.foldl (fun sizes host =>
        if host.subDomain = "" then sizes
        else sizes.insert host.subDomain ((sizes.lookup host.subDomain).getD 0 + 1)) sizes).lookup
          host.subDomain = some n ∧ 0 < n := by
    intro l
    induction l with
    | nil => exact fun sizes h => h.resolve_left List.not_mem_nil
    | cons h l ih =>
      intro sizes hor
      rw [List.foldl_cons]
      apply ih
      rcases hor with hmem | ⟨n, hn, hpos⟩
      · rcases List.mem_cons.mp hmem with rfl | hmem
        · rw [if_neg hsub]
          exact Or.inr ⟨_, AList.lookup_insert _, Nat.succ_pos _⟩
        · exact Or.inl hmem
      · split_ifs
        · exact Or.inr ⟨n, hn, hpos⟩
        · rw [GoMap.lookup_insert_eq_ite]
          split_ifs
          · exact Or.inr ⟨_, rfl, Nat.succ_pos _⟩
          · exact Or.inr ⟨n, hn, hpos⟩
  obtain ⟨n, hn, hpos⟩ := hrun hosts.values ∅ (Or.inl hmem)
  exact ⟨n, GoMap.mem_values.mpr ⟨_, GoMap.lookup_eq_some_iff.mp hn⟩, hpos⟩

/-- The hosts of the largest domain. -/
def maxDomainSize (m : DomainMap) : Nat :=
  (m.hosts.values.map fun hosts => hosts.values.length).foldl max 0

theorem length_le_maxDomainSize {m : DomainMap} {domain : String} {hosts : Hosts}
    (h : m.hosts.lookup domain = some hosts) : hosts.values.length ≤ maxDomainSize m := by
  apply le_foldl_max
  exact List.mem_map.mpr ⟨hosts, GoMap.mem_values.mpr ⟨domain, GoMap.lookup_eq_some_iff.mp h⟩, rfl⟩

/-- **The inferred sizes**: a positive base size, and the capacity of the largest domain as last
size. -/
theorem inferred_spec {m : DomainMap} (h : m.hosts.values.any hasSubDomain = true) :
    PowerSizes m.inferTwoLevelBlockSizes ∧
      m.inferTwoLevelBlockSizes.getLastD 0 = aggregateSlotCapacity (maxDomainSize m)
        (m.inferTwoLevelBlockSizes.headD 0) := by
  have hmax : (m.hosts.values.map fun hosts => hosts.entries.length).foldl max 0 =
      maxDomainSize m := by
    rw [maxDomainSize]
    congr 1
    apply List.map_congr_left
    intro hosts _
    exact (List.length_map _).symm
  obtain ⟨S, hS⟩ : ∃ S, S = (m.hosts.values.flatMap fun hosts => (subSizes hosts).values).foldl
      max 0 := ⟨_, rfl⟩
  have hpos : 0 < S := by
    obtain ⟨hosts, hhosts, hsub⟩ := List.any_eq_true.mp h
    obtain ⟨host, hhost, hname⟩ := List.any_eq_true.mp hsub
    obtain ⟨n, hn, hn0⟩ := subSizes_pos hhost (by simpa using hname)
    rw [hS]
    exact Nat.lt_of_lt_of_le hn0 (le_foldl_max (List.mem_flatMap.mpr ⟨hosts, hhosts, hn⟩) 0)
  have hpow := isPowMul_aggregateSlotCapacity (maxDomainSize m) S
  have hsizes : m.inferTwoLevelBlockSizes =
      if aggregateSlotCapacity (maxDomainSize m) S = S then [S]
        else [S, aggregateSlotCapacity (maxDomainSize m) S] := by
    rw [DomainMap.inferTwoLevelBlockSizes]
    dsimp only
    rw [if_pos h, hmax, ← hS]
    rfl
  rw [hsizes]
  split_ifs with heq
  · refine ⟨⟨hpos, ?_, List.pairwise_singleton _ _⟩, heq.symm⟩
    intro b hb
    rw [List.mem_singleton.mp hb]
    exact .refl S
  · refine ⟨⟨hpos, ?_, ?_⟩, rfl⟩
    · intro b hb
      rcases List.mem_pair.mp hb with rfl | rfl
      · exact .refl b
      · exact hpow
    · have hle : S ≤ aggregateSlotCapacity (maxDomainSize m) S :=
        Nat.le_of_dvd (hpow.pos hpos) hpow.base_dvd
      exact List.pairwise_pair.mpr (Nat.lt_of_le_of_ne hle (Ne.symm heq))

theorem entries_ne_nil_of_hasSubDomain {m : DomainMap}
    (h : m.hosts.values.any hasSubDomain = true) : m.hosts.entries ≠ [] := by
  intro hnil
  rw [GoMap.values, hnil] at h
  exact absurd h (by simp)

/-- Without configured sizes the inferred ones are in effect. -/
theorem complementBlocks_nil {all : DomainMap} {blocks : List BlockInfo}
    (h : (domainsForBlocks all blocks).hosts.values.any hasSubDomain = true) :
    complementBlocks (some all) blocks [] =
      complementBlocks (some all) blocks (domainsForBlocks all blocks).inferTwoLevelBlockSizes := by
  have hs := (inferred_spec h).1
  have hne : (domainsForBlocks all blocks).inferTwoLevelBlockSizes ≠ [] :=
    fun hnil => absurd (hnil ▸ hs.pos) (by simp)
  simp [complementBlocks, entries_ne_nil_of_hasSubDomain h, hne]

/-! ## The slots under inferred sizes -/

/-- What the sub-domains of a domain need, when none of them exceeds the last size. -/
theorem need_eq {sizes counts : List Nat} (hle : counts.foldl max 0 ≤ sizes.getLastD 0) :
    (counts.map (leafSlot sizes (sizes.getLastD 0 < counts.foldl max 0) (counts.foldl max 0))).sum =
      counts.length * aggregateSlotCapacity (counts.foldl max 0) (sizes.headD 0) := by
  have hconst : ∀ n ∈ counts, leafSlot sizes (sizes.getLastD 0 < counts.foldl max 0)
      (counts.foldl max 0) n =
      aggregateSlotCapacity (counts.foldl max 0) (sizes.headD 0) := by
    intro n _
    rw [leafSlot, if_neg (Nat.not_lt.mpr hle)]
  rw [List.map_congr_left hconst, List.map_const', List.sum_replicate, Nat.nsmul_eq_mul]

/-- No sub-domain is larger than its domain. -/
theorem max_subCounts_le (domain : String) (hosts : Hosts) :
    (subCounts domain hosts).foldl max 0 ≤ hosts.values.length := by
  refine List.foldlRecOn (motive := (· ≤ hosts.values.length)) _ max (Nat.zero_le _)
    fun k hk n hn => max_le hk ?_
  obtain ⟨g, -, rfl⟩ := List.mem_map.mp hn
  exact List.length_filter_le _ _

section Slots

variable {m : DomainMap} (h : m.hosts.values.any hasSubDomain = true)

include h

/-- The last size holds every domain. -/
theorem maxDomainSize_le_last : maxDomainSize m ≤ m.inferTwoLevelBlockSizes.getLastD 0 := by
  obtain ⟨hs, hlast⟩ := inferred_spec h
  rw [hlast]
  exact le_aggregateSlotCapacity _ hs.pos

/-- **The slot of a domain with sub-domains** is the last size exactly when its sub-domains fit, and
larger otherwise. -/
theorem subDomainSlot_inferred {domain : String} {hosts : Hosts}
    (hlook : m.hosts.lookup domain = some hosts) :
    let sizes := m.inferTwoLevelBlockSizes
    let counts := subCounts domain hosts
    let need := counts.length * aggregateSlotCapacity (counts.foldl max 0) (sizes.headD 0)
    (need ≤ sizes.getLastD 0 → subDomainSlot sizes (maxDomainSize m) counts = sizes.getLastD 0) ∧
      (sizes.getLastD 0 < need →
        sizes.getLastD 0 < subDomainSlot sizes (maxDomainSize m) counts) := by
  intro sizes counts need
  obtain ⟨hs, hlast⟩ := inferred_spec h
  have hmax := maxDomainSize_le_last h
  have hcounts : counts.foldl max 0 ≤ sizes.getLastD 0 :=
    (max_subCounts_le domain hosts).trans ((length_le_maxDomainSize hlook).trans hmax)
  unfold subDomainSlot
  dsimp only
  rw [need_eq hcounts, Nat.min_eq_right hmax, ← hlast]
  refine ⟨fun hle => ?_, fun hlt => ?_⟩
  · rw [if_neg fun hover => Nat.not_lt.mpr hle hover.1, Nat.max_eq_left hle]
  · split_ifs
    · -- No size holds the sub-domains, so the slot is their own capacity.
      have hfind : ((sizes.drop 1).find? fun b => need ≤ b) = none := by
        rw [List.find?_eq_none]
        intro b hb
        have hble : b ≤ sizes.getLastD 0 := hs.le_last (List.mem_of_mem_drop hb)
        simpa using Nat.lt_of_le_of_lt hble hlt
      rw [hfind, Option.getD_none]
      exact Nat.lt_of_lt_of_le hlt (le_aggregateSlotCapacity _ hs.pos)
    · exact lt_max_of_lt_right hlt

/-- What the slot of a domain is, under inferred sizes. -/
theorem mem_slotSizes_inferred {c : Nat} :
    c ∈ slotSizes m.inferTwoLevelBlockSizes m ↔ ∃ domain hosts, m.hosts.lookup domain = some hosts ∧
      c = if hasSubDomain hosts then subDomainSlot m.inferTwoLevelBlockSizes (maxDomainSize m)
        (subCounts domain hosts)
        else m.inferTwoLevelBlockSizes.getLastD 0 := by
  obtain ⟨-, hlast⟩ := inferred_spec h
  have hslot : ∀ domain hosts, domainSlot m.inferTwoLevelBlockSizes
      (!m.hosts.values.any hasSubDomain) (maxDomainSize m) domain hosts =
      if hasSubDomain hosts then subDomainSlot m.inferTwoLevelBlockSizes (maxDomainSize m)
        (subCounts domain hosts)
        else m.inferTwoLevelBlockSizes.getLastD 0 := by
    intro domain hosts
    rw [domainSlot, h, Bool.not_true, if_neg Bool.false_ne_true, leafSlot,
      if_neg (Nat.not_lt.mpr (maxDomainSize_le_last h)), ← hlast]
  rw [slotSizes, List.mem_map]
  constructor
  · rintro ⟨e, he, rfl⟩
    exact ⟨e.1, e.2, GoMap.lookup_eq_some_iff.mpr ((List.mem_insertionSort _).mp he), hslot e.1 e.2⟩
  · rintro ⟨domain, hosts, hlook, rfl⟩
    exact ⟨⟨domain, hosts⟩, (List.mem_insertionSort _).mpr (GoMap.lookup_eq_some_iff.mp hlook),
      hslot domain hosts⟩

end Slots

/-! ## Domains and the last size -/

/-- **The domains fit the last size.** Cut the blocks that are returned without configured sizes in
front of and behind the slot of a domain: the slot has at most as many positions as the last size,
and the first and the last of them lie in one aggregate of that size. -/
def FitLast (all : DomainMap) (blocks : List BlockInfo) : Prop :=
  ∀ pre agg post,
    domainAggregates (complementBlocks (some all) blocks []).2
    (domainsForBlocks all blocks).getDomainTree = pre ++ agg :: post →
    ∀ before own after, (complementBlocks (some all) blocks []).1 = before ++ own ++ after →
      before.length = (pre.flatMap collectBaseBlockSlots).length →
      own.length = (collectBaseBlockSlots agg).length →
      let base := (complementBlocks (some all) blocks []).2.headD 0
      let last := (complementBlocks (some all) blocks []).2.getLastD 0
      own.length * base ≤ last ∧
        before.length * base / last = (before.length * base + own.length * base - 1) / last

/-- **When inferred sizes fit**: every domain with sub-domains has room in the last size for as many
slots as it has sub-domains, each as wide as the largest of them needs. -/
theorem inferredSizes_fit_iff {all : DomainMap} {blocks : List BlockInfo}
    (h : (domainsForBlocks all blocks).hosts.values.any hasSubDomain = true) :
    FitLast all blocks ↔ ∀ domain hosts, (domainsForBlocks all blocks).hosts.lookup domain =
      some hosts → hasSubDomain hosts = true →
      (subCounts domain hosts).length * aggregateSlotCapacity ((subCounts domain hosts).foldl max 0)
        ((domainsForBlocks all blocks).inferTwoLevelBlockSizes.headD 0) ≤
          (domainsForBlocks all blocks).inferTwoLevelBlockSizes.getLastD 0 := by
  obtain ⟨hs, -⟩ := inferred_spec h
  have hne := entries_ne_nil_of_hasSubDomain h
  have hmap := map_nodeCount_domainAggregates hs.pos (domainsForBlocks all blocks)
  unfold FitLast
  rw [complementBlocks_nil h]
  have hsnd : (complementBlocks (some all) blocks
      (domainsForBlocks all blocks).inferTwoLevelBlockSizes).2 =
      (domainsForBlocks all blocks).inferTwoLevelBlockSizes := by rw [complementBlocks_eq hs hne]
  rw [hsnd]
  constructor
  · intro hfit domain hosts hlook hsub
    by_contra hover
    -- The slot of the domain is among the aggregates, and too large.
    have hmem := (mem_slotSizes_inferred h).mpr ⟨domain, hosts, hlook, (if_pos hsub).symm⟩
    rw [← hmap] at hmem
    obtain ⟨agg, hagg, hcount⟩ := List.mem_map.mp hmem
    obtain ⟨pre, post, hsplit⟩ := List.append_of_mem hagg
    obtain ⟨before, own, after, hcut, hbefore, hown⟩ := exists_cut hs hne hsplit
    have hle := (hfit pre agg post hsplit before own after hcut hbefore hown).1
    rw [hown, (positions_of_split hsplit).2, hcount] at hle
    exact absurd hle (Nat.not_le.mpr ((subDomainSlot_inferred h hlook).2 (Nat.lt_of_not_le hover)))
  · intro hcond pre agg post hsplit before own after _ hbefore hown
    -- Every slot has exactly the last size.
    have hslots : ∀ a ∈ pre ++ agg :: post, a.nodeCount =
        (domainsForBlocks all blocks).inferTwoLevelBlockSizes.getLastD 0 := by
      intro a ha
      have hmem : a.nodeCount ∈ slotSizes (domainsForBlocks all blocks).inferTwoLevelBlockSizes
          (domainsForBlocks all blocks) :=
        hmap ▸ List.mem_map_of_mem (hsplit ▸ ha)
      obtain ⟨domain, hosts, hlook, hc⟩ := (mem_slotSizes_inferred h).mp hmem
      rw [hc]
      split_ifs with hsub
      · exact (subDomainSlot_inferred h hlook).1 (hcond domain hosts hlook hsub)
      · rfl
    obtain ⟨hpre, hagg⟩ := positions_of_split hsplit
    have hsum : (pre.map (·.nodeCount)).sum =
        pre.length * (domainsForBlocks all blocks).inferTwoLevelBlockSizes.getLastD 0 := by
      rw [List.map_congr_left fun a ha => hslots a (List.mem_append_left _ ha), List.map_const',
        List.sum_replicate,
        Nat.nsmul_eq_mul]
    have hpos := hs.last.pos hs.pos
    dsimp only
    rw [hbefore, hown, hpre, hagg, hsum, hslots agg (by simp)]
    refine ⟨Nat.le_refl _, ?_⟩
    rw [Nat.mul_div_cancel _ hpos, Nat.add_sub_assoc hpos, Nat.mul_comm, Nat.mul_add_div hpos,
      Nat.div_eq_of_lt (Nat.sub_lt hpos Nat.one_pos), Nat.add_zero]

/-- Two sub-domains of two hosts each. -/
def evenRacks : DomainMap :=
  [("a", "a1", "s1"), ("a", "a2", "s1"), ("a", "a3", "s2"), ("a", "a4", "s2")].foldl (fun m h =>
    m.addHostInfo { domain := h.1, instanceID := h.2.1, hostName := h.2.1, subDomain := h.2.2 })
      DomainMap.new

theorem evenRacks_fit :
    (domainsForBlocks evenRacks (toBlockInfos evenRacks)).hosts.values.any hasSubDomain = true ∧
      FitLast evenRacks (toBlockInfos evenRacks) := by
  have hsub : (domainsForBlocks evenRacks (toBlockInfos evenRacks)).hosts.values.any hasSubDomain =
      true := by decide
  refine ⟨hsub, (inferredSizes_fit_iff hsub).mpr fun domain hosts hlook _ => ?_⟩
  have hmem : (⟨domain, hosts⟩ : Σ _ : String, Hosts) ∈
      (domainsForBlocks evenRacks (toBlockInfos evenRacks)).hosts.entries :=
    GoMap.lookup_eq_some_iff.mp hlook
  have hall : ∀ e ∈ (domainsForBlocks evenRacks (toBlockInfos evenRacks)).hosts.entries,
      (subCounts e.1 e.2).length * aggregateSlotCapacity ((subCounts e.1 e.2).foldl max 0)
        ((domainsForBlocks evenRacks (toBlockInfos evenRacks)).inferTwoLevelBlockSizes.headD 0) ≤
          (domainsForBlocks evenRacks (toBlockInfos evenRacks)).inferTwoLevelBlockSizes.getLastD
          0 := by decide
  exact hall ⟨domain, hosts⟩ hmem

/-- A sub-domain of four hosts and two of one host. -/
def unevenRacks : DomainMap :=
  [("a", "a1", "s1"), ("a", "a2", "s1"), ("a", "a3", "s1"), ("a", "a4", "s1"), ("a", "a5", "s2"),
    ("a", "a6", "s3")].foldl (fun m h =>
    m.addHostInfo { domain := h.1, instanceID := h.2.1, hostName := h.2.1, subDomain := h.2.2 })
      DomainMap.new

/-- The inferred sizes are 4 and 8, but the domain needs three blocks of 4 and gets 16 positions. -/
theorem unevenRacks_overflow :
    (complementBlocks (some unevenRacks) (toBlockInfos unevenRacks) []).2 = [4, 8] ∧
      (complementBlocks (some unevenRacks) (toBlockInfos unevenRacks) []).1.map (·.nodes) =
        [["a1", "a2", "a3", "a4"], ["a5"], ["a6"], []] ∧
      ¬ FitLast unevenRacks (toBlockInfos unevenRacks) := by
  refine ⟨by decide, by decide, fun h => ?_⟩
  obtain ⟨x, hx, hlen⟩ :
      ∃ x, domainAggregates (complementBlocks (some unevenRacks) (toBlockInfos unevenRacks) []).2
      (domainsForBlocks unevenRacks (toBlockInfos unevenRacks)).getDomainTree = [] ++ x :: [] ∧
        (collectBaseBlockSlots x).length = 4 := ⟨_, rfl, by decide⟩
  have hcut := (h [] x [] hx [] (complementBlocks (some unevenRacks) (toBlockInfos unevenRacks)
    []).1 [] (by simp) rfl
    (by rw [hlen]; decide)).1
  exact absurd hcut (by decide)

end Topograph.Translate
