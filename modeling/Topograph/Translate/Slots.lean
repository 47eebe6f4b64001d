import Topograph.Translate.SlotSizes

/-! # Positions of the slots

Slurm groups the emitted blocks by position, so what counts is where a domain starts and where the
list ends. The end is exact: the list is filled up to the least multiple of the last block size
(`length_complementBlocks_isLeast`). The starts are not always aligned; `aligned_iff` says when they
are. -/

namespace Topograph.Translate

open Topograph.Topology

/-! ## The common divisor of the slots -/

/-- Euclid's loop. -/
theorem gcdLoop_eq_gcd {fuel a b : Nat} (h : b < fuel) : gcdLoop fuel a b = Nat.gcd a b := by
  induction fuel generalizing a b with
  | zero => exact absurd h (Nat.not_lt_zero b)
  | succ fuel ih =>
    rw [gcdLoop]
    split_ifs with hb
    · rw [hb, Nat.gcd_zero_right]
    · have hlt := Nat.mod_lt a (Nat.pos_of_ne_zero hb)
      rw [ih (by omega), Nat.gcd_comm b, ← Nat.gcd_rec, Nat.gcd_comm]

/-- `blockTreeGCD` is the greatest common divisor. -/
theorem blockTreeGCD_eq_gcd (a b : Nat) : blockTreeGCD a b = Nat.gcd a b := by
  rw [blockTreeGCD]
  split_ifs with ha
  · rw [ha, Nat.gcd_zero_left]
  · exact gcdLoop_eq_gcd (Nat.lt_succ_self b)

theorem dvd_childCapacity_iff (aggs : List AggregateBlockNode) (d : Nat) :
    d ∣ childCapacity aggs ↔ ∀ agg ∈ aggs, d ∣ agg.nodeCount := by
  have hrun : ∀ capacity : Nat, d ∣ aggs.foldl (fun capacity agg =>
      if capacity = 0 then agg.nodeCount else blockTreeGCD capacity agg.nodeCount) capacity ↔
        d ∣ capacity ∧ ∀ agg ∈ aggs, d ∣ agg.nodeCount := by
    induction aggs with
    | nil => simp
    | cons agg aggs ih =>
      intro capacity
      rw [List.foldl_cons, ih, List.forall_mem_cons, ← and_assoc]
      apply and_congr_left'
      split_ifs with hzero
      · rw [hzero]
        simp
      · rw [blockTreeGCD_eq_gcd, Nat.dvd_gcd_iff]
  rw [childCapacity, hrun]
  simp

/-! ## The shape of the slots -/

section Shape

variable {sizes : List Nat}

/-- A leaf slot consists of base blocks. -/
theorem dvd_leafSlot (oversized : Prop) [Decidable oversized] (maxN n : Nat) :
    sizes.headD 0 ∣ leafSlot sizes oversized maxN n := by
  rw [leafSlot]
  split_ifs
  · exact Dvd.intro_left _ rfl
  · exact (isPowMul_aggregateSlotCapacity _ _).base_dvd

/-- With more than one block size, a domain with sub-domains takes a power-of-two slot. -/
theorem isPowMul_subDomainSlot (hlen : 2 ≤ sizes.length) (maxN : Nat) (counts : List Nat) :
    IsPowMul (sizes.headD 0) (subDomainSlot sizes maxN counts) := by
  unfold subDomainSlot
  dsimp only
  split_ifs with hover
  · exact isPowMul_aggregateSlotCapacity _ _
  · -- The slot of the siblings is large enough.
    rw [max_eq_left (Nat.le_of_not_lt fun h => hover ⟨h, hlen⟩)]
    exact isPowMul_aggregateSlotCapacity _ _

theorem dvd_subDomainSlot (maxN : Nat) (counts : List Nat) :
    sizes.headD 0 ∣ subDomainSlot sizes maxN counts := by
  unfold subDomainSlot
  dsimp only
  split_ifs
  · exact (isPowMul_aggregateSlotCapacity _ _).base_dvd
  · rcases max_choice (aggregateSlotCapacity (min (sizes.getLastD 0) maxN) (sizes.headD 0))
      (counts.map (leafSlot sizes (sizes.getLastD 0 < counts.foldl max 0) (counts.foldl max 0))).sum
      with h | h
    · rw [h]
      exact (isPowMul_aggregateSlotCapacity _ _).base_dvd
    · rw [h]
      apply List.dvd_sum
      intro c hc
      obtain ⟨n, -, rfl⟩ := List.mem_map.mp hc
      exact dvd_leafSlot _ _ _

/-- Every slot is made of base blocks. -/
theorem dvd_of_mem_slotSizes {m : DomainMap} {c : Nat} (hc : c ∈ slotSizes sizes m) :
    sizes.headD 0 ∣ c := by
  obtain ⟨e, -, rfl⟩ := List.mem_map.mp hc
  unfold domainSlot
  split_ifs
  · exact dvd_subDomainSlot _ _
  · exact dvd_leafSlot _ _ _
  · exact dvd_leafSlot _ _ _

/-- **With more than one block size, some slot is a power of two of base blocks**: the slot of a
domain with sub-domains, or, if there is none, every slot. -/
theorem exists_isPowMul_slotSizes (hlen : 2 ≤ sizes.length) {m : DomainMap}
    (hne : m.hosts.entries ≠ []) : ∃ c ∈ slotSizes sizes m, IsPowMul (sizes.headD 0) c := by
  have hsorted : ∀ e ∈ m.hosts.entries, e ∈ m.hosts.entries.insertionSort fun a b => a.1 ≤ b.1 :=
    fun e he => (List.mem_insertionSort _).mpr he
  by_cases hany : ∃ e ∈ m.hosts.entries, hasSubDomain e.2 = true
  · obtain ⟨e, he, hsub⟩ := hany
    refine ⟨_, List.mem_map_of_mem (hsorted e he), ?_⟩
    rw [domainSlot, if_pos hsub]
    exact isPowMul_subDomainSlot hlen _ _
  · obtain ⟨e, he⟩ := List.exists_mem_of_ne_nil _ hne
    have hsingle : (!m.hosts.values.any hasSubDomain) = true := by
      rw [Bool.not_eq_true', List.any_eq_false]
      intro hosts hmem hsub
      obtain ⟨domain, hentry⟩ := GoMap.mem_values.mp hmem
      exact hany ⟨_, hentry, hsub⟩
    refine ⟨_, List.mem_map_of_mem (hsorted e he), ?_⟩
    rw [domainSlot, if_neg fun hsub => hany ⟨e, he, hsub⟩, hsingle, if_pos rfl, leafSlot,
      if_neg (by omega)]
    exact isPowMul_aggregateSlotCapacity _ _

end Shape

/-! ## The padding of the root -/

variable {target capacity b fuel : Nat} {result : AggregateBlockNode}

/-- **The loop stops exactly on its target** when the capacity divides the distance. -/
theorem nodeCount_padRoot (hle : result.nodeCount ≤ target)
    (hdvd : capacity ∣ target - result.nodeCount) (hfuel : target - result.nodeCount ≤ fuel)
    (hcap : 0 < capacity) :
    (padRoot target capacity b fuel result).nodeCount = target := by
  induction fuel generalizing result with
  | zero =>
    rw [padRoot]
    omega
  | succ fuel ih =>
    rw [padRoot]
    split_ifs with hlt
    · have hstep : capacity ≤ target - result.nodeCount := Nat.le_of_dvd (by omega) hdvd
      apply ih
      · show result.nodeCount + capacity ≤ target
        omega
      · show capacity ∣ target - (result.nodeCount + capacity)
        rw [← Nat.sub_sub]
        exact Nat.dvd_sub hdvd (dvd_refl capacity)
      · show target - (result.nodeCount + capacity) ≤ fuel
        omega
    · omega

/-- Padding counts its empty blocks. -/
theorem counted_padRoot (hdvd : b ∣ capacity) (h : Counted b result) :
    Counted b (padRoot target capacity b fuel result) := by
  induction fuel generalizing result with
  | zero => exact h
  | succ fuel ih =>
    rw [padRoot]
    split_ifs
    · apply ih
      show result.nodeCount + capacity = (childSlots (result.children ++
        [(newEmptyChildAggregate capacity b).toNode])).length * b
      have hempty : (collectBaseBlockSlots (newEmptyChildAggregate capacity b)).length * b =
          capacity := by
        rw [newEmptyChildAggregate, collectBaseBlockSlots_aggregateOf, List.length_replicate,
          Nat.div_mul_cancel hdvd]
      have hold : result.nodeCount = (childSlots result.children).length * b := h
      rw [childSlots_append, List.length_append, add_mul, ← hold, childSlots, childSlots,
        List.append_nil]
      show result.nodeCount + capacity =
        result.nodeCount + (collectBaseBlockSlots (newEmptyChildAggregate capacity b)).length * b
      rw [hempty]
    · exact h

/-- The domains below the root, before any padding. -/
def unpaddedRoot (sizes : List Nat) (m : DomainMap) : AggregateBlockNode where
  id := ""
  children := (domainAggregates sizes m.getDomainTree).map (·.toNode)
  nodeCount := ((domainAggregates sizes m.getDomainTree).map (·.nodeCount)).sum

/-- The two outcomes of `toRootAggregate`. -/
theorem toRootAggregate_eq (sizes : List Nat) (m : DomainMap) :
    toRootAggregate m.getDomainTree sizes =
      let capacity := childCapacity (domainAggregates sizes m.getDomainTree)
      let total := ((domainAggregates sizes m.getDomainTree).map (·.nodeCount)).sum
      let step := capacity / blockTreeGCD capacity (sizes.getLastD 0) * sizes.getLastD 0
      if 0 < total ∧ 0 < capacity ∧ total % sizes.getLastD 0 ≠ 0 then
        padRoot ((total + step - 1) / step * step) capacity (sizes.headD 0)
          ((total + step - 1) / step * step - total) (unpaddedRoot sizes m)
      else unpaddedRoot sizes m := rfl

theorem collectBaseBlockSlots_unpaddedRoot (sizes : List Nat) (m : DomainMap) :
    collectBaseBlockSlots (unpaddedRoot sizes m) =
      (domainAggregates sizes m.getDomainTree).flatMap collectBaseBlockSlots :=
  childSlots_map_toNode _

variable {agg : AggregateBlockNode}

theorem counted_of_mem_domainAggregates {sizes : List Nat} {m : DomainMap}
    (hagg : agg ∈ domainAggregates sizes m.getDomainTree) : Counted (sizes.headD 0) agg := by
  obtain ⟨d, -, rfl⟩ := List.mem_map.mp hagg
  exact counted_domainAggregate _ _ _ _

/-- The base blocks of some domains, counted in positions. -/
theorem length_slots_mul {sizes : List Nat} {m : DomainMap} {aggs : List AggregateBlockNode}
    (h : ∀ agg ∈ aggs, agg ∈ domainAggregates sizes m.getDomainTree) :
    (aggs.flatMap collectBaseBlockSlots).length * sizes.headD 0 = (aggs.map (·.nodeCount)).sum := by
  rw [List.length_flatMap, ← List.sum_map_mul_right]
  congr 1
  apply List.map_congr_left
  intro agg hagg
  exact (counted_of_mem_domainAggregates (h agg hagg)).symm

theorem counted_unpaddedRoot (sizes : List Nat) (m : DomainMap) :
    Counted (sizes.headD 0) (unpaddedRoot sizes m) := by
  rw [Counted, collectBaseBlockSlots_unpaddedRoot, length_slots_mul fun _ h => h]
  rfl

section Root

variable {sizes : List Nat} (hs : PowerSizes sizes) (m : DomainMap)

include hs

theorem mem_slotSizes_of_mem (hagg : agg ∈ domainAggregates sizes m.getDomainTree) :
    agg.nodeCount ∈ slotSizes sizes m := by
  rw [← map_nodeCount_domainAggregates hs.pos]
  exact List.mem_map.mpr ⟨agg, hagg, rfl⟩

theorem base_dvd_childCapacity :
    sizes.headD 0 ∣ childCapacity (domainAggregates sizes m.getDomainTree) :=
  (dvd_childCapacity_iff _ _).mpr fun _ hagg =>
    dvd_of_mem_slotSizes (mem_slotSizes_of_mem hs m hagg)

theorem counted_toRootAggregate :
    Counted (sizes.headD 0) (toRootAggregate m.getDomainTree sizes) := by
  rw [toRootAggregate_eq]
  dsimp only
  split_ifs
  · exact counted_padRoot (base_dvd_childCapacity hs m) (counted_unpaddedRoot sizes m)
  · exact counted_unpaddedRoot sizes m

/-- **The common divisor of the slots divides the last block size**, unless the last block size
divides every slot. -/
theorem childCapacity_dvd_or (hne : m.hosts.entries ≠ []) :
    childCapacity (domainAggregates sizes m.getDomainTree) ∣ sizes.getLastD 0 ∨
      sizes.getLastD 0 ∣ (slotSizes sizes m).sum := by
  rcases Nat.lt_or_ge sizes.length 2 with hlen | hlen
  · -- The only block size is the base size.
    right
    have hlast : sizes.getLastD 0 = sizes.headD 0 := by
      match sizes, hlen with
      | [], _ => rfl
      | [_], _ => rfl
    rw [hlast]
    exact List.dvd_sum fun c hc => dvd_of_mem_slotSizes hc
  · obtain ⟨c, hc, hpow⟩ := exists_isPowMul_slotSizes hlen hne
    rw [← map_nodeCount_domainAggregates hs.pos] at hc
    obtain ⟨agg, hagg, rfl⟩ := List.mem_map.mp hc
    have hdvd := (dvd_childCapacity_iff (domainAggregates sizes m.getDomainTree) _).mp (dvd_refl _)
    have hcap : IsPowMul (sizes.headD 0) (childCapacity (domainAggregates sizes m.getDomainTree)) :=
      hpow.of_dvd hs.pos (base_dvd_childCapacity hs m) (hdvd agg hagg)
    rcases Nat.le_total (childCapacity (domainAggregates sizes m.getDomainTree)) (sizes.getLastD 0)
      with h | h
    · exact Or.inl (hcap.dvd_of_le hs.pos hs.last h)
    · right
      rw [← map_nodeCount_domainAggregates hs.pos]
      apply List.dvd_sum
      intro c hc
      obtain ⟨agg, hagg, rfl⟩ := List.mem_map.mp hc
      exact (hs.last.dvd_of_le hs.pos hcap h).trans (hdvd agg hagg)

/-- **The root ends on the least multiple** of the last block size that holds the slots. -/
theorem nodeCount_toRootAggregate_isLeast (hne : m.hosts.entries ≠ []) :
    IsLeast {n | sizes.getLastD 0 ∣ n ∧
      ((domainAggregates sizes m.getDomainTree).map (·.nodeCount)).sum ≤ n}
      (toRootAggregate m.getDomainTree sizes).nodeCount := by
  have hor := childCapacity_dvd_or hs m hne
  rw [← map_nodeCount_domainAggregates hs.pos] at hor
  have hdvd := (dvd_childCapacity_iff (domainAggregates sizes m.getDomainTree) _).mp (dvd_refl _)
  have hunpadded : (unpaddedRoot sizes m).nodeCount =
    ((domainAggregates sizes m.getDomainTree).map (·.nodeCount)).sum := rfl
  have hlast : 0 < sizes.getLastD 0 := hs.last.pos hs.pos
  rw [toRootAggregate_eq]
  dsimp only
  have htotal : childCapacity (domainAggregates sizes m.getDomainTree) ∣
      ((domainAggregates sizes m.getDomainTree).map (·.nodeCount)).sum := by
    apply List.dvd_sum
    intro c hc
    obtain ⟨agg, hagg, rfl⟩ := List.mem_map.mp hc
    exact hdvd agg hagg
  generalize childCapacity (domainAggregates sizes m.getDomainTree) = capacity at *
  generalize ((domainAggregates sizes m.getDomainTree).map (·.nodeCount)).sum = total at *
  split_ifs with hpad
  · obtain ⟨-, hcap, hmod⟩ := hpad
    have hcapdvd : capacity ∣ sizes.getLastD 0 :=
      hor.resolve_right fun h => hmod (Nat.mod_eq_zero_of_dvd h)
    -- The step is the last block size.
    have hstep : capacity / blockTreeGCD capacity (sizes.getLastD 0) * sizes.getLastD 0 =
        sizes.getLastD 0 := by
      rw [blockTreeGCD_eq_gcd, Nat.gcd_eq_left hcapdvd, Nat.div_self hcap, one_mul]
    rw [hstep]
    have hleast := isLeast_roundUp hlast total
    rw [nodeCount_padRoot (hunpadded ▸ hleast.1.2) _ (by rw [hunpadded]) hcap]
    · exact hleast
    · rw [hunpadded]
      exact Nat.dvd_sub (hcapdvd.trans hleast.1.1) htotal
  · rw [hunpadded]
    apply isLeast_of_dvd
    -- No padding is needed, or there are no slots at all.
    rcases Nat.eq_zero_or_pos total with rfl | hpos
    · exact dvd_zero _
    · have hcap : 0 < capacity := Nat.pos_of_dvd_of_pos htotal hpos
      exact Nat.dvd_of_mod_eq_zero (not_not.mp fun hmod => hpad ⟨hpos, hcap, hmod⟩)

end Root

/-! ## The returned blocks -/

variable {blocks : List BlockInfo} {all : DomainMap}

/-- On accepted sizes the blocks are those of the tree, and the sizes stay. -/
theorem complementBlocks_eq {sizes : List Nat} (hs : PowerSizes sizes)
    (hne : (domainsForBlocks all blocks).hosts.entries ≠ []) :
    complementBlocks (some all) blocks sizes = (slotBlocks (blocksByName blocks)
      (collectBaseBlockSlots (toRootAggregate (domainsForBlocks all blocks).getDomainTree sizes)),
        sizes) := by
  have hsizes : sizes ≠ [] := by
    rintro rfl
    exact absurd hs.pos (by simp)
  unfold complementBlocks buildBlockTree
  dsimp only
  rw [if_neg hne, if_neg hsizes, if_neg hsizes, if_neg hs.pos.ne']

/-- The complemented blocks are those of the slots. -/
theorem complementBlocks_fst {sizes : List Nat} (hs : PowerSizes sizes)
    (hne : (domainsForBlocks all blocks).hosts.entries ≠ []) :
    (complementBlocks (some all) blocks sizes).1 = slotBlocks (blocksByName blocks)
      (collectBaseBlockSlots (toRootAggregate (domainsForBlocks all blocks).getDomainTree sizes)) :=
  congrArg Prod.fst (complementBlocks_eq hs hne)

theorem length_slotBlocks (byName : GoMap String BlockInfo) (slots : List BaseBlockNode) :
    (slotBlocks byName slots).length = slots.length :=
  List.length_mapIdx

/-- **Root padding is exact.** The returned blocks end, counted in positions, on the least multiple
of the last block size that holds the slots of all domains. -/
theorem length_complementBlocks_isLeast {all : DomainMap} {blocks : List BlockInfo}
    {sizes : List Nat} (hne : (domainsForBlocks all blocks).hosts.entries ≠ [])
    (hsizes : sizes ≠ []) (hvalid : Slurm.validateBlockSizes (sizes.map Int.ofNat) = .ok ()) :
    IsLeast {n | sizes.getLastD 0 ∣ n ∧
      ((domainAggregates sizes (domainsForBlocks all blocks).getDomainTree).map (·.nodeCount)).sum ≤
        n}
      ((complementBlocks (some all) blocks sizes).1.length * sizes.headD 0) := by
  have hs := powerSizes_of_validate hsizes hvalid
  rw [complementBlocks_fst hs hne, length_slotBlocks, ← counted_toRootAggregate hs]
  exact nodeCount_toRootAggregate_isLeast hs _ hne

/-- The slots of `mixedDomains` take 16 and 4 positions, and the list is filled up to 32. -/
theorem mixedDomains_padding :
    (domainsForBlocks mixedDomains (toBlockInfos mixedDomains)).hosts.entries ≠ [] ∧
      IsLeast {n | 16 ∣ n ∧ ((domainAggregates [2, 16] (domainsForBlocks mixedDomains
        (toBlockInfos mixedDomains)).getDomainTree).map (·.nodeCount)).sum ≤ n}
        ((complementBlocks (some mixedDomains) (toBlockInfos mixedDomains)
          [2, 16]).1.length * 2) := by
  have hne : (domainsForBlocks mixedDomains (toBlockInfos mixedDomains)).hosts.entries ≠ [] := by
    decide
  exact ⟨hne, length_complementBlocks_isLeast hne (by decide) rfl⟩

/-! ## Alignment -/

/-- **Aligned starts.** Cut the returned blocks in front of and behind the slot of a domain: what
stands in front is, counted in positions, a multiple of every block size that the slot could
fill. -/
def Aligned (all : DomainMap) (blocks : List BlockInfo) (sizes : List Nat) : Prop :=
  ∀ pre agg post, domainAggregates sizes (domainsForBlocks all blocks).getDomainTree =
    pre ++ agg :: post →
    ∀ before own after, (complementBlocks (some all) blocks sizes).1 = before ++ own ++ after →
      before.length = (pre.flatMap collectBaseBlockSlots).length →
      own.length = (collectBaseBlockSlots agg).length →
      ∀ b ∈ sizes, b ≤ own.length * sizes.headD 0 → b ∣ before.length * sizes.headD 0

/-- Padding only appends empty blocks. -/
theorem exists_slots_padRoot (target capacity b fuel : Nat) (result : AggregateBlockNode) :
    ∃ n, collectBaseBlockSlots (padRoot target capacity b fuel result) =
      collectBaseBlockSlots result ++ List.replicate n (newEmptyBaseBlock b) := by
  induction fuel generalizing result with
  | zero => exact ⟨0, (List.append_nil _).symm⟩
  | succ fuel ih =>
    rw [padRoot]
    split_ifs
    · obtain ⟨n, hn⟩ := ih { result with
        children := result.children ++ [(newEmptyChildAggregate capacity b).toNode]
        nodeCount := result.nodeCount + capacity }
      have hchild : childSlots [(newEmptyChildAggregate capacity b).toNode] =
          List.replicate (capacity / b) (newEmptyBaseBlock b) := by
        rw [childSlots, childSlots, List.append_nil]
        exact collectBaseBlockSlots_aggregateOf _ _ _
      refine ⟨capacity / b + n, ?_⟩
      rw [hn, List.replicate_add, ← List.append_assoc, ← hchild]
      congr 1
      exact childSlots_append result.children _
    · exact ⟨0, (List.append_nil _).symm⟩

/-- The slots of the padded root begin with those of the domains, and the others are empty. -/
theorem exists_slots_toRootAggregate (sizes : List Nat) (m : DomainMap) :
    ∃ n, collectBaseBlockSlots (toRootAggregate m.getDomainTree sizes) =
      (domainAggregates sizes m.getDomainTree).flatMap collectBaseBlockSlots ++
        List.replicate n (newEmptyBaseBlock (sizes.headD 0)) := by
  rw [toRootAggregate_eq, ← collectBaseBlockSlots_unpaddedRoot]
  dsimp only
  split_ifs
  · exact exists_slots_padRoot _ _ _ _ _
  · exact ⟨0, (List.append_nil _).symm⟩

variable {pre post : List AggregateBlockNode}

/-- The positions in front of a domain and of its own are sums of slots. -/
theorem positions_of_split {sizes : List Nat} {m : DomainMap}
    (heq : domainAggregates sizes m.getDomainTree = pre ++ agg :: post) :
    (pre.flatMap collectBaseBlockSlots).length * sizes.headD 0 = (pre.map (·.nodeCount)).sum ∧
      (collectBaseBlockSlots agg).length * sizes.headD 0 = agg.nodeCount := by
  have hmem : ∀ a ∈ pre ++ agg :: post, a ∈ domainAggregates sizes m.getDomainTree :=
    fun a ha => heq ▸ ha
  exact ⟨length_slots_mul fun a ha => hmem a (List.mem_append_left _ ha),
    (counted_of_mem_domainAggregates (hmem agg (by simp))).symm⟩

/-- The returned blocks can be cut in front of and behind the slot of a domain. -/
theorem exists_cut {sizes : List Nat} (hs : PowerSizes sizes)
    (hne : (domainsForBlocks all blocks).hosts.entries ≠ [])
    (heq : domainAggregates sizes (domainsForBlocks all blocks).getDomainTree = pre ++
      agg :: post) :
    ∃ before own after, (complementBlocks (some all) blocks sizes).1 = before ++ own ++ after ∧
      before.length = (pre.flatMap collectBaseBlockSlots).length ∧
      own.length = (collectBaseBlockSlots agg).length := by
  obtain ⟨empty, hempty⟩ := exists_slots_toRootAggregate sizes (domainsForBlocks all blocks)
  have hlen : (pre.flatMap collectBaseBlockSlots).length + (collectBaseBlockSlots agg).length ≤
      (complementBlocks (some all) blocks sizes).1.length := by
    rw [complementBlocks_fst hs hne, length_slotBlocks, hempty, heq]
    simp only [List.flatMap_append, List.flatMap_cons, List.length_append]
    omega
  generalize (complementBlocks (some all) blocks sizes).1 = out at hlen ⊢
  generalize (pre.flatMap collectBaseBlockSlots).length = n at hlen ⊢
  generalize (collectBaseBlockSlots agg).length = k at hlen ⊢
  refine ⟨out.take n, (out.drop n).take k, (out.drop n).drop k, ?_, ?_, ?_⟩
  · rw [List.append_assoc, List.take_append_drop, List.take_append_drop]
  · rw [List.length_take]
    omega
  · rw [List.length_take, List.length_drop]
    omega

/-- A sum is a multiple exactly when its terms that are none add up to one. -/
theorem dvd_sum_iff_filter (b : Nat) (l : List Nat) :
    b ∣ l.sum ↔ b ∣ (l.filter fun c => ¬ b ∣ c).sum := by
  have hrun : ∀ k, b ∣ k + l.sum ↔ b ∣ k + (l.filter fun c => ¬ b ∣ c).sum := by
    induction l with
    | nil => exact fun k => Iff.rfl
    | cons c l ih =>
      intro k
      by_cases hc : b ∣ c
      · rw [List.filter_cons_of_neg (by simpa using hc), List.sum_cons, Nat.add_left_comm,
          Nat.dvd_add_right hc, ih]
      · rw [List.filter_cons_of_pos (by simpa using hc), List.sum_cons, List.sum_cons,
          ← Nat.add_assoc, ← Nat.add_assoc, ih]
  simpa using hrun 0

/-- **When the starts are aligned**: for every domain and every block size its slot could fill, the
earlier slots that are no multiples of this size add up to one. -/
theorem aligned_iff {all : DomainMap} {blocks : List BlockInfo} {sizes : List Nat}
    (hne : (domainsForBlocks all blocks).hosts.entries ≠ []) (hsizes : sizes ≠ [])
    (hvalid : Slurm.validateBlockSizes (sizes.map Int.ofNat) = .ok ()) :
    Aligned all blocks sizes ↔
      ∀ pre c post, slotSizes sizes (domainsForBlocks all blocks) = pre ++ c :: post →
        ∀ b ∈ sizes, b ≤ c → b ∣ (pre.filter fun c' => ¬ b ∣ c').sum := by
  have hs := powerSizes_of_validate hsizes hvalid
  have hmap := map_nodeCount_domainAggregates hs.pos (domainsForBlocks all blocks)
  constructor
  · intro haligned pre c post heq b hb hbc
    rw [← hmap] at heq
    obtain ⟨pre', rest, hdecomp, rfl, hrest⟩ := List.map_eq_append_iff.mp heq
    obtain ⟨agg, post', rfl, rfl, -⟩ := List.map_eq_cons_iff.mp hrest
    obtain ⟨hpre, hagg⟩ := positions_of_split hdecomp
    obtain ⟨before, own, after, hcut, hbefore, hown⟩ := exists_cut hs hne hdecomp
    rw [← dvd_sum_iff_filter, ← hpre, ← hbefore]
    exact haligned pre' agg post' hdecomp before own after hcut hbefore hown b hb
      (by rw [hown, hagg]; exact hbc)
  · intro hcond pre agg post hdecomp before own after _ hbefore hown b hb hle
    obtain ⟨hpre, hagg⟩ := positions_of_split hdecomp
    rw [hown, hagg] at hle
    rw [hbefore, hpre, dvd_sum_iff_filter]
    apply hcond (pre.map (·.nodeCount)) agg.nodeCount (post.map (·.nodeCount)) _ b hb hle
    rw [← hmap, hdecomp, List.map_append, List.map_cons]

/-- Behind the slot of 16 positions of the first domain of `mixedDomains` every size is aligned. -/
theorem mixedDomains_aligned : Aligned mixedDomains (toBlockInfos mixedDomains) [2, 16] := by
  apply (aligned_iff (by decide) (by decide) rfl).mpr
  rw [show slotSizes [2, 16] (domainsForBlocks mixedDomains (toBlockInfos mixedDomains)) =
    [16, 4] by decide]
  intro pre c post heq b hb _
  match pre, heq with
  | [], _ => exact dvd_zero b
  | [d], heq =>
    obtain ⟨rfl, -⟩ := List.cons.inj heq
    have hall : ∀ b ∈ [2, 16], b ∣ ([16].filter fun c' => ¬ b ∣ c').sum := by decide
    exact hall b hb
  | _ :: _ :: pre, heq => exact absurd (congrArg List.length heq) (by simp)

/-- Two domains of four hosts each: one sub-domain in the first, four in the second. -/
def unequalDomains : DomainMap :=
  [("a", "a1", "s1"), ("a", "a2", "s1"), ("a", "a3", "s1"), ("a", "a4", "s1"), ("b", "b1", "t1"),
    ("b", "b2", "t2"), ("b", "b3", "t3"), ("b", "b4", "t4")].foldl (fun m h =>
      m.addHostInfo { domain := h.1, instanceID := h.2.1, hostName := h.2.1, subDomain := h.2.2 })
    DomainMap.new

/-- The slot of the second domain takes 16 positions and starts at position 4. -/
theorem unequalDomains_not_aligned :
    Slurm.validateBlockSizes [4, 8, 16] = .ok () ∧
      ¬ Aligned unequalDomains (toBlockInfos unequalDomains) [4, 8, 16] := by
  refine ⟨rfl, fun h => ?_⟩
  obtain ⟨x, y, haggs, hx, hy⟩ : ∃ x y, domainAggregates [4, 8, 16]
      (domainsForBlocks unequalDomains (toBlockInfos unequalDomains)).getDomainTree = [x] ++ [y] ∧
        (collectBaseBlockSlots x).length = 1 ∧ (collectBaseBlockSlots y).length = 4 :=
    ⟨_, _, rfl, by decide, by decide⟩
  have hcut := h [x] y [] haggs
  have hlen : (complementBlocks (some unequalDomains) (toBlockInfos unequalDomains)
      [4, 8, 16]).1.length = 8 := by decide
  generalize (complementBlocks (some unequalDomains) (toBlockInfos unequalDomains)
    [4, 8, 16]).1 = out at hcut hlen
  have hdvd := hcut (out.take 1) ((out.drop 1).take 4) ((out.drop 1).drop 4)
    (by rw [List.append_assoc, List.take_append_drop, List.take_append_drop])
    (by simp [hx, hlen]) (by simp [hy, hlen]) 8 (by decide) (by simp [hlen])
  simp [hlen] at hdvd

end Topograph.Translate
