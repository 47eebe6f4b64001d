import Topograph.Lib.Segments
import Topograph.Translate.Layout

/-! # Domains without sub-domains

Without sub-domains the layout has a closed form (`complementBlocks_singleLevelLayout`): with
several block sizes the domain `i`, in the order of the names, begins at block `i * s`, where `s`
blocks are the least power of two that holds the largest domain; with one block size the domains
follow each other without gaps. -/

namespace Topograph.Translate

open Topograph.Topology

/-! ## Positions within a domain -/

/-- The number of blocks of `b` positions that hold `n` hosts. -/
def blockCount (n b : Nat) : Nat := (n + b - 1) / b

theorem lt_blockCount_iff {n b : Nat} (hb : 0 < b) (j : Nat) : j < blockCount n b ↔ j * b < n := by
  rw [blockCount, Nat.lt_div_iff_mul_lt hb]
  omega

/-- **The blocks of a leaf** have its hosts from left to right. -/
theorem getElem?_splitLoop {id : String} {b fuel count : Nat} {hosts : List HostInfo} (hb : 0 < b)
    (hfuel : hosts.length ≤ fuel) {j : Nat} (hj : j * b < hosts.length) :
    ∃ id', (splitLoop id b fuel count hosts)[j]? = some
      (newBaseBlock id' ((hosts.drop (j * b)).take b) b) := by
  induction fuel generalizing count hosts j with
  | zero => omega
  | succ fuel ih =>
    cases hosts with
    | nil => exact absurd hj (by simp)
    | cons host hosts =>
      cases j with
      | zero => exact ⟨_, by rw [splitLoop, Nat.zero_mul, List.drop_zero]; rfl⟩
      | succ j =>
        have hlen : ((host :: hosts).drop b).length ≤ fuel := by
          rw [List.length_drop]
          simp only [List.length_cons] at hfuel ⊢
          omega
        have hlt : j * b < ((host :: hosts).drop b).length := by
          rw [List.length_drop]
          rw [Nat.succ_mul] at hj
          omega
        obtain ⟨id', hid'⟩ := ih hlen hlt
        refine ⟨id', ?_⟩
        rw [splitLoop, List.getElem?_cons_succ, hid', List.drop_drop, Nat.succ_mul, Nat.add_comm]

/-- An empty block is a placeholder. -/
theorem baseBlockToBlockInfo_empty (b : Nat) (byName : GoMap String BlockInfo) (seq : Nat) :
    (baseBlockToBlockInfo (newEmptyBaseBlock b) byName seq).name = "" ∧
      (baseBlockToBlockInfo (newEmptyBaseBlock b) byName seq).nodes = [] := by
  have hnone : (newEmptyBaseBlock b).leaves.reduceOption = [] := reduceOption_replicate_none b
  have hnodes : hostNamesFromLeaves (newEmptyBaseBlock b).leaves = [] := by
    rw [hostNamesFromLeaves_eq (by simp [hnone]), hnone]
    rfl
  unfold baseBlockToBlockInfo
  dsimp only
  rw [hnodes, if_neg (by simp), domainIDsFromLeaves_eq_nil hnone]
  exact ⟨rfl, rfl⟩

/-! ## Capacities -/

theorem doubleUntil_le {target fuel capacity k : Nat} (h : target ≤ capacity * 2 ^ k) :
    doubleUntil target fuel capacity ≤ capacity * 2 ^ k := by
  induction fuel generalizing capacity k with
  | zero => exact Nat.le_mul_of_pos_right _ (Nat.two_pow_pos k)
  | succ fuel ih =>
    rw [doubleUntil]
    split_ifs with hlt
    · cases k with
      | zero => omega
      | succ k =>
        rw [pow_succ', ← Nat.mul_assoc] at h ⊢
        exact ih h
    · exact Nat.le_mul_of_pos_right _ (Nat.two_pow_pos k)

/-- **The slot of the largest domain in blocks** is the least power of two that holds it. -/
theorem isLeast_slotBlocks (n : Nat) {b : Nat} (hb : 0 < b) :
    IsLeast {s | (∃ k, s = 2 ^ k) ∧ n ≤ s * b} (aggregateSlotCapacity n b / b) := by
  obtain ⟨k, hk⟩ := isPowMul_aggregateSlotCapacity n b
  have hdiv : aggregateSlotCapacity n b / b = 2 ^ k := by rw [hk, Nat.mul_div_cancel_left _ hb]
  refine ⟨⟨⟨k, hdiv⟩, ?_⟩, ?_⟩
  · rw [hdiv, Nat.mul_comm, ← hk]
    exact le_aggregateSlotCapacity n hb
  · rintro s ⟨⟨j, rfl⟩, hle⟩
    rw [Nat.mul_comm] at hle
    have hcap : aggregateSlotCapacity n b ≤ b * 2 ^ j := doubleUntil_le hle
    exact Nat.div_le_of_le_mul hcap

/-! ## The slots of the domains -/

/-- The domains of a map with their hosts, by name. -/
def sortedDomains (m : DomainMap) : List (Σ _ : String, Hosts) :=
  m.hosts.entries.insertionSort fun a b => a.1 ≤ b.1

/-- The base blocks of a domain without sub-domains. -/
def leafSlots (sizes : List Nat) (maxN : Nat) (e : Σ _ : String, Hosts) : List BaseBlockNode :=
  padBlocks (splitIntoBaseBlocks e.1 (hostsSorted e.2) (sizes.headD 0))
    (leafBaseBlocks e.2.values.length maxN (sizes.headD 0) (sizes.length = 1)) (sizes.headD 0)

/-- **The slots of a map without sub-domains.** -/
theorem exists_slots_singleLevel (sizes : List Nat) {m : DomainMap}
    (hsingle : m.hosts.values.any hasSubDomain = false) (hne : m.hosts.entries ≠ []) :
    ∃ k, collectBaseBlockSlots (toRootAggregate m.getDomainTree sizes) =
      (sortedDomains m).flatMap (leafSlots sizes (maxDomainSize m)) ++ List.replicate k
        (newEmptyBaseBlock (sizes.headD 0)) := by
  obtain ⟨k, hk⟩ := exists_slots_toRootAggregate sizes m
  refine ⟨k, ?_⟩
  have hmaxN : maxNodeCount (m.hosts.entries.map fun e => (e.1, domainVertex e.1 e.2)) =
      maxDomainSize m := by
    rw [maxNodeCount, maxDomainSize, GoMap.values, List.map_map, List.map_map]
    congr 1
    exact List.map_congr_left fun e _ => actualNodeCount_domainVertex e.1 e.2
  have hlevel : isSingleLevelDomainTree (m.hosts.entries.map fun e => (e.1, domainVertex e.1 e.2)) =
      true := by
    rw [isSingleLevelDomainTree_map hne, show m.hosts.entries.map (·.2) = m.hosts.values from rfl,
      hsingle]
    rfl
  rw [hk, DomainMap.getDomainTree, domainAggregates, hmaxN, hlevel, sortedByKey_map, List.map_map,
    List.flatMap_map, sortedDomains]
  congr 1
  apply List.flatMap_congr
  intro e he
  have hmem : e.2 ∈ m.hosts.values := GoMap.mem_values.mpr ⟨e.1, (List.mem_insertionSort _).mp he⟩
  have hnone : ¬ hasSubDomain e.2 = true := fun h => by
    have hany := List.any_eq_true.mpr ⟨e.2, hmem, h⟩
    rw [hsingle] at hany
    exact absurd hany (by decide)
  -- The vertex is a leaf, which keeps the count of the entries of its hosts.
  have hcount : e.2.entries.length = e.2.values.length := (List.length_map _).symm
  have hvertex : domainVertex e.1 e.2 = .node e.1 e.2.values.length 0 (some e.2) [] := by
    rw [domainVertex, if_neg hnone, hcount]
  rw [Function.comp_apply, hvertex]
  exact collectBaseBlockSlots_aggregateOf _ _ _

variable {sizes : List Nat} {e : Σ _ : String, Hosts}

/-- The blocks of a domain: the slot of the largest one, or with one block size those that its hosts
need. -/
theorem length_leafSlots (hb : 0 < sizes.headD 0) {maxN : Nat} (hmax : e.2.values.length ≤ maxN)
    (hpos : 0 < e.2.values.length) :
    (leafSlots sizes maxN e).length =
      if sizes.length = 1 then blockCount e.2.values.length (sizes.headD 0)
      else aggregateSlotCapacity maxN (sizes.headD 0) / sizes.headD 0 := by
  have hlen : (hostsSorted e.2).length = e.2.values.length := (hostsSorted_perm e.2).length_eq
  have hcount : 0 < blockCount e.2.values.length (sizes.headD 0) :=
    (lt_blockCount_iff hb 0).mpr (by rwa [Nat.zero_mul])
  rw [leafSlots, length_padBlocks, splitIntoBaseBlocks, length_splitLoop hb le_rfl, hlen,
    leafBaseBlocks, ← blockCount]
  split_ifs
  · omega
  · obtain ⟨hmul, hone⟩ :=
      exists_blocks_of_isPowMul hb (isPowMul_aggregateSlotCapacity maxN (sizes.headD 0))
    have hcap := le_aggregateSlotCapacity maxN hb
    have hfit : blockCount e.2.values.length (sizes.headD 0) ≤ aggregateSlotCapacity maxN
        (sizes.headD 0) / sizes.headD 0 := by
      by_contra hlt
      have hover := (lt_blockCount_iff hb _).mp (Nat.lt_of_not_le hlt)
      omega
    omega

/-- The blocks of a domain that hold its hosts. -/
theorem names_leafSlots (hb : 0 < sizes.headD 0) (maxN : Nat) {j : Nat}
    (hj : j < blockCount e.2.values.length (sizes.headD 0)) :
    ∃ bb, (leafSlots sizes maxN e)[j]? = some bb ∧
      bb.names = (((hostsSorted e.2).map (·.hostName)).drop (j * sizes.headD 0)).take
        (sizes.headD 0) := by
  have hlen : (hostsSorted e.2).length = e.2.values.length := (hostsSorted_perm e.2).length_eq
  have hlt : j * sizes.headD 0 < (hostsSorted e.2).length := by
    rw [hlen]; exact (lt_blockCount_iff hb j).mp hj
  obtain ⟨id', hid'⟩ : ∃ id', (splitIntoBaseBlocks e.1 (hostsSorted e.2) (sizes.headD 0))[j]? =
      some (newBaseBlock id' (((hostsSorted e.2).drop (j * sizes.headD 0)).take (sizes.headD 0))
        (sizes.headD 0)) :=
    getElem?_splitLoop hb le_rfl hlt
  refine ⟨_, (List.getElem?_append_left (List.getElem?_eq_some_iff.mp hid').1).trans hid', ?_⟩
  rw [BaseBlockNode.names, reduceOption_leaves_newBaseBlock, List.take_take, Nat.min_self,
    List.map_take, List.map_drop]

/-- The other blocks of a domain are empty. -/
theorem leafSlots_empty (hb : 0 < sizes.headD 0) {maxN : Nat} {j : Nat} {bb : BaseBlockNode}
    (hbb : (leafSlots sizes maxN e)[j]? = some bb)
    (hj : ¬ j < blockCount e.2.values.length (sizes.headD 0)) :
    bb = newEmptyBaseBlock (sizes.headD 0) := by
  have hlen : (splitIntoBaseBlocks e.1 (hostsSorted e.2) (sizes.headD 0)).length =
      blockCount e.2.values.length (sizes.headD 0) := by
    rw [splitIntoBaseBlocks, length_splitLoop hb le_rfl, (hostsSorted_perm e.2).length_eq,
      ← blockCount]
  rw [leafSlots, padBlocks, List.getElem?_append_right (by omega)] at hbb
  exact List.eq_of_mem_replicate (List.mem_of_getElem? hbb)

/-! ## The closed form -/

/-- **The layout of domains without sub-domains.** The domain `i` begins at block `start i` with its
hosts by name, `b` to a block; the blocks of no domain are empty. -/
def SingleLevelLayout (m : DomainMap) (sizes : List Nat) (blocks : List BlockInfo) : Prop :=
  let b := sizes.headD 0
  ∃ start : Nat → Nat,
    (if 2 ≤ sizes.length then
      ∃ s, IsLeast {s | (∃ k, s = 2 ^ k) ∧ maxDomainSize m ≤ s * b} s ∧
        ∀ i ≤ (sortedDomains m).length, start i = i * s
    else ∀ i ≤ (sortedDomains m).length, start i = (((sortedDomains m).take i).map fun e =>
      blockCount e.2.values.length b).sum) ∧
    (∀ i e j, (sortedDomains m)[i]? = some e → j < blockCount e.2.values.length b →
      ∃ block, blocks[start i + j]? = some block ∧
      block.nodes = (((hostsSorted e.2).map (·.hostName)).drop (j * b)).take b) ∧
    ∀ k block, blocks[k]? = some block →
      (∀ i e j, (sortedDomains m)[i]? = some e → j < blockCount e.2.values.length b →
        k ≠ start i + j) →
        block.name = "" ∧ block.nodes = []

/-- The slots of a map without sub-domains are laid out so. -/
theorem singleLevelLayout_slotBlocks {m : DomainMap} (hs : PowerSizes sizes)
    (hne : m.hosts.entries ≠ []) (hsingle : m.hosts.values.any hasSubDomain = false)
    (byName : GoMap String BlockInfo)
    (hnames : ∀ host ∈ slotHosts (collectBaseBlockSlots (toRootAggregate m.getDomainTree sizes)),
      host.hostName ≠ "") :
    SingleLevelLayout m sizes
      (slotBlocks byName (collectBaseBlockSlots (toRootAggregate m.getDomainTree sizes))) := by
  obtain ⟨k, hk⟩ := exists_slots_singleLevel sizes hsingle hne
  have hdomain : ∀ e ∈ sortedDomains m, e.2.values.length ≤ maxDomainSize m ∧
      0 < e.2.values.length := by
    intro e he
    have hlook := GoMap.lookup_eq_some_iff.mpr ((List.mem_insertionSort _).mp he)
    refine ⟨length_le_maxDomainSize hlook, ?_⟩
    rw [GoMap.values, List.length_map]
    exact List.length_pos_of_ne_nil (m.filed e.1 e.2 hlook).nonempty
  have hb := hs.pos
  refine ⟨segmentStart (leafSlots sizes (maxDomainSize m)) (sortedDomains m), ?_,
    fun i e j hi hj => ?_, fun p block hblock hout => ?_⟩
  · split_ifs with hlevels
    · refine ⟨_, isLeast_slotBlocks (maxDomainSize m) hb,
        fun i hi => segmentStart_const (fun e he => ?_) hi⟩
      rw [length_leafSlots hb (hdomain e he).1 (hdomain e he).2, if_neg (by omega)]
    · have hone : sizes.length = 1 := by
        have hlen : sizes.length ≠ 0 :=
          fun h => absurd hb (by rw [List.length_eq_zero_iff.mp h]; decide)
        omega
      intro i _
      rw [segmentStart]
      congr 1
      apply List.map_congr_left
      intro e he
      have hmem := List.mem_of_mem_take he
      rw [length_leafSlots hb (hdomain e hmem).1 (hdomain e hmem).2, if_pos hone]
  · have hmem := List.mem_of_getElem? hi
    obtain ⟨bb, hbb, hbbnames⟩ := names_leafSlots hb (maxDomainSize m) hj
    have hslot := getElem?_flatMap_segment (leafSlots sizes (maxDomainSize m)) hi
      (List.getElem?_eq_some_iff.mp hbb).1
    rw [hbb] at hslot
    have hall : (collectBaseBlockSlots (toRootAggregate m.getDomainTree sizes))[segmentStart
        (leafSlots sizes (maxDomainSize m))
        (sortedDomains m) i + j]? = some bb := by
      rw [hk, List.getElem?_append_left (List.getElem?_eq_some_iff.mp hslot).1, hslot]
    have hnodes := congrArg
      (fun l => l[segmentStart (leafSlots sizes (maxDomainSize m)) (sortedDomains m) i + j]?)
      (map_nodes_slotBlocks byName hnames)
    rw [List.getElem?_map, List.getElem?_map, hall, Option.map_some, hbbnames] at hnodes
    exact Option.map_eq_some_iff.mp hnodes
  · -- A block of no domain is padding, of a domain or of the root.
    rw [slotBlocks, List.getElem?_mapIdx, Option.map_eq_some_iff] at hblock
    obtain ⟨bb, hbb, rfl⟩ := hblock
    have hempty : bb = newEmptyBaseBlock (sizes.headD 0) := by
      rw [hk] at hbb
      by_cases hp : p < ((sortedDomains m).flatMap (leafSlots sizes (maxDomainSize m))).length
      · obtain ⟨i, e, j, hi, hj, rfl⟩ := exists_segment _ hp
        rw [List.getElem?_append_left hp, getElem?_flatMap_segment _ hi hj] at hbb
        exact leafSlots_empty hb hbb fun hlt => hout i e j hi hlt rfl
      · rw [List.getElem?_append_right (Nat.le_of_not_lt hp)] at hbb
        exact List.eq_of_mem_replicate (List.mem_of_getElem? hbb)
    rw [hempty]
    exact baseBlockToBlockInfo_empty _ _ _

/-- **The closed form.** For blocks of named hosts without sub-domains and a list of accepted block
sizes. -/
theorem complementBlocks_singleLevelLayout {all : DomainMap} {blocks : List BlockInfo}
    {sizes : List Nat}
    (hown : ∀ b ∈ blocks, b.nodes ≠ [] ∧ ∀ n ∈ b.nodes, (all.lookupHost b.name n).isSome)
    (hnames : NamedHosts (some all))
    (hsingle : (domainsForBlocks all blocks).hosts.values.any hasSubDomain = false)
    (hsizes : sizes ≠ []) (hvalid : Slurm.validateBlockSizes (sizes.map Int.ofNat) = .ok ()) :
    SingleLevelLayout (domainsForBlocks all blocks) sizes
      (complementBlocks (some all) blocks sizes).1 := by
  have hs := powerSizes_of_validate hsizes hvalid
  by_cases hne : (domainsForBlocks all blocks).hosts.entries = []
  · -- Without domains there are no blocks.
    have hblocks : blocks = [] := List.eq_nil_iff_forall_not_mem.mpr fun b hb =>
      (hown b hb).1 (nodes_eq_nil_of_no_domains (fun b hb => (hown b hb).2) hne hb)
    subst hblocks
    have hnone : sortedDomains (domainsForBlocks all []) = [] := by
      rw [sortedDomains, hne]
      rfl
    rw [show (complementBlocks (some all) [] sizes).1 = [] by simp [complementBlocks, hne]]
    refine ⟨fun i => i * (aggregateSlotCapacity (maxDomainSize (domainsForBlocks all []))
      (sizes.headD 0) / sizes.headD 0), ?_, ?_, ?_⟩
    · split_ifs
      · exact ⟨_, isLeast_slotBlocks _ hs.pos, fun _ _ => rfl⟩
      · intro i hi
        rw [hnone] at hi ⊢
        rw [Nat.le_zero.mp hi]
        exact Nat.zero_mul _
    · exact fun i e j hi => absurd hi (by rw [hnone]; simp)
    · exact fun k block hk => absurd hk (by simp)
  · rw [complementBlocks_eq hs hne]
    exact singleLevelLayout_slotBlocks hs hne hsingle _ fun host hhost =>
      hostName_ne_of_mem_slots hnames blocks hs.pos hhost

/-- Three domains without sub-domains, of one, three and two hosts. -/
def flatDomains : DomainMap :=
  [("c", "c1"), ("a", "a1"), ("b", "b3"), ("b", "b1"), ("b", "b2"), ("c", "c2")].foldl (fun m h =>
    m.addHostInfo { domain := h.1, instanceID := h.2, hostName := h.2, subDomain := "" })
      DomainMap.new

theorem flatDomains_singleLevelLayout :
    (complementBlocks (some flatDomains) (toBlockInfos flatDomains) [2, 4]).1.map (·.nodes) =
        [["a1"], [], ["b1", "b2"], ["b3"], ["c1", "c2"], []] ∧
      SingleLevelLayout (domainsForBlocks flatDomains (toBlockInfos flatDomains)) [2, 4]
        (complementBlocks (some flatDomains) (toBlockInfos flatDomains) [2, 4]).1 :=
  ⟨by decide, complementBlocks_singleLevelLayout (by decide)
    (namedHosts_of_hostNames (by decide)) (by decide) (by decide) rfl⟩

/-- A domain with a host without a name. -/
def unnamedFlatHost : DomainMap :=
  ["", "a"].foldl (fun m h => m.addHostInfo
    { domain := "d", instanceID := h, hostName := h, subDomain := "" }) DomainMap.new

/-- The block of the host without a name lists the whole domain. -/
theorem unnamedFlatHost_not_singleLevelLayout :
    Slurm.validateBlockSizes [1] = .ok () ∧
      (domainsForBlocks unnamedFlatHost (toBlockInfos unnamedFlatHost)).hosts.values.any
        hasSubDomain = false ∧
      (complementBlocks (some unnamedFlatHost) (toBlockInfos unnamedFlatHost) [1]).1.map (·.nodes) =
        [["", "a"], ["a"]] ∧
      ¬ SingleLevelLayout (domainsForBlocks unnamedFlatHost (toBlockInfos unnamedFlatHost)) [1]
        (complementBlocks (some unnamedFlatHost) (toBlockInfos unnamedFlatHost) [1]).1 := by
  refine ⟨rfl, by decide, by decide, ?_⟩
  rintro ⟨start, hstart, hplaced, -⟩
  have hzero : start 0 = 0 := hstart 0 (Nat.zero_le _)
  obtain ⟨e, he, hcount, hhosts⟩ :
      ∃ e, (sortedDomains (domainsForBlocks unnamedFlatHost (toBlockInfos unnamedFlatHost)))[0]? =
      some e ∧
      0 < blockCount e.2.values.length 1 ∧ (hostsSorted e.2).map (·.hostName) = ["", "a"] :=
      ⟨_, rfl, by decide, by decide⟩
  obtain ⟨block, hblock, hnodes⟩ := hplaced 0 e 0 he hcount
  have hfirst := congrArg (Option.map (·.nodes)) hblock
  rw [hzero, Option.map_some, hnodes, hhosts] at hfirst
  exact absurd hfirst (by decide)

end Topograph.Translate
