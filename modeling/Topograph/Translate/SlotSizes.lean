import Topograph.Lib.PowerMultiples
import Topograph.Slurm.BlockSizes
import Topograph.Translate.Conservation
import Mathlib.Algebra.BigOperators.Ring.List
import Mathlib.Data.List.Dedup

/-! # The sizes of domain slots

The slot of a domain in the block tree is computed from host counts alone (`domainSlot`): a leaf
takes the slot of the largest sibling, or its own hosts rounded up to base blocks; a domain with
sub-domains takes the slots of these, rounded up when they overflow. -/

namespace Topograph.Translate

open Topograph.Topology

/-! ## Accepted block sizes -/

/-- Block sizes that grow by powers of two from a positive first size. -/
structure PowerSizes (sizes : List Nat) : Prop where
  pos : 0 < sizes.headD 0
  powMul : ∀ b ∈ sizes, IsPowMul (sizes.headD 0) b
  increasing : sizes.Pairwise (· < ·)

/-- The power-of-two test of `validateBlockSizes` on a multiple. -/
theorem isPowMul_of_and_eq_zero {prev cur : Nat} (hcur : 0 < cur) (hmod : (cur : Int) % prev = 0)
    (hand : ((cur : Int) / prev).toNat &&& (((cur : Int) / prev).toNat - 1) = 0) :
    IsPowMul prev cur := by
  have hdvd : prev ∣ cur := Int.natCast_dvd_natCast.mp (Int.dvd_of_emod_eq_zero hmod)
  have hdiv : ((cur : Int) / prev).toNat = cur / prev := by
    rw [← Int.natCast_ediv, Int.toNat_natCast]
  have hpos : cur / prev ≠ 0 := by
    intro hzero
    have := Nat.div_mul_cancel hdvd
    rw [hzero, zero_mul] at this
    omega
  rw [hdiv] at hand
  obtain ⟨k, hk⟩ := (Nat.and_sub_one_eq_zero_iff_isPowerOfTwo hpos).mp hand
  exact ⟨k, by rw [← hk, Nat.mul_div_cancel' hdvd]⟩

/-- The entries behind an accepted one grow by powers of two. -/
theorem powMul_of_validateFrom {i prev : Nat} {rest : List Nat}
    (h : Slurm.validateFrom i (Int.ofNat prev) (rest.map Int.ofNat) = .ok ()) :
    (∀ b ∈ rest, prev < b ∧ IsPowMul prev b) ∧ rest.Pairwise (· < ·) := by
  induction rest generalizing i prev with
  | nil => simp
  | cons cur rest ih =>
    rw [List.map_cons, Slurm.validateFrom] at h
    split_ifs at h with h1 h2 h3 h4 h5
    obtain ⟨hrest, hpair⟩ := ih h
    have hlt : prev < cur := by
      have : ¬ (cur : Int) ≤ prev := h3
      omega
    have hpow : IsPowMul prev cur :=
      isPowMul_of_and_eq_zero (Nat.zero_lt_of_lt hlt) (not_not.mp h4) (not_not.mp h5)
    refine ⟨?_, List.pairwise_cons.mpr ⟨fun b hb => (hrest b hb).1, hpair⟩⟩
    intro b hb
    rcases List.mem_cons.mp hb with rfl | hb
    · exact ⟨hlt, hpow⟩
    · exact ⟨hlt.trans (hrest b hb).1, hpow.trans (hrest b hb).2⟩

variable {sizes : List Nat}

/-- **What `validateBlockSizes` accepts.** -/
theorem powerSizes_of_validate (hne : sizes ≠ [])
    (h : Slurm.validateBlockSizes (sizes.map Int.ofNat) = .ok ()) : PowerSizes sizes := by
  cases sizes with
  | nil => exact absurd rfl hne
  | cons first rest =>
    rw [List.map_cons, Slurm.validateBlockSizes] at h
    split_ifs at h with h1 h2 h3
    obtain ⟨hrest, hpair⟩ := powMul_of_validateFrom h
    refine ⟨?_, ?_, List.pairwise_cons.mpr ⟨fun b hb => (hrest b hb).1, hpair⟩⟩
    · have : ¬ (first : Int) ≤ 0 := h2
      show 0 < first
      omega
    · intro b hb
      rcases List.mem_cons.mp hb with rfl | hb
      · exact .refl b
      · exact (hrest b hb).2

theorem PowerSizes.last (h : PowerSizes sizes) : IsPowMul (sizes.headD 0) (sizes.getLastD 0) := by
  cases sizes with
  | nil => exact absurd h.pos (by simp)
  | cons first rest =>
    apply h.powMul
    rw [List.getLastD_cons]
    exact List.getLastD_mem_cons

/-- The last size is the largest. -/
theorem PowerSizes.le_last (h : PowerSizes sizes) {b : Nat} (hb : b ∈ sizes) :
    b ≤ sizes.getLastD 0 := by
  obtain ⟨init, hinit⟩ : ∃ init, sizes = init ++ [sizes.getLastD 0] := by
    rcases List.eq_nil_or_concat sizes with rfl | ⟨init, last, rfl⟩
    · exact absurd hb List.not_mem_nil
    · exact ⟨init, by simp⟩
  have hpair := h.increasing
  rw [hinit] at hb hpair
  rcases List.mem_append.mp hb with hmem | hmem
  · exact ((List.pairwise_append.mp hpair).2.2 b hmem _ (List.mem_singleton_self _)).le
  · exact (List.mem_singleton.mp hmem).le

/-! ## Capacities -/

/-- Doubling multiplies by a power of two. -/
theorem isPowMul_doubleUntil (target fuel capacity : Nat) :
    IsPowMul capacity (doubleUntil target fuel capacity) := by
  induction fuel generalizing capacity with
  | zero => exact .refl capacity
  | succ fuel ih =>
    rw [doubleUntil]
    split_ifs
    · exact (ih (capacity * 2)).mul_two
    · exact .refl capacity

/-- With enough fuel the target is reached. -/
theorem le_doubleUntil {target fuel capacity : Nat} (h : target ≤ capacity * 2 ^ fuel) :
    target ≤ doubleUntil target fuel capacity := by
  induction fuel generalizing capacity with
  | zero => simpa [doubleUntil] using h
  | succ fuel ih =>
    rw [doubleUntil]
    split_ifs with hlt
    · apply ih
      rw [mul_assoc, ← pow_succ']
      exact h
    · exact Nat.le_of_not_lt hlt

theorem isPowMul_aggregateSlotCapacity (n b : Nat) : IsPowMul b (aggregateSlotCapacity n b) :=
  isPowMul_doubleUntil n n b

theorem le_aggregateSlotCapacity (n : Nat) {b : Nat} (hb : 0 < b) :
    n ≤ aggregateSlotCapacity n b := by
  apply le_doubleUntil
  calc n ≤ 2 ^ n := Nat.lt_two_pow_self.le
    _ ≤ b * 2 ^ n := Nat.le_mul_of_pos_left _ hb

/-! ## Slot sizes -/

/-- The smallest multiple of `b` that is at least `n`. -/
def roundUp (n b : Nat) : Nat := (n + b - 1) / b * b

/-- The slot of a leaf with `n` hosts whose largest sibling has `maxN`. -/
def leafSlot (sizes : List Nat) (oversized : Prop) [Decidable oversized] (maxN n : Nat) : Nat :=
  if oversized then roundUp n (sizes.headD 0) else aggregateSlotCapacity maxN (sizes.headD 0)

/-- The host counts of the sub-domains of a domain. -/
def subCounts (domain : String) (hosts : Hosts) : List Nat :=
  (hosts.values.map (·.placedIn domain)).dedup.map fun g =>
    (hosts.values.filter fun host => host.placedIn domain = g).length

/-- The slot of a domain with sub-domains of the sizes `counts`: the slot of the largest sibling, or
what the sub-domains need, rounded up to the next block size that holds it. -/
def subDomainSlot (sizes : List Nat) (maxN : Nat) (counts : List Nat) : Nat :=
  let base := aggregateSlotCapacity (min (sizes.getLastD 0) maxN) (sizes.headD 0)
  let maxSub := counts.foldl max 0
  let need := (counts.map (leafSlot sizes (sizes.getLastD 0 < maxSub) maxSub)).sum
  if base < need ∧ 2 ≤ sizes.length then
    aggregateSlotCapacity (((sizes.drop 1).find? fun b => need ≤ b).getD need) (sizes.headD 0)
  else max base need

/-- The slot of a domain. -/
def domainSlot (sizes : List Nat) (singleLevel : Bool) (maxN : Nat) (domain : String)
    (hosts : Hosts) : Nat :=
  if hasSubDomain hosts then subDomainSlot sizes maxN (subCounts domain hosts)
  else if singleLevel then leafSlot sizes (sizes.length = 1) maxN hosts.values.length
  else leafSlot sizes (sizes.getLastD 0 < maxN) maxN hosts.values.length

/-- **The slots of the domains of a map**, in the order of their names. -/
def slotSizes (sizes : List Nat) (m : DomainMap) : List Nat :=
  let maxN := (m.hosts.values.map fun hosts => hosts.values.length).foldl max 0
  let singleLevel := !m.hosts.values.any hasSubDomain
  (m.hosts.entries.insertionSort fun a b => a.1 ≤ b.1).map fun e =>
    domainSlot sizes singleLevel maxN e.1 e.2

/-! ## The slots of the tree -/

/-- As many blocks as are needed for the hosts. -/
theorem length_splitLoop {id : String} {b fuel count : Nat} {hosts : List HostInfo} (hb : 0 < b)
    (hfuel : hosts.length ≤ fuel) :
    (splitLoop id b fuel count hosts).length = (hosts.length + b - 1) / b := by
  induction fuel generalizing count hosts with
  | zero =>
    rw [List.length_eq_zero_iff.mp (Nat.le_zero.mp hfuel)]
    exact (Nat.div_eq_of_lt (by simp only [List.length_nil]; omega)).symm
  | succ fuel ih =>
    cases hosts with
    | nil => exact (Nat.div_eq_of_lt (by simp only [List.length_nil]; omega)).symm
    | cons host hosts =>
      have hdrop : ((host :: hosts).drop b).length ≤ fuel := by
        simp only [List.length_drop, List.length_cons] at hfuel ⊢
        omega
      rw [splitLoop, List.length_cons, ih hdrop, List.length_drop]
      generalize hn : (host :: hosts).length = n
      have hpos : 0 < n := by rw [← hn]; exact Nat.succ_pos _
      rcases Nat.lt_or_ge b n with h | h
      · rw [show n + b - 1 = n - b + b - 1 + b by omega, Nat.add_div_right _ hb]
      · rw [show n - b + b - 1 = b - 1 by omega, Nat.div_eq_of_lt (by omega),
          show n + b - 1 = n - 1 + b by omega, Nat.add_div_right _ hb, Nat.div_eq_of_lt (by omega)]

theorem length_padBlocks (blocks : List BaseBlockNode) (n b : Nat) :
    (padBlocks blocks n b).length = max blocks.length n := by
  rw [padBlocks, List.length_append, List.length_replicate]
  omega

theorem nodeCount_aggregateOf (id : String) (blocks : List BaseBlockNode) (b : Nat) :
    (aggregateOf id blocks b).nodeCount = blocks.length * b := rfl

theorem nodeCount_packHostsIntoAggregate (id : String) (hosts : List HostInfo) (n : Nat) {b : Nat}
    (hb : 0 < b) :
    (packHostsIntoAggregate id hosts n b).nodeCount = max
      ((hosts.length + b - 1) / b) n * b := by
  rw [packHostsIntoAggregate, nodeCount_aggregateOf, length_padBlocks, splitIntoBaseBlocks,
    length_splitLoop hb le_rfl]

/-- A slot of a positive base is made of whole base blocks, at least one. -/
theorem exists_blocks_of_isPowMul {b n : Nat} (hb : 0 < b) (h : IsPowMul b n) :
    n / b * b = n ∧ 0 < n / b :=
  ⟨Nat.div_mul_cancel h.base_dvd, Nat.div_pos (Nat.le_of_dvd (h.pos hb) h.base_dvd) hb⟩

variable {maxN : Nat}

/-- **The slot of a leaf.** -/
theorem nodeCount_leaf (hb : 0 < sizes.headD 0) (id : String) {hosts : List HostInfo}
    (hpos : 0 < hosts.length) (hmax : hosts.length ≤ maxN) (oversized : Prop)
    [Decidable oversized] :
    (packHostsIntoAggregate id hosts (leafBaseBlocks hosts.length maxN (sizes.headD 0) oversized)
      (sizes.headD 0)).nodeCount = leafSlot sizes oversized maxN hosts.length := by
  rw [nodeCount_packHostsIntoAggregate _ _ _ hb, leafBaseBlocks, leafSlot, roundUp]
  generalize hcap : aggregateSlotCapacity maxN (sizes.headD 0) = cap
  have hpow : IsPowMul (sizes.headD 0) cap := hcap ▸ isPowMul_aggregateSlotCapacity _ _
  have hle : maxN ≤ cap := hcap ▸ le_aggregateSlotCapacity maxN hb
  generalize sizes.headD 0 = b at *
  have hceil : 0 < (hosts.length + b - 1) / b := Nat.div_pos (by omega) hb
  split_ifs
  · rw [max_eq_left (show 1 ≤ (hosts.length + b - 1) / b from hceil), max_self]
  · obtain ⟨hmul, hone⟩ := exists_blocks_of_isPowMul hb hpow
    have hfit : (hosts.length + b - 1) / b ≤ cap / b := by
      rw [← Nat.lt_succ_iff, Nat.div_lt_iff_lt_mul hb, Nat.succ_mul, hmul]
      omega
    rw [max_eq_left (show 1 ≤ cap / b from hone), max_eq_right hfit, hmul]

/-- **The slot of an interior vertex** whose children need `actual` base blocks. -/
theorem roundBaseBlocks_mul (hb : 0 < sizes.headD 0) {base : Nat}
    (hbase : IsPowMul (sizes.headD 0) base) (actual : Nat) :
    max actual (roundBaseBlocks actual (max (base / sizes.headD 0) 1) sizes) * sizes.headD 0 =
      if base < actual * sizes.headD 0 ∧ 2 ≤ sizes.length then
        aggregateSlotCapacity
          (((sizes.drop 1).find? fun b => actual * sizes.headD 0 ≤ b).getD (actual * sizes.headD 0))
          (sizes.headD 0)
      else max base (actual * sizes.headD 0) := by
  obtain ⟨hmul, hone⟩ := exists_blocks_of_isPowMul hb hbase
  rw [roundBaseBlocks, max_eq_left (show 1 ≤ base / sizes.headD 0 from hone)]
  have hlt : base / sizes.headD 0 < actual ↔ base < actual * sizes.headD 0 :=
    Nat.div_lt_iff_lt_mul hb
  by_cases hover : base < actual * sizes.headD 0 ∧ 2 ≤ sizes.length
  · rw [if_pos ⟨hlt.mpr hover.1, hover.2⟩, if_pos hover]
    dsimp only
    generalize halign : ((sizes.drop 1).find? fun b => actual * sizes.headD 0 ≤ b).getD
      (actual * sizes.headD 0) = align
    -- The width holds the children, so they take one aggregate.
    have hfit : actual * sizes.headD 0 ≤ align := by
      rw [← halign]
      cases hfind : (sizes.drop 1).find? fun b => actual * sizes.headD 0 ≤ b with
      | none => exact le_rfl
      | some b => simpa using List.find?_some hfind
    obtain ⟨hwidth, hpos⟩ :=
      exists_blocks_of_isPowMul hb (isPowMul_aggregateSlotCapacity align (sizes.headD 0))
    have hcap := le_aggregateSlotCapacity align hb
    generalize aggregateSlotCapacity align (sizes.headD 0) = cap at *
    generalize cap / sizes.headD 0 = width at *
    have hactual : actual ≤ width := by
      apply Nat.le_of_mul_le_mul_right _ hb
      omega
    have hzero : 0 < actual := by
      rcases Nat.eq_zero_or_pos actual with h | h
      · rw [h, zero_mul] at hover
        exact absurd hover.1 (Nat.not_lt_zero _)
      · exact h
    have hquot : (actual + width - 1) / width = 1 :=
      Nat.div_eq_of_lt_le (by omega) (by omega)
    rw [hquot, one_mul, max_eq_right hactual, hwidth]
  · have hover' : ¬ (base / sizes.headD 0 < actual ∧ 2 ≤ sizes.length) :=
      fun h => hover ⟨hlt.mp h.1, h.2⟩
    rw [if_neg hover', if_neg hover, ← Nat.mul_max_mul_right, hmul, Nat.max_comm]

variable {hosts : Hosts} {domain : String}

/-- The host counts of the sub-domains, as they are counted while the hosts are placed. -/
theorem map_actualNodeCount_perm (h : hosts.Filed domain) :
    ((subDomains domain hosts).entries.map (·.2.actualNodeCount)).Perm
      (subCounts domain hosts) := by
  have hplaced := placedIn_subDomains h
  have hcount : ∀ e ∈ (subDomains domain hosts).entries, e.2.actualNodeCount =
      (hosts.values.filter fun host => host.placedIn domain = e.1).length := by
    intro e he
    have hat : subAt (subDomains domain hosts) e.1 = e.2 := by
      rw [subAt, GoMap.lookup_eq_some_iff.mpr he, Option.getD_some]
    rw [← hat, hplaced.count, (hplaced.hosts e.1).length_eq, List.filter_reverse,
      List.length_reverse]
  have hkeys : (subDomains domain hosts).keys.Perm
      (hosts.values.map (·.placedIn domain)).dedup := by
    apply (List.perm_ext_iff_of_nodup (subDomains domain hosts).nodupKeys (List.nodup_dedup _)).mpr
    intro g
    show g ∈ subDomains domain hosts ↔ _
    rw [← AList.lookup_isSome, hplaced.mem, List.mem_dedup, List.mem_map]
    simp only [List.mem_reverse]
  have hmap := hkeys.map fun g => (hosts.values.filter fun host => host.placedIn domain = g).length
  rw [show (subDomains domain hosts).keys = (subDomains domain hosts).entries.map (·.1) from rfl,
    List.map_map] at hmap
  rw [List.map_congr_left hcount]
  exact hmap

/-- One aggregate for each child. -/
theorem childAggregates_eq_map (n : Nat) (sizes : List Nat)
    (children : List (String × BlockVertex)) :
    childAggregates n sizes children =
      children.map fun child => (child.1, toDomainAggregate n sizes child.2) := by
  induction children with
  | nil => rfl
  | cons child children ih => rw [childAggregates, ih, List.map_cons]

/-- An aggregate counts its base blocks with their full size. -/
def Counted (b : Nat) (agg : AggregateBlockNode) : Prop :=
  agg.nodeCount = (collectBaseBlockSlots agg).length * b

theorem counted_aggregateOf (id : String) (blocks : List BaseBlockNode) (b : Nat) :
    Counted b (aggregateOf id blocks b) := by
  rw [Counted, collectBaseBlockSlots_aggregateOf, nodeCount_aggregateOf]

theorem counted_toDomainAggregate (n : Nat) (sizes : List Nat) (v : BlockVertex) :
    Counted (sizes.headD 0) (toDomainAggregate n sizes v) := by
  obtain ⟨id, count, maxN, _ | hosts, children⟩ := v
  · rw [toDomainAggregate]
    exact counted_aggregateOf _ _ _
  · rw [toDomainAggregate]
    exact counted_aggregateOf _ _ _

/-- The node count of an aggregate is that of its slots. -/
theorem counted_domainAggregate (singleLevel : Bool) (n : Nat) (sizes : List Nat)
    (v : BlockVertex) : Counted (sizes.headD 0) (domainAggregate singleLevel n sizes v) := by
  obtain ⟨id, count, maxN, hosts, children⟩ := v
  cases singleLevel with
  | false => exact counted_toDomainAggregate n sizes _
  | true =>
    cases hosts with
    | none => exact counted_toDomainAggregate n sizes _
    | some hosts => exact counted_aggregateOf _ _ _

/-- The base blocks of the children of a vertex. -/
theorem length_childBlocks (n : Nat) (sizes : List Nat) (children : List (String × BlockVertex)) :
    ((sortedByKey (childAggregates n sizes children)).flatMap fun c =>
      collectBaseBlockSlots c.2).length * sizes.headD 0 =
        (children.map fun child => (toDomainAggregate n sizes child.2).nodeCount).sum := by
  have hperm : ((sortedByKey (childAggregates n sizes children)).flatMap fun c =>
      collectBaseBlockSlots c.2).Perm (children.flatMap fun child =>
        collectBaseBlockSlots (toDomainAggregate n sizes child.2)) := by
    unfold sortedByKey
    refine ((List.perm_insertionSort _ _).flatMap_right _).trans ?_
    rw [childAggregates_eq_map, List.flatMap_map]
  rw [hperm.length_eq, List.length_flatMap, ← List.sum_map_mul_right]
  congr 1
  apply List.map_congr_left
  intro child _
  exact (counted_toDomainAggregate n sizes child.2).symm

/-- The largest of some counts does not depend on their order. -/
theorem foldl_max_perm {l l' : List Nat} (h : l.Perm l') : l.foldl max 0 = l'.foldl max 0 :=
  h.foldl_eq 0

theorem le_foldl_max_start (l : List Nat) (k : Nat) : k ≤ l.foldl max k := by
  induction l generalizing k with
  | nil => exact le_rfl
  | cons a l ih => exact (le_max_left k a).trans (ih (max k a))

theorem le_foldl_max {l : List Nat} {n : Nat} (h : n ∈ l) (k : Nat) : n ≤ l.foldl max k := by
  induction l generalizing k with
  | nil => exact absurd h List.not_mem_nil
  | cons a l ih =>
    rcases List.mem_cons.mp h with rfl | h
    · exact (le_max_right k n).trans (le_foldl_max_start l _)
    · exact ih h (max k a)

/-- A leaf vertex takes the slot of a leaf. -/
theorem nodeCount_leafVertex (hb : 0 < sizes.headD 0) (id : String) (hpos : 0 < hosts.values.length)
    (hmax : hosts.values.length ≤ maxN) :
    (toDomainAggregate maxN sizes (.node id hosts.values.length 0 (some hosts) [])).nodeCount =
      leafSlot sizes (sizes.getLastD 0 < maxN) maxN hosts.values.length := by
  have hlen := (hostsSorted_perm hosts).length_eq
  rw [toDomainAggregate, ← hlen]
  exact nodeCount_leaf hb id (hlen ▸ hpos) (hlen ▸ hmax) _

/-- **The slot of a domain with sub-domains.** -/
theorem nodeCount_subDomains (hb : 0 < sizes.headD 0) (h : hosts.Filed domain)
    (hsub : hasSubDomain hosts = true) (maxN : Nat) :
    (toDomainAggregate maxN sizes (domainVertex domain hosts)).nodeCount =
      subDomainSlot sizes maxN (subCounts domain hosts) := by
  have hperm := map_actualNodeCount_perm h
  have hplaced := placedIn_subDomains h
  have hmax : maxNodeCount ((subDomains domain hosts).entries.map fun e =>
      (e.1, BlockVertex.node e.1 e.2.actualNodeCount 0 (some e.2.hosts) [])) =
        (subCounts domain hosts).foldl max 0 := by
    rw [maxNodeCount, List.map_map, ← foldl_max_perm hperm]
    rfl
  -- Every sub-domain takes the slot of a leaf among its siblings.
  have hneed : (((subDomains domain hosts).entries.map fun e =>
      (e.1, BlockVertex.node e.1 e.2.actualNodeCount 0 (some e.2.hosts) [])).map fun child =>
        (toDomainAggregate ((subCounts domain hosts).foldl max 0) sizes child.2).nodeCount).sum =
      ((subCounts domain hosts).map (leafSlot sizes
        (sizes.getLastD 0 < (subCounts domain hosts).foldl max 0)
        ((subCounts domain hosts).foldl max 0))).sum := by
    rw [← (hperm.map _).sum_eq, List.map_map, List.map_map]
    congr 1
    apply List.map_congr_left
    intro e he
    have hlook := GoMap.lookup_eq_some_iff.mpr he
    have hat : subAt (subDomains domain hosts) e.1 = e.2 := by
      rw [subAt, hlook, Option.getD_some]
    have hcount : e.2.actualNodeCount = e.2.hosts.values.length := hat ▸ hplaced.count e.1
    have hpos : 0 < e.2.hosts.values.length := by
      obtain ⟨host, hhost, hplace⟩ := (hplaced.mem e.1).mp (by rw [hlook]; rfl)
      have hmem := (hplaced.hosts e.1).mem_iff.mpr (List.mem_filter.mpr ⟨hhost,
        by simpa using hplace⟩)
      rw [hat] at hmem
      exact List.length_pos_of_mem hmem
    have hle : e.2.hosts.values.length ≤ (subCounts domain hosts).foldl max 0 := by
      rw [← hcount, ← foldl_max_perm hperm]
      apply le_foldl_max
      exact List.mem_map.mpr ⟨e, he, rfl⟩
    show (toDomainAggregate _ sizes (.node e.1 e.2.actualNodeCount 0 (some e.2.hosts)
        [])).nodeCount = _
    rw [hcount, nodeCount_leafVertex hb _ hpos hle]
    show _ = leafSlot sizes _ _ e.2.actualNodeCount
    rw [hcount]
  rw [domainVertex, if_pos hsub]
  rw [toDomainAggregate, nodeCount_aggregateOf, length_padBlocks,
    roundBaseBlocks_mul hb (isPowMul_aggregateSlotCapacity _ _), length_childBlocks, hmax, hneed]
  rfl

/-- **The slot of a domain.** -/
theorem nodeCount_domainAggregate (hb : 0 < sizes.headD 0) (h : hosts.Filed domain)
    (hmax : hosts.values.length ≤ maxN) (singleLevel : Bool) :
    (domainAggregate singleLevel maxN sizes (domainVertex domain hosts)).nodeCount =
      domainSlot sizes singleLevel maxN domain hosts := by
  have hlen := (hostsSorted_perm hosts).length_eq
  have hentries : hosts.entries.length = hosts.values.length := (List.length_map _).symm
  have hpos : 0 < hosts.values.length := by
    rw [← hentries]
    exact List.length_pos_of_ne_nil h.nonempty
  rw [domainSlot]
  by_cases hsub : hasSubDomain hosts = true
  · rw [if_pos hsub, ← nodeCount_subDomains hb h hsub]
    rw [domainVertex, if_pos hsub]
    cases singleLevel <;> rfl
  · rw [if_neg hsub, domainVertex, if_neg hsub, hentries]
    cases singleLevel with
    | false => exact nodeCount_leafVertex hb _ hpos hmax
    | true =>
      rw [if_pos rfl, domainAggregate, toSingleLevelDomainAggregate, ← hlen]
      exact nodeCount_leaf hb domain (hlen ▸ hpos) (hlen ▸ hmax) _

theorem actualNodeCount_domainVertex (domain : String) (hosts : Hosts) :
    (domainVertex domain hosts).actualNodeCount = hosts.values.length := by
  unfold domainVertex
  split_ifs
  · rfl
  · exact (List.length_map _).symm

/-- The tree is single-level exactly when no domain has sub-domains. -/
theorem isSingleLevelDomainTree_map {entries : List (Σ _ : String, Hosts)} (hne : entries ≠ []) :
    isSingleLevelDomainTree (entries.map fun e => (e.1, domainVertex e.1 e.2)) =
      !(entries.map (·.2)).any hasSubDomain := by
  rw [isSingleLevelDomainTree, List.all_map, List.any_map, List.not_any_eq_all_not]
  have hempty : (entries.map fun e => (e.1, domainVertex e.1 e.2)).isEmpty = false := by
    simpa using hne
  rw [hempty, Bool.not_false, Bool.true_and]
  congr 1
  funext e
  show _ = !hasSubDomain e.2
  simp only [Function.comp_apply, domainVertex]
  cases hasSubDomain e.2 <;> rfl

/-- **The slots of the domain tree** are those computed from the host counts. -/
theorem map_nodeCount_domainAggregates (hb : 0 < sizes.headD 0) (m : DomainMap) :
    (domainAggregates sizes m.getDomainTree).map (·.nodeCount) = slotSizes sizes m := by
  have hmaxN : maxNodeCount (m.hosts.entries.map fun e => (e.1, domainVertex e.1 e.2)) =
      (m.hosts.values.map fun hosts => hosts.values.length).foldl max 0 := by
    rw [maxNodeCount, GoMap.values, List.map_map, List.map_map]
    congr 1
    apply List.map_congr_left
    exact fun e _ => actualNodeCount_domainVertex e.1 e.2
  have hsort : sortedByKey (m.hosts.entries.map fun e => (e.1, domainVertex e.1 e.2)) =
      (m.hosts.entries.insertionSort fun a b => a.1 ≤ b.1).map fun e =>
      (e.1, domainVertex e.1 e.2) := by
    symm
    apply List.map_insertionSort
    exact fun a _ b _ => Iff.rfl
  rw [DomainMap.getDomainTree, domainAggregates, hmaxN, hsort, slotSizes,
    List.map_map, List.map_map]
  apply List.map_congr_left
  intro e he
  have hmem : e ∈ m.hosts.entries := (List.mem_insertionSort _).mp he
  have hmax : e.2.values.length ≤ (m.hosts.values.map fun hosts => hosts.values.length).foldl max
      0 := by
    apply le_foldl_max
    exact List.mem_map.mpr ⟨e.2, GoMap.mem_values.mpr ⟨e.1, hmem⟩, rfl⟩
  rw [isSingleLevelDomainTree_map (List.ne_nil_of_mem hmem)]
  exact nodeCount_domainAggregate hb (m.filed e.1 e.2 (GoMap.lookup_eq_some_iff.mpr hmem)) hmax _

end Topograph.Translate
