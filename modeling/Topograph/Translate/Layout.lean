import Topograph.Lib.Consecutive
import Topograph.Translate.InferredSizes
import Mathlib.Data.Prod.Lex

/-! # The layout of domains in blocks

Read without the empty blocks, the slots of a block tree are the sub-domains of the domains, both in
the order of their names, each cut into base blocks (`filter_filled_slots`). So a block has hosts of
one sub-domain, and the blocks of a sub-domain, and of a domain, stand together
(`complementBlocks_separated`). -/

namespace Topograph.Translate

open Topograph.Topology

/-! ## Filled blocks -/

/-- Whether a base block has hosts. -/
def BaseBlockNode.filled (block : BaseBlockNode) : Bool := !block.leaves.reduceOption.isEmpty

theorem filled_newEmptyBaseBlock (b : Nat) : (newEmptyBaseBlock b).filled = false := by
  rw [BaseBlockNode.filled, newEmptyBaseBlock, reduceOption_replicate_none]
  rfl

theorem filter_filled_replicate_empty (n b : Nat) :
    (List.replicate n (newEmptyBaseBlock b)).filter BaseBlockNode.filled = [] := by
  rw [List.filter_replicate, filled_newEmptyBaseBlock]
  rfl

/-- Padding fills no blocks. -/
theorem filter_filled_padBlocks (blocks : List BaseBlockNode) (n b : Nat) :
    (padBlocks blocks n b).filter BaseBlockNode.filled = blocks.filter BaseBlockNode.filled := by
  rw [padBlocks, List.filter_append, filter_filled_replicate_empty, List.append_nil]

/-- What `splitIntoBaseBlocks` makes is filled, with at most `b` hosts a block. -/
theorem mem_splitLoop {id : String} {b fuel count : Nat} {hosts : List HostInfo} (hb : 0 < b)
    {block : BaseBlockNode} (h : block ∈ splitLoop id b fuel count hosts) :
    block.filled = true ∧ block.leaves.reduceOption.length ≤ b := by
  induction fuel generalizing count hosts with
  | zero => exact absurd h List.not_mem_nil
  | succ fuel ih =>
    cases hosts with
    | nil => exact absurd h List.not_mem_nil
    | cons host hosts =>
      rw [splitLoop] at h
      rcases List.mem_cons.mp h with rfl | h
      · rw [BaseBlockNode.filled, reduceOption_leaves_newBaseBlock, List.take_take, Nat.min_self]
        obtain ⟨b, rfl⟩ := Nat.exists_eq_succ_of_ne_zero hb.ne'
        exact ⟨rfl, List.length_take_le _ _⟩
      · exact ih h

theorem filter_filled_splitIntoBaseBlocks {b : Nat} (hb : 0 < b) (id : String)
    (hosts : List HostInfo) :
    (splitIntoBaseBlocks id hosts b).filter BaseBlockNode.filled = splitIntoBaseBlocks id hosts b :=
  List.filter_eq_self.mpr fun _ h => (mem_splitLoop hb h).1

/-! ## The groups of a domain map -/

/-- The hosts of one sub-domain of one domain. -/
structure Group where
  domain : String
  subDomain : String
  hosts : Hosts

/-- Where the hosts of a group belong. -/
def Group.owner (g : Group) : String × String := (g.domain, g.subDomain)

/-- The base blocks of a group. -/
def Group.blocks (b : Nat) (g : Group) : List BaseBlockNode :=
  splitIntoBaseBlocks g.subDomain (hostsSorted g.hosts) b

/-- The sub-domains of a domain in the order of their names; a domain without sub-domains is one of
its own name. -/
def domainGroups (e : Σ _ : String, Hosts) : List Group :=
  if hasSubDomain e.2 then
    ((subDomains e.1 e.2).entries.insertionSort fun a b => a.1 ≤ b.1).map fun sub =>
      ⟨e.1, sub.1, sub.2.hosts⟩
  else [⟨e.1, e.1, e.2⟩]

/-- The groups of a domain map, by domain and sub-domain. -/
def groups (m : DomainMap) : List Group :=
  (m.hosts.entries.insertionSort fun a b => a.1 ≤ b.1).flatMap domainGroups

/-- Sorting by key does not look at the values. -/
theorem sortedByKey_map {α β : Type} (entries : List (Σ _ : String, α))
    (f : (Σ _ : String, α) → β) :
    sortedByKey (entries.map fun e => (e.1, f e)) = (entries.insertionSort fun a b => a.1 ≤ b.1).map
      fun e => (e.1, f e) :=
  (List.map_insertionSort (fun a b : Σ _ : String, α => a.1 ≤ b.1) (fun a b : String × β =>
    a.1 ≤ b.1) _ _
    fun _ _ _ _ => Iff.rfl).symm

/-- The filled blocks of a leaf. -/
theorem filter_filled_packHosts {b : Nat} (hb : 0 < b) (id : String) (hosts : List HostInfo)
    (n : Nat) :
    (collectBaseBlockSlots (packHostsIntoAggregate id hosts n b)).filter BaseBlockNode.filled =
      splitIntoBaseBlocks id hosts b := by
  rw [packHostsIntoAggregate, collectBaseBlockSlots_aggregateOf, filter_filled_padBlocks,
    filter_filled_splitIntoBaseBlocks hb]

section Sizes

variable {sizes : List Nat} (hb : 0 < sizes.headD 0)

include hb

/-- **The filled blocks of a domain** are those of its groups. -/
theorem filter_filled_domainAggregate (singleLevel : Bool) (maxN : Nat) (domain : String)
    (hosts : Hosts) :
    (collectBaseBlockSlots (domainAggregate singleLevel maxN sizes
      (domainVertex domain hosts))).filter BaseBlockNode.filled =
      (domainGroups ⟨domain, hosts⟩).flatMap (Group.blocks (sizes.headD 0)) := by
  unfold domainVertex domainGroups
  by_cases hsub : hasSubDomain hosts = true
  · rw [if_pos hsub, if_pos hsub]
    dsimp only
    have hnone : ∀ (n : Nat) (children : List (String × BlockVertex)),
        domainAggregate singleLevel maxN sizes (.node domain hosts.values.length n none children) =
          toDomainAggregate maxN sizes (.node domain hosts.values.length n none children) := by
      intro n children
      cases singleLevel <;> rfl
    rw [hnone, toDomainAggregate, collectBaseBlockSlots_aggregateOf, filter_filled_padBlocks,
      childAggregates_eq_map, List.map_map]
    rw [show ((fun child : String × BlockVertex => (child.1, toDomainAggregate _ sizes child.2)) ∘
      fun e : Σ _ : String, SubDomain =>
        (e.1, BlockVertex.node e.1 e.2.actualNodeCount 0 (some e.2.hosts) [])) = fun e =>
          (e.1, toDomainAggregate _ sizes (.node e.1 e.2.actualNodeCount 0 (some e.2.hosts) []))
            from rfl,
      sortedByKey_map, List.flatMap_map, List.filter_flatMap, List.flatMap_map]
    apply List.flatMap_congr
    intro sub _
    rw [toDomainAggregate, filter_filled_packHosts hb]
    rfl
  · rw [if_neg hsub, if_neg hsub, List.flatMap_singleton]
    cases singleLevel with
    | false =>
      rw [show domainAggregate false maxN sizes (.node domain hosts.entries.length 0
        (some hosts) []) =
        toDomainAggregate maxN sizes (.node domain hosts.entries.length 0 (some hosts) []) from rfl,
        toDomainAggregate,
        filter_filled_packHosts hb]
      rfl
    | true => exact filter_filled_packHosts hb _ _ _

/-- **The filled blocks of the tree** are those of the groups of the map. -/
theorem filter_filled_slots (m : DomainMap) :
    (collectBaseBlockSlots (toRootAggregate m.getDomainTree sizes)).filter BaseBlockNode.filled =
      (groups m).flatMap (Group.blocks (sizes.headD 0)) := by
  obtain ⟨n, hn⟩ := exists_slots_toRootAggregate sizes m
  rw [hn, List.filter_append, filter_filled_replicate_empty, List.append_nil, List.filter_flatMap,
    groups, List.flatMap_assoc]
  rw [DomainMap.getDomainTree, domainAggregates, sortedByKey_map, List.map_map, List.flatMap_map]
  apply List.flatMap_congr
  intro e _
  exact filter_filled_domainAggregate hb _ _ e.1 e.2

end Sizes

/-! ## The hosts of groups -/

variable {host : HostInfo} {hosts : Hosts}

/-- Without sub-domains every host is in the one of the name of its domain. -/
theorem placedIn_of_not_hasSubDomain (h : ¬ hasSubDomain hosts = true) (hmem : host ∈ hosts.values)
    (domain : String) : host.placedIn domain = domain := by
  have hempty : host.subDomain = "" := by
    by_contra hne
    exact h (List.any_eq_true.mpr ⟨host, hmem, by simpa using hne⟩)
  rw [HostInfo.placedIn, if_pos hempty]

/-- The hosts of a subdomain. -/
theorem mem_sub_iff {domain : String} (h : hosts.Filed domain) {e : Σ _ : String, SubDomain}
    (he : e ∈ (subDomains domain hosts).entries) (host : HostInfo) :
    host ∈ e.2.hosts.values ↔ host ∈ hosts.values ∧ host.placedIn domain = e.1 := by
  have hperm := (placedIn_subDomains h).hosts e.1
  rw [subAt, GoMap.lookup_eq_some_iff.mpr he, Option.getD_some] at hperm
  rw [hperm.mem_iff, List.mem_filter, List.mem_reverse, decide_eq_true_eq]

/-- **The groups of a domain divide its hosts.** -/
theorem mem_domainGroups {domain : String} (h : hosts.Filed domain) (host : HostInfo)
    (owner : String × String) :
    (∃ g ∈ domainGroups ⟨domain, hosts⟩, g.owner = owner ∧ host ∈ g.hosts.values) ↔
      host ∈ hosts.values ∧ owner = (domain, host.placedIn domain) := by
  unfold domainGroups
  by_cases hsub : hasSubDomain hosts = true
  · rw [if_pos hsub]
    constructor
    · rintro ⟨g, hg, rfl, hhost⟩
      obtain ⟨e, he, rfl⟩ := List.mem_map.mp hg
      obtain ⟨hmem, hplaced⟩ := (mem_sub_iff h ((List.mem_insertionSort _).mp he) host).mp hhost
      exact ⟨hmem, by rw [hplaced]; rfl⟩
    · rintro ⟨hmem, rfl⟩
      obtain ⟨sub, hlook⟩ := Option.isSome_iff_exists.mp
        (((placedIn_subDomains h).mem (host.placedIn domain)).mpr ⟨host, List.mem_reverse.mpr hmem,
          rfl⟩)
      have he := GoMap.lookup_eq_some_iff.mp hlook
      exact ⟨_, List.mem_map.mpr ⟨⟨_, sub⟩, (List.mem_insertionSort _).mpr he, rfl⟩, rfl,
        (mem_sub_iff h he host).mpr ⟨hmem, rfl⟩⟩
  · rw [if_neg hsub]
    constructor
    · rintro ⟨g, hg, rfl, hhost⟩
      obtain rfl := List.mem_singleton.mp hg
      exact ⟨hhost, by rw [placedIn_of_not_hasSubDomain hsub hhost]; rfl⟩
    · rintro ⟨hmem, rfl⟩
      exact ⟨_, List.mem_singleton_self _,
        by rw [placedIn_of_not_hasSubDomain hsub hmem]; rfl, hmem⟩

/-- **The groups of a map divide its hosts.** -/
theorem mem_groups (m : DomainMap) (host : HostInfo) (owner : String × String) :
    (∃ g ∈ groups m, g.owner = owner ∧ host ∈ g.hosts.values) ↔
      m.lookupHost owner.1 host.hostName = some host ∧ host.placedIn owner.1 = owner.2 := by
  have hlook : ∀ domain hosts, m.hosts.lookup domain = some hosts →
      m.lookupHost domain host.hostName = hosts.lookup host.hostName := by
    intro domain hosts h
    rw [DomainMap.lookupHost, h, Option.bind_some]
  constructor
  · rintro ⟨g, hg, howner, hhost⟩
    obtain ⟨e, he, hg⟩ := List.mem_flatMap.mp hg
    have hentry := GoMap.lookup_eq_some_iff.mpr ((List.mem_insertionSort _).mp he)
    obtain ⟨hmem, rfl⟩ :=
      (mem_domainGroups (m.filed e.1 e.2 hentry) host owner).mp ⟨g, hg, howner, hhost⟩
    exact ⟨by rw [hlook e.1 e.2 hentry]; exact ((m.filed e.1 e.2 hentry).of_mem_values hmem).2, rfl⟩
  · rintro ⟨hhost, hplaced⟩
    obtain ⟨hosts, hentry, hhost⟩ := Option.bind_eq_some_iff.mp hhost
    have hmem : host ∈ hosts.values := GoMap.mem_values.mpr ⟨_, GoMap.lookup_eq_some_iff.mp hhost⟩
    obtain ⟨g, hg, hrest⟩ :=
      (mem_domainGroups (m.filed owner.1 hosts hentry) host owner).mpr ⟨hmem, by rw [hplaced]⟩
    exact ⟨g, List.mem_flatMap.mpr ⟨⟨owner.1, hosts⟩,
      (List.mem_insertionSort _).mpr (GoMap.lookup_eq_some_iff.mp hentry), hg⟩, hrest⟩

/-! ## The order of groups -/

/-- The keys of a sorted map increase. -/
theorem pairwise_lt_sortedEntries {α : Type} (m : GoMap String α) :
    (m.entries.insertionSort fun a b => a.1 ≤ b.1).Pairwise fun a b => a.1 < b.1 := by
  have hsorted : (m.entries.insertionSort fun a b => a.1 ≤ b.1).Pairwise fun a b => a.1 ≤ b.1 :=
    List.pairwise_insertionSort (fun a b : Σ _ : String, α => a.1 ≤ b.1) _
  have hnodup : (m.entries.insertionSort fun a b => a.1 ≤ b.1).Pairwise fun a b => a.1 ≠ b.1 :=
    List.pairwise_map.mp (((List.perm_insertionSort _ _).map _).nodup_iff.mpr m.nodupKeys)
  exact (hsorted.and hnodup).imp fun h => lt_of_le_of_ne h.1 h.2

theorem domain_of_mem_domainGroups {e : Σ _ : String, Hosts} {g : Group} (h : g ∈ domainGroups e) :
    g.domain = e.1 := by
  unfold domainGroups at h
  split_ifs at h
  · obtain ⟨sub, -, rfl⟩ := List.mem_map.mp h
    rfl
  · rw [List.mem_singleton.mp h]

/-- **The groups are ordered** by domain, then by sub-domain. -/
theorem pairwise_groups (m : DomainMap) :
    (groups m).Pairwise fun a b => toLex a.owner < toLex b.owner := by
  rw [groups, List.pairwise_flatMap]
  constructor
  · intro e _
    unfold domainGroups
    split_ifs
    · rw [List.pairwise_map]
      refine (pairwise_lt_sortedEntries (subDomains e.1 e.2)).imp fun {a b} h => ?_
      exact Prod.Lex.toLex_lt_toLex.mpr (Or.inr ⟨rfl, h⟩)
    · exact List.pairwise_singleton _ _
  · refine (pairwise_lt_sortedEntries m.hosts).imp fun {a b} h x hx y hy => ?_
    refine Prod.Lex.toLex_lt_toLex.mpr (Or.inl ?_)
    rw [Group.owner, Group.owner, domain_of_mem_domainGroups hx, domain_of_mem_domainGroups hy]
    exact h

/-! ## Separation -/

variable {slots : List BaseBlockNode}

/-- The blocks with nodes, read as node lists. -/
theorem map_nodes_filter_slotBlocks (byName : GoMap String BlockInfo)
    (h : ∀ host ∈ slotHosts slots, host.hostName ≠ "") :
    ((slotBlocks byName slots).filter fun b => b.nodes ≠ []).map (·.nodes) =
      (slots.filter BaseBlockNode.filled).map BaseBlockNode.names := by
  have hfilter : ((slotBlocks byName slots).filter fun b => b.nodes ≠ []).map (·.nodes) =
      ((slotBlocks byName slots).map (·.nodes)).filter fun nodes => nodes ≠ [] := by
    rw [List.filter_map]
    rfl
  rw [hfilter, map_nodes_slotBlocks byName h, List.filter_map]
  congr 1
  apply List.filter_congr
  intro bb _
  cases hleaves : bb.leaves.reduceOption <;> simp [BaseBlockNode.names,
    BaseBlockNode.filled, hleaves]

/-- **Separation.** Every block belongs to a sub-domain of a domain: it has at most `size` nodes,
all of them hosts of this sub-domain, every host stands in a block of its sub-domain, and the blocks
of a sub-domain, and of a domain, stand together. -/
def Separated (m : DomainMap) (size : Nat) (blocks : List BlockInfo) : Prop :=
  ∃ owners : List (String × String),
    List.Forall₂ (fun b owner => b.nodes.length ≤ size ∧
      ∀ n ∈ b.nodes, ∃ host, m.lookupHost owner.1 n = some host ∧ host.placedIn owner.1 = owner.2)
        blocks owners ∧
    (∀ domain n host, m.lookupHost domain n = some host →
      ∃ (i : Nat) (b : BlockInfo), blocks[i]? = some b ∧
      owners[i]? = some (domain, host.placedIn domain) ∧ n ∈ b.nodes) ∧
    Consecutive id owners ∧ Consecutive Prod.fst owners

/-- The filled blocks of a map with their owners. -/
def ownedBlocks (b : Nat) (m : DomainMap) : List (BaseBlockNode × String × String) :=
  (groups m).flatMap fun g => (g.blocks b).map fun bb => (bb, g.owner)

section Owned

variable {b : Nat} (hb : 0 < b) (m : DomainMap)

/-- The owned blocks are those of the groups, in order. -/
theorem map_fst_ownedBlocks :
    (ownedBlocks b m).map Prod.fst = (groups m).flatMap (Group.blocks b) := by
  rw [ownedBlocks, List.map_flatMap]
  apply List.flatMap_congr
  intro g _
  rw [List.map_map]
  exact List.map_id _

/-- The owned blocks are sorted by domain and subdomain. -/
theorem pairwise_ownedBlocks : (ownedBlocks b m).Pairwise fun x y => toLex x.2 ≤ toLex y.2 := by
  rw [ownedBlocks, List.pairwise_flatMap]
  constructor
  · intro g _
    rw [List.pairwise_map]
    exact List.pairwise_of_forall fun _ _ => le_refl _
  · refine (pairwise_groups m).imp fun {g g'} hlt x hx y hy => ?_
    obtain ⟨bb, -, rfl⟩ := List.mem_map.mp hx
    obtain ⟨bb', -, rfl⟩ := List.mem_map.mp hy
    exact le_of_lt hlt

include hb

/-- What stands in the block of an owner. -/
theorem mem_ownedBlocks_imp {bb : BaseBlockNode} {owner : String × String}
    (h : (bb, owner) ∈ ownedBlocks b m) :
    bb.names.length ≤ b ∧ ∀ n ∈ bb.names, ∃ host, m.lookupHost owner.1 n = some host ∧
    host.placedIn owner.1 = owner.2 := by
  obtain ⟨g, hg, hbb⟩ := List.mem_flatMap.mp h
  obtain ⟨bb', hbb', heq⟩ := List.mem_map.mp hbb
  obtain ⟨rfl, rfl⟩ := Prod.mk.inj heq
  refine ⟨by rw [BaseBlockNode.names, List.length_map]; exact (mem_splitLoop hb hbb').2,
    fun n hn => ?_⟩
  obtain ⟨host, hhost, rfl⟩ := List.mem_map.mp hn
  have hmem : host ∈ hostsSorted g.hosts := by
    have hslot : host ∈ slotHosts (g.blocks b) := List.mem_flatMap.mpr ⟨bb', hbb', hhost⟩
    rwa [Group.blocks, splitIntoBaseBlocks, slotHosts_splitLoop hb le_rfl] at hslot
  exact ⟨host, (mem_groups m host g.owner).mp ⟨g, hg, rfl,
    (hostsSorted_perm g.hosts).mem_iff.mp hmem⟩⟩

/-- Every host stands in a block of its owner. -/
theorem exists_mem_ownedBlocks {domain n : String} (h : m.lookupHost domain n = some host) :
    ∃ bb, (bb, domain, host.placedIn domain) ∈ ownedBlocks b m ∧ n ∈ bb.names := by
  have hname := (DomainMap.keyed_of_lookupHost h).2
  obtain ⟨g, hg, howner, hhost⟩ :=
    (mem_groups m host (domain, host.placedIn domain)).mpr ⟨by rw [hname]; exact h, rfl⟩
  have hslot : host ∈ slotHosts (g.blocks b) := by
    rw [Group.blocks, splitIntoBaseBlocks, slotHosts_splitLoop hb le_rfl]
    exact (hostsSorted_perm g.hosts).mem_iff.mpr hhost
  obtain ⟨bb, hbb, hleaf⟩ := List.mem_flatMap.mp hslot
  refine ⟨bb, List.mem_flatMap.mpr ⟨g, hg, List.mem_map.mpr ⟨bb, hbb, by rw [howner]⟩⟩, ?_⟩
  exact List.mem_map.mpr ⟨host, hleaf, hname⟩

/-- Blocks with the node lists of the filled blocks of a map are separated. -/
theorem separated_of_map_nodes {blocks : List BlockInfo}
    (h : blocks.map (·.nodes) = ((groups m).flatMap (Group.blocks b)).map BaseBlockNode.names) :
    Separated m b blocks := by
  rw [← map_fst_ownedBlocks, List.map_map] at h
  refine ⟨(ownedBlocks b m).map Prod.snd, ?_, fun domain n host hhost => ?_, ?_, ?_⟩
  · have hnodes : List.Forall₂ (fun nodes owner => nodes.length ≤ b ∧
        ∀ n ∈ nodes, ∃ host, m.lookupHost owner.1 n = some host ∧ host.placedIn owner.1 = owner.2)
        (blocks.map (·.nodes)) ((ownedBlocks b m).map Prod.snd) := by
      rw [h, List.forall₂_map_left_iff, List.forall₂_map_right_iff, List.forall₂_same]
      exact fun x hx => mem_ownedBlocks_imp hb m hx
    exact List.forall₂_map_left_iff.mp hnodes
  · obtain ⟨bb, hbb, hn⟩ := exists_mem_ownedBlocks hb m hhost
    obtain ⟨i, hi⟩ := List.mem_iff_getElem?.mp hbb
    have hblock : (blocks.map (·.nodes))[i]? = some bb.names := by
      rw [h, List.getElem?_map, hi]
      rfl
    rw [List.getElem?_map, Option.map_eq_some_iff] at hblock
    obtain ⟨block, hblock, hnodes⟩ := hblock
    exact ⟨i, block, hblock, by rw [List.getElem?_map, hi]; rfl, hnodes ▸ hn⟩
  · have hlex : Consecutive
        (fun owner : String × String => toLex owner) ((ownedBlocks b m).map Prod.snd) :=
      .of_sorted (List.pairwise_map.mpr (pairwise_ownedBlocks m))
    exact hlex
  · refine Consecutive.of_sorted
      (List.pairwise_map.mpr ((pairwise_ownedBlocks m).imp fun hle => ?_))
    exact Prod.Lex.monotone_fst _ _ hle

end Owned

variable {all : DomainMap}

/-- The sizes in effect are those of the tree. -/
theorem complementBlocks_of_snd_ne_nil {blocks : List BlockInfo} {sizes : List Nat}
    (hvalid : Slurm.validateBlockSizes (sizes.map Int.ofNat) = .ok ())
    (heffect : (complementBlocks (some all) blocks sizes).2 ≠ [])
    (hne : (domainsForBlocks all blocks).hosts.entries ≠ []) :
    PowerSizes (complementBlocks (some all) blocks sizes).2 ∧
    (complementBlocks (some all) blocks sizes).1 =
      slotBlocks (blocksByName blocks)
        (collectBaseBlockSlots (toRootAggregate (domainsForBlocks all blocks).getDomainTree
        (complementBlocks (some all) blocks sizes).2)) := by
  have hpower : ∀ sizes', PowerSizes sizes' →
      complementBlocks (some all) blocks sizes = complementBlocks (some all) blocks sizes' →
      PowerSizes (complementBlocks (some all) blocks sizes).2 ∧
      (complementBlocks (some all) blocks sizes).1 =
        slotBlocks (blocksByName blocks)
        (collectBaseBlockSlots (toRootAggregate (domainsForBlocks all blocks).getDomainTree
          (complementBlocks (some all) blocks sizes).2)) := by
    intro sizes' hs heq
    rw [heq, complementBlocks_eq hs hne]
    exact ⟨hs, rfl⟩
  by_cases hsizes : sizes = []
  · subst hsizes
    by_cases hsub : (domainsForBlocks all blocks).hosts.values.any hasSubDomain = true
    · exact hpower _ (inferred_spec hsub).1 (complementBlocks_nil hsub)
    · -- Without sub-domains nothing is inferred.
      refine absurd ?_ heffect
      have hnone : (domainsForBlocks all blocks).inferTwoLevelBlockSizes = [] := by
        rw [DomainMap.inferTwoLevelBlockSizes]
        exact if_neg hsub
      simp [complementBlocks, hne, hnone]
  · exact hpower sizes (powerSizes_of_validate hsizes hvalid) rfl

/-- The hosts of the slots of named hosts have names. -/
theorem hostName_ne_of_mem_slots (hnames : NamedHosts (some all)) (blocks : List BlockInfo)
    {sizes : List Nat} (hb : 0 < sizes.headD 0)
    (h : host ∈ slotHosts
      (collectBaseBlockSlots (toRootAggregate (domainsForBlocks all blocks).getDomainTree sizes))) :
    host.hostName ≠ "" := by
  have hmem := (slotHosts_toRootAggregate_perm hb (domainsForBlocks all blocks)).mem_iff.mp h
  have hname : host.hostName ∈ (domainsForBlocks all blocks).hostNames :=
    (map_hostName_leafHosts_perm _).mem_iff.mp (List.mem_map_of_mem hmem)
  obtain ⟨e, he, hkey⟩ := List.mem_flatMap.mp hname
  have hlocal : ((domainsForBlocks all blocks).lookupHost e.1 host.hostName).isSome := by
    rw [DomainMap.lookupHost, GoMap.lookup_eq_some_iff.mpr he, Option.bind_some]
    exact AList.lookup_isSome.mpr (AList.mem_keys.mp hkey)
  refine hnames all rfl e.1 host.hostName ?_
  rw [lookupHost_domainsForBlocks_eq] at hlocal
  split_ifs at hlocal with hlist
  · exact hlocal
  · exact absurd hlocal (by simp)

/-- If no listed host belongs to a domain, the blocks of hosts of their domains are empty. -/
theorem nodes_eq_nil_of_no_domains {blocks : List BlockInfo}
    (hown : ∀ b ∈ blocks, ∀ n ∈ b.nodes, (all.lookupHost b.name n).isSome)
    (hnone : (domainsForBlocks all blocks).hosts.entries = []) {b : BlockInfo} (hb : b ∈ blocks) :
    b.nodes = [] := by
  refine List.eq_nil_iff_forall_not_mem.mpr fun n hn => ?_
  have hhost : (domainsForBlocks all blocks).lookupHost b.name n = none := by
    rw [DomainMap.lookupHost, GoMap.entries_eq_nil_iff.mp hnone, Option.bind_none]
  rw [lookupHost_domainsForBlocks_eq, if_pos ⟨b, hb, rfl, hn⟩] at hhost
  exact absurd (hown b hb n hn) (by simp [hhost])

/-- **Sub-domains are separated.** For named hosts, the blocks with nodes that `complementBlocks`
returns for blocks of its domains are separated by sub-domain, with at most the first block size in
effect of nodes each. -/
theorem complementBlocks_separated {all : DomainMap} {blocks : List BlockInfo} {sizes : List Nat}
    (hown : ∀ b ∈ blocks, ∀ n ∈ b.nodes, (all.lookupHost b.name n).isSome)
    (hnames : NamedHosts (some all))
    (hvalid : Slurm.validateBlockSizes (sizes.map Int.ofNat) = .ok ())
    (heffect : (complementBlocks (some all) blocks sizes).2 ≠ []) :
    Separated (domainsForBlocks all blocks) ((complementBlocks (some all) blocks sizes).2.headD 0)
      ((complementBlocks (some all) blocks sizes).1.filter fun b => b.nodes ≠ []) := by
  by_cases hne : (domainsForBlocks all blocks).hosts.entries = []
  · -- No host is listed, and the blocks stay as they are.
    have hnohost : ∀ d n, (domainsForBlocks all blocks).lookupHost d n = none := by
      intro d n
      rw [DomainMap.lookupHost, GoMap.entries_eq_nil_iff.mp hne, Option.bind_none]
    have hout : (complementBlocks (some all) blocks sizes).1 = blocks := by
      simp [complementBlocks, hne]
    have hempty : (blocks.filter fun b => b.nodes ≠ []) = [] := by
      refine List.filter_eq_nil_iff.mpr fun b hb => ?_
      simpa using nodes_eq_nil_of_no_domains hown hne hb
    rw [hout, hempty]
    refine ⟨[], .nil, fun d n host hhost => absurd hhost (by simp [hnohost]), ?_, ?_⟩ <;>
      exact fun i j k x y z _ _ hx => absurd hx (by simp)
  · obtain ⟨hs, hout⟩ := complementBlocks_of_snd_ne_nil hvalid heffect hne
    apply separated_of_map_nodes hs.pos
    rw [hout, map_nodes_filter_slotBlocks, filter_filled_slots hs.pos]
    exact fun host hhost => hostName_ne_of_mem_slots hnames blocks hs.pos hhost

theorem mixedDomains_separated :
    (complementBlocks (some mixedDomains) (toBlockInfos mixedDomains) [2, 4]).2 ≠ [] ∧
      Separated (domainsForBlocks mixedDomains (toBlockInfos mixedDomains)) 2
        ((complementBlocks (some mixedDomains) (toBlockInfos mixedDomains) [2, 4]).1.filter fun b =>
          b.nodes ≠ []) := by
  have heffect : (complementBlocks (some mixedDomains) (toBlockInfos mixedDomains) [2, 4]).2 ≠
      [] := by decide
  exact ⟨heffect, complementBlocks_separated (by decide) (namedHosts_of_hostNames (by decide))
    rfl heffect⟩

/-- A domain with a host without a name in a sub-domain of its own. -/
def unnamedHost : DomainMap :=
  [("d", "", "s1"), ("d", "a", "s2"), ("d", "b", "s2")].foldl (fun m h =>
    m.addHostInfo { domain := h.1, instanceID := h.2.1, hostName := h.2.1, subDomain := h.2.2 })
      DomainMap.new

/-- The block of the host without a name lists all hosts of the domain. -/
theorem unnamedHost_not_separated :
    Slurm.validateBlockSizes [2] = .ok () ∧
      ((complementBlocks (some unnamedHost) (toBlockInfos unnamedHost) [2]).1.map (·.nodes) =
        [["", "a", "b"], ["a", "b"]]) ∧
      ¬ Separated (domainsForBlocks unnamedHost (toBlockInfos unnamedHost)) 2
        ((complementBlocks (some unnamedHost) (toBlockInfos unnamedHost) [2]).1.filter fun b =>
          b.nodes ≠ []) := by
  refine ⟨rfl, by decide, ?_⟩
  rintro ⟨owners, hsizes, -⟩
  have hlist : ((complementBlocks (some unnamedHost) (toBlockInfos unnamedHost) [2]).1.filter
      fun b => b.nodes ≠ []).map (·.nodes) =
      [["", "a", "b"], ["a", "b"]] := by decide
  have hnodes : List.Forall₂ (fun nodes _ => nodes.length ≤ 2) [["", "a", "b"],
      ["a", "b"]] owners :=
    hlist ▸ List.forall₂_map_left_iff.mpr (hsizes.imp fun _ _ h => h.1)
  cases hnodes with
  | cons hfirst _ => exact absurd hfirst (by decide)

end Topograph.Translate
