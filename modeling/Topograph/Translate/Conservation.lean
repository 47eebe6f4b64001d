import Topograph.Topology.DomainTree
import Topograph.Translate.Complement
import Topograph.Translate.InitBlocks
import Mathlib.Data.List.ReduceOption

/-! # Conservation of nodes

The base blocks of a block tree hold the hosts of the domain tree, whatever the block sizes: a leaf
is cut into base blocks, an interior vertex collects the blocks of its children, and all padding is
made of empty blocks. With the domains of the topology's own blocks this gives
`complementBlocks_perm`. -/

namespace Topograph.Translate

open Topograph.Topology

/-! ## The hosts of base blocks -/

/-- The hosts at the leaves of base blocks. -/
def slotHosts (slots : List BaseBlockNode) : List HostInfo :=
  slots.flatMap fun block => block.leaves.reduceOption

@[simp] theorem slotHosts_nil : slotHosts [] = [] := rfl

@[simp] theorem slotHosts_cons (block : BaseBlockNode) (slots : List BaseBlockNode) :
    slotHosts (block :: slots) = block.leaves.reduceOption ++ slotHosts slots := rfl

@[simp] theorem slotHosts_append (slots slots' : List BaseBlockNode) :
    slotHosts (slots ++ slots') = slotHosts slots ++ slotHosts slots' :=
  List.flatMap_append

theorem reduceOption_replicate_none (n : Nat) :
    (List.replicate n (none : Option HostInfo)).reduceOption = [] := by
  induction n with
  | zero => rfl
  | succ n ih => rw [List.replicate_succ, List.reduceOption_cons_of_none, ih]

theorem reduceOption_leaves_newBaseBlock (id : String) (hosts : List HostInfo) (b : Nat) :
    (newBaseBlock id hosts b).leaves.reduceOption = hosts.take b := by
  have hsome : ∀ l : List HostInfo, (l.map some).reduceOption = l := by
    intro l
    simp [List.reduceOption]
  rw [newBaseBlock, List.reduceOption_append, hsome, reduceOption_replicate_none, List.append_nil]

@[simp] theorem slotHosts_replicate_empty (n b : Nat) :
    slotHosts (List.replicate n (newEmptyBaseBlock b)) = [] := by
  induction n with
  | zero => rfl
  | succ n ih =>
    rw [List.replicate_succ, slotHosts_cons, ih, List.append_nil]
    exact reduceOption_replicate_none b

/-- Padding adds no hosts. -/
theorem slotHosts_padBlocks (blocks : List BaseBlockNode) (n b : Nat) :
    slotHosts (padBlocks blocks n b) = slotHosts blocks := by
  simp [padBlocks]

/-- The loop cuts the hosts into pieces. -/
theorem slotHosts_splitLoop {id : String} {b fuel count : Nat} {hosts : List HostInfo} (hb : 0 < b)
    (hfuel : hosts.length ≤ fuel) : slotHosts (splitLoop id b fuel count hosts) = hosts := by
  induction fuel generalizing count hosts with
  | zero =>
    rw [List.length_eq_zero_iff.mp (Nat.le_zero.mp hfuel)]
    rfl
  | succ fuel ih =>
    cases hosts with
    | nil => rfl
    | cons host hosts =>
      have hdrop : ((host :: hosts).drop b).length ≤ fuel := by
        simp only [List.length_drop, List.length_cons] at hfuel ⊢
        omega
      rw [splitLoop, slotHosts_cons, reduceOption_leaves_newBaseBlock, ih hdrop, List.take_take,
        Nat.min_self, List.take_append_drop]

/-! ## The hosts of a tree -/

/-- The slots of an aggregate of base blocks are these blocks. -/
theorem collectBaseBlockSlots_aggregateOf (id : String) (blocks : List BaseBlockNode) (b : Nat) :
    collectBaseBlockSlots (aggregateOf id blocks b) = blocks := by
  show childSlots (blocks.map .base) = blocks
  induction blocks with
  | nil => rfl
  | cons block blocks ih =>
    rw [List.map_cons, childSlots, ih, BlockTreeNode.slots, List.singleton_append]

theorem childSlots_append (l l' : List BlockTreeNode) :
    childSlots (l ++ l') = childSlots l ++ childSlots l' := by
  induction l with
  | nil => rfl
  | cons child l ih => rw [List.cons_append, childSlots, childSlots, ih, List.append_assoc]

theorem childSlots_map_toNode (aggs : List AggregateBlockNode) :
    childSlots (aggs.map (·.toNode)) = aggs.flatMap collectBaseBlockSlots := by
  induction aggs with
  | nil => rfl
  | cons agg aggs ih => rw [List.map_cons, childSlots, ih, List.flatMap_cons]; rfl

/-- Packing keeps the hosts. -/
theorem slotHosts_packHostsIntoAggregate (id : String) (hosts : List HostInfo) (n : Nat) {b : Nat}
    (hb : 0 < b) :
    slotHosts (collectBaseBlockSlots (packHostsIntoAggregate id hosts n b)) =
      hosts := by
  rw [packHostsIntoAggregate, collectBaseBlockSlots_aggregateOf, slotHosts_padBlocks,
    splitIntoBaseBlocks, slotHosts_splitLoop hb le_rfl]

theorem hostsSorted_perm (hosts : Hosts) : (hostsSorted hosts).Perm hosts.values :=
  List.perm_insertionSort _ _

section Domains

variable {blockSizes : List Nat}

mutual

/-- **The aggregate of a vertex holds its hosts.** -/
theorem slotHosts_toDomainAggregate_perm (hb : 0 < blockSizes.headD 0) (n : Nat) (v : BlockVertex) :
    (slotHosts (collectBaseBlockSlots (toDomainAggregate n blockSizes v))).Perm v.leafHosts := by
  match v with
  | .node id actualNodeCount _ (some hosts) _ =>
    rw [toDomainAggregate, slotHosts_packHostsIntoAggregate _ _ _ hb, BlockVertex.leafHosts]
    exact hostsSorted_perm hosts
  | .node id _ maxChildNodeCount none children =>
    rw [toDomainAggregate, collectBaseBlockSlots_aggregateOf, slotHosts_padBlocks,
      BlockVertex.leafHosts]
    refine List.Perm.trans ?_ (slotHosts_childAggregates_perm hb maxChildNodeCount children)
    unfold slotHosts sortedByKey
    rw [List.flatMap_assoc]
    exact (List.perm_insertionSort _ _).flatMap_right _

/-- The aggregates of children hold the hosts of the children. -/
theorem slotHosts_childAggregates_perm (hb : 0 < blockSizes.headD 0) (n : Nat)
    (children : List (String × BlockVertex)) :
    ((childAggregates n blockSizes children).flatMap fun c =>
      slotHosts (collectBaseBlockSlots c.2)).Perm (childHosts children) := by
  match children with
  | [] => exact .nil
  | child :: children =>
    rw [childAggregates, List.flatMap_cons, childHosts]
    exact (slotHosts_toDomainAggregate_perm hb n child.2).append
      (slotHosts_childAggregates_perm hb n children)

end

/-- The aggregate of a domain holds its hosts. -/
theorem slotHosts_domainAggregate_perm (hb : 0 < blockSizes.headD 0) (singleLevel : Bool) (n : Nat)
    (v : BlockVertex) :
    (slotHosts (collectBaseBlockSlots (domainAggregate singleLevel n blockSizes v))).Perm
      v.leafHosts := by
  obtain ⟨id, actualNodeCount, maxChildNodeCount, hosts, children⟩ := v
  cases singleLevel with
  | false => exact slotHosts_toDomainAggregate_perm hb n _
  | true =>
    cases hosts with
    | none => exact slotHosts_toDomainAggregate_perm hb n _
    | some hosts =>
      show (slotHosts (collectBaseBlockSlots (packHostsIntoAggregate _ _ _ _))).Perm _
      rw [slotHosts_packHostsIntoAggregate _ _ _ hb, BlockVertex.leafHosts]
      exact hostsSorted_perm hosts

/-- All aggregates hold all hosts. -/
theorem slotHosts_domainAggregates_perm (hb : 0 < blockSizes.headD 0) (id : String) (count n : Nat)
    (domains : List (String × BlockVertex)) :
    (slotHosts ((domainAggregates blockSizes (.node id count n none domains)).flatMap
      collectBaseBlockSlots)).Perm (childHosts domains) := by
  unfold slotHosts domainAggregates sortedByKey
  rw [List.flatMap_assoc, List.flatMap_map, childHosts_eq_flatMap]
  exact (List.perm_insertionSort _ _).flatMap fun d _ =>
    slotHosts_domainAggregate_perm hb _ n d.2

end Domains

/-- The padding of the root holds no hosts. -/
theorem slotHosts_padRoot (target capacity b fuel : Nat) (result : AggregateBlockNode) :
    slotHosts (collectBaseBlockSlots (padRoot target capacity b fuel result)) =
      slotHosts (collectBaseBlockSlots result) := by
  induction fuel generalizing result with
  | zero => rfl
  | succ fuel ih =>
    rw [padRoot]
    split_ifs with hlt
    · rw [ih]
      show slotHosts (childSlots (result.children ++ _)) = slotHosts (childSlots result.children)
      rw [childSlots_append, slotHosts_append, childSlots, childSlots, List.append_nil]
      show _ ++ slotHosts (collectBaseBlockSlots (newEmptyChildAggregate capacity b)) = _
      rw [newEmptyChildAggregate, collectBaseBlockSlots_aggregateOf, slotHosts_replicate_empty,
        List.append_nil]
    · rfl

/-- **The block tree holds the hosts of the domain tree.** -/
theorem slotHosts_toRootAggregate_perm {blockSizes : List Nat} (hb : 0 < blockSizes.headD 0)
    (domains : DomainMap) :
    (slotHosts (collectBaseBlockSlots (toRootAggregate domains.getDomainTree blockSizes))).Perm
      domains.getDomainTree.leafHosts := by
  have hroot : ∀ aggs : List AggregateBlockNode, ∀ id count,
      collectBaseBlockSlots ⟨id, aggs.map (·.toNode), count⟩ = aggs.flatMap collectBaseBlockSlots :=
    fun aggs _ _ => childSlots_map_toNode aggs
  have hperm := slotHosts_domainAggregates_perm hb ""  0
    (maxNodeCount (domains.hosts.entries.map fun e => (e.1, domainVertex e.1 e.2)))
    (domains.hosts.entries.map fun e => (e.1, domainVertex e.1 e.2))
  unfold DomainMap.getDomainTree toRootAggregate
  dsimp only
  split_ifs
  · rw [slotHosts_padRoot, hroot]
    exact hperm
  · rw [hroot]
    exact hperm

/-! ## The domains of the blocks -/

/-- Hosts of one domain that are added one after another. -/
theorem lookupHost_foldl_addHostInfo {domain : String} (hdomain : domain ≠ "") {l : List HostInfo}
    (hl : ∀ host ∈ l, host.domain = domain) (m : DomainMap) (d key : String) :
    (l.foldl DomainMap.addHostInfo m).lookupHost d key =
      if d = domain then ((l.reverse.find? fun host => host.hostName = key).or (m.lookupHost d key))
      else m.lookupHost d key := by
  induction l generalizing m with
  | nil => simp
  | cons host l ih =>
    have hd := hl host List.mem_cons_self
    rw [List.foldl_cons, ih (fun h hh => hl h (List.mem_cons_of_mem host hh)),
      DomainMap.lookupHost_addHostInfo _ _ (hd ▸ hdomain)]
    by_cases hdd : d = domain
    · by_cases hkey : key = host.hostName
      · simp [hdd, hd, hkey]
      · simp [hdd, hd, hkey, Ne.symm hkey]
    · simp [hdd, hd]

/-- Searching filed hosts by name is a lookup. -/
theorem find_values_reverse {domain : String} {hosts : Hosts} (h : hosts.Filed domain)
    (key : String) :
    (hosts.values.reverse.find? fun host => host.hostName = key) = hosts.lookup key := by
  cases hfind : hosts.values.reverse.find? fun host => host.hostName = key with
  | some host =>
    have hname : host.hostName = key := by simpa using List.find?_some hfind
    have hmem := List.mem_reverse.mp (List.mem_of_find?_eq_some hfind)
    rw [← hname, (h.of_mem_values hmem).2]
  | none =>
    symm
    rw [Option.eq_none_iff_forall_not_mem]
    intro host hhost
    have hmem : host ∈ hosts.values.reverse :=
      List.mem_reverse.mpr (GoMap.mem_values.mpr ⟨key, GoMap.lookup_eq_some_iff.mp hhost⟩)
    have hne := List.find?_eq_none.mp hfind host hmem
    exact hne (by simpa using (h.keyed key host hhost).2)

/-- A block brings the hosts of its domain that it lists. -/
theorem lookupHost_addOwned (all m : DomainMap) (b : BlockInfo) (d key : String) :
    (addOwned all m b).lookupHost d key =
      if d = b.name ∧ key ∈ b.nodes then (all.lookupHost d key).or (m.lookupHost d key)
        else m.lookupHost d key := by
  have hnone : all.hosts.lookup b.name = none → m.lookupHost d key =
      if d = b.name ∧ key ∈ b.nodes then (all.lookupHost d key).or (m.lookupHost d key)
        else m.lookupHost d key := by
    intro hlook
    have hall : d = b.name → all.lookupHost d key = none := by
      rintro rfl
      rw [DomainMap.lookupHost, hlook, Option.bind_none]
    split_ifs with hd
    · rw [hall hd.1, Option.none_or]
    · rfl
  unfold addOwned
  by_cases hname : b.name = ""
  · rw [if_pos hname]
    refine hnone (Option.eq_none_iff_forall_not_mem.mpr fun hosts hlook => ?_)
    exact (all.filed b.name hosts hlook).named hname
  rw [if_neg hname]
  cases hlook : all.hosts.lookup b.name with
  | none => exact hnone hlook
  | some hosts =>
    have hfiled := all.filed b.name hosts hlook
    have hmem : ∀ hi ∈ hosts.values.filter (fun hi => hi.hostName ∈ b.nodes), hi.domain = b.name :=
      fun hi hhi =>
      (hfiled.of_mem_values (List.mem_filter.mp hhi).1).1
    have hfold : hosts.values.foldl (fun m hi => if hi.hostName ∈ b.nodes then
        m.addHostInfo hi else m) m =
        (hosts.values.filter fun hi => hi.hostName ∈ b.nodes).foldl DomainMap.addHostInfo m := by
      rw [List.foldl_filter]
      simp only [decide_eq_true_eq]
    -- Later hosts overwrite earlier ones of the same name, so the last match counts.
    have hfind : ((hosts.values.filter fun hi => hi.hostName ∈ b.nodes).reverse.find? fun host =>
        host.hostName = key) =
        if key ∈ b.nodes then hosts.lookup key else none := by
      rw [← List.filter_reverse, List.find?_filter, ← find_values_reverse hfiled]
      split_ifs with hkey
      · congr 1
        funext hi
        by_cases hi' : hi.hostName = key <;> simp [hi', hkey]
      · rw [List.find?_eq_none]
        intro hi _
        by_cases hi' : hi.hostName = key <;> simp [hi', hkey]
    dsimp only
    rw [hfold, lookupHost_foldl_addHostInfo hfiled.named hmem, hfind]
    by_cases hd : d = b.name
    · have hown : all.lookupHost d key = hosts.lookup key := by
        rw [DomainMap.lookupHost, hd, hlook, Option.bind_some]
      by_cases hkey : key ∈ b.nodes
      · rw [if_pos hd, if_pos hkey, if_pos ⟨hd, hkey⟩, hown]
      · rw [if_pos hd, if_neg hkey, if_neg fun h => hkey h.2, Option.none_or]
    · rw [if_neg hd, if_neg fun h => hd h.1]

/-- **The domains of blocks** have the hosts that a block of their domain lists. -/
theorem lookupHost_domainsForBlocks_eq (all : DomainMap) (blocks : List BlockInfo)
    (d key : String) :
    (domainsForBlocks all blocks).lookupHost d key =
      if ∃ b ∈ blocks, d = b.name ∧ key ∈ b.nodes then all.lookupHost d key else none := by
  have hrun : ∀ m : DomainMap, (blocks.foldl (addOwned all) m).lookupHost d key =
      if ∃ b ∈ blocks, d = b.name ∧ key ∈ b.nodes then
        (all.lookupHost d key).or (m.lookupHost d key)
      else m.lookupHost d key := by
    induction blocks with
    | nil => simp
    | cons b blocks ih =>
      intro m
      rw [List.foldl_cons, ih, lookupHost_addOwned]
      have hcons : (∃ b' ∈ b :: blocks, d = b'.name ∧ key ∈ b'.nodes) ↔
          (d = b.name ∧ key ∈ b.nodes) ∨ ∃ b' ∈ blocks, d = b'.name ∧ key ∈ b'.nodes := by simp
      by_cases hb : d = b.name ∧ key ∈ b.nodes
      · rw [if_pos hb, if_pos (hcons.mpr (Or.inl hb))]
        split_ifs
        · cases all.lookupHost d key <;> rfl
        · rfl
      · rw [if_neg hb]
        simp only [hcons, hb, false_or]
  have hnew : DomainMap.new.lookupHost d key = none := by
    simp [DomainMap.lookupHost, DomainMap.new]
  rw [domainsForBlocks, hrun, hnew, Option.or_none]

variable {blocks : List BlockInfo} {all : DomainMap}

/-- The domains of own blocks are the domains with the names of the blocks. -/
theorem lookupHost_domainsForBlocks (h : OwnBlocks all blocks) (d key : String) :
    (domainsForBlocks all blocks).lookupHost d key =
      if d ∈ blocks.map (·.name) then all.lookupHost d key else none := by
  rw [lookupHost_domainsForBlocks_eq]
  by_cases hd : d ∈ blocks.map (·.name)
  · obtain ⟨b, hb, rfl⟩ := List.mem_map.mp hd
    obtain ⟨hosts, hlook, hperm⟩ := h.named b hb
    rw [if_pos hd]
    split_ifs with hlist
    · rfl
    · -- A host of the domain would be listed.
      symm
      rw [DomainMap.lookupHost, hlook, Option.bind_some, AList.lookup_eq_none]
      exact fun hkey => hlist ⟨b, hb, rfl, hperm.mem_iff.mpr (AList.mem_keys.mpr hkey)⟩
  · rw [if_neg hd, if_neg]
    rintro ⟨b, hb, rfl, -⟩
    exact hd (List.mem_map_of_mem hb)

/-- **The domains of own blocks hold the nodes of the blocks.** -/
theorem hostNames_domainsForBlocks_perm (h : OwnBlocks all blocks) :
    (domainsForBlocks all blocks).hostNames.Perm (blocks.flatMap (·.nodes)) := by
  have hlook := lookupHost_domainsForBlocks h
  have hknown : ∀ d ∈ blocks.map (·.name), ∃ hosts, all.hosts.lookup d = some hosts := by
    intro d hd
    obtain ⟨b, hb, rfl⟩ := List.mem_map.mp hd
    obtain ⟨hosts, hhosts, -⟩ := h.named b hb
    exact ⟨hosts, hhosts⟩
  -- The domains are those of the blocks, and each has all its hosts.
  have hkeys : (domainsForBlocks all blocks).hosts.keys.Perm (blocks.map (·.name)) := by
    apply (List.perm_ext_iff_of_nodup (domainsForBlocks all blocks).hosts.nodupKeys h.nodup).mpr
    intro d
    show d ∈ (domainsForBlocks all blocks).hosts ↔ _
    rw [← AList.lookup_isSome, DomainMap.isSome_lookup_iff]
    constructor
    · rintro ⟨key, hkey⟩
      by_contra hd
      rw [hlook, if_neg hd] at hkey
      exact absurd hkey (by simp)
    · intro hd
      obtain ⟨hosts, hhosts⟩ := hknown d hd
      obtain ⟨key, hkey⟩ := (all.isSome_lookup_iff d).mp (by rw [hhosts]; rfl)
      exact ⟨key, by rw [hlook, if_pos hd]; exact hkey⟩
  have hsame : ∀ d ∈ (domainsForBlocks all blocks).hosts.keys,
      (((domainsForBlocks all blocks).hosts.lookup d).elim [] AList.keys).Perm
        ((all.hosts.lookup d).elim [] AList.keys) := by
    intro d hd
    have hmem := hkeys.mem_iff.mp hd
    obtain ⟨hosts, hhosts⟩ := hknown d hmem
    obtain ⟨hs, hhs⟩ := GoMap.mem_iff_lookup.mp (AList.mem_keys.mp hd)
    rw [hhs, hhosts, Option.elim_some, Option.elim_some]
    apply GoMap.keys_perm
    intro key
    have := hlook d key
    rw [if_pos hmem, DomainMap.lookupHost, DomainMap.lookupHost, hhs, hhosts, Option.bind_some,
      Option.bind_some] at this
    rw [this]
  rw [DomainMap.hostNames,
    GoMap.flatMap_entries (domainsForBlocks all blocks).hosts fun _ hosts => AList.keys hosts]
  refine (hkeys.flatMap hsame).trans ?_
  rw [List.flatMap_map]
  apply List.Perm.flatMap_left
  intro b hb
  obtain ⟨hosts, hhosts, hperm⟩ := h.named b hb
  rw [hhosts, Option.elim_some]
  exact hperm.symm

/-! ## The blocks of the slots -/

/-- The leaves list the hosts that have a name. -/
theorem hostNamesFromLeaves_eq_filter (leaves : List (Option HostInfo)) :
    hostNamesFromLeaves leaves = (leaves.reduceOption.map (·.hostName)).filter (· ≠ "") := by
  induction leaves with
  | nil => rfl
  | cons leaf leaves ih =>
    cases leaf with
    | none =>
      rw [List.reduceOption_cons_of_none]
      exact ih
    | some host =>
      unfold hostNamesFromLeaves at ih ⊢
      rw [List.reduceOption_cons_of_some, List.map_cons, List.filterMap_cons, List.filter_cons, ih]
      by_cases hhost : host.hostName = "" <;> simp [hhost]

variable {leaves : List (Option HostInfo)}

theorem hostNamesFromLeaves_eq (h : ∀ host ∈ leaves.reduceOption, host.hostName ≠ "") :
    hostNamesFromLeaves leaves = leaves.reduceOption.map (·.hostName) := by
  rw [hostNamesFromLeaves_eq_filter, List.filter_eq_self, List.forall_mem_map]
  simpa using h

/-- The loop over the leaves skips placeholders. -/
theorem domainIDsFromLeaves_eq (leaves : List (Option HostInfo)) :
    domainIDsFromLeaves leaves = (leaves.reduceOption.foldl (fun ids host =>
      if host.domain = "" ∨ host.domain ∈ ids then ids else ids ++ [host.domain]) []).insertionSort
        (· ≤ ·) := by
  rw [domainIDsFromLeaves]
  congr 1
  induction leaves using List.reverseRecOn with
  | nil => rfl
  | append_singleton leaves leaf ih =>
    rw [List.foldl_append, ih, List.reduceOption_append, List.foldl_append]
    cases leaf with
    | none => rfl
    | some host => rfl

/-- Placeholders have no domain. -/
theorem domainIDsFromLeaves_eq_nil (h : leaves.reduceOption = []) :
    domainIDsFromLeaves leaves = [] := by
  rw [domainIDsFromLeaves_eq, h]
  exact List.insertionSort_nil _

/-- A block made from a base block lists the hosts of its leaves. -/
theorem nodes_baseBlockToBlockInfo (bb : BaseBlockNode) (byName : GoMap String BlockInfo)
    (seq : Nat) (h : ∀ host ∈ bb.leaves.reduceOption, host.hostName ≠ "") :
    (baseBlockToBlockInfo bb byName seq).nodes = bb.leaves.reduceOption.map (·.hostName) := by
  unfold baseBlockToBlockInfo
  dsimp only
  rw [hostNamesFromLeaves_eq h]
  by_cases hnil : bb.leaves.reduceOption.map (·.hostName) = []
  · -- Without hosts there is no domain to fall back to.
    rw [if_neg (not_not.mpr hnil), domainIDsFromLeaves_eq_nil (List.map_eq_nil_iff.mp hnil), hnil]
    rfl
  · rw [if_pos hnil]

/-- The names of the hosts of a base block. -/
def BaseBlockNode.names (block : BaseBlockNode) : List String :=
  block.leaves.reduceOption.map (·.hostName)

section

variable {slots : List BaseBlockNode} (byName : GoMap String BlockInfo)
  (h : ∀ host ∈ slotHosts slots, host.hostName ≠ "")

include h

/-- The node lists of the returned blocks are the names of the slots, if all hosts are named. -/
theorem map_nodes_slotBlocks :
    (slotBlocks byName slots).map (·.nodes) = slots.map BaseBlockNode.names := by
  apply List.ext_getElem (by simp [slotBlocks])
  intro i _ _
  simp only [slotBlocks, List.getElem_map, List.getElem_mapIdx]
  refine nodes_baseBlockToBlockInfo _ byName _ fun host hhost => h host ?_
  exact List.mem_flatMap.mpr ⟨_, List.getElem_mem _, hhost⟩

/-- The blocks of the slots list their hosts. -/
theorem nodes_slotBlocks :
    (slotBlocks byName slots).flatMap (·.nodes) = (slotHosts slots).map (·.hostName) := by
  rw [List.flatMap_def, map_nodes_slotBlocks byName h, slotHosts, List.map_flatMap,
    List.flatMap_def]
  rfl

end

/-- What `complementBlocks` returns: the blocks it was given, or those of a block tree. -/
theorem complementBlocks_cases (all : DomainMap) (blocks : List BlockInfo) (blockSizes : List Nat) :
    (∃ sizes, complementBlocks (some all) blocks blockSizes = (blocks, sizes)) ∨
      ∃ sizes, 0 < sizes.headD 0 ∧ complementBlocks (some all) blocks blockSizes =
        (slotBlocks (blocksByName blocks)
          (collectBaseBlockSlots
            (toRootAggregate (domainsForBlocks all blocks).getDomainTree sizes)),
          sizes) := by
  unfold complementBlocks buildBlockTree
  dsimp only
  generalize (if blockSizes = [] then (domainsForBlocks all blocks).inferTwoLevelBlockSizes
    else blockSizes) = sizes
  split_ifs with hempty hnil hzero
  · exact Or.inl ⟨_, rfl⟩
  · exact Or.inl ⟨_, rfl⟩
  · exact Or.inl ⟨_, rfl⟩
  · exact Or.inr ⟨sizes, Nat.pos_of_ne_zero hzero, rfl⟩

/-- **Complementing keeps the nodes** of own blocks with named hosts. -/
theorem nodes_complementBlocks_perm (h : OwnBlocks all blocks) (hnames : ∀ b ∈ blocks, "" ∉ b.nodes)
    (blockSizes : List Nat) :
    ((complementBlocks (some all) blocks blockSizes).1.flatMap (·.nodes)).Perm
      (blocks.flatMap (·.nodes)) := by
  rcases complementBlocks_cases all blocks blockSizes with ⟨sizes, heq⟩ | ⟨sizes, hpos, heq⟩
  · rw [heq]
  · rw [heq]
    have hperm : ((slotHosts (collectBaseBlockSlots
        (toRootAggregate (domainsForBlocks all blocks).getDomainTree sizes))).map (·.hostName)).Perm
          (blocks.flatMap (·.nodes)) :=
      ((slotHosts_toRootAggregate_perm hpos _).map _).trans
        ((map_hostName_leafHosts_perm _).trans (hostNames_domainsForBlocks_perm h))
    rw [nodes_slotBlocks]
    · exact hperm
    · intro host hhost hname
      have hmem := hperm.mem_iff.mp (List.mem_map_of_mem hhost)
      obtain ⟨b, hb, hmem⟩ := List.mem_flatMap.mp hmem
      exact hnames b hb (hname ▸ hmem)

/-! ## Conservation -/

/-- The hosts of the domains of a topology have names. -/
def NamedHosts (domains : Option DomainMap) : Prop :=
  ∀ all, domains = some all → ∀ domain key, (all.lookupHost domain key).isSome → key ≠ ""

theorem namedHosts_of_hostNames (h : "" ∉ all.hostNames) : NamedHosts (some all) := by
  rintro m hm domain key hkey rfl
  obtain rfl := Option.some.inj hm
  rw [DomainMap.lookupHost] at hkey
  obtain ⟨host, hhost⟩ := Option.isSome_iff_exists.mp hkey
  obtain ⟨hosts, hhosts, hlook⟩ := Option.bind_eq_some_iff.mp hhost
  apply h
  exact List.mem_flatMap.mpr ⟨⟨domain, hosts⟩, GoMap.lookup_eq_some_iff.mp hhosts,
    AList.mem_keys.mpr (GoMap.mem_iff_lookup.mpr ⟨host, hlook⟩)⟩

/-- The nodes of own blocks of named hosts have names. -/
theorem OwnBlocks.notMem_nodes (h : OwnBlocks all blocks) (hnames : NamedHosts (some all))
    {b : BlockInfo} (hb : b ∈ blocks) : "" ∉ b.nodes := by
  intro hmem
  obtain ⟨hosts, hhosts, hperm⟩ := h.named b hb
  apply hnames all rfl b.name "" _ rfl
  rw [DomainMap.lookupHost, hhosts, Option.bind_some, AList.lookup_isSome]
  exact AList.mem_keys.mpr (hperm.mem_iff.mp hmem)

/-- **Block conservation.** On an accepted topology whose hosts have names, `complementBlocks` keeps
the multiset of the nodes of the topology's blocks, for every list of block sizes: none is dropped
and none is listed twice. -/
theorem complementBlocks_perm {pkg : RegexpPackage} {ρ : Type} {graph : Option (Graph ρ)}
    {cfg : Config pkg} {nt : NetworkTopology pkg ρ} (h : Accepts graph cfg nt)
    (hnames : NamedHosts nt.domains) (blockSizes : List Nat) :
    ((complementBlocks nt.domains nt.blocks blockSizes).1.flatMap (·.nodes)).Perm
      (nt.blocks.flatMap (·.nodes)) := by
  cases hd : nt.domains with
  | none => exact .refl _
  | some all =>
    have hown := h.ownBlocks hd
    exact nodes_complementBlocks_perm hown
      (fun b hb => hown.notMem_nodes (hd ▸ hnames) hb) blockSizes

/-- A domain with two sub-domains of unequal size beside a domain without sub-domains. -/
def mixedDomains : DomainMap :=
  [("a", "a1", "s1"), ("a", "a2", "s1"), ("a", "a3", "s1"), ("a", "a4", "s2"), ("b", "b1", ""),
    ("b", "b2", ""), ("b", "b3", "")].foldl (fun m h =>
      m.addHostInfo { domain := h.1, instanceID := h.2.1, hostName := h.2.1, subDomain := h.2.2 })
    DomainMap.new

/-- These domains alone. -/
def mixedGraph : Graph Unit where
  heap _ := { name := "", id := "", vertices := ∅ }
  tiers := none
  domains := some mixedDomains

/-- The block plugin. -/
def blockPlugin : Config noRegexp where
  plugin := topologyBlock
  blockSizes := [2, 4]
  blockName := none
  topologies := ∅

theorem mixedGraph_complementBlocks_perm : ∃ nt, Accepts (some mixedGraph) blockPlugin nt ∧
    NamedHosts nt.domains ∧ nt.blocks.length = 2 ∧
    ((complementBlocks nt.domains nt.blocks [2, 4]).1.flatMap (·.nodes)).Perm
      (nt.blocks.flatMap (·.nodes)) := by
  have hnames : NamedHosts (some mixedDomains) := namedHosts_of_hostNames (by decide)
  obtain ⟨nt, hnt, hdomains, hlen⟩ : ∃ nt, newNetworkTopology 1 (some mixedGraph) blockPlugin =
      some (.ok nt) ∧ nt.domains = some mixedDomains ∧ nt.blocks.length = 2 := ⟨_, rfl, rfl, rfl⟩
  exact ⟨nt, ⟨1, hnt⟩, hdomains ▸ hnames, hlen,
    complementBlocks_perm ⟨1, hnt⟩ (hdomains ▸ hnames) [2, 4]⟩

end Topograph.Translate
