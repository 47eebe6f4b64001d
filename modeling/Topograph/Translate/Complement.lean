import Topograph.Translate.BlockTree
import Topograph.Translate.NetworkTopology

/-! # Complementing blocks (`pkg/translate/block_complement.go`)

`complementBlocks` restricts the domains to the given blocks, builds the block tree of the block
sizes and reads the blocks back from its base blocks. -/

namespace Topograph.Translate

open Topograph.Topology

/-- The hosts of one block that join the local domain map. -/
def addOwned (all : DomainMap) (localMap : DomainMap) (b : BlockInfo) : DomainMap :=
  if b.name = "" then localMap
  else
    match all.hosts.lookup b.name with
    | none => localMap
    | some hosts =>
      hosts.values.foldl (fun m hi => if hi.hostName ∈ b.nodes then m.addHostInfo hi
        else m) localMap

/-- `domainsForBlocks`: the hosts of the domains that the blocks own. -/
def domainsForBlocks (all : DomainMap) (blocks : List BlockInfo) : DomainMap :=
  blocks.foldl (addOwned all) DomainMap.new

/-- `blocksByName`. -/
def blocksByName (blocks : List BlockInfo) : GoMap String BlockInfo :=
  blocks.foldl (fun m b => if b.name = "" then m else m.insert b.name b) ∅

/-- `hostNamesFromLeaves`. -/
def hostNamesFromLeaves (leaves : List (Option HostInfo)) : List String :=
  leaves.filterMap fun leaf =>
    leaf.bind fun host => if host.hostName = "" then none else some host.hostName

/-- `domainIDsFromLeaves`: the domains of the leaves, each once and sorted. -/
def domainIDsFromLeaves (leaves : List (Option HostInfo)) : List String :=
  (leaves.foldl (fun ids leaf =>
    match leaf with
    | none => ids
    | some host =>
      if host.domain = "" ∨ host.domain ∈ ids then ids else ids ++ [host.domain]) []).insertionSort
    (· ≤ ·)

/-- `blockDisplayName`. -/
def blockDisplayName (blockID primaryDomain : String) : String :=
  if primaryDomain = "" then blockID else primaryDomain

/-- `baseBlockToBlockInfo`: the hosts of the leaves, else the block of a domain of the leaves, else
the domain alone, else an empty block. -/
def baseBlockToBlockInfo (bb : BaseBlockNode) (byName : GoMap String BlockInfo) (seq : Nat) :
    BlockInfo :=
  let id := blockID seq
  let nodes := hostNamesFromLeaves bb.leaves
  if nodes ≠ [] then
    { id := id, name := blockDisplayName bb.id bb.domain, indx := 0, nodes := nodes }
  else
    match (domainIDsFromLeaves bb.leaves).findSome? fun domain =>
        (byName.lookup domain).map fun b => (domain, b.nodes) with
    | some (domain, nodes) =>
      { id := id, name := blockDisplayName bb.id domain, indx := 0, nodes := nodes }
    | none =>
      { id := id, indx := 0, nodes := []
        name := if bb.domain = "" then "" else blockDisplayName bb.id bb.domain }

/-- The blocks of the slots of a tree, numbered from one. -/
def slotBlocks (byName : GoMap String BlockInfo) (slots : List BaseBlockNode) : List BlockInfo :=
  slots.mapIdx fun i bb => baseBlockToBlockInfo bb byName (i + 1)

/-- `complementBlocks`: the blocks and the block sizes in effect. -/
def complementBlocks (domains : Option DomainMap) (blocks : List BlockInfo)
    (blockSizes : List Nat) : List BlockInfo × List Nat :=
  match domains with
  | none => (blocks, blockSizes)
  | some all =>
    let domains := domainsForBlocks all blocks
    if domains.hosts.entries = [] then (blocks, blockSizes)
    else
      let blockSizes := if blockSizes = [] then domains.inferTwoLevelBlockSizes else blockSizes
      if blockSizes = [] then (blocks, blockSizes)
      else
        match buildBlockTree domains blockSizes with
        | none => (blocks, blockSizes)
        | some tree => (slotBlocks (blocksByName blocks) (collectBaseBlockSlots tree), blockSizes)

/-- Without blocks there is nothing to complement. -/
@[simp] theorem complementBlocks_of_nil (domains : Option DomainMap) (blockSizes : List Nat) :
    complementBlocks domains [] blockSizes = ([], blockSizes) := by
  cases domains with
  | none => rfl
  | some all => simp [complementBlocks, domainsForBlocks, DomainMap.new]

end Topograph.Translate
