import Topograph.Topology.Domain
import Topograph.Cluset.Cluset

/-! # Block trees (`pkg/translate/block_tree.go`)

The domain tree is packed into base blocks of `blockSizes[0]` host slots. A domain occupies a slot
of whole base blocks, filled up with empty ones, and the root is filled up with empty blocks to a
multiple of the last block size. Counts are natural numbers; block sizes are positive wherever a
loop depends on it. -/

namespace Topograph.Translate

open Topograph.Topology

/-- A base block: exactly `baseBlockSize` leaves, each a host or an empty placeholder. -/
structure BaseBlockNode where
  id : String
  domain : String
  leaves : List (Option HostInfo)
  nodeCount : Nat

/-- A node of the block tree above the hosts. -/
inductive BlockTreeNode where
  | base (block : BaseBlockNode)
  | aggregate (id : String) (children : List BlockTreeNode) (nodeCount : Nat)

/-- `aggregateBlockNode`. -/
structure AggregateBlockNode where
  id : String
  children : List BlockTreeNode
  nodeCount : Nat

/-- An aggregate as a node of the tree. -/
def AggregateBlockNode.toNode (agg : AggregateBlockNode) : BlockTreeNode :=
  .aggregate agg.id agg.children agg.nodeCount

/-! ## Base blocks -/

/-- `extractDomainID`: the ID up to the first `/`, `#` or `+`. -/
def extractDomainID (id : String) : String :=
  String.ofList (id.toList.takeWhile fun r => r ≠ '/' ∧ r ≠ '#' ∧ r ≠ '+')

/-- `newBaseBlock`: hosts from the left, placeholders behind them. -/
def newBaseBlock (id : String) (hosts : List HostInfo) (baseBlockSize : Nat) : BaseBlockNode where
  id := id
  domain := extractDomainID id
  leaves := (hosts.take baseBlockSize).map some ++
    List.replicate (baseBlockSize - hosts.length) none
  nodeCount := ((hosts.take baseBlockSize).filter fun h => h.hostName ≠ "").length

/-- `newEmptyBaseBlock`. -/
def newEmptyBaseBlock (baseBlockSize : Nat) : BaseBlockNode where
  id := ""
  domain := ""
  leaves := List.replicate baseBlockSize none
  nodeCount := 0

/-- The loop of `splitIntoBaseBlocks`; `count` blocks are already made. It takes at least one host a
turn, so the number of hosts is enough fuel. -/
def splitLoop (id : String) (baseBlockSize : Nat) : Nat → Nat → List HostInfo → List BaseBlockNode
  | 0, _, _ => []
  | _ + 1, _, [] => []
  | fuel + 1, count, hosts@(_ :: _) =>
    let blockID := if count = 0 then id else id ++ "#" ++ toString (count + 1)
    newBaseBlock blockID (hosts.take baseBlockSize) baseBlockSize ::
      splitLoop id baseBlockSize fuel (count + 1) (hosts.drop baseBlockSize)

/-- `splitIntoBaseBlocks`: overflow blocks get a number behind the ID. -/
def splitIntoBaseBlocks (id : String) (hosts : List HostInfo) (baseBlockSize : Nat) :
    List BaseBlockNode :=
  splitLoop id baseBlockSize hosts.length 0 hosts

/-- `hostsSorted`: the hosts of a map by name. -/
def hostsSorted (hosts : Hosts) : List HostInfo :=
  hosts.values.insertionSort fun a b => a.hostName ≤ b.hostName

/-! ## Capacities -/

/-- `aggregateSlotCapacity`: the smallest power-of-two multiple of the base size that holds the
largest sibling. -/
def aggregateSlotCapacity (maxSiblingNodes baseBlockSize : Nat) : Nat :=
  doubleUntil maxSiblingNodes maxSiblingNodes baseBlockSize

/-- The loop of `blockTreeGCD`, `for b != 0 { a, b = b, a%b }`; `b` decreases every turn. -/
def gcdLoop : Nat → Nat → Nat → Nat
  | 0, a, _ => a
  | fuel + 1, a, b => if b = 0 then a else gcdLoop fuel b (a % b)

/-- `blockTreeGCD`. -/
def blockTreeGCD (a b : Nat) : Nat := if a = 0 then b else gcdLoop (b + 1) a b

/-- The loop `for len(blocks) < numBaseBlocks` that fills up with empty base blocks. -/
def padBlocks (blocks : List BaseBlockNode) (numBaseBlocks baseBlockSize : Nat) :
    List BaseBlockNode :=
  blocks ++ List.replicate (numBaseBlocks - blocks.length) (newEmptyBaseBlock baseBlockSize)

/-- An aggregate of base blocks, each counted with its full size. -/
def aggregateOf (id : String) (blocks : List BaseBlockNode) (baseBlockSize : Nat) :
    AggregateBlockNode where
  id := id
  children := blocks.map .base
  nodeCount := blocks.length * baseBlockSize

/-- `packHostsIntoAggregate`. -/
def packHostsIntoAggregate (id : String) (sortedHosts : List HostInfo)
    (numBaseBlocks baseBlockSize : Nat) : AggregateBlockNode :=
  aggregateOf id (padBlocks (splitIntoBaseBlocks id sortedHosts baseBlockSize) numBaseBlocks
    baseBlockSize)
    baseBlockSize

/-- `newEmptyChildAggregate`. -/
def newEmptyChildAggregate (capacity baseBlockSize : Nat) : AggregateBlockNode :=
  aggregateOf "" (List.replicate (capacity / baseBlockSize) (newEmptyBaseBlock baseBlockSize))
    baseBlockSize

mutual

/-- The walk of `collectBaseBlockSlots` at one node. -/
def BlockTreeNode.slots : BlockTreeNode → List BaseBlockNode
  | .base block => [block]
  | .aggregate _ children _ => childSlots children

/-- The walk over the children of an aggregate. -/
def childSlots : List BlockTreeNode → List BaseBlockNode
  | [] => []
  | child :: children => child.slots ++ childSlots children

end

/-- `collectBaseBlockSlots`: the base blocks of the tree from left to right. -/
def collectBaseBlockSlots (tree : AggregateBlockNode) : List BaseBlockNode := tree.toNode.slots

/-! ## Domains -/

/-- The number of base blocks a leaf occupies: `ceil(ActualNodeCount / baseBlockSize)` when the
siblings do not fit the last block size, else the slot of the largest sibling. -/
def leafBaseBlocks (actualNodeCount maxSiblingNodes baseBlockSize : Nat) (oversized : Prop)
    [Decidable oversized] : Nat :=
  max (if oversized then (actualNodeCount + baseBlockSize - 1) / baseBlockSize
    else aggregateSlotCapacity maxSiblingNodes baseBlockSize / baseBlockSize) 1

/-- `toSingleLevelDomainAggregate`; its vertices are leaves (`isSingleLevelDomainTree`). -/
def toSingleLevelDomainAggregate (id : String) (actualNodeCount : Nat) (hosts : Hosts)
    (maxSiblingNodes : Nat) (blockSizes : List Nat) : AggregateBlockNode :=
  let baseBlockSize := blockSizes.headD 0
  packHostsIntoAggregate id (hostsSorted hosts)
    (leafBaseBlocks actualNodeCount maxSiblingNodes baseBlockSize (blockSizes.length = 1))
    baseBlockSize

/-- The rounding of `recurseChildrenIntoAggregate`: when the children overflow the slot and there is
more than one block size, the smallest later block size that holds them (or they themselves) sets
the width of the slot. -/
def roundBaseBlocks (actual numBaseBlocks : Nat) (blockSizes : List Nat) : Nat :=
  let baseBlockSize := blockSizes.headD 0
  if numBaseBlocks < actual ∧ 2 ≤ blockSizes.length then
    let actualNodes := actual * baseBlockSize
    let alignSize := ((blockSizes.drop 1).find? fun bs => actualNodes ≤ bs).getD actualNodes
    let aggregateWidth := aggregateSlotCapacity alignSize baseBlockSize / baseBlockSize
    (actual + aggregateWidth - 1) / aggregateWidth * aggregateWidth
  else numBaseBlocks

/-- The entries of a map in the order of `slices.Sorted(maps.Keys(m))`. -/
def sortedByKey {α : Type} (entries : List (String × α)) : List (String × α) :=
  entries.insertionSort fun a b => a.1 ≤ b.1

mutual

/-- `toDomainAggregate`: a leaf packs its hosts, an interior vertex the blocks of its children
(`recurseChildrenIntoAggregate`). -/
def toDomainAggregate (maxSiblingNodes : Nat) (blockSizes : List Nat) :
    BlockVertex → AggregateBlockNode
  | .node id actualNodeCount _ (some hosts) _ =>
    let baseBlockSize := blockSizes.headD 0
    packHostsIntoAggregate id (hostsSorted hosts)
      (leafBaseBlocks actualNodeCount maxSiblingNodes baseBlockSize
        (blockSizes.getLastD 0 < maxSiblingNodes)) baseBlockSize
  | .node id _ maxChildNodeCount none children =>
    let baseBlockSize := blockSizes.headD 0
    let nodeCount := aggregateSlotCapacity (min (blockSizes.getLastD 0) maxSiblingNodes)
      baseBlockSize
    let numBaseBlocks := max (nodeCount / baseBlockSize) 1
    let blocks := (sortedByKey (childAggregates maxChildNodeCount blockSizes children)).flatMap
      fun c =>
      collectBaseBlockSlots c.2
    aggregateOf id
      (padBlocks blocks (roundBaseBlocks blocks.length numBaseBlocks blockSizes) baseBlockSize)
      baseBlockSize

/-- The aggregates of the children of an interior vertex, by key. -/
def childAggregates (maxSiblingNodes : Nat) (blockSizes : List Nat) :
    List (String × BlockVertex) → List (String × AggregateBlockNode)
  | [] => []
  | child :: children =>
    (child.1, toDomainAggregate maxSiblingNodes blockSizes child.2) ::
      childAggregates maxSiblingNodes blockSizes children

end

/-! ## The root -/

/-- `isSingleLevelDomainTree`, for the children of the root. -/
def isSingleLevelDomainTree (domains : List (String × BlockVertex)) : Bool :=
  !domains.isEmpty && domains.all fun d =>
    match d.2 with
    | .node _ _ _ hosts children => hosts.isSome && children.isEmpty

/-- The aggregate of one domain below the root. -/
def domainAggregate (singleLevel : Bool) (maxSiblingNodes : Nat) (blockSizes : List Nat) :
    BlockVertex → AggregateBlockNode
  | .node id actualNodeCount maxChildNodeCount hosts children =>
    match singleLevel, hosts with
    | true, some hosts =>
      toSingleLevelDomainAggregate id actualNodeCount hosts maxSiblingNodes blockSizes
    | _, hosts =>
      toDomainAggregate maxSiblingNodes blockSizes
        (.node id actualNodeCount maxChildNodeCount hosts children)

/-- The aggregates of the domains, in the order of their names. -/
def domainAggregates (blockSizes : List Nat) : BlockVertex → List AggregateBlockNode
  | .node _ _ maxChildNodeCount _ domains =>
    (sortedByKey domains).map fun d =>
      domainAggregate (isSingleLevelDomainTree domains) maxChildNodeCount blockSizes d.2

/-- The common divisor of the slots, as the loop over the domains accumulates it. -/
def childCapacity (aggs : List AggregateBlockNode) : Nat :=
  aggs.foldl (fun capacity agg =>
    if capacity = 0 then agg.nodeCount else blockTreeGCD capacity agg.nodeCount) 0

/-- The loop that appends empty aggregates of `capacity` positions while the count is below the
target. -/
def padRoot (targetCount capacity baseBlockSize : Nat) :
    Nat → AggregateBlockNode → AggregateBlockNode
  | 0, result => result
  | fuel + 1, result =>
    if result.nodeCount < targetCount then
      padRoot targetCount capacity baseBlockSize fuel
        { result with
          children := result.children ++ [(newEmptyChildAggregate capacity baseBlockSize).toNode]
          nodeCount := result.nodeCount + capacity }
    else result

/-- `toRootAggregate`: the domains, and behind them the padding up to the next multiple of the last
block size. -/
def toRootAggregate (root : BlockVertex) (blockSizes : List Nat) : AggregateBlockNode :=
  match root with
  | .node id _ _ _ _ =>
    let aggs := domainAggregates blockSizes root
    let rootDesired := blockSizes.getLastD 0
    let capacity := childCapacity aggs
    let result : AggregateBlockNode :=
      { id := id, children := aggs.map (·.toNode), nodeCount := (aggs.map (·.nodeCount)).sum }
    if 0 < result.nodeCount ∧ 0 < capacity ∧ result.nodeCount % rootDesired ≠ 0 then
      let step := capacity / blockTreeGCD capacity rootDesired * rootDesired
      let targetCount := (result.nodeCount + step - 1) / step * step
      padRoot targetCount capacity (blockSizes.headD 0) (targetCount - result.nodeCount) result
    else result

/-- `buildBlockTree`: nothing without a positive first block size. -/
def buildBlockTree (domains : DomainMap) (blockSizes : List Nat) : Option AggregateBlockNode :=
  if blockSizes.headD 0 = 0 then none else some (toRootAggregate domains.getDomainTree blockSizes)

end Topograph.Translate
