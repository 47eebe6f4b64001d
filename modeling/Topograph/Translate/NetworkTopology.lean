import Topograph.Translate.Config
import Topograph.Cluset.Cluset

/-! # The network topology (`pkg/translate/topology.go`)

`newNetworkTopology` validates the configuration, walks the tier graph breadth first and numbers the
blocks. The walks follow pointers, so they carry `fuel` and return `none` when it is used up; a
graph is accepted when some fuel is enough and the result is not an error. A loop over the children
of a vertex runs in the order of the entries of its map. -/

namespace Topograph.Translate

open Topograph.Topology

/-- `nodeInfo`: what is known of a compute node. -/
structure NodeInfo where
  instanceID : String
  blockID : String
  blockIndx : Option Nat
  switches : List String
  deriving DecidableEq, Repr

/-- `blockInfo`: a block of nodes. -/
structure BlockInfo where
  id : String
  name : String
  indx : Nat
  nodes : List String
  deriving DecidableEq, Repr

/-- `NetworkTopology`. -/
structure NetworkTopology (pkg : RegexpPackage) (ρ : Type) where
  config : Config pkg
  /-- The adjacency list by vertex ID. -/
  tree : GoMap String (List String)
  domains : Option DomainMap
  blocks : List BlockInfo
  vertices : GoMap String ρ
  nodeInfo : GoMap String NodeInfo

/-! ## The tree -/

/-- The variables of `initTree`. -/
structure TreeState (ρ : Type) where
  tree : GoMap String (List String)
  vertices : GoMap String ρ
  nodeInfo : GoMap String NodeInfo
  parentMap : GoMap String (List String)
  seen : List String
  queue : List ρ

/-- What `initTree` records of a vertex when it takes it from the queue. -/
def recordVertex {ρ : Type} (heap : ρ → Vertex (Option ρ)) (v : ρ) (st : TreeState ρ) :
    TreeState ρ :=
  let vtx := heap v
  if (st.tree.lookup vtx.id).isSome then st
  else
    { st with
      tree := st.tree.insert vtx.id []
      vertices := st.vertices.insert vtx.id v
      nodeInfo :=
        if vtx.vertices.entries = [] then
          st.nodeInfo.insert vtx.name
            { instanceID := vtx.id, blockID := "", blockIndx := none
              switches := (st.parentMap.lookup vtx.id).getD [] }
        else st.nodeInfo }

/-- One turn of the loop of `initTree` over the children of `v`. -/
def visitChild {ρ : Type} (heap : ρ → Vertex (Option ρ)) (v : ρ) (st : TreeState ρ)
    (child : Σ _ : String, Option ρ) : Except String (TreeState ρ) :=
  let vID := (heap v).id
  match child.2 with
  | none => .error ("vertex " ++ goQuote vID ++ " contains nil child with key " ++ goQuote child.1)
  | some w =>
    let wID := (heap w).id
    if child.1 = vID ∨ wID = vID then .error ("vertex " ++ goQuote vID ++ " contains a self-edge")
    else if wID ∈ st.seen then
      .error ("vertex " ++ goQuote wID ++ " is reachable more than once; topology must be a tree")
    else
      .ok { st with
        seen := wID :: st.seen
        parentMap :=
          if vID = "" then st.parentMap
          else st.parentMap.insert wID ((st.parentMap.lookup vID).getD [] ++ [vID])
        tree := st.tree.insert vID ((st.tree.lookup vID).getD [] ++ [child.1])
        queue := st.queue ++ [w] }

/-- One turn of the loop of `initTree` over the queue, with `v` taken from it. -/
def visitVertex {ρ : Type} (heap : ρ → Vertex (Option ρ)) (v : ρ) (st : TreeState ρ) :
    Except String (TreeState ρ) :=
  (heap v).vertices.entries.foldlM (visitChild heap v) (recordVertex heap v st)

/-- The loop of `initTree` over the queue. -/
def treeLoop {ρ : Type} (heap : ρ → Vertex (Option ρ)) :
    Nat → TreeState ρ → Option (Except String (TreeState ρ))
  | 0, _ => none
  | fuel + 1, st =>
    match st.queue with
    | [] => some (.ok st)
    | v :: queue =>
      match visitVertex heap v { st with queue := queue } with
      | .error err => some (.error err)
      | .ok st' => treeLoop heap fuel st'

/-- The state before the loop: the root is queued and seen. -/
def treeStart {ρ : Type} (heap : ρ → Vertex (Option ρ)) (root : ρ) : TreeState ρ where
  tree := ∅
  vertices := ∅
  nodeInfo := ∅
  parentMap := ∅
  seen := [(heap root).id]
  queue := [root]

/-- Every child list of the adjacency map, sorted. -/
def sortTree (tree : GoMap String (List String)) : GoMap String (List String) :=
  tree.filterMap fun _ children => some (children.insertionSort (· ≤ ·))

/-- `initTree`; a graph without tiers leaves everything empty. -/
def initTree {ρ : Type} (fuel : Nat) (graph : Option (Graph ρ)) :
    Option (Except String (TreeState ρ)) :=
  match graph with
  | none => some (.ok ⟨∅, ∅, ∅, ∅, [], []⟩)
  | some graph =>
    match graph.tiers with
    | none => some (.ok ⟨∅, ∅, ∅, ∅, [], []⟩)
    | some root =>
      match treeLoop graph.heap fuel (treeStart graph.heap root) with
      | some (.ok st) => some (.ok { st with tree := sortTree st.tree })
      | r => r

/-! ## The blocks -/

/-- `fmt.Sprintf("block%03d", seq)`. -/
def blockID (seq : Nat) : String := "block" ++ String.ofList (Cluset.zeroPad 3 seq)

/-- The block of the domain at index `i` of the sorted names. -/
def toBlockInfo (domains : DomainMap) (domainName : String) (i : Nat) : BlockInfo where
  id := blockID (i + 1)
  name := domainName
  indx := 0
  nodes := (((domains.hosts.lookup domainName).getD ∅).keys).insertionSort (· ≤ ·)

/-- `toBlockInfos`: one block per domain, in the order of the names. -/
def toBlockInfos (domains : DomainMap) : List BlockInfo :=
  (domains.hosts.keys.insertionSort (· ≤ ·)).mapIdx fun i domainName =>
    toBlockInfo domains domainName i

/-- The nodes and blocks while `initBlocks` runs. -/
structure BlockState where
  nodeInfo : GoMap String NodeInfo
  blocks : List BlockInfo

/-- One turn of the loop of `initBlocks` without tiers: every node of the block is new. -/
def addBlock (domains : DomainMap) (st : BlockState) (bInfo : BlockInfo) : BlockState :=
  let indx := st.blocks.length
  { nodeInfo := bInfo.nodes.foldl (fun info node =>
      match domains.lookupHost bInfo.name node with
      | none => info
      | some host =>
        info.insert node
          { instanceID := host.instanceID, blockID := bInfo.id, blockIndx := some indx
            switches := [] }) st.nodeInfo
    blocks := st.blocks ++ [{ bInfo with indx := indx }] }

/-- An update of a node that is known. -/
def updateNode (f : NodeInfo → NodeInfo) (info : GoMap String NodeInfo) (node : String) :
    GoMap String NodeInfo :=
  match info.lookup node with
  | some nInfo => info.insert node (f nInfo)
  | none => info

/-- The loop that sets the block ID of the known nodes of every block. -/
def setBlockIDs (blocks : List BlockInfo) (info : GoMap String NodeInfo) : GoMap String NodeInfo :=
  blocks.foldl (fun info block =>
    block.nodes.foldl (updateNode fun nInfo => { nInfo with blockID := block.id }) info) info

/-- `markBlockNodes`. -/
def markBlockNodes (st : BlockState) (block : BlockInfo) : BlockState :=
  let indx := st.blocks.length
  { nodeInfo :=
      block.nodes.foldl (updateNode fun nInfo => { nInfo with blockIndx := some indx }) st.nodeInfo
    blocks := st.blocks ++ [{ block with indx := indx }] }

/-- What `initBlocks` does at a leaf of the tier graph: the block of a node that is met first is
numbered next. -/
def visitLeaf (domainBlocks : List BlockInfo) (name : String) (st : BlockState) : BlockState :=
  match st.nodeInfo.lookup name with
  | none => st
  | some nInfo =>
    if nInfo.blockID ≠ "" ∧ nInfo.blockIndx = none then
      match domainBlocks.find? fun block => block.id = nInfo.blockID with
      | some block => markBlockNodes st block
      | none => st
    else st

/-- The breadth first loop of `initBlocks` over the tier graph. -/
def blockLoop {ρ : Type} (heap : ρ → Vertex (Option ρ)) (domainBlocks : List BlockInfo) :
    Nat → List ρ → BlockState → Option BlockState
  | 0, _, _ => none
  | _ + 1, [], st => some st
  | fuel + 1, v :: queue, st =>
    if (heap v).vertices.entries = [] then
      blockLoop heap domainBlocks fuel queue (visitLeaf domainBlocks (heap v).name st)
    else
      let keys := (heap v).vertices.keys.insertionSort (· ≤ ·)
      let next := keys.filterMap fun key => ((heap v).vertices.lookup key).join
      blockLoop heap domainBlocks fuel (queue ++ next) st

/-- `initBlocks`: the domains, blocks and node infos it leaves. -/
def initBlocks {ρ : Type} (fuel : Nat) (graph : Option (Graph ρ)) (info : GoMap String NodeInfo) :
    Option (Option DomainMap × BlockState) :=
  let unchanged : Option DomainMap × BlockState := (none, ⟨info, []⟩)
  match graph with
  | none => some unchanged
  | some graph =>
    match graph.domains with
    | none => some unchanged
    | some domains =>
      if domains.hosts.entries = [] then some unchanged
      else
        let domainBlocks := toBlockInfos domains
        match graph.tiers with
        | none => some (some domains, domainBlocks.foldl (addBlock domains) ⟨info, []⟩)
        | some root =>
          (blockLoop graph.heap domainBlocks fuel [root] ⟨setBlockIDs domainBlocks info, []⟩).map
            fun st => (some domains, st)

/-! ## The topology -/

/-- `NewNetworkTopology`. -/
def newNetworkTopology {pkg : RegexpPackage} {ρ : Type} (fuel : Nat) (graph : Option (Graph ρ))
    (cfg : Config pkg) : Option (Except String (NetworkTopology pkg ρ)) :=
  match cfg.validate graph with
  | .error err => some (.error err)
  | .ok config =>
    match initTree fuel graph with
    | none => none
    | some (.error err) => some (.error err)
    | some (.ok st) =>
      (initBlocks fuel graph st.nodeInfo).map fun r =>
        .ok { config := config, tree := st.tree, domains := r.1, blocks := r.2.blocks
              vertices := st.vertices, nodeInfo := r.2.nodeInfo }

/-- A graph and a configuration that `NewNetworkTopology` turns into `nt`. -/
def Accepts {pkg : RegexpPackage} {ρ : Type} (graph : Option (Graph ρ)) (cfg : Config pkg)
    (nt : NetworkTopology pkg ρ) : Prop :=
  ∃ fuel, newNetworkTopology fuel graph cfg = some (.ok nt)

end Topograph.Translate
