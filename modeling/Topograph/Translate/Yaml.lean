import Topograph.Cluset.Limit
import Topograph.Translate.Block

/-! # Partition topologies (`pkg/translate/yaml.go`)

`getTopologies` builds one unit per configured topology. A tree unit covers the switches above the
selected nodes, a block unit the blocks of the selected nodes. The walks over the tree carry
`fuel`. -/

namespace Topograph.Translate

open Topograph.Topology

variable {pkg : RegexpPackage} {ρ : Type}

/-! ## The partition tree -/

/-- The closure `dfs` of `findRequiredNodes`: whether a target lies at or below `node`, and the
required IDs so far. -/
def dfs (tree : GoMap String (List String)) (leaves : List String) :
    Nat → String → List String → Option (Bool × List String)
  | 0, _, _ => none
  | fuel + 1, node, required =>
    (((tree.lookup node).getD []).foldlM (fun (st : Bool × List String) child =>
      (dfs tree leaves fuel child st.2).map fun r => (st.1 || r.1, r.2))
      (decide (node ∈ leaves), required)).map fun st =>
        (st.1, if st.1 then node :: st.2 else st.2)

/-- `findRequiredNodes`: all IDs on a path to a target. -/
def findRequiredNodes (nt : NetworkTopology pkg ρ) (fuel : Nat) (leaves : List String) :
    Option (List String) :=
  (dfs nt.tree leaves fuel "" []).map (·.2)

/-- `buildSubTree`: the required IDs with their required children; an ID without any has no
entry. -/
def buildSubTree (nt : NetworkTopology pkg ρ) (required : List String) :
    GoMap String (List String) :=
  nt.tree.filterMap fun parent children =>
    if parent ∈ required ∧ children.filter (· ∈ required) ≠ [] then
      some (children.filter (· ∈ required))
    else none

/-- `getPartitionTree`. -/
def getPartitionTree (nt : NetworkTopology pkg ρ) (fuel : Nat) (nodes : List String) :
    Option (GoMap String (List String)) :=
  (findRequiredNodes nt fuel nodes).map (buildSubTree nt)

/-! ## Tree units -/

/-- The key a child is recorded under: a node by its name, a switch by its ID. -/
def parentKey (w : Vertex (Option ρ)) : String := if w.vertices.entries = [] then w.name else w.id

/-- One turn of the loop over the children of the switch `vID`: the lists of its line and the
recorded parents. -/
def recordChild (heap : ρ → Vertex (Option ρ)) (selected connects : List String) (vID : String)
    (st : Switch × GoMap String (List String)) (w : ρ) : Switch × GoMap String (List String) :=
  let child := heap w
  let sw :=
    if child.vertices.entries = [] then
      if child.name ∈ selected then { st.1 with nodes := st.1.nodes ++ [child.name] } else st.1
    else if child.id ∈ connects then { st.1 with children := st.1.children ++ [child.id] }
    else st.1
  (sw, st.2.insert (parentKey child) ((st.2.lookup vID).getD [] ++ [vID]))

/-- What the loop of `getTreeTopologyUnit` does at a switch. -/
def visitSwitch (heap : ρ → Vertex (Option ρ)) (selected connects : List String)
    (v : Vertex (Option ρ)) (st : TreeTopo) : TreeTopo :=
  let r := (v.vertices.entries.filterMap (·.2)).foldl (recordChild heap selected connects v.id)
    ({ name := v.id, children := [], nodes := [] }, st.parents)
  { st with
    parents := r.2
    switches := if r.1.children ≠ [] ∨ r.1.nodes ≠ [] then st.switches ++ [r.1] else st.switches }

/-- What the loop does at an ID with required children: the root sets the top level, a switch is
written. A required ID always has a vertex. -/
def visitID (heap : ρ → Vertex (Option ρ)) (nt : NetworkTopology pkg ρ)
    (selected connects : List String) (id : String) (st : TreeTopo) : TreeTopo :=
  if id = "" then { st with topLevel := connects }
  else
    match nt.vertices.lookup id with
    | some v => visitSwitch heap selected connects (heap v) st
    | none => st

/-- The loop of `getTreeTopologyUnit`; IDs without required children are ignored. -/
def treeUnitLoop (heap : ρ → Vertex (Option ρ)) (nt : NetworkTopology pkg ρ)
    (selected : List String) (tree : GoMap String (List String)) :
    Nat → List String → List String → TreeTopo → Option TreeTopo
  | 0, _, _, _ => none
  | _ + 1, _, [], st => some st
  | fuel + 1, visited, id :: queue, st =>
    if id ∈ visited then treeUnitLoop heap nt selected tree fuel visited queue st
    else
      match tree.lookup id with
      | none => treeUnitLoop heap nt selected tree fuel (id :: visited) queue st
      | some connects =>
        treeUnitLoop heap nt selected tree fuel (id :: visited) (queue ++ connects)
          (visitID heap nt selected connects id st)

/-- The nodes of a partition that the topology knows. -/
def selectedNodes (nt : NetworkTopology pkg ρ) (nodeNames : List String) : List String :=
  nodeNames.filter fun nodeName => (nt.nodeInfo.lookup nodeName).isSome

/-- The instance IDs of the nodes of a partition. -/
def selectedIDs (nt : NetworkTopology pkg ρ) (nodeNames : List String) : List String :=
  nodeNames.filterMap fun nodeName => (nt.nodeInfo.lookup nodeName).map (·.instanceID)

/-- `getTreeTopologyUnit`: flat when no node is known. -/
def getTreeTopologyUnit (heap : ρ → Vertex (Option ρ)) (nt : NetworkTopology pkg ρ) (fuel : Nat)
    (topoName : String) (topoSpec : TopologySpec pkg) : Option (Except String TopologyUnit) :=
  match Cluset.expandWithLimit topoSpec.nodes with
  | .error err =>
    some (.error ("nodes expansion failed for topology " ++ goQuote topoName ++ ": " ++ err))
  | .ok nodeNames =>
    (getPartitionTree nt fuel (selectedIDs nt nodeNames)).bind fun tree =>
      if tree.entries = [] then
        some (.ok { name := topoName, clusterDefault := topoSpec.clusterDefault, flat := true
                    tree := none, block := none })
      else
        (treeUnitLoop heap nt (selectedNodes nt nodeNames) tree fuel [] [""]
          { switches := [], parents := ∅, topLevel := [] }).map fun st =>
            .ok { name := topoName, clusterDefault := topoSpec.clusterDefault, flat := false
                  tree := some st, block := none }

/-! ## Block units -/

/-- One turn of the loop that collects the selected nodes by block. -/
def collectBlock (nt : NetworkTopology pkg ρ) (blockMap : GoMap Nat BlockInfo) (nodeName : String) :
    GoMap Nat BlockInfo :=
  match (nt.nodeInfo.lookup nodeName).bind (·.blockIndx) with
  | none => blockMap
  | some indx =>
    match blockMap.lookup indx with
    | some bInfo => blockMap.insert indx { bInfo with nodes := bInfo.nodes ++ [nodeName] }
    | none =>
      blockMap.insert indx
        { id := "", indx := indx, name := ((nt.blocks[indx]?).map (·.name)).getD ""
          nodes := [nodeName] }

/-- The selected nodes by block, in the order of the block indices. -/
def collectBlocks (nt : NetworkTopology pkg ρ) (nodeNames : List String) : List BlockInfo :=
  (nodeNames.foldl (collectBlock nt) ∅).values.insertionSort fun a b => a.indx ≤ b.indx

/-- `fmt.Sprintf("block%d", indx+1)` for every block of a list. -/
def renumber (bInfos : List BlockInfo) : List BlockInfo :=
  bInfos.mapIdx fun indx bInfo => { bInfo with id := "block" ++ toString (indx + 1) }

/-- The blocks of a unit and the recorded block of every node. -/
def blockParents (kept : List (BlockInfo × String)) : GoMap String String :=
  kept.foldl (fun parents b => b.1.nodes.foldl (fun parents nodeName => parents.insert nodeName b.2)
    parents) ∅

/-- `getBlockTopologyUnit`: flat when no node is in a block, or when no block could be named. -/
def getBlockTopologyUnit (nt : NetworkTopology pkg ρ) (topoName : String)
    (topoSpec : TopologySpec pkg) : Except String TopologyUnit :=
  let flat : TopologyUnit :=
    { name := topoName, clusterDefault := topoSpec.clusterDefault, flat := true, tree := none,
      block := none }
  match Cluset.expandWithLimit topoSpec.nodes with
  | .error err => .error ("nodes expansion failed for topology " ++ goQuote topoName ++ ": " ++ err)
  | .ok nodeNames =>
    if collectBlocks nt nodeNames = [] then .ok flat
    else
      let (complemented, effectiveBlockSizes) :=
        complementBlocks nt.domains (collectBlocks nt nodeNames) topoSpec.blockSizes
      let bInfos := renumber complemented
      match formatBlockNames bInfos (compileBlockNameFormatter topoSpec.blockName) with
      | .error err => .error err
      | .ok formatted =>
        if anyBlockHasNodes bInfos ∧ ¬ anyBlockHasNodes (formatted.kept.map (·.1)) then .ok flat
        else
          match getBlockSizes (formatted.kept.map (·.1)) effectiveBlockSizes with
          | .error err => .error err
          | .ok blockSizes =>
            .ok { name := topoName, clusterDefault := topoSpec.clusterDefault, flat := false
                  tree := none
                  block := some
                    { blockSizes := blockSizes, parents := blockParents formatted.kept
                      blocks := formatted.kept.map fun b => { name := b.2, nodes := b.1.nodes } } }

/-! ## All topologies -/

/-! ## Skeletons -/

/-- The top-level switches of a tree, by name alone. -/
def TreeTopo.skeleton (tree : TreeTopo) : TreeTopo where
  switches := (tree.switches.filter fun sw => sw.name ∈ tree.topLevel).map fun sw =>
    { name := sw.name, children := [], nodes := [] }
  parents := ∅
  topLevel := []

/-- The blocks by name alone, with their sizes. -/
def BlockTopo.skeleton (block : BlockTopo) : BlockTopo where
  blockSizes := block.blockSizes
  blocks := block.blocks.map fun b => { name := b.name, nodes := [] }
  parents := ∅

/-- `copySkeleton`. -/
def copySkeleton (topologies : List TopologyUnit) : List TopologyUnit :=
  topologies.map fun tu =>
    { tu with tree := tu.tree.map TreeTopo.skeleton, block := tu.block.map BlockTopo.skeleton }

end Topograph.Translate
