import Topograph.Cluset.Expansion
import Topograph.Translate.NetworkTopology

/-! # Topology units and node specs (`pkg/translate/yaml.go`, `pkg/translate/topology.go`)

A topology unit is the topology of one partition. The code compacts the lists of a switch or block
when it puts it into the unit; here they are kept as they are handed to `Compact`, and `emitted` is
what the unit holds. A node is annotated with a spec: its place in the cluster-wide topology, or in
every unit that has one. -/

namespace Topograph.Translate

open Topograph.Topology

/-- An HTTP error: its status and message. -/
structure HTTPError where
  code : Nat
  message : String
  deriving DecidableEq, Repr

/-- A switch of a unit: its name, and the child switches and nodes that are handed to `Compact`. -/
structure Switch where
  name : String
  children : List String
  nodes : List String
  deriving DecidableEq, Repr

/-- `Switch`, with the compacted texts of its child switches and nodes. -/
structure EmittedSwitch where
  name : String
  children : String
  nodes : String
  deriving DecidableEq, Repr

/-- The `Switch` that stands in the unit. -/
def Switch.emitted (srt : Cluset.NumberSort) (sw : Switch) : EmittedSwitch where
  name := sw.name
  children := Cluset.hostList srt sw.children
  nodes := Cluset.hostList srt sw.nodes

section Kept

variable {srt : Cluset.NumberSort} {sw : Switch}

end Kept

/-- `TreeTopo`: the switches, and the switches above each switch and node. -/
structure TreeTopo where
  switches : List Switch
  parents : GoMap String (List String)
  topLevel : List String

/-- A block of a unit, with the nodes that are handed to `Compact`. -/
structure Block where
  name : String
  nodes : List String
  deriving DecidableEq, Repr

/-- `Block`, with the compacted text of its nodes. -/
structure EmittedBlock where
  name : String
  nodes : String
  deriving DecidableEq, Repr

/-- The `Block` that stands in the unit. -/
def Block.emitted (srt : Cluset.NumberSort) (b : Block) : EmittedBlock where
  name := b.name
  nodes := Cluset.hostList srt b.nodes

/-- `BlockTopo`: the blocks, and the block of each node. -/
structure BlockTopo where
  blockSizes : List Nat
  blocks : List Block
  parents : GoMap String String

/-- `TopologyUnit`: flat, a tree or blocks. -/
structure TopologyUnit where
  name : String
  clusterDefault : Bool
  flat : Bool
  tree : Option TreeTopo
  block : Option BlockTopo

/-- The part of a spec that one unit contributes: the switches above the node, or its block. -/
def TopologyUnit.parent (tu : TopologyUnit) (node : String) : String :=
  match tu.tree, tu.block with
  | some tree, _ =>
    match tree.parents.lookup node with
    | some switches => String.intercalate ":" switches
    | none => ""
  | none, some block => (block.parents.lookup node).getD ""
  | none, none => ""

/-- `getTopologySpec`: the entries of the units that know the node. -/
def getTopologySpec (node : String) (topologies : List TopologyUnit) : String :=
  String.intercalate "," (topologies.filterMap fun tu =>
    if tu.parent node = "" then none else some (tu.name ++ ":" ++ tu.parent node))

/-- `GetNodeTopologySpec`. -/
def getNodeTopologySpec {pkg : RegexpPackage} {ρ : Type} (nt : NetworkTopology pkg ρ)
    (node : String) (topologies : List TopologyUnit) : String :=
  match nt.nodeInfo.lookup node with
  | none => ""
  | some nodeInfo =>
    if nt.config.topologies.entries ≠ [] then getTopologySpec node topologies
    else if nt.config.plugin = topologyBlock then
      if nodeInfo.blockID = "" then "" else "default:" ++ nodeInfo.blockID
    else if nt.config.plugin = topologyTree then
      "default:" ++ String.intercalate ":" nodeInfo.switches
    else ""

end Topograph.Translate
