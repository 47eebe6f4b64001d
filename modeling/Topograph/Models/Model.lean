import Topograph.Accelerator.Kubernetes
import Topograph.Cluset.Cluset
import Topograph.Lib.Outcome

/-! # Simulation models (`pkg/models/model.go`)

A model names its switches with their sub-switches, and its nodes in capacity blocks, each block on
a switch or on none. `derive` expands the node lists, checks that every switch and every node has
one parent, and gives each node the switches, labels and annotations above it. `toGraph` turns the
derived model into the graph a provider would return.

A switch is known by its key: the reader of the model files lets no switch have another name.
`cluset.Expand` may not end, and then `derive` does not; its `fuel` is that of `Cluset.expand`. The
instance records of the graph are left out. -/

namespace Topograph.Models

open Topograph.Topology
open Topograph.Accelerator (ComputeInstances)
open Topograph.Translate (goQuote)

def labelTopologyRegion : String := "topology.kubernetes.io/region"
def defaultRegion : String := "none"
def annotationAcceleratorDomain : String := "accelerator.topology.test/domain"
def annotationAcceleratorSubDomain : String := "accelerator.topology.test/sub-domain"

/-- `Switch`, without its name. -/
structure Switch where
  labels : GoMap String String
  annotations : GoMap String String
  switches : List String
  nodes : List String

/-- `CapacityBlock`. -/
structure CapacityBlock where
  switch : String
  nodes : List String
  labels : GoMap String String
  annotations : GoMap String String

/-- `Node`. -/
structure Node where
  id : String
  labels : GoMap String String
  annotations : GoMap String String
  netLayers : List String

/-- `Model`. -/
structure Model where
  switches : GoMap String Switch
  nodes : GoMap String Node
  capacityBlocks : List CapacityBlock
  instances : List ComputeInstances

/-- `InstanceID`. -/
def instanceID (hostName : String) : String := "i-" ++ hostName

/-- `cluset.Expand`. -/
def expand (fuel : Nat) (nodes : List String) : Outcome String (List String) :=
  match Cluset.expand fuel (nodes.map String.toList) with
  | some names => pure (names.map String.ofList)
  | none => .loops

/-! ## Capacity blocks -/

/-- `appendUnique`. -/
def appendUnique (values : List String) (value : String) : List String :=
  if value ∈ values then values else values ++ [value]

/-- The switches once the nodes of a block are attached to the block's switch. -/
def attachNodes (switches : GoMap String Switch) (index : Nat) (switch : String)
    (nodes : List String) : Outcome String (GoMap String Switch) :=
  if switch = "" then pure switches
  else
    match switches.lookup switch with
    | some sw =>
      pure (switches.insert switch { sw with nodes := nodes.foldl appendUnique sw.nodes })
    | none =>
      throw ("capacity block at index " ++ toString index ++ " references unknown switch " ++
        goQuote switch)

/-- A node of a block; no other block may have declared it. -/
def declareNode (block : CapacityBlock) (nodes : GoMap String Node) (name : String) :
    Outcome String (GoMap String Node) :=
  if name ∈ nodes then throw ("node " ++ goQuote name ++ " belongs to more than one capacity block")
  else pure (nodes.insert name
    { id := name, labels := block.labels, annotations := block.annotations, netLayers := [] })

/-- One step of `completeCapacityBlocks`: the blocks of `m` are those completed so far. -/
def completeBlock (fuel : Nat) (m : Model) (block : CapacityBlock) : Outcome String Model := do
  let index := m.capacityBlocks.length
  let names ← expand fuel block.nodes
  if names = [] then throw ("capacity block at index " ++ toString index ++
    " must declare at least one node")
  let switches ← attachNodes m.switches index block.switch names
  let nodes ← names.foldlM (declareNode block) m.nodes
  pure { m with switches := switches, nodes := nodes,
                capacityBlocks := m.capacityBlocks ++ [{ block with nodes := names }] }

/-- `completeCapacityBlocks`. -/
def completeCapacityBlocks (fuel : Nat) (m : Model) : Outcome String Model :=
  m.capacityBlocks.foldlM (completeBlock fuel) { m with capacityBlocks := [] }

/-! ## Parents -/

/-- `switchMaps`, with the switches whose node lists are expanded so far. -/
structure SwitchMaps where
  parentBySwitch : GoMap String String
  switchByNode : GoMap String String
  switches : GoMap String Switch

/-- A sub-switch is known and has one parent. -/
def mapSubSwitch (switches : GoMap String Switch) (parent : String) (swmap : GoMap String String)
    (sw : String) : Outcome String (GoMap String String) :=
  if sw ∉ switches then
  throw ("switch " ++ goQuote parent ++ " references unknown sub-switch " ++ goQuote sw)
  else
    match swmap.lookup sw with
    | some p =>
      throw ("switch " ++ goQuote sw ++ " has two parent switches " ++ goQuote parent ++
        " and " ++ goQuote p)
    | none => pure (swmap.insert sw parent)

/-- A node is attached to one switch. -/
def mapNode (parent : String) (nodeMap : GoMap String String) (node : String) :
    Outcome String (GoMap String String) :=
  match nodeMap.lookup node with
  | some p =>
    throw ("node " ++ goQuote node ++ " has two switches " ++ goQuote parent ++
      " and " ++ goQuote p)
  | none => pure (nodeMap.insert node parent)

/-- One step of `buildSwitchMaps`. -/
def mapSwitch (fuel : Nat) (switches : GoMap String Switch) (maps : SwitchMaps)
    (parent : Σ _ : String, Switch) : Outcome String SwitchMaps := do
  let swmap ← parent.2.switches.foldlM (mapSubSwitch switches parent.1) maps.parentBySwitch
  let nodes ← expand fuel parent.2.nodes
  let nodeMap ← nodes.foldlM (mapNode parent.1) maps.switchByNode
  pure ⟨swmap, nodeMap, maps.switches.insert parent.1 { parent.2 with nodes := nodes }⟩

/-- `buildSwitchMaps`. -/
def buildSwitchMaps (fuel : Nat) (m : Model) : Outcome String SwitchMaps :=
  m.switches.entries.foldlM (mapSwitch fuel m.switches) ⟨∅, ∅, ∅⟩

/-! ## Layers -/

/-- The loop of `getNetworkLayers`, over the names of the switches. -/
def switchPath (parentBySwitch : GoMap String String) :
    Nat → List String → String → Outcome String (List String)
  | 0, _, _ => .loops
  | fuel + 1, visited, name =>
    if name ∈ visited then
      throw ("circular dependency detected in topology for switch " ++ goQuote name)
    else
      match parentBySwitch.lookup name with
      | some parent => do
        let layers ← switchPath parentBySwitch fuel (name :: visited) parent
        pure (name :: layers)
      | none => pure [name]

/-- What a node takes over from the switches above it. -/
structure Inherited where
  netLayers : List String
  labels : GoMap String String
  annotations : GoMap String String

/-- `getNetworkLayers`: the switch closest to the node has the last word on a label. Every round
visits a switch, so that one round more than there are switches is enough. -/
def getNetworkLayers (maps : SwitchMaps) (sw : String) : Outcome String Inherited := do
  let layers ← switchPath maps.parentBySwitch (maps.switches.entries.length + 1) [] sw
  let path := layers.reverse.filterMap maps.switches.lookup
  pure ⟨layers, path.foldl (fun labels sw => labels.copy sw.labels) ∅,
    path.foldl (fun annotations sw => annotations.copy sw.annotations) ∅⟩

/-- `withDefaultRegion`. -/
def withDefaultRegion (labels : GoMap String String) : GoMap String String :=
  if (labels.lookup labelTopologyRegion).getD "" ≠ "" then labels
    else labels.insert labelTopologyRegion defaultRegion

/-- `addInstanceRegion`. -/
def addInstanceRegion (regions : GoMap String (GoMap String String)) (labels : GoMap String String)
    (hostName : String) : GoMap String (GoMap String String) :=
  let region := (labels.lookup labelTopologyRegion).getD ""
  regions.insert region (((regions.lookup region).getD ∅).insert (instanceID hostName) hostName)

/-- What a node inherits: nothing if it is attached to no switch. -/
def inheritedBy (maps : SwitchMaps) (hostName : String) : Outcome String Inherited :=
  match maps.switchByNode.lookup hostName with
  | some sw => getNetworkLayers maps sw
  | none => pure ⟨[], ∅, ∅⟩

/-- One step of the last loop of `derive`: the nodes and the regions so far. -/
def deriveNode (maps : SwitchMaps) (st : GoMap String Node × GoMap String (GoMap String String))
    (e : Σ _ : String, Node) :
    Outcome String (GoMap String Node × GoMap String (GoMap String String)) := do
  let inherited ← inheritedBy maps e.1
  let labels := withDefaultRegion (inherited.labels.copy e.2.labels)
  let annotations := inherited.annotations.copy e.2.annotations
  pure (st.1.insert e.1
    { e.2 with labels := labels, annotations := annotations, netLayers := inherited.netLayers },
    addInstanceRegion st.2 labels e.1)

/-- `setInstances`. -/
def setInstances (regions : GoMap String (GoMap String String)) : List ComputeInstances :=
  (regions.keys.insertionSort (· ≤ ·)).map fun region => ⟨region, (regions.lookup region).getD ∅⟩

/-- `derive`, once the blocks are complete and the parents known. -/
def deriveNodes (m : Model) (maps : SwitchMaps) : Outcome String Model := do
  if m.nodes.entries = [] ∧ maps.switchByNode.entries ≠ [] then
    throw "switches reference nodes that are not declared by blocks"
  match maps.switchByNode.keys.find? (· ∉ m.nodes) with
  | some node => throw ("switch references unknown node " ++ goQuote node)
  | none =>
    let (nodes, regions) ← m.nodes.entries.foldlM (deriveNode maps) (m.nodes, ∅)
    pure { m with switches := maps.switches, nodes := nodes, instances := setInstances regions }

/-- `derive`. -/
def derive (fuel : Nat) (m : Model) : Outcome String Model := do
  let m ← completeCapacityBlocks fuel m
  let maps ← buildSwitchMaps fuel m
  deriveNodes m maps

/-! ## Graphs -/

/-- The vertices of a model: the hidden root, a vertex for each switch and one for each node. -/
inductive VertexRef where
  | root
  | switch (name : String)
  | node (hostName : String)
  deriving DecidableEq

namespace Model

variable (m : Model)

/-- The host names by instance ID. -/
def instance2node : GoMap String String :=
  m.nodes.entries.foldl (fun hosts e => hosts.insert (instanceID e.1) e.1) ∅

/-- The children of a switch: its sub-switches, nil if unknown, and its nodes. (For an unknown node
`ToGraph` panics.) -/
def switchVertices (sw : Switch) : GoMap String (Option VertexRef) :=
  sw.nodes.foldl (fun vertices node => vertices.insert (instanceID node) (some (.node node)))
    (sw.switches.foldl (fun vertices subsw => vertices.insert subsw (if subsw ∈ m.switches then
      some (.switch subsw) else none)) ∅)

/-- The children of the hidden root: the switches that are no sub-switches. -/
def rootVertices : GoMap String (Option VertexRef) :=
  (m.switches.keys.filter fun name => ∀ e ∈ m.switches.entries, name ∉ e.2.switches).foldl
    (fun vertices name => vertices.insert name (some (.switch name))) ∅

/-- The vertex behind a pointer. -/
def vertexOf : VertexRef → Vertex (Option VertexRef)
  | .root => { name := "", id := "", vertices := m.rootVertices }
  | .switch name =>
    { name := "", id := name, vertices := ((m.switches.lookup name).map m.switchVertices).getD ∅ }
  | .node hostName =>
    { name := (m.instance2node.lookup (instanceID hostName)).getD "", id := instanceID hostName,
      vertices := ∅ }

/-- The accelerator domains of the nodes. -/
def domainMap : DomainMap :=
  m.nodes.entries.foldl
    (fun domains e => domains.addHostInfo
      { domain := (e.2.annotations.lookup annotationAcceleratorDomain).getD ""
        instanceID := instanceID e.1
        hostName := (m.instance2node.lookup (instanceID e.1)).getD ""
        subDomain := (e.2.annotations.lookup annotationAcceleratorSubDomain).getD "" })
    DomainMap.new

/-- `ToGraph`. -/
def toGraph : Graph VertexRef where
  heap := m.vertexOf
  tiers := some .root
  domains := if m.domainMap.hosts.entries = [] then none else some m.domainMap

end Model

end Topograph.Models
