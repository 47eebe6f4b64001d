import Topograph.Topology.Graph

/-! # Building the tier graph (`pkg/topology/graph.go`)

`toGraph` turns the records of a provider into a graph. A switch is a vertex for every tier index at
which its ID occurs; a record links its own vertices from the compute node up, and the vertex it
ends with is merged into an earlier root of the same ID. The vertices live in a heap and are shared,
so a link written for one record is seen by all others.

A loop over a Go map runs in any order, and an entry added during the loop may be seen or not.
`mergeVertices` therefore takes the order as a parameter (`RangeOrder`); it carries `fuel`, since
merged vertices can form a cycle. -/

namespace Topograph.Topology

/-! ## Records -/

/-- `FabricTier`: a switch above a compute node, with an optional display name. -/
structure FabricTier where
  id : String
  name : String
  deriving DecidableEq, Repr

/-- `InstanceTopology`: the place of a compute instance. The tiers are stored closest first. -/
structure InstanceTopology where
  instanceID : String
  fabricTiers : List FabricTier
  xclrDomainID : String
  xclrSubDomainID : String
  deriving DecidableEq, Repr

/-- `ClusterTopology`: its records. -/
abbrev ClusterTopology := List InstanceTopology

/-- The IDs of the tiers, closest first. -/
def InstanceTopology.tierIDs (inst : InstanceTopology) : List String := inst.fabricTiers.map (·.id)

/-- `trimmedTiers`: the tiers without the topmost ones. -/
def trimmedTiers (inst : InstanceTopology) (trimTiers : Int) : List FabricTier :=
  let trim := min (max 0 trimTiers).toNat inst.fabricTiers.length
  inst.fabricTiers.take (inst.fabricTiers.length - trim)

/-! ## Normalized names -/

/-- The ID at a tier index, empty above the last tier. -/
def tierID (inst : InstanceTopology) (level : Nat) : String :=
  ((inst.fabricTiers[level]?).map (·.id)).getD ""

/-- The comparison of `Normalize`, from the tier index below `level` down. -/
def hierarchyLess (a b : InstanceTopology) : Nat → Bool
  | 0 => a.instanceID < b.instanceID
  | level + 1 =>
    if tierID a level ≠ tierID b level then tierID a level < tierID b level
      else hierarchyLess a b level

/-- The order of `Normalize`: by the tiers from the top down, then by instance. -/
def instanceLess (a b : InstanceTopology) : Bool :=
  hierarchyLess a b (max a.fabricTiers.length b.fabricTiers.length)

/-- The variables of the loop that names the switches. -/
structure NameState where
  levelCounts : GoMap Nat Nat
  switches : GoMap (Nat × String) String

/-- The name of a tier: the one its ID has at this index, or the next one. -/
def nameTier (st : NameState) (level : Nat) (tier : FabricTier) : NameState × FabricTier :=
  if tier.id = "" then (st, tier)
  else
    match st.switches.lookup (level, tier.id) with
    | some name => (st, { tier with name := name })
    | none =>
      let count := (st.levelCounts.lookup level).getD 0 + 1
      let name := "switch." ++ toString (level + 1) ++ "." ++ toString count
      ({ levelCounts := st.levelCounts.insert level count
         switches := st.switches.insert (level, tier.id) name }, { tier with name := name })

/-- The tiers of one record, from a tier index up. -/
def nameTiers (st : NameState) (level : Nat) : List FabricTier → NameState × List FabricTier
  | [] => (st, [])
  | tier :: tiers =>
    let (st, tier) := nameTier st level tier
    let (st, tiers) := nameTiers st (level + 1) tiers
    (st, tier :: tiers)

/-- The loop of `Normalize` over the sorted records. -/
def nameInstances (st : NameState) : ClusterTopology → ClusterTopology
  | [] => []
  | inst :: rest =>
    let (st, tiers) := nameTiers st 0 inst.fabricTiers
    { inst with fabricTiers := tiers } :: nameInstances st rest

/-- `Normalize`: the records in the order of the hierarchy, with numbered switch names. -/
def ClusterTopology.normalize (c : ClusterTopology) : ClusterTopology :=
  nameInstances { levelCounts := ∅, switches := ∅ } (c.insertionSort fun a b =>
    instanceLess b a = false)

/-! ## The heap -/

/-- The vertices that `ToGraph` allocates: the root, the switch for nodes without topology and those
nodes, the compute node of a record, and a switch for every tier index and ID (`tierKey`). -/
inductive Ref where
  | root
  | bucket
  | missing (id : String)
  | inst (id : String)
  | sw (level : Nat) (id : String)
  deriving DecidableEq, Repr

/-- The ID that a vertex is allocated with. -/
def Ref.id : Ref → String
  | root => ""
  | bucket => noTopology
  | missing id => id
  | inst id => id
  | sw _ id => id

/-- The vertices by reference. -/
abbrev Heap := Ref → Vertex Ref

/-- The heap before anything is allocated. -/
def Heap.blank : Heap := fun r => { name := "", id := r.id, vertices := ∅ }

/-- Link a child below a vertex. -/
def Heap.link (heap : Heap) (v : Ref) (key : String) (child : Ref) : Heap :=
  Function.update heap v { heap v with vertices := (heap v).vertices.insert key child }

/-- The orders in which a loop over the children of `src` can run while `dst` is merged: all keys
the map has, and some it may get during the loop. -/
structure RangeOrder where
  keys : Heap → Ref → Ref → List String
  nodup : ∀ heap dst src, (keys heap dst src).Nodup
  covers : ∀ heap dst src, ∀ key ∈ (heap src).vertices, key ∈ keys heap dst src

/-- The order of the entries of the map. -/
def RangeOrder.entries : RangeOrder where
  keys heap _ src := (heap src).vertices.keys
  nodup heap _ src := (heap src).vertices.nodupKeys
  covers _ _ _ _ hkey := AList.mem_keys.mp hkey

/-- The first statement of `mergeVertices`: a vertex without a name takes the other one's. -/
def Heap.takeName (heap : Heap) (dst src : Ref) : Heap :=
  if (heap dst).name = "" then Function.update heap dst { heap dst with name := (heap src).name }
    else heap

/-- `mergeVertices`: the children of `src` are added to `dst`; where `dst` has the key already, the
two children are merged. A key that the map of `src` does not have when its turn comes is passed
over. -/
def mergeVertices (order : RangeOrder) : Nat → Heap → Ref → Ref → Option Heap
  | 0, _, _, _ => none
  | fuel + 1, heap, dst, src =>
    if dst = src then some heap
    else
      (order.keys (heap.takeName dst src) dst src).foldlM (fun heap key =>
        match (heap src).vertices.lookup key with
        | none => some heap
        | some child =>
          match (heap dst).vertices.lookup key with
          | some existing => mergeVertices order fuel heap existing child
          | none => some (heap.link dst key child))
        (heap.takeName dst src)

/-! ## The records -/

/-- The variables of the loop over the tiers of a record; `top` is the vertex linked last. -/
structure LinkState where
  heap : Heap
  nodes : List (Nat × String)
  top : Ref

/-- One turn of the loop over the tiers: the switch of this tier index and ID is allocated on first
use, and the vertex linked last is put below it. A tier without an ID is skipped. -/
def linkTier (st : LinkState) (tier : FabricTier × Nat) : LinkState :=
  if tier.1.id = "" then st
  else
    let sw := Ref.sw tier.2 tier.1.id
    let known := (tier.2, tier.1.id) ∈ st.nodes
    let heap :=
      if known then st.heap
      else Function.update st.heap sw { name := tier.1.name, id := tier.1.id, vertices := ∅ }
    { heap := heap.link sw (heap st.top).id st.top
      nodes := if known then st.nodes else (tier.2, tier.1.id) :: st.nodes
      top := sw }

/-- The variables of `ToGraph`. -/
structure BuildState where
  heap : Heap
  nodes : List (Nat × String)
  forest : GoMap String Ref
  i2n : GoMap String String
  domainMap : DomainMap

/-- The tiers of a record linked above its compute node. -/
def linkInstance (st : BuildState) (inst : InstanceTopology) (nodeName : String) (trimTiers : Int) :
    LinkState :=
  (trimmedTiers inst trimTiers).zipIdx.foldl linkTier
    { heap := Function.update st.heap (.inst inst.instanceID)
        { name := nodeName, id := inst.instanceID, vertices := ∅ }
      nodes := st.nodes
      top := .inst inst.instanceID }

/-- The accelerator domains with a record added. -/
def addDomain (domainMap : DomainMap) (inst : InstanceTopology) (nodeName : String) : DomainMap :=
  if inst.xclrDomainID = "" then domainMap
  else
    domainMap.addHostInfo
      { domain := inst.xclrDomainID, subDomain := inst.xclrSubDomainID,
        instanceID := inst.instanceID
        hostName := nodeName }

/-- One turn of the loop over the records: an instance that is not requested, or not any more, is
skipped. -/
def addInstance (order : RangeOrder) (fuel : Nat) (trimTiers : Int) (st : BuildState)
    (inst : InstanceTopology) : Option BuildState :=
  match st.i2n.lookup inst.instanceID with
  | none => some st
  | some nodeName =>
    let linked := linkInstance st inst nodeName trimTiers
    let st' : BuildState :=
      { heap := linked.heap, nodes := linked.nodes, forest := st.forest
        i2n := st.i2n.erase inst.instanceID, domainMap := addDomain st.domainMap inst nodeName }
    match st.forest.lookup (linked.heap linked.top).id with
    | some first =>
      (mergeVertices order fuel linked.heap first linked.top).map fun heap =>
        { st' with heap := heap }
    | none => some { st' with forest := st.forest.insert (linked.heap linked.top).id linked.top }

/-- `maps.Copy` of the requested instances of all regions. -/
def requested (cis : List (GoMap String String)) : GoMap String String :=
  cis.foldl (fun i2n ci => ci.entries.foldl (fun i2n e => i2n.insert e.1 e.2) i2n) ∅

/-- The instances without a record, below a switch of their own. -/
def addMissing (st : BuildState) : BuildState :=
  if st.i2n.entries = [] then st
  else
    { st with
      heap := fun r =>
        match r with
        | .bucket =>
          { name := "", id := noTopology,
            vertices := st.i2n.filterMap fun id _ => some (.missing id) }
        | .missing id => { name := (st.i2n.lookup id).getD "", id := id, vertices := ∅ }
        | r => st.heap r
      forest := st.forest.insert noTopology .bucket }

/-- The graph of the built vertices: the root holds the forest. -/
def BuildState.graph (st : BuildState) : Graph Ref where
  heap r :=
    let v := if r = .root then { name := "", id := "", vertices := st.forest } else st.heap r
    { name := v.name, id := v.id,
      vertices := v.vertices.filterMap fun _ child => some (some child) }
  tiers := some .root
  domains := if st.domainMap.hosts.entries = [] then none else some st.domainMap

/-- The records in the order in which `ToGraph` takes them. -/
def ClusterTopology.records (c : ClusterTopology) (normalize : Bool) : ClusterTopology :=
  if normalize then c.normalize else c

/-- `ToGraph`. -/
def toGraph (order : RangeOrder) (fuel : Nat) (c : ClusterTopology)
    (cis : List (GoMap String String)) (trimTiers : Int) (normalize : Bool) : Option (Graph Ref) :=
  ((c.records normalize).foldlM (addInstance order fuel trimTiers)
    { heap := .blank, nodes := [], forest := ∅, i2n := requested cis, domainMap := .new }).map
        fun st =>
      (addMissing st).graph

end Topograph.Topology
