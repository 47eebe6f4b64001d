import Topograph.K8s.Labeler
import Mathlib.Data.Finset.Basic

/-! # Instance records of the graph engine (`pkg/engines/graph/engine.go`)

`deriveInstances` makes a record for each requested compute node: first for the leaves of the tier
tree, then for the hosts of the accelerator domains. `fillInstance` completes the records that a
provider attached to the graph. The children of a vertex are visited in the order of their keys; the
walk is shown to be a fold over the leaves in that order (`walk_eq_foldl`). -/

namespace Topograph.GraphEngine

open Topograph.Topology
open Topograph.K8s (ValueGraph keyTopologyXclrDomain keyTopologyXclrSubDomain)

/-- `topology.Instance`; a nil label map is empty. -/
structure Instance where
  id : String
  networkLayers : List String
  labels : GoMap String String

/-- A label, or the empty string. -/
def label (labels : GoMap String String) (key : String) : String := (labels.lookup key).getD ""

/-- Whether the node was requested; without a set of requested names every node is. -/
def wanted (requested : Option (Finset String)) (id name : String) : Bool :=
  requested.all fun r => decide (id ∈ r) || decide (name ∈ r)

/-! ## The walk -/

/-- The variables of `deriveInstances`. -/
structure DeriveState where
  instances : GoMap String Instance
  nameToID : GoMap String String

/-- The instance ID of a leaf: its ID, or its name if it has none. -/
def instanceID (v : VTree) : String := if v.id = "" then v.name else v.id

/-- The display name of a switch. -/
def layerName (v : VTree) : String := if v.name = "" then v.id else v.name

/-- The path below a switch: the bucket of nodes without topology is not part of it. -/
def nextPath (path : List String) (v : VTree) : List String :=
  if v.id ≠ noTopology then path ++ [layerName v] else path

/-- The visit of a leaf. -/
def addLeaf (requested : Option (Finset String)) (path : List String) (child : VTree)
    (st : DeriveState) : DeriveState :=
  let id := instanceID child
  if id = "" then st
  else if id ∈ st.instances then st
  else if ¬ wanted requested id child.name then st
  else
    { instances := st.instances.insert id { id := id, networkLayers := path.reverse, labels := ∅ }
      nameToID :=
        if child.name ≠ "" ∧ child.name ≠ id ∧ child.name ∉ st.nameToID then
          st.nameToID.insert child.name id else st.nameToID }

mutual

/-- `walk`. -/
def walk (requested : Option (Finset String)) : VTree → List String → DeriveState → DeriveState
  | .node _ _ vertices, path, st =>
    ((visits requested vertices).insertionSort fun a b => a.1 ≤ b.1).foldl
      (fun st visit => visit.2 path st) st

/-- What `walk` does at each child. -/
def visits (requested : Option (Finset String)) :
    List (String × VTree) → List (String × (List String → DeriveState → DeriveState))
  | [] => []
  | (key, child) :: vertices =>
    (key, fun path st =>
      if child.vertices.isEmpty then addLeaf requested path child st
        else walk requested child (nextPath path child) st) ::
        visits requested vertices

end

/-! ## The domains -/

/-- The hosts of the domains with the names of their domains, in the order of the loops. -/
def hostEntries (domains : DomainMap) : List (String × HostInfo) :=
  (domains.hosts.keys.insertionSort (· ≤ ·)).flatMap fun domain =>
    ((domains.hosts.lookup domain).elim [] fun hosts =>
      (hosts.keys.insertionSort (· ≤ ·)).filterMap hosts.lookup).map fun host => (domain, host)

/-- The ID a host is looked up under. -/
def hostID (st : DeriveState) (host : HostInfo) : String :=
  let id :=
    if host.instanceID ∈ st.instances then host.instanceID
    else
      match st.nameToID.lookup host.hostName with
      | some mapped => mapped
      | none => if host.hostName ∈ st.instances then host.hostName else host.instanceID
  if id = "" then host.hostName else id

/-- The labels of a record once a host of a domain has been found for it. -/
def setLabels (labels : GoMap String String) (domain : String) (host : HostInfo) :
    GoMap String String :=
  let labels := labels.insert keyTopologyXclrDomain domain
  if host.subDomain ≠ "" then labels.insert keyTopologyXclrSubDomain host.subDomain else labels

/-- The visit of a host. -/
def addHost (requested : Option (Finset String)) (st : DeriveState) (entry : String × HostInfo) :
    DeriveState :=
  let id := hostID st entry.2
  if id = "" then st
  else if id ∉ st.instances ∧ ¬ wanted requested id entry.2.hostName then st
  else
    let inst := (st.instances.lookup id).getD { id := id, networkLayers := [], labels := ∅ }
    if label inst.labels keyTopologyXclrDomain ≠ "" then st
    else { st with instances := st.instances.insert id { inst with
            labels := setLabels inst.labels entry.1 entry.2 } }

/-- `deriveInstances`. -/
def deriveInstances (graph : ValueGraph) (requested : Option (Finset String)) :
    GoMap String Instance :=
  let st := graph.tiers.elim { instances := ∅, nameToID := ∅ } fun root => walk requested root []
    { instances := ∅, nameToID := ∅ }
  ((graph.domains.elim [] hostEntries).foldl (addHost requested) st).instances

/-! ## Attached records -/

/-- One turn of the loop of `fillInstance` over the two labels. -/
def fillLabel (derived : Instance) (inst : Instance) (key : String) : Instance :=
  let val := label derived.labels key
  if val = "" ∨ label inst.labels key ≠ "" then inst
  else if key = keyTopologyXclrSubDomain ∧
      label inst.labels keyTopologyXclrDomain ≠ label derived.labels keyTopologyXclrDomain then inst
  else { inst with labels := inst.labels.insert key val }

/-- `fillInstance`. -/
def fillInstance (inst derived : Instance) : Instance :=
  [keyTopologyXclrDomain, keyTopologyXclrSubDomain].foldl (fillLabel derived)
    (if inst.networkLayers = [] ∧ derived.networkLayers ≠ [] then
      { inst with networkLayers := derived.networkLayers } else inst)

/-- `graphInstances`; `attached` are the records of the provider. -/
def graphInstances (graph : Option ValueGraph) (attached : GoMap String Instance)
    (requested : Option (Finset String)) : GoMap String Instance :=
  match graph with
  | none => ∅
  | some graph =>
    let derived := deriveInstances graph requested
    if attached.entries.isEmpty then derived
    else attached.filterMap fun id inst =>
      some (fillInstance inst ((derived.lookup id).getD
        { id := "", networkLayers := [], labels := ∅ }))

/-! ## The walk as a fold -/

/-- A leaf of a tree, with the vertices above it from the child of the root on. -/
structure Leaf where
  ancestors : List VTree
  vertex : VTree

mutual

/-- The leaves below a vertex, depth first and in the order of the keys. -/
def leaves : VTree → List Leaf
  | .node _ _ vertices => ((leavesBelow vertices).insertionSort fun a b => a.1 ≤ b.1).flatMap (·.2)

/-- The leaves below each vertex of a list, with the vertices above them. -/
def leavesBelow : List (String × VTree) → List (String × List Leaf)
  | [] => []
  | (key, child) :: vertices =>
    (key, if child.vertices.isEmpty then [{ ancestors := [], vertex := child }]
      else (leaves child).map fun e => { e with ancestors := child :: e.ancestors }) ::
        leavesBelow vertices

end

/-- The network layers of a leaf: the display names of the switches above it, the closest first,
without the bucket of nodes without topology. -/
def Leaf.layers (e : Leaf) : List String :=
  ((e.ancestors.filter fun v => v.id ≠ noTopology).map layerName).reverse

/-- The visit of a leaf, from a path to the root of its tree. -/
def visitLeaf (requested : Option (Finset String)) (path : List String) (st : DeriveState)
    (e : Leaf) : DeriveState :=
  addLeaf requested (e.ancestors.foldl nextPath path) e.vertex st

/-- The path of a leaf: the layers above it but the artificial root. -/
theorem foldl_nextPath (ancestors : List VTree) (path : List String) :
    ancestors.foldl nextPath path = path ++ (ancestors.filter fun v => v.id ≠ noTopology).map
      layerName := by
  induction ancestors generalizing path with
  | nil => simp
  | cons v ancestors ih =>
    rw [List.foldl_cons, ih, nextPath]
    by_cases hv : v.id = noTopology <;> simp [hv]

mutual

/-- **The walk visits the leaves** depth first. -/
theorem walk_eq_foldl (requested : Option (Finset String)) :
    ∀ (v : VTree) (path : List String) (st : DeriveState),
    walk requested v path st = (leaves v).foldl (visitLeaf requested path) st
  | .node _ _ vertices, path, st => by
    have hsort := List.map_insertionSort
      (fun a b : String × List Leaf => a.1 ≤ b.1) (fun a b => a.1 ≤ b.1)
      (fun e : String × List Leaf => (e.1, fun path st => e.2.foldl (visitLeaf requested path) st))
      (leavesBelow vertices)
      fun _ _ _ _ => Iff.rfl
    rw [walk, leaves, visits_eq requested vertices, ← hsort, List.foldl_map, List.foldl_flatMap]

/-- The walk visits the leaves below each vertex. -/
theorem visits_eq (requested : Option (Finset String)) : ∀ vertices : List (String × VTree),
    visits requested vertices =
      (leavesBelow vertices).map fun e =>
        (e.1, fun path st => e.2.foldl (visitLeaf requested path) st)
  | [] => by rw [visits, leavesBelow, List.map_nil]
  | (key, child) :: vertices => by
    rw [visits, leavesBelow, List.map_cons, visits_eq requested vertices]
    congr 2
    funext path st
    by_cases hleaf : child.vertices.isEmpty
    · simp only [if_pos hleaf, List.foldl_cons, List.foldl_nil, visitLeaf]
    · rw [if_neg hleaf, if_neg hleaf, walk_eq_foldl requested child, List.foldl_map]
      rfl

end

end Topograph.GraphEngine
