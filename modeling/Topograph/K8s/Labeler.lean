import Topograph.K8s.LabelKeys

/-! # Node labels (`pkg/engines/k8s/labeler.go`)

`buildNodeLabels` turns a graph into the labels of its nodes: the accelerator domain and sub-domain
of a host, and the switches above a compute node, closest first. The walk reads the vertices and
never changes them, so a graph is given by value (`VTree`); a loop over a map runs in the order of
its entries, and a vertex that is shared stands below each of its parents, in an order of its own.
The source remembers the values it has hashed; that only saves work. -/

namespace Topograph.K8s

open Topograph.Topology

/-- The labels of a node. -/
abbrev Labels := GoMap String String

/-- `NodeLabelMap`: the labels by node name. -/
abbrev NodeLabelMap := GoMap String Labels

/-- A graph with its vertices by value. -/
structure ValueGraph where
  tiers : Option VTree
  domains : Option DomainMap

/-! ## Label values -/

/-- `fnv.New64a`. -/
def fnv64a (bytes : List UInt8) : Nat :=
  bytes.foldl (fun h b => (h ^^^ b.toNat) * 1099511628211 % 2 ^ 64) 14695981039346656037

/-- `checkLabel`: a value that is too long for a label is hashed. -/
def checkLabel (val : String) : String :=
  if val.utf8ByteSize ≤ 63 then val
  else "x" ++ String.ofList (Nat.toDigits 16 (fnv64a val.toUTF8.data.toList))

/-! ## Accelerator domains -/

/-- The labels of a node with its domain and, if it has one, its sub-domain. -/
def hostLabels (keys : TopologyLabelKeys) (domainName : String) (hostInfo : HostInfo)
    (labels : Labels) : Labels :=
  let labels := labels.insert keys.xclrDomain (checkLabel domainName)
  if hostInfo.subDomain ≠ "" then labels.insert keys.xclrSubDomain (checkLabel hostInfo.subDomain)
    else labels

/-- One host of `getDomainLabels`; a node that has a domain already is an error. -/
def addDomainLabel (keys : TopologyLabelKeys) (domainName : String) (nodeMap : NodeLabelMap)
    (host : Σ _ : String, HostInfo) : Except String NodeLabelMap :=
  if host.1 = "" then .ok nodeMap
  else
    let labels := (nodeMap.lookup host.1).getD ∅
    match labels.lookup keys.xclrDomain with
    | some val =>
      .error ("multiple accelerator labels " ++ val ++ ", " ++ domainName ++ " for node " ++ host.1)
    | none => .ok (nodeMap.insert host.1 (hostLabels keys domainName host.2 labels))

/-- `getDomainLabels`. -/
def getDomainLabels (keys : TopologyLabelKeys) (domains : DomainMap) (nodeMap : NodeLabelMap) :
    Except String NodeLabelMap :=
  domains.hosts.entries.foldlM (fun nodeMap domain =>
    domain.2.entries.foldlM (addDomainLabel keys domain.1) nodeMap) nodeMap

/-! ## Fabric tiers -/

/-- The loop over the switches above a node, from a tier on: it ends at a switch without an ID or a
tier without a key. -/
def tierLabels (keys : TopologyLabelKeys) : Nat → List String → List (String × String)
  | _, [] => []
  | tier, sw :: layers =>
    if sw = "" ∨ keys.fabricKey tier = "" then []
    else (keys.fabricKey tier, checkLabel sw) :: tierLabels keys (tier + 1) layers

/-- What `getTierLabels` does at a compute node; `layers` are its own ID and the switches above
it. -/
def labelNode (keys : TopologyLabelKeys) (name id : String) (nodeMap : NodeLabelMap) :
    List String → Except String NodeLabelMap
  | [] => .ok nodeMap
  | own :: layers =>
    if id ≠ own then .error ("instance ID mismatch: expected " ++ id ++ ", got " ++ own)
    else if name = "" then .ok nodeMap
    else
      .ok (nodeMap.insert name
        ((tierLabels keys 0 layers).foldl (fun labels l => labels.insert l.1 l.2)
          ((nodeMap.lookup name).getD ∅)))

mutual

/-- `getTierLabels`. -/
def getTierLabels (keys : TopologyLabelKeys) :
    VTree → NodeLabelMap → List String → Except String NodeLabelMap
  | .node name id [], nodeMap, layers => labelNode keys name id nodeMap layers
  | .node _ _ (v :: vertices), nodeMap, layers => getChildLabels keys (v :: vertices) nodeMap layers

/-- The loop of `getTierLabels` over the children. -/
def getChildLabels (keys : TopologyLabelKeys) :
    List (String × VTree) → NodeLabelMap → List String → Except String NodeLabelMap
  | [], nodeMap, _ => .ok nodeMap
  | (_, w) :: vertices, nodeMap, layers =>
    match getTierLabels keys w nodeMap (w.id :: layers) with
    | .error err => .error err
    | .ok nodeMap => getChildLabels keys vertices nodeMap layers

end

/-- The layers above the children of a root: its ID, if it has one. -/
def rootLayers (treeRoot : VTree) : List String := if treeRoot.id = "" then [] else [treeRoot.id]

/-- `BuildNodeLabels`. -/
def buildNodeLabels (keys : TopologyLabelKeys) (graph : Option ValueGraph) :
    Except String NodeLabelMap :=
  match graph with
  | none => .ok ∅
  | some graph => do
    let nodeMap ←
      match graph.domains with
      | none => .ok ∅
      | some domains => getDomainLabels keys domains ∅
    match graph.tiers with
    | none => .ok nodeMap
    | some treeRoot => getTierLabels keys treeRoot nodeMap (rootLayers treeRoot)

/-! ## The walk as a list of visits -/

/-- A visit of a compute node: its name, and the switches above it, closest first. -/
structure Visit where
  name : String
  switches : List String
  deriving DecidableEq, Repr

mutual

/-- The visits of a walk, in order; `layers` are the IDs from the vertex up. -/
def visits : VTree → List String → List Visit
  | .node _ _ [], [] => []
  | .node name _ [], _ :: layers => [{ name := name, switches := layers }]
  | .node _ _ (v :: vertices), layers => childVisits (v :: vertices) layers

/-- The visits of the children, with their IDs added to the layers. -/
def childVisits : List (String × VTree) → List String → List Visit
  | [], _ => []
  | (_, w) :: vertices, layers => visits w (w.id :: layers) ++ childVisits vertices layers

end

/-- The visits of a graph. -/
def ValueGraph.visits (graph : ValueGraph) : List Visit :=
  graph.tiers.elim [] fun treeRoot => K8s.visits treeRoot (rootLayers treeRoot)

/-- What a visit writes. -/
def Visit.apply (keys : TopologyLabelKeys) (nodeMap : NodeLabelMap) (v : Visit) : NodeLabelMap :=
  if v.name = "" then nodeMap
  else
    nodeMap.insert v.name
      ((tierLabels keys 0 v.switches).foldl (fun labels l => labels.insert l.1 l.2)
        ((nodeMap.lookup v.name).getD ∅))

mutual

/-- **The walk succeeds and writes its visits.** A vertex is always reached with its own ID in
front. -/
theorem getTierLabels_eq (keys : TopologyLabelKeys) :
    ∀ (v : VTree) (nodeMap : NodeLabelMap) (layers : List String),
    (layers = [] ∨ layers.head? = some v.id) →
      getTierLabels keys v nodeMap layers = .ok ((visits v layers).foldl (Visit.apply keys) nodeMap)
  | .node name id [], nodeMap, [], _ => by
    rw [getTierLabels, labelNode, visits]
    rfl
  | .node name id [], nodeMap, own :: layers, h => by
    obtain rfl : own = id := Option.some.inj (h.resolve_left (by simp))
    rw [getTierLabels, labelNode, visits, if_neg (by simp)]
    simp only [List.foldl_cons, List.foldl_nil, Visit.apply]
    split_ifs <;> rfl
  | .node name id (v :: vertices), nodeMap, layers, h => by
    rw [getTierLabels, visits]
    exact getChildLabels_eq keys (v :: vertices) nodeMap layers

theorem getChildLabels_eq (keys : TopologyLabelKeys) :
    ∀ (vertices : List (String × VTree)) (nodeMap : NodeLabelMap) (layers : List String),
      getChildLabels keys vertices nodeMap layers = .ok
        ((childVisits vertices layers).foldl (Visit.apply keys) nodeMap)
  | [], nodeMap, layers => by
    rw [getChildLabels, childVisits]
    rfl
  | (key, w) :: vertices, nodeMap, layers => by
    rw [getChildLabels, childVisits, getTierLabels_eq keys w nodeMap (w.id :: layers) (Or.inr rfl),
      List.foldl_append]
    exact getChildLabels_eq keys vertices _ layers

end

/-- The labels of the domains alone. -/
def ValueGraph.domainLabels (keys : TopologyLabelKeys) (graph : ValueGraph) :
    Except String NodeLabelMap :=
  graph.domains.elim (.ok ∅) fun domains => getDomainLabels keys domains ∅

/-- **`BuildNodeLabels`**: the labels of the domains, and then those of the visits. -/
theorem buildNodeLabels_eq (keys : TopologyLabelKeys) (graph : ValueGraph) :
    buildNodeLabels keys (some graph) =
      (graph.domainLabels keys).map fun nodeMap => graph.visits.foldl
        (Visit.apply keys) nodeMap := by
  have hroot : ∀ treeRoot : VTree, rootLayers treeRoot = [] ∨
      (rootLayers treeRoot).head? = some treeRoot.id := by
    intro treeRoot
    rw [rootLayers]
    split_ifs
    · exact Or.inl rfl
    · exact Or.inr rfl
  obtain ⟨tiers, domains⟩ := graph
  have htiers : ∀ nodeMap : NodeLabelMap,
      (match tiers with
        | none => Except.ok nodeMap
        | some treeRoot => getTierLabels keys treeRoot nodeMap (rootLayers treeRoot)) =
      .ok ((ValueGraph.visits ⟨tiers, domains⟩).foldl (Visit.apply keys) nodeMap) := by
    intro nodeMap
    cases tiers with
    | none => rfl
    | some treeRoot => exact getTierLabels_eq keys treeRoot nodeMap _ (hroot treeRoot)
  rw [buildNodeLabels, ValueGraph.domainLabels]
  cases domains with
  | none => exact htiers ∅
  | some domains =>
    cases hdom : getDomainLabels keys domains ∅ with
    | error err =>
      simp only [hdom, Option.elim_some]
      rfl
    | ok nodeMap =>
      simp only [hdom, Option.elim_some]
      exact htiers nodeMap

end Topograph.K8s
