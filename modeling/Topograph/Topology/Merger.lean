import Topograph.Topology.Vertex

/-! # The merger (`pkg/topology/merger.go`)

Discovery of a fabric may put a vertex below several others. The `Merger` takes the top vertices of
such a graph, walks down tier by tier (`traverse`), and then, from the second lowest tier up, keeps
one vertex of each group with the same children (`mergeLayer`). It never changes a vertex it was
given, so those are given by value; the vertices it makes look their children up in a map, so they
may have nil children. -/

namespace Topograph.Topology

/-- A vertex that the merger made, with everything below it, or a nil pointer. -/
inductive MVertex where
  | nil
  | node (name id : String) (vertices : List (String × MVertex))

namespace MVertex

/-- The ID behind a pointer. -/
def id : MVertex → String
  | nil => ""
  | node _ id _ => id

@[simp] theorem id_node (name id : String) (vertices : List (String × MVertex)) :
    (node name id vertices).id = id := rfl

mutual

/-- A given vertex. -/
def ofVTree : VTree → MVertex
  | .node name id vertices => .node name id (ofVertices vertices)

def ofVertices : List (String × VTree) → List (String × MVertex)
  | [] => []
  | (key, v) :: vertices => (key, ofVTree v) :: ofVertices vertices

end

/-- `HasLeaf n v`: a vertex without children and with the ID `n` is reached from `v`. -/
inductive HasLeaf (n : String) : MVertex → Prop
  | leaf (name : String) : HasLeaf n (.node name n [])
  | child {name id key : String} {vertices : List (String × MVertex)} {v : MVertex}
      (h : (key, v) ∈ vertices)
      (hv : HasLeaf n v) : HasLeaf n (.node name id vertices)

end MVertex

/-- `HasLeaf n v`: a vertex without children and with the ID `n` is reached from `v`. -/
inductive VTree.HasLeaf (n : String) : VTree → Prop
  | leaf (name : String) : HasLeaf n (.node name n [])
  | child {name id key : String} {vertices : List (String × VTree)} {v : VTree}
      (h : (key, v) ∈ vertices)
      (hv : HasLeaf n v) : HasLeaf n (.node name id vertices)

/-! ## Tiers -/

/-- The vertices whose keys are not visited, each key once. -/
def unvisited : List String → List (String × VTree) → List VTree
  | _, [] => []
  | visited, (id, v) :: vertices =>
    if id ∈ visited then unvisited visited vertices else v :: unvisited (id :: visited) vertices

/-- The children of a vertex, sorted by their keys. -/
def sortedChildren (v : VTree) : List (String × VTree) :=
  v.vertices.insertionSort fun a b => a.1 ≤ b.1

/-- The tier below `layer`: the children that are not in `layer` themselves. -/
def nextLayer (layer : List VTree) : List VTree :=
  unvisited (layer.map (·.id)) (layer.flatMap sortedChildren)

/-- `traverse`: the tiers from the lowest up to `layer`. The walk ends at a tier with a childless
vertex, and not at all below an empty one; `none` if the fuel is used up. -/
def traverse : Nat → List VTree → Option (List (List VTree))
  | 0, _ => none
  | fuel + 1, layer =>
    if ∃ v ∈ layer, v.vertices.isEmpty then some [layer]
    else (traverse fuel (nextLayer layer)).map (· ++ [layer])

/-- `Merger`: the tiers from the lowest up, and the vertices by ID. -/
structure Merger where
  tiers : List (List VTree)
  nodes : GoMap String MVertex

/-- The childless vertices of a tier by ID. -/
def leafNodes (layer : List VTree) : GoMap String MVertex :=
  (layer.filter (·.vertices.isEmpty)).foldl (fun nodes v => nodes.insert v.id (.ofVTree v)) ∅

/-- `NewMerger`. -/
def newMerger (fuel : Nat) (top : List VTree) : Option Merger :=
  if top = [] then some { tiers := [], nodes := ∅ }
  else
    (traverse fuel (top.insertionSort fun a b => a.id ≤ b.id)).map fun tiers =>
      { tiers := tiers, nodes := leafNodes (tiers.headD []) }

/-! ## Merging -/

/-- The vertices kept so far by ID, and the ones that stand for others. -/
structure Kept where
  nodes : GoMap String MVertex
  refs : GoMap String MVertex

/-- The ID that stands for `id`. -/
def Kept.ref (kept : Kept) (id : String) : String := (kept.refs.lookup id).elim id (·.id)

/-- The sorted IDs that stand for the children of a vertex. -/
def Kept.signature (kept : Kept) (v : VTree) : List String :=
  (v.vertices.map fun e => kept.ref e.1).dedup.insertionSort (· ≤ ·)

/-- The state of `mergeLayer`: the signatures of the vertices kept from this tier with their IDs,
and these vertices. -/
structure LayerState where
  kept : Kept
  filters : List (List String × String)
  result : List MVertex

/-- One vertex of `mergeLayer`. -/
def mergeVertex (st : LayerState) (v : VTree) : LayerState :=
  let signature := st.kept.signature v
  match st.filters.find? fun f => f.1 = signature with
  | some f =>
    { st with
      kept := { st.kept with
              refs := st.kept.refs.insert v.id ((st.kept.nodes.lookup f.2).getD .nil) } }
  | none =>
    let merged : MVertex :=
      .node v.name v.id (signature.map fun id => (id, (st.kept.nodes.lookup id).getD .nil))
    { kept := { st.kept with nodes := st.kept.nodes.insert v.id merged }
      filters := st.filters ++ [(signature, v.id)]
      result := st.result ++ [merged] }

/-- `mergeLayer`. -/
def mergeLayer (kept : Kept) (layer : List VTree) : LayerState :=
  layer.foldl mergeVertex { kept := kept, filters := [], result := [] }

/-- One turn of `Merge`. -/
def mergeTier (st : Kept × List (List MVertex)) (layer : List VTree) : Kept × List (List MVertex) :=
  ((mergeLayer st.1 layer).kept, st.2 ++ [(mergeLayer st.1 layer).result])

/-- `Merge`: the vertices that are kept at the end, and the merged tiers; the lowest tier stays as
it is. -/
def Merger.merge (m : Merger) : Kept × List (List MVertex) :=
  (m.tiers.drop 1).foldl mergeTier ({ nodes := m.nodes, refs := ∅ },
    (m.tiers.take 1).map (·.map .ofVTree))

/-- `TopTier`. -/
def topTier (tiers : List (List MVertex)) : List MVertex := tiers.getLast?.getD []

/-- The top vertices after `NewMerger` and `Merge`. -/
def mergedTop (fuel : Nat) (top : List VTree) : Option (List MVertex) :=
  (newMerger fuel top).map fun m => topTier m.merge.2

end Topograph.Topology
