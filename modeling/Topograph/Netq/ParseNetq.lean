import Topograph.Topology.Merger

/-! # The NetQ topology graph (`pkg/providers/netq/netq.go`)

`parseNetq` reads the nodes and links of a NetQ response. Hosts are the nodes of tier -1; the
requested ones are the first layer. A link goes up from its lower to its higher tier. Round by round
the loop takes the switches right above the layer out of `nodeMap`, and they become the next layer;
the last layer is merged and put below the root. The decoded response is the input; the source's map
of names is only written and left out. -/

namespace Topograph.Netq

open Topograph.Topology

/-- `CNode`. -/
structure CNode where
  id : String
  name : String
  tier : Int
  deriving DecidableEq, Repr

/-- `NetqResponse`: the IDs of the links, and the lists of compounded nodes. -/
structure NetqResponse where
  links : List String
  nodes : List (List CNode)

/-! ## Nodes -/

/-- The maps that the nodes are split into. -/
structure Nodes where
  layer : GoMap String VTree
  nodeMap : GoMap String VTree
  tierMap : GoMap String Int

/-- One compounded node: a requested host, another host, or a switch. -/
def addNode (inputNodes : GoMap String Bool) (st : Nodes) (cnode : CNode) : Nodes where
  layer :=
    if cnode.tier = -1 ∧ (inputNodes.lookup cnode.name).getD false then
      st.layer.insert cnode.id (.node cnode.name cnode.id [])
    else st.layer
  nodeMap := if cnode.tier = -1 then st.nodeMap
    else st.nodeMap.insert cnode.id (.node cnode.name cnode.id [])
  tierMap := st.tierMap.insert cnode.id cnode.tier

/-- The nodes of a response. -/
def splitNodes (inputNodes : GoMap String Bool) (resp : NetqResponse) : Nodes :=
  resp.nodes.flatten.foldl (addNode inputNodes) { layer := ∅, nodeMap := ∅, tierMap := ∅ }

/-! ## Links -/

/-- `strings.Split(s, "-*-")`; `part` are the last characters read, in reverse. -/
def splitLink : List Char → List Char → List String
  | part, '-' :: '*' :: '-' :: s => String.ofList part.reverse :: splitLink [] s
  | part, c :: s => splitLink (c :: part) s
  | part, [] => [String.ofList part.reverse]

/-- The tier of an ID; one that is not known counts as 0. -/
def tierOf (tierMap : GoMap String Int) (id : String) : Int := (tierMap.lookup id).getD 0

/-- The lower and the higher end of a link, unless it is invalid. -/
def linkEnds (tierMap : GoMap String Int) (link : String) : Option (String × String) :=
  match splitLink [] link.toList with
  | [a, b] =>
    if tierOf tierMap a = tierOf tierMap b then none
    else if tierOf tierMap a > tierOf tierMap b then some (b, a)
    else some (a, b)
  | _ => none

/-- One link of `linksUp`. -/
def addLink (tierMap : GoMap String Int) (linksUp : GoMap String (GoMap String Bool))
    (link : String) : GoMap String (GoMap String Bool) :=
  match linkEnds tierMap link with
  | none => linksUp
  | some (low, high) => linksUp.insert low (((linksUp.lookup low).getD ∅).insert high true)

/-- `linksUp`: the upper ends of the links by their lower ends. -/
def upLinks (tierMap : GoMap String Int) (resp : NetqResponse) : GoMap String (GoMap String Bool) :=
  resp.links.foldl (addLink tierMap) ∅

/-! ## Layers -/

/-- `v.Vertices[id] = w`. -/
def setVertex (v : VTree) (id : String) (w : VTree) : VTree :=
  .node v.name v.id (v.vertices.filter (fun e => e.1 ≠ id) ++ [(id, w)])

/-- The switches that are not placed, and the next layer. -/
structure Round where
  nodeMap : GoMap String VTree
  nextLayer : GoMap String VTree

/-- One link from the layer up: `w` with the ID `id` goes below the switch `high`. -/
def attach (st : Round) (link : (String × VTree) × String) : Round :=
  match st.nextLayer.lookup link.2 with
  | some v => { st with nextLayer := st.nextLayer.insert link.2 (setVertex v link.1.1 link.1.2) }
  | none =>
    match st.nodeMap.lookup link.2 with
    | none => st
    | some v =>
      { nodeMap := st.nodeMap.erase link.2
        nextLayer := st.nextLayer.insert link.2
          (setVertex (.node v.name v.id []) link.1.1 link.1.2) }

/-- The links from a layer up, in the order of the loops. -/
def layerLinks (linksUp : GoMap String (GoMap String Bool)) (layer : GoMap String VTree) :
    List ((String × VTree) × String) :=
  layer.entries.flatMap fun e => ((linksUp.lookup e.1).getD ∅).keys.map fun high =>
    ((e.1, e.2), high)

/-- One round of the loop. -/
def nextRound (linksUp : GoMap String (GoMap String Bool)) (nodeMap layer : GoMap String VTree) :
    Round :=
  (layerLinks linksUp layer).foldl attach { nodeMap := nodeMap, nextLayer := ∅ }

/-- The loop. Every round but the last one takes a switch out of `nodeMap`, so `fuel` is the number
of switches. -/
def topLayer (linksUp : GoMap String (GoMap String Bool)) :
    Nat → GoMap String VTree → GoMap String VTree → GoMap String VTree
  | 0, _, layer => layer
  | fuel + 1, nodeMap, layer =>
    if nodeMap.entries.length = (nextRound linksUp nodeMap layer).nodeMap.entries.length then layer
    else topLayer linksUp fuel (nextRound linksUp nodeMap layer).nodeMap
      (nextRound linksUp nodeMap layer).nextLayer

/-- The last layer of a response. -/
def netqLayer (inputNodes : GoMap String Bool) (resp : NetqResponse) : GoMap String VTree :=
  let st := splitNodes inputNodes resp
  topLayer (upLinks st.tierMap resp) st.nodeMap.entries.length st.nodeMap st.layer

/-- `parseNetq`, behind the decoder: the vertices below the root. The merger may run out of fuel. -/
def parseNetq (fuel : Nat) (treeRoot : GoMap String MVertex) (resp : List NetqResponse)
    (inputNodes : GoMap String Bool) : Option (Except String (GoMap String MVertex)) :=
  match resp with
  | [resp] =>
    (mergedTop fuel (netqLayer inputNodes resp).values).map fun top =>
      .ok (top.foldl (fun vertices node => vertices.insert node.id node) treeRoot)
  | _ => some (.error "invalid NetQ response: multiple entries")

end Topograph.Netq
