import Topograph.Topology.Vertex

/-! # The InfiniBand tree builder (`pkg/ib/ib.go`)

`buildTree` turns the parsed switches of a fabric into a forest. The first pass finds the switches
that hold a requested node; each further pass puts a new level above the last one, from the switches
that are not placed yet and have a link to it. The last level that is not empty is returned.

Both loops of the source visit every switch once and touch only that switch, so each is one pass
over the switch map (`GoMap.filterMap`). The source also clears the links of a switch it has placed;
the test on `vertices` already keeps such a switch out of every later level, so the model leaves the
links alone. -/

namespace Topograph.Ib

open Topograph.Topology

/-- A switch record of `ibnetdiscover`: its links by the ID of the far end, and the node names of
the HCAs found on it. -/
structure Switch where
  id : String
  name : String
  conn : GoMap String String
  nodes : GoMap String String

/-- One link of the first pass: a link to an HCA leaves `conn`, and its node is recorded when it is
one of the cluster's. -/
def attachLink (hca : GoMap String String) (nodesInCluster : GoMap String Bool) (sw : Switch)
    (conID : String) : Switch :=
  match hca.lookup conID with
  | some nodeName =>
    { sw with
      nodes := if nodeName ≠ "" ∧ nodeName ∈ nodesInCluster then sw.nodes.insert conID nodeName
        else sw.nodes
      conn := sw.conn.erase conID }
  | none => sw

/-- The first pass over one switch: every link is inspected once. -/
def attachHCAs (hca : GoMap String String) (nodesInCluster : GoMap String Bool) (sw : Switch) :
    Switch :=
  sw.conn.keys.foldl (attachLink hca nodesInCluster) sw

/-- The vertex of a switch that holds requested nodes. -/
def leafVertex (swID : String) (sw : Switch) : VTree :=
  let vertices : GoMap String VTree :=
    sw.nodes.values.foldl (fun vs nodeName => vs.insert nodeName (.node nodeName nodeName [])) ∅
  .node "" swID (vertices.entries.map fun e => (e.1, e.2))

/-- The lowest level: the switches that hold requested nodes. -/
def leafLevel (switches : GoMap String Switch) : GoMap String VTree :=
  switches.filterMap fun swID sw =>
    if sw.nodes.entries = [] then none else some (leafVertex swID sw)

/-- The vertices of the current level that a switch has a link to. -/
def childrenOf (level : GoMap String VTree) (sw : Switch) : GoMap String VTree :=
  sw.conn.filterMap fun conID _ => level.lookup conID

/-- The level above `level`: the unplaced switches with a link into it. -/
def upperLevel (switches : GoMap String Switch) (vertices level : GoMap String VTree) :
    GoMap String VTree :=
  switches.filterMap fun swID sw =>
    if swID ∈ vertices then none
    else if (childrenOf level sw).entries = [] then none
    else some (.node "" swID ((childrenOf level sw).entries.map fun e => (e.1, e.2)))

/-- The level loop. Every round but the last places a switch, so `fuel` is the number of
switches. -/
def buildLevels (switches : GoMap String Switch) :
    Nat → GoMap String VTree → GoMap String VTree → GoMap String VTree
  | 0, _, level => level
  | fuel + 1, vertices, level =>
    if (upperLevel switches vertices level).entries = [] then level
    else buildLevels switches fuel (upperLevel switches vertices level ∪ vertices)
      (upperLevel switches vertices level)

/-- **The tree builder**: the top level of the forest over the requested nodes. -/
def buildTree (switches : GoMap String Switch) (hca : GoMap String String)
    (nodesInCluster : GoMap String Bool) : GoMap String VTree :=
  let switches := switches.filterMap fun _ sw => some (attachHCAs hca nodesInCluster sw)
  buildLevels switches switches.entries.length (leafLevel switches) (leafLevel switches)

end Topograph.Ib
