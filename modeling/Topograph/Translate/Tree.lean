import Topograph.Translate.Units

/-! # Tree topologies (`pkg/translate/tree.go`)

`toTreeTopology` walks the adjacency lists of the topology breadth first and writes the switches it
meets. The children of a vertex are listed in the order of the entries of its map. A line holds its
lists as they are handed to `Compact`; its text has them compacted. -/

namespace Topograph.Translate

open Topograph.Topology

variable {pkg : RegexpPackage} {ρ : Type}

/-- A line of the file: a switch with its sub-switches or with its nodes. -/
structure SwitchLine where
  comment : String
  switchName : String
  switches : List String
  nodes : List String
  deriving DecidableEq, Repr

/-- The `Switches` that a line declares. -/
def SwitchLine.switchesText (srt : Cluset.NumberSort) (line : SwitchLine) : String :=
  Cluset.hostList srt line.switches

/-- The `Nodes` that a line declares. -/
def SwitchLine.nodesText (srt : Cluset.NumberSort) (line : SwitchLine) : String :=
  Cluset.hostList srt line.nodes

/-- The text of a line. -/
def SwitchLine.text (srt : Cluset.NumberSort) (line : SwitchLine) : String :=
  line.comment ++ "SwitchName=" ++ line.switchName ++
    (if line.switches = [] then "" else " Switches=" ++ line.switchesText srt) ++
    (if line.nodes = [] then "" else " Nodes=" ++ line.nodesText srt) ++ "\n"

/-- The name a vertex is written with: its own, or its ID. -/
def displayName {P : Type} (v : Vertex P) : String := if v.name = "" then v.id else v.name

/-- The comment in front of a vertex with a name of its own. -/
def nameComment {P : Type} (v : Vertex P) : String :=
  if v.name = "" then "" else "# " ++ v.name ++ "=" ++ v.id ++ "\n"

/-- The sub-switches of a vertex, as `writeVertex` lists them. -/
def childSwitches (heap : ρ → Vertex (Option ρ)) (v : Vertex (Option ρ)) : List String :=
  (v.vertices.entries.filterMap (·.2)).filterMap fun w =>
    if (heap w).vertices.entries = [] then none else some (displayName (heap w))

/-- The nodes of a vertex, as `writeVertex` lists them. -/
def childNodes (heap : ρ → Vertex (Option ρ)) (v : Vertex (Option ρ)) : List String :=
  (v.vertices.entries.filterMap (·.2)).filterMap fun w =>
    if (heap w).vertices.entries = [] then some (heap w).name else none

/-- `writeVertex`: nothing for the root, one line for the sub-switches and one for the nodes. A
skeleton declares a switch by name alone. -/
def writeVertex (heap : ρ → Vertex (Option ρ)) (skeletonOnly : Bool) (v : Vertex (Option ρ)) :
    List SwitchLine :=
  let line (switches nodes : List String) : SwitchLine :=
    { comment := nameComment v, switchName := displayName v, switches := switches, nodes := nodes }
  if v.id = "" then []
  else if skeletonOnly then if v.vertices.entries = [] then [] else [line [] []]
  else
    (if childSwitches heap v = [] then [] else [line (childSwitches heap v) []]) ++
      (if childNodes heap v = [] then [] else [line [] (childNodes heap v)])

/-- The IDs that `toTreeTopology` queues behind an ID; a skeleton stops at the top-level
switches. -/
def nextIDs (nt : NetworkTopology pkg ρ) (skeletonOnly : Bool) (id : String) : List String :=
  if skeletonOnly ∧ id ≠ "" then [] else (nt.tree.lookup id).getD []

/-- The loop of `toTreeTopology`. -/
def treeLinesLoop (heap : ρ → Vertex (Option ρ)) (nt : NetworkTopology pkg ρ)
    (skeletonOnly : Bool) :
    Nat → List String → List String → Option (Except HTTPError (List SwitchLine))
  | 0, _, _ => none
  | _ + 1, _, [] => some (.ok [])
  | fuel + 1, visited, id :: queue =>
    if id ∈ visited then treeLinesLoop heap nt skeletonOnly fuel visited queue
    else
      match nt.vertices.lookup id with
      | none => some (.error { code := 502, message := "missing vertex with ID " ++ goQuote id })
      | some v =>
        (treeLinesLoop heap nt skeletonOnly fuel (id :: visited)
          (queue ++ nextIDs nt skeletonOnly id)).map fun rest =>
            rest.map (writeVertex heap skeletonOnly (heap v) ++ ·)

/-- `toTreeTopology`. -/
def toTreeTopology (heap : ρ → Vertex (Option ρ)) (nt : NetworkTopology pkg ρ) (skeletonOnly : Bool)
    (fuel : Nat) : Option (Except HTTPError (List SwitchLine)) :=
  treeLinesLoop heap nt skeletonOnly fuel [] [""]

/-- The lines that `toTreeTopology` writes for a whole topology. -/
def Writes (heap : ρ → Vertex (Option ρ)) (nt : NetworkTopology pkg ρ) (lines : List SwitchLine) :
    Prop :=
  ∃ fuel, toTreeTopology heap nt false fuel = some (.ok lines)

end Topograph.Translate
