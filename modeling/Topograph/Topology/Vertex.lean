import Topograph.Lib.GoMap

/-! # Vertices of the tier graph (`pkg/topology/topology.go`)

A `Vertex` of the source is a name, an ID and a map of child pointers. It appears here twice:

* `Vertex P` keeps the pointers: its children are values of a pointer type `P`, to be read in a
  heap `ρ → Vertex P`. Code that rewrites links after they are shared is modelled on this record.
* `VTree` is a vertex as a value, for code that links each vertex once and never changes it. -/

namespace Topograph.Topology

/-- The ID of the bucket that holds requested nodes without topology. -/
def noTopology : String := "no-topology"

/-- A compute node or a network switch; `vertices` are the connected nodes or switches. -/
structure Vertex (P : Type) where
  name : String
  id : String
  vertices : GoMap String P

/-- A vertex with everything below it, as a value. -/
inductive VTree where
  | node (name id : String) (vertices : List (String × VTree))

namespace VTree

/-- The compute node name (or the display name of a switch). -/
def name : VTree → String
  | node name _ _ => name

/-- The provider's ID of the vertex. -/
def id : VTree → String
  | node _ id _ => id

/-- The connected vertices, keyed by their IDs. -/
def vertices : VTree → List (String × VTree)
  | node _ _ vertices => vertices

section

variable (name id : String) (vs : List (String × VTree))

@[simp] theorem name_node : (node name id vs).name = name := rfl

@[simp] theorem id_node : (node name id vs).id = id := rfl

@[simp] theorem vertices_node : (node name id vs).vertices = vs := rfl

end

/-- `Below u t`: the vertex `u` is a proper descendant of `t`. -/
inductive Below : VTree → VTree → Prop
  | child {u t : VTree} {key : String} (h : (key, u) ∈ t.vertices) : Below u t
  | step {u w t : VTree} {key : String} (h : (key, w) ∈ t.vertices) (hb : Below u w) : Below u t

/-- A vertex is a switch when something is connected below it. -/
def IsSwitch (t : VTree) : Prop := t.vertices ≠ []

end VTree

end Topograph.Topology
