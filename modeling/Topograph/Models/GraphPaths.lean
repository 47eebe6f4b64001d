import Topograph.Models.Derived
import Topograph.Translate.Treeness

/-! # Graphs of derived models

The graph of a derived model is a tree if the names of the switches are not empty and are no
instance IDs: the ways down are the chains of parents read from their ends (`Derived.place_of_walk`,
`Derived.walk_of_chain`). Hence `initTree` accepts it, and the vertices above a node are the layers
that `derive` has recorded (`toGraph_derived`). -/

namespace Topograph

namespace Models

open Topograph.Topology

theorem instanceID_injective : Function.Injective instanceID := by
  intro a b h
  have htext := congrArg String.toList h
  rw [instanceID, instanceID, String.toList_append, String.toList_append,
    List.append_cancel_left_eq] at htext
  exact String.toList_inj.mp htext

theorem instanceID_ne_empty (host : String) : instanceID host ≠ "" := by
  intro h
  exact absurd (congrArg String.toList h) (by simp [instanceID])

variable {m : Model} {parents : GoMap String String}

/-! ## Children -/

/-- The children of a switch: its nodes and its sub-switches. -/
theorem lookup_switchVertices {sw : Switch} {key : String} {child : Option VertexRef} :
    (m.switchVertices sw).lookup key = some child ↔
      (∃ node ∈ sw.nodes, instanceID node = key ∧ some (.node node) = child) ∨
        (∀ node ∈ sw.nodes, instanceID node ≠ key) ∧
        key ∈ sw.switches ∧
          (if key ∈ m.switches then some (VertexRef.switch key) else none) = child := by
  rw [Model.switchVertices, GoMap.lookup_foldl_insert_iff instanceID fun _ _ _ _ h =>
    by rw [instanceID_injective h],
    GoMap.lookup_foldl_insert_iff (fun subsw => subsw) fun _ _ _ _ h => by rw [h]]
  simp

theorem toGraph_switch {name : String} {sw : Switch} (h : m.switches.lookup name = some sw) :
    (m.toGraph.heap (.switch name)).vertices = m.switchVertices sw := by
  show ((m.switches.lookup name).map m.switchVertices).getD ∅ = _
  rw [h, Option.map_some, Option.getD_some]

/-- Below the root stand the switches without parent. -/
theorem Derived.lookup_rootVertices (h : Derived m parents) {key : String}
    {child : Option VertexRef} :
    m.rootVertices.lookup key = some child ↔ key ∈ m.switches ∧ parents.lookup key = none ∧
    child = some (.switch key) := by
  have htop : parents.lookup key = none ↔ ∀ e ∈ m.switches.entries, key ∉ e.2.switches := by
    rw [Option.eq_none_iff_forall_ne_some]
    constructor
    · intro hnone e he hkey
      exact hnone e.1 ((h.parent key e.1).mpr ⟨e.2, GoMap.lookup_eq_some_iff.mpr he, hkey⟩)
    · intro hfree p hp
      obtain ⟨psw, hpsw, hkey⟩ := (h.parent key p).mp hp
      exact hfree _ (GoMap.lookup_eq_some_iff.mp hpsw) hkey
  rw [Model.rootVertices, GoMap.lookup_foldl_insert_iff (fun name => name) fun _ _ _ _ h =>
    by rw [h], htop]
  simp [AList.mem_keys, eq_comm, and_assoc]

/-! ## Ways down -/

/-- Where a vertex stands: a switch at the end of its chain, a node below that of its switch. -/
def Place (m : Model) (parents : GoMap String String) (keys : List String) : VertexRef → Prop
  | .root => keys = []
  | .switch name => name ∈ m.switches ∧ Chain parents name keys.reverse
  | .node host =>
    ∃ p psw layers, m.switches.lookup p = some psw ∧ host ∈ psw.nodes ∧ Chain parents p layers ∧
      keys = layers.reverse ++ [instanceID host]

/-- **Every way down is a chain of parents** read from its end. -/
theorem Derived.place_of_walk (h : Derived m parents) {keys : List String} {v : VertexRef}
    (hv : m.toGraph.Walk keys v) : Place m parents keys v := by
  induction hv with
  | nil hroot =>
    cases hroot
    rfl
  | @snoc keys v w key hv hw ih =>
    cases v with
    | root =>
      obtain ⟨hkey, htop, hw⟩ := h.lookup_rootVertices.mp hw
      cases hw
      cases (show keys = [] from ih)
      exact ⟨hkey, .top htop⟩
    | node host => exact absurd hw nofun
    | switch name =>
      obtain ⟨hname, hchain⟩ := ih
      obtain ⟨sw, hsw⟩ := GoMap.mem_iff_lookup.mp hname
      rw [toGraph_switch hsw] at hw
      obtain ⟨node, hnode, rfl, hchild⟩ | ⟨-, hkey, hchild⟩ := lookup_switchVertices.mp hw
      · cases hchild
        exact ⟨name, sw, keys.reverse, hsw, hnode, hchain, by rw [List.reverse_reverse]⟩
      · have hknown := h.known name sw key hsw hkey
        rw [if_pos hknown] at hchild
        cases hchild
        refine ⟨hknown, ?_⟩
        rw [List.reverse_append, List.reverse_singleton, List.singleton_append]
        exact .up ((h.parent key name).mpr ⟨sw, hsw, hkey⟩) hchain

section Named

variable (h : Derived m parents) (hnames : ∀ name ∈ m.switches, name ≠ "" ∧
    ∀ host ∈ m.nodes, name ≠ instanceID host)
include h

theorem Derived.mem_nodes {p host : String} {psw : Switch} (hp : m.switches.lookup p = some psw)
    (hhost : host ∈ psw.nodes) : host ∈ m.nodes := by
  obtain ⟨node, hnode, -⟩ := h.node p psw host hp hhost
  exact GoMap.mem_iff_lookup.mpr ⟨node, hnode⟩

theorem Derived.childKeyed : m.toGraph.ChildKeyed := by
  intro keys v key w hv hw
  have hplace := h.place_of_walk (hv.snoc hw)
  cases w with
  | root => simp [Place] at hplace
  | switch name =>
    obtain ⟨-, hchain⟩ := hplace
    rw [List.reverse_append, List.reverse_singleton, List.singleton_append] at hchain
    generalize keys.reverse = above at hchain
    cases hchain <;> rfl
  | node host =>
    obtain ⟨p, psw, layers, -, -, -, hkeys⟩ := hplace
    exact (List.singleton_inj.mp (List.append_inj' hkeys rfl).2).symm

/-- A vertex of a switch or a node of the model. -/
def Known (m : Model) : VertexRef → Prop
  | .root => True
  | .switch name => name ∈ m.switches
  | .node host => host ∈ m.nodes

theorem Derived.known_of_walk {keys : List String} {v : VertexRef} (hv : m.toGraph.Walk keys v) :
    Known m v := by
  have hplace := h.place_of_walk hv
  cases v with
  | root => trivial
  | switch name => exact hplace.1
  | node host =>
    obtain ⟨p, psw, -, hp, hhost, -⟩ := hplace
    exact h.mem_nodes hp hhost

theorem Derived.mem_all {keys : List String} {v : VertexRef} (hv : m.toGraph.Walk keys v) :
    v ∈ .root :: (m.switches.keys.map .switch ++ m.nodes.keys.map .node) := by
  have hknown := h.known_of_walk hv
  cases v with
  | root => exact List.mem_cons_self
  | switch name => simpa using AList.mem_keys.mp hknown
  | node host => simpa using AList.mem_keys.mp hknown

include hnames

/-- Every chain of parents is a way down. -/
theorem Derived.walk_of_chain {name : String} {layers : List String} (hname : name ∈ m.switches)
    (hchain : Chain parents name layers) : m.toGraph.Walk layers.reverse (.switch name) := by
  induction hchain with
  | top htop =>
    have hroot : m.toGraph.Walk [] .root := .nil rfl
    exact hroot.snoc (h.lookup_rootVertices.mpr ⟨hname, htop, rfl⟩)
  | @up name p layers hp _ ih =>
    obtain ⟨psw, hpsw, hsub⟩ := (h.parent name p).mp hp
    rw [List.reverse_cons]
    refine .snoc (ih (GoMap.mem_iff_lookup.mpr ⟨psw, hpsw⟩)) ?_
    rw [toGraph_switch hpsw, lookup_switchVertices]
    exact .inr ⟨fun node hnode heq => (hnames name hname).2 node (h.mem_nodes hpsw hnode) heq.symm,
      hsub, if_pos hname⟩

/-- The way to a node leads through the switch it is attached to. -/
theorem Derived.walk_node {p host : String} {psw : Switch} {layers : List String}
    (hp : m.switches.lookup p = some psw) (hhost : host ∈ psw.nodes)
    (hchain : Chain parents p layers) :
    m.toGraph.Walk (layers.reverse ++ [instanceID host]) (.node host) := by
  refine .snoc (h.walk_of_chain hnames (GoMap.mem_iff_lookup.mpr ⟨psw, hp⟩) hchain) ?_
  rw [toGraph_switch hp, lookup_switchVertices]
  exact .inl ⟨host, hhost, rfl, rfl⟩

/-- No vertex is reached twice. -/
theorem Derived.oneWay : m.toGraph.OneWay where
  noNil keys v key hv hnil := by
    have hplace := h.place_of_walk hv
    cases v with
    | root => exact absurd (h.lookup_rootVertices.mp hnil).2.2 nofun
    | node host => exact absurd hnil nofun
    | switch name =>
      obtain ⟨sw, hsw⟩ := GoMap.mem_iff_lookup.mp hplace.1
      rw [toGraph_switch hsw] at hnil
      obtain ⟨_, -, -, hnone⟩ | ⟨-, hkey, hnone⟩ := lookup_switchVertices.mp hnil
      · exact absurd hnone nofun
      · rw [if_pos (h.known name sw key hsw hkey)] at hnone
        exact absurd hnone nofun
  once keys keys' v hv hv' := by
    have hplace := h.place_of_walk hv
    have hplace' := h.place_of_walk hv'
    cases v with
    | root => exact hplace.trans hplace'.symm
    | switch name => exact List.reverse_injective (hplace.2.unique hplace'.2)
    | node host =>
      obtain ⟨p, psw, layers, hp, hhost, hchain, rfl⟩ := hplace
      obtain ⟨p', psw', layers', hp', hhost', hchain', rfl⟩ := hplace'
      -- A node is attached to one switch.
      cases h.once p p' psw psw' host hp hp' hhost hhost'
      rw [hchain.unique hchain']
  distinct keys keys' v w hv hw hid := by
    have hv := h.known_of_walk hv
    have hw := h.known_of_walk hw
    cases v with
    | root =>
      cases w with
      | root => rfl
      | switch name => exact absurd hid.symm (hnames name hw).1
      | node host => exact absurd hid.symm (instanceID_ne_empty host)
    | switch name =>
      cases w with
      | root => exact absurd hid (hnames name hv).1
      | switch name' => exact congrArg VertexRef.switch hid
      | node host => exact absurd hid ((hnames name hv).2 host hw)
    | node host =>
      cases w with
      | root => exact absurd hid (instanceID_ne_empty host)
      | switch name => exact absurd hid.symm ((hnames name hw).2 host hv)
      | node host' => exact congrArg VertexRef.node (instanceID_injective hid)

theorem Derived.exists_initTree :
    ∃ fuel st, Translate.initTree fuel (some m.toGraph) = some (.ok st) :=
  Translate.exists_initTree rfl ((h.oneWay hnames).treeShaped h.childKeyed fun _ _ => h.mem_all)

/-- There is a way down to an attached node, and above it stand the layers of the node and the
hidden root. -/
theorem Derived.ancestors_node {p host : String} {psw : Switch}
    (hp : m.switches.lookup p = some psw) (hhost : host ∈ psw.nodes) :
    ∃ node, m.nodes.lookup host = some node ∧ (∃ keys, m.toGraph.Walk keys (.node host)) ∧
      ∀ keys, m.toGraph.Walk keys (.node host) →
        (m.toGraph.ancestors keys).reverse = node.netLayers ++ [""] := by
  obtain ⟨node, hnode, hchain⟩ := h.node p psw host hp hhost
  have hwalk := h.walk_node hnames hp hhost hchain
  refine ⟨node, hnode, ⟨_, hwalk⟩, fun keys hkeys => ?_⟩
  rw [(h.oneWay hnames).once keys _ _ hkeys hwalk, Graph.ancestors, ← List.append_assoc,
    List.dropLast_concat, List.reverse_append,
    List.reverse_reverse]
  rfl

end Named

/-- **Graphs agree with derived layers.** The graph of a model that `derive` accepts, with switch
names that are not empty and no instance IDs, is accepted by `initTree`, and has every attached node
below its layers. Malformed switches are rejected if `cluset.Expand` returns on their lists, as it
does on lists without a range up to the largest integer. -/
theorem toGraph_derived (fuel : Nat) (m : Model) :
    (∀ m', derive fuel m = pure m' →
      (∀ name ∈ m'.switches, name ≠ "" ∧ ∀ host ∈ m'.nodes, name ≠ instanceID host) →
      (∃ fuel st, Translate.initTree fuel (some m'.toGraph) = some (.ok st)) ∧
      ∀ p psw host, m'.switches.lookup p = some psw → host ∈ psw.nodes →
        ∃ node, m'.nodes.lookup host = some node ∧ (∃ keys, m'.toGraph.Walk keys (.node host)) ∧
        ∀ keys, m'.toGraph.Walk keys (.node host) →
          (m'.toGraph.ancestors keys).reverse = node.netLayers ++ [""]) ∧
    (∀ m₁, completeCapacityBlocks fuel m = pure m₁ →
      (∀ name sw, m₁.switches.lookup name = some sw → Outcome.Returns (expand fuel sw.nodes)) →
      Malformed fuel m₁ → ∃ err, derive fuel m = throw err) ∧
    (2 ^ 63 ≤ fuel → ∀ m₁, completeCapacityBlocks fuel m = pure m₁ →
      (∀ name sw, m₁.switches.lookup name = some sw →
        Cluset.RangesBelow (sw.nodes.map String.toList)) →
      Malformed fuel m₁ → ∃ err, derive fuel m = throw err) := by
  refine ⟨fun m' hm' hnames => ?_, fun m₁ hm₁ => derive_eq_throw hm₁, fun hfuel m₁ hm₁ hranges =>
    derive_eq_throw hm₁ fun name sw hsw => returns_expand hfuel (hranges name sw hsw)⟩
  obtain ⟨parents, hderived⟩ := derived_of_derive hm'
  exact ⟨hderived.exists_initTree hnames, fun p psw host => hderived.ancestors_node hnames⟩

/-- A leaf switch with two nodes below a spine, which may itself be listed below another switch. -/
def leafAndSpine (spineBelow : List String) : Model where
  switches := ((∅ : GoMap String Switch).insert "spine"
    { labels := ∅, annotations := ∅, switches := ["leaf"], nodes := [] }).insert "leaf"
    { labels := ∅, annotations := ∅, switches := spineBelow, nodes := [] }
  nodes := ∅
  capacityBlocks := [{ switch := "leaf", nodes := ["n[1-2]"], labels := ∅, annotations := ∅ }]
  instances := []

theorem leafAndSpine_derived :
    ∃ m' sw node, derive 10 (leafAndSpine []) = pure m' ∧ m'.switches.keys = ["spine", "leaf"] ∧
    m'.nodes.keys = ["n1", "n2"] ∧ m'.switches.lookup "leaf" = some sw ∧ sw.nodes = ["n1", "n2"] ∧
    m'.nodes.lookup "n2" = some node ∧ node.netLayers = ["leaf", "spine"] :=
  ⟨_, _, _, rfl, rfl, rfl, rfl, rfl, rfl, rfl⟩

theorem leafAndSpine_malformed :
    ∃ m₁, completeCapacityBlocks 10 (leafAndSpine ["spine"]) = pure m₁ ∧
    (∀ name sw, m₁.switches.lookup name = some sw → Outcome.Returns (expand 10 sw.nodes)) ∧
    Malformed 10 m₁ := by
  obtain ⟨m₁, hm₁, hentries⟩ : ∃ m₁, completeCapacityBlocks 10 (leafAndSpine ["spine"]) = pure m₁ ∧
      m₁.switches.entries = [⟨"leaf", ⟨∅, ∅, ["spine"], ["n1", "n2"]⟩⟩,
        ⟨"spine", ⟨∅, ∅, ["leaf"], []⟩⟩] := ⟨_, rfl, rfl⟩
  have hleaf : m₁.switches.lookup "leaf" = some ⟨∅, ∅, ["spine"], ["n1", "n2"]⟩ :=
    GoMap.lookup_eq_some_iff.mpr (by simp [hentries])
  have hspine : m₁.switches.lookup "spine" = some ⟨∅, ∅, ["leaf"], []⟩ :=
    GoMap.lookup_eq_some_iff.mpr (by simp [hentries])
  refine ⟨m₁, hm₁, fun name sw hsw => ?_, .cycle ⟨_, ["n1", "n2"], hleaf, rfl,
    List.mem_cons_self⟩ .refl
    (.tail (.single ⟨_, hspine, List.mem_cons_self⟩) ⟨_, hleaf, List.mem_cons_self⟩)⟩
  rw [GoMap.lookup_eq_some_iff, hentries, List.mem_pair] at hsw
  obtain hsw | hsw := hsw
  · cases hsw
    exact Outcome.returns_pure ["n1", "n2"]
  · cases hsw
    exact Outcome.returns_pure []

theorem toGraph_derived_leaf : (∃ m', derive 10 (leafAndSpine []) = pure m' ∧
      (∃ keys, m'.toGraph.Walk keys (.node "n2")) ∧
      ∀ keys, m'.toGraph.Walk keys (.node "n2") →
        (m'.toGraph.ancestors keys).reverse = ["leaf", "spine", ""]) ∧
    ∃ err, derive 10 (leafAndSpine ["spine"]) = throw err := by
  constructor
  · obtain ⟨m', sw, node, hm', hswitches, hnodes, hleaf, hhosts, hnode, hlayers⟩ :=
      leafAndSpine_derived
    have hnames : ∀ name ∈ m'.switches, name ≠ "" ∧ ∀ host ∈ m'.nodes, name ≠ instanceID host := by
      simp only [AList.mem_keys, hswitches, hnodes]
      decide
    obtain ⟨node', hnode', hwalk, hkeys⟩ :=
      ((toGraph_derived 10 _).1 m' hm' hnames).2 "leaf" sw "n2" hleaf (by simp [hhosts])
    cases hnode.symm.trans hnode'
    rw [hlayers] at hkeys
    exact ⟨m', hm', hwalk, hkeys⟩
  · obtain ⟨m₁, hm₁, hexpand, hbad⟩ := leafAndSpine_malformed
    exact (toGraph_derived 10 _).2.1 m₁ hm₁ hexpand hbad

end Models

end Topograph
