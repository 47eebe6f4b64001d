import Mathlib.Data.List.Perm.Subperm
import Topograph.Cluset.Expansion
import Topograph.Models.Model

/-! # Derived models

What `derive` accepts: every switch has at most one parent and every node at most one switch, both
known, and the layers of a node are the chain of parents above its switch (`Derived`,
`derived_of_derive`). A model that breaks this in the switches above its nodes is rejected
(`derive_eq_throw`). -/

namespace Topograph.Models

open Outcome (Returns)

variable {fuel : Nat} {switches : GoMap String Switch} {maps : SwitchMaps}

/-- The chain of parents above a switch, from the switch up. -/
inductive Chain (parents : GoMap String String) : String → List String → Prop where
  | top {name : String} (h : parents.lookup name = none) : Chain parents name [name]
  | up {name parent : String} {layers : List String} (h : parents.lookup name = some parent)
      (above : Chain parents parent layers) :
      Chain parents name (name :: layers)

/-- A switch has one chain of parents. -/
theorem Chain.unique {parents : GoMap String String} {name : String} {layers layers' : List String}
    (h : Chain parents name layers) (h' : Chain parents name layers') : layers = layers' := by
  induction h generalizing layers' with
  | top hnone =>
    cases h' with
    | top => rfl
    | up hsome => exact absurd (hnone.symm.trans hsome) nofun
  | up hsome _ ih =>
    cases h' with
    | top hnone => exact absurd (hnone.symm.trans hsome) nofun
    | up hsome' above' =>
      cases hsome.symm.trans hsome'
      rw [ih above']

/-! ## Parents -/

/-- What `buildSwitchMaps` knows of the switches it has been through. -/
structure Mapped (fuel : Nat) (switches : GoMap String Switch) (done : List (Σ _ : String, Switch))
    (maps : SwitchMaps) : Prop where
  parent : ∀ sw p, maps.parentBySwitch.lookup sw = some p ↔ ∃ e ∈ done, e.1 = p ∧ sw ∈ e.2.switches
  known : ∀ e ∈ done, ∀ sw ∈ e.2.switches, sw ∈ switches
  ends : ∀ e ∈ done, ∃ names, expand fuel e.2.nodes = pure names
  node : ∀ node p, maps.switchByNode.lookup node = some p ↔
    ∃ e ∈ done, e.1 = p ∧ ∃ names, expand fuel e.2.nodes = pure names ∧ node ∈ names
  expanded : ∀ name sw, maps.switches.lookup name = some sw ↔
    ∃ e ∈ done, e.1 = name ∧ ∃ names, expand fuel e.2.nodes = pure names ∧
    sw = { e.2 with nodes := names }

/-- A loop that stores new keys under one parent. -/
theorem lookup_of_foldlM {f : GoMap String String → String → Outcome String (GoMap String String)}
    {parent : String} {m m' : GoMap String String} {l : List String}
    (hf : ∀ m a m', f m a = pure m' → m.lookup a = none ∧ m' = m.insert a parent)
    (h : l.foldlM f m = pure m') (a p : String) :
    m'.lookup a = some p ↔ m.lookup a = some p ∨ parent = p ∧ a ∈ l := by
  refine Outcome.foldlM_eq_pure (I := fun done s => ∀ a p, s.lookup a = some p ↔
    m.lookup a = some p ∨ parent = p ∧ a ∈ done)
    (by simp) (fun done s x s' hs hx a p => ?_) h a p
  obtain ⟨hnone, rfl⟩ := hf s x s' hx
  rw [GoMap.lookup_insert_eq_ite, List.mem_append, List.mem_singleton]
  by_cases ha : a = x
  · subst ha
    have hfree : m.lookup a ≠ some p :=
      fun hp => absurd (((hs a p).mpr (.inl hp)).symm.trans hnone) nofun
    simp [hfree]
  · simp [ha, hs a p]

/-- A node is mapped once. -/
theorem mapNode_eq_pure {parent node : String} {nodeMap nodeMap' : GoMap String String}
    (h : mapNode parent nodeMap node = pure nodeMap') :
    nodeMap.lookup node = none ∧ nodeMap' = nodeMap.insert node parent := by
  rw [mapNode] at h
  cases hl : nodeMap.lookup node with
  | some p => simp [hl] at h
  | none =>
    rw [hl] at h
    exact ⟨rfl, (Outcome.pure_inj.mp h).symm⟩

/-- A sub-switch exists and is mapped once. -/
theorem mapSubSwitch_eq_pure {parent sw : String} {swmap swmap' : GoMap String String}
    (h : mapSubSwitch switches parent swmap sw = pure swmap') :
    sw ∈ switches ∧ swmap.lookup sw = none ∧ swmap' = swmap.insert sw parent := by
  rw [mapSubSwitch] at h
  by_cases hsw : sw ∉ switches
  · simp [hsw] at h
  · rw [if_neg hsw] at h
    cases hl : swmap.lookup sw with
    | some p => simp [hl] at h
    | none =>
      rw [hl] at h
      exact ⟨not_not.mp hsw, rfl, (Outcome.pure_inj.mp h).symm⟩

/-- Mapping one more switch. -/
theorem Mapped.step {done : List (Σ _ : String, Switch)} {e : Σ _ : String, Switch}
    {maps' : SwitchMaps} (hm : Mapped fuel switches done maps) (hnew : e.1 ∉ done.map Sigma.fst)
    (h : mapSwitch fuel switches maps e = pure maps') :
    Mapped fuel switches (done ++ [e]) maps' := by
  simp only [mapSwitch, Outcome.bind_eq_pure, Outcome.pure_inj] at h
  obtain ⟨swmap, hsub, names, hnames, nodeMap, hnode, rfl⟩ := h
  have hknown : ∀ sw ∈ e.2.switches, sw ∈ switches :=
    Outcome.foldlM_eq_pure (I := fun done _ => ∀ sw ∈ done, sw ∈ switches) (by simp)
      (fun done s sw s' hs hx =>
        by simpa [or_imp, forall_and] using ⟨hs, (mapSubSwitch_eq_pure hx).1⟩) hsub
  constructor
  · intro sw p
    rw [lookup_of_foldlM (fun _ _ _ hx => (mapSubSwitch_eq_pure hx).2) hsub, hm.parent]
    simp [or_and_right, exists_or]
  · simpa [or_imp, forall_and] using ⟨hm.known, hknown⟩
  · simpa [or_imp, forall_and] using ⟨hm.ends, names, hnames⟩
  · intro node p
    rw [lookup_of_foldlM (fun _ _ _ => mapNode_eq_pure) hnode, hm.node]
    simp [or_and_right, exists_or, hnames]
  · intro name sw
    rw [GoMap.lookup_insert_eq_ite]
    by_cases hname : name = e.1
    · rw [if_pos hname]
      constructor
      · intro heq
        exact ⟨e, by simp, hname.symm, names, hnames, (Option.some.inj heq).symm⟩
      · rintro ⟨e', he', hkey, names', hnames', rfl⟩
        rw [List.mem_append, List.mem_singleton] at he'
        obtain rfl := he'.resolve_left fun he' =>
          hnew (List.mem_map.mpr ⟨e', he', hkey.trans hname⟩)
        rw [Outcome.pure_inj.mp (hnames.symm.trans hnames')]
    · simp [hname, hm.expanded, Ne.symm hname]

/-- **The maps record the parents of all switches and nodes.** -/
theorem mapped_of_buildSwitchMaps {m : Model} (h : buildSwitchMaps fuel m = pure maps) :
    Mapped fuel m.switches m.switches.entries maps := by
  refine Outcome.foldlM_eq_pure (I := fun done maps => (done.map Sigma.fst).Nodup →
    Mapped fuel m.switches done maps)
    (fun _ => ⟨by simp, by simp, by simp, by simp, by simp⟩)
    (fun done maps e maps' hdone he hnodup => ?_) h m.switches.nodupKeys
  rw [List.map_append, List.map_singleton, List.nodup_append_comm] at hnodup
  obtain ⟨hnew, hnodup⟩ := List.nodup_cons.mp hnodup
  exact (hdone hnodup).step hnew he

/-! ## Layers -/

/-- The path of a switch is its chain of parents. -/
theorem chain_of_switchPath {parents : GoMap String String} {rounds : Nat}
    {visited layers : List String} {name : String}
    (h : switchPath parents rounds visited name = pure layers) : Chain parents name layers := by
  induction rounds generalizing visited name layers with
  | zero => exact absurd h nofun
  | succ rounds ih =>
    rw [switchPath] at h
    split_ifs at h with hvisited
    · exact absurd h nofun
    · cases hp : parents.lookup name with
      | none =>
        rw [hp] at h
        rw [← Outcome.pure_inj.mp h]
        exact .top hp
      | some parent =>
        rw [hp, Outcome.bind_eq_pure] at h
        obtain ⟨above, habove, h⟩ := h
        rw [← Outcome.pure_inj.mp h]
        exact .up hp (ih habove)

/-- The loop over the parents ends: it goes through different switches until it returns. -/
theorem returns_switchPath {parents : GoMap String String} {all : List String}
    (hall : ∀ sw p, parents.lookup sw = some p → p ∈ all) {rounds : Nat} {visited : List String}
    {name : String} (hname : name ∈ all) (hvisited : visited.Nodup) (hsub : visited ⊆ all)
    (hrounds : all.length < rounds + visited.length) :
    Returns (switchPath parents rounds visited name) := by
  induction rounds generalizing visited name with
  | zero =>
    have hle := (List.subperm_of_subset hvisited hsub).length_le
    omega
  | succ rounds ih =>
    rw [switchPath]
    split_ifs with hmem
    · exact Outcome.returns_throw _
    · cases hp : parents.lookup name with
      | none => exact Outcome.returns_pure _
      | some parent =>
        refine Returns.bind (ih (hall name parent hp) (List.nodup_cons.mpr ⟨hmem, hvisited⟩)
          (List.cons_subset.mpr ⟨hname, hsub⟩) ?_)
          fun _ _ => Outcome.returns_pure _
        rw [List.length_cons]
        omega

/-- A derived model with its parents. -/
structure Derived (m : Model) (parents : GoMap String String) : Prop where
  parent : ∀ sw p, parents.lookup sw = some p ↔ ∃ psw, m.switches.lookup p = some psw ∧
    sw ∈ psw.switches
  known : ∀ p psw sw, m.switches.lookup p = some psw → sw ∈ psw.switches → sw ∈ m.switches
  once : ∀ p p' psw psw' node, m.switches.lookup p = some psw → m.switches.lookup p' = some psw' →
    node ∈ psw.nodes → node ∈ psw'.nodes → p = p'
  node : ∀ p psw host, m.switches.lookup p = some psw → host ∈ psw.nodes →
    ∃ node, m.nodes.lookup host = some node ∧ Chain parents p node.netLayers

theorem deriveNode_eq_pure {st st' : GoMap String Node × GoMap String (GoMap String String)}
    {e : Σ _ : String, Node} (h : deriveNode maps st e = pure st') :
    ∃ node, st'.1 = st.1.insert e.1 node ∧
      ∀ sw, maps.switchByNode.lookup e.1 = some sw →
        Chain maps.parentBySwitch sw node.netLayers := by
  simp only [deriveNode, Outcome.bind_eq_pure, Outcome.pure_inj] at h
  obtain ⟨inherited, hinherited, rfl⟩ := h
  refine ⟨_, rfl, fun sw hsw => ?_⟩
  simp only [inheritedBy, hsw, getNetworkLayers, Outcome.bind_eq_pure, Outcome.pure_inj]
    at hinherited
  obtain ⟨layers, hlayers, rfl⟩ := hinherited
  exact chain_of_switchPath hlayers

/-- Every attached node is derived with its chain of parents. -/
theorem deriveNodes_eq_pure {m m' : Model} (h : deriveNodes m maps = pure m') :
    m'.switches = maps.switches ∧ ∀ host sw, maps.switchByNode.lookup host = some sw →
      ∃ node, m'.nodes.lookup host = some node ∧ Chain maps.parentBySwitch sw node.netLayers := by
  rw [deriveNodes] at h
  split_ifs at h with hempty
  · exact absurd h nofun
  cases hfind : maps.switchByNode.keys.find? (· ∉ m.nodes) with
  | some node =>
    rw [hfind] at h
    exact absurd h nofun
  | none =>
    simp only [hfind, Outcome.bind_eq_pure, Outcome.pure_inj] at h
    obtain ⟨st, hst, rfl⟩ := h
    refine ⟨rfl, fun host sw hsw => ?_⟩
    have hloop := Outcome.foldlM_eq_pure
      (I := fun done st => ∀ e ∈ done, ∃ node, st.1.lookup e.1 = some node ∧
        ∀ sw, maps.switchByNode.lookup e.1 = some sw → Chain maps.parentBySwitch sw node.netLayers)
      (by simp) (fun done st e st' hdone he => ?_) hst
    · have hhost : host ∈ m.nodes := by
        simpa using List.find?_eq_none.mp hfind host
          (AList.mem_keys.mp (GoMap.mem_iff_lookup.mpr ⟨sw, hsw⟩))
      obtain ⟨node, hnode⟩ := GoMap.mem_iff_lookup.mp hhost
      obtain ⟨node', hnode', hchain⟩ := hloop _ (GoMap.lookup_eq_some_iff.mp hnode)
      exact ⟨node', hnode', hchain sw hsw⟩
    · obtain ⟨node, hst', hchain⟩ := deriveNode_eq_pure he
      intro e' he'
      rw [hst', GoMap.lookup_insert_eq_ite]
      by_cases hkey : e'.1 = e.1
      · exact ⟨node, if_pos hkey, hkey ▸ hchain⟩
      · rw [if_neg hkey]
        rw [List.mem_append, List.mem_singleton] at he'
        exact hdone e' (he'.resolve_right fun heq => hkey (heq ▸ rfl))

/-- **What `derive` accepts is derived.** -/
theorem derived_of_derive {m m' : Model} (h : derive fuel m = pure m') :
    ∃ parents, Derived m' parents := by
  simp only [derive, Outcome.bind_eq_pure] at h
  obtain ⟨m₁, -, maps, hmaps, hnodes⟩ := h
  have hm := mapped_of_buildSwitchMaps hmaps
  obtain ⟨hswitches, hlayers⟩ := deriveNodes_eq_pure hnodes
  have hattached : ∀ p psw node, m'.switches.lookup p = some psw → node ∈ psw.nodes →
      maps.switchByNode.lookup node = some p := by
    intro p psw node hp hnode
    rw [hswitches, hm.expanded] at hp
    obtain ⟨e, he, hkey, names, hnames, rfl⟩ := hp
    exact (hm.node node p).mpr ⟨e, he, hkey, names, hnames, hnode⟩
  have hlookup : ∀ e ∈ m₁.switches.entries, ∃ names, m'.switches.lookup e.1 = some
      { e.2 with nodes := names } := by
    intro e he
    obtain ⟨names, hnames⟩ := hm.ends e he
    exact ⟨names, by rw [hswitches, hm.expanded]; exact ⟨e, he, rfl, names, hnames, rfl⟩⟩
  refine ⟨maps.parentBySwitch, fun sw p => ?_, ?_, ?_, fun p psw host hp hhost =>
    hlayers host p (hattached p psw host hp hhost)⟩
  · rw [hm.parent]
    constructor
    · rintro ⟨e, he, rfl, hsw⟩
      obtain ⟨names, hnames⟩ := hlookup e he
      exact ⟨_, hnames, hsw⟩
    · rintro ⟨psw, hp, hsw⟩
      rw [hswitches, hm.expanded] at hp
      obtain ⟨e, he, hkey, names, -, rfl⟩ := hp
      exact ⟨e, he, hkey, hsw⟩
  · intro p psw sw hp hsw
    rw [hswitches, hm.expanded] at hp
    obtain ⟨e, he, -, names, -, rfl⟩ := hp
    obtain ⟨ssw, hssw⟩ := GoMap.mem_iff_lookup.mp (hm.known e he sw hsw)
    obtain ⟨names, hnames⟩ := hlookup _ (GoMap.lookup_eq_some_iff.mp hssw)
    exact GoMap.mem_iff_lookup.mpr ⟨_, hnames⟩
  · intro p p' psw psw' node hp hp' hnode hnode'
    exact Option.some.inj ((hattached p psw node hp hnode).symm.trans
      (hattached p' psw' node hp' hnode'))

/-! ## Rejected structures -/

/-- A switch lists another as a sub-switch. -/
def SubSwitch (m : Model) (p sw : String) : Prop :=
  ∃ psw, m.switches.lookup p = some psw ∧ sw ∈ psw.switches

/-- A node is among the expanded nodes of a switch. -/
def Attached (fuel : Nat) (m : Model) (p node : String) : Prop :=
  ∃ psw names, m.switches.lookup p = some psw ∧ expand fuel psw.nodes = pure names ∧ node ∈ names

/-- The switches do not form trees above the nodes. -/
inductive Malformed (fuel : Nat) (m : Model) : Prop where
  | cycle {p sw node : String} (attached : Attached fuel m p node)
      (above : Relation.ReflTransGen (flip (SubSwitch m)) p sw)
      (cycle : Relation.TransGen (flip (SubSwitch m)) sw sw)
  | twoParents {p p' sw : String} (hne : p ≠ p') (h : SubSwitch m p sw) (h' : SubSwitch m p' sw)
  | twoSwitches {p p' node : String} (hne : p ≠ p') (h : Attached fuel m p node)
      (h' : Attached fuel m p' node)

theorem Mapped.parent_of_subSwitch {m : Model} (hm : Mapped fuel m.switches m.switches.entries maps)
    {p sw : String} (h : SubSwitch m p sw) : maps.parentBySwitch.lookup sw = some p := by
  obtain ⟨psw, hp, hsw⟩ := h
  exact (hm.parent sw p).mpr ⟨_, GoMap.lookup_eq_some_iff.mp hp, rfl, hsw⟩

theorem Mapped.switch_of_attached {m : Model} (hm : Mapped fuel m.switches m.switches.entries maps)
    {p node : String} (h : Attached fuel m p node) : maps.switchByNode.lookup node = some p := by
  obtain ⟨psw, names, hp, hnames, hnode⟩ := h
  exact (hm.node node p).mpr ⟨_, GoMap.lookup_eq_some_iff.mp hp, rfl, names, hnames, hnode⟩

/-- Going up a chain shortens it. -/
theorem Chain.above {parents : GoMap String String} {sw p : String} {layers : List String}
    (h : Chain parents sw layers) (hp : parents.lookup sw = some p) :
    ∃ above, Chain parents p above ∧ above.length < layers.length := by
  cases h with
  | top hnone => exact absurd (hnone.symm.trans hp) nofun
  | up hp' habove =>
    cases hp.symm.trans hp'
    exact ⟨_, habove, Nat.lt_succ_self _⟩

/-- Higher switches have shorter chains. -/
theorem Mapped.chain_above {m : Model} (hm : Mapped fuel m.switches m.switches.entries maps)
    {sw top : String} {layers : List String} (h : Chain maps.parentBySwitch sw layers)
    (hup : Relation.TransGen (flip (SubSwitch m)) sw top) :
    ∃ above, Chain maps.parentBySwitch top above ∧ above.length < layers.length := by
  induction hup with
  | single hp => exact h.above (hm.parent_of_subSwitch hp)
  | tail _ hp ih =>
    obtain ⟨above, habove, hlt⟩ := ih
    obtain ⟨above', habove', hlt'⟩ := habove.above (hm.parent_of_subSwitch hp)
    exact ⟨above', habove', hlt'.trans hlt⟩

/-- A derived model is well formed. -/
theorem not_malformed {m m' : Model} (hmaps : buildSwitchMaps fuel m = pure maps)
    (h : deriveNodes m maps = pure m') : ¬ Malformed fuel m := by
  have hm := mapped_of_buildSwitchMaps hmaps
  intro hbad
  cases hbad with
  | twoParents hne h h' =>
    exact hne (Option.some.inj ((hm.parent_of_subSwitch h).symm.trans (hm.parent_of_subSwitch h')))
  | twoSwitches hne h h' =>
    exact hne (Option.some.inj ((hm.switch_of_attached h).symm.trans (hm.switch_of_attached h')))
  | @cycle p sw node hattached habove hcycle =>
    -- The switch on the cycle has a chain, and one shorter than itself.
    obtain ⟨node, -, hchain⟩ := (deriveNodes_eq_pure h).2 _ _ (hm.switch_of_attached hattached)
    have htop : ∃ layers, Chain maps.parentBySwitch sw layers := by
      obtain rfl | hup := Relation.reflTransGen_iff_eq_or_transGen.mp habove
      · exact ⟨_, hchain⟩
      · obtain ⟨above, hup, -⟩ := hm.chain_above hchain hup
        exact ⟨above, hup⟩
    obtain ⟨layers, hlayers⟩ := htop
    obtain ⟨above, hup, hlt⟩ := hm.chain_above hlayers hcycle
    rw [hlayers.unique hup] at hlt
    exact lt_irrefl _ hlt

/-- The maps are built, or an error is returned. -/
theorem returns_buildSwitchMaps {m : Model} (hexpand : ∀ name sw, m.switches.lookup name = some sw →
      Returns (expand fuel sw.nodes)) :
    Returns (buildSwitchMaps fuel m) := by
  refine Returns.foldlM (fun maps e he => ?_) _
  rw [mapSwitch]
  refine (Returns.foldlM (fun swmap sw _ => ?_) _).bind fun swmap _ => ?_
  · rw [mapSubSwitch]
    split_ifs
    · cases swmap.lookup sw with
      | some p => exact Outcome.returns_throw _
      | none => exact Outcome.returns_pure _
    · exact Outcome.returns_throw _
  · refine (hexpand e.1 e.2 (GoMap.lookup_eq_some_iff.mpr he)).bind fun names _ => ?_
    refine (Returns.foldlM (fun nodeMap node _ => ?_) _).bind fun _ _ => Outcome.returns_pure _
    rw [mapNode]
    cases nodeMap.lookup node with
    | some p => exact Outcome.returns_throw _
    | none => exact Outcome.returns_pure _

/-- Deriving the nodes comes to an end. -/
theorem Mapped.returns_deriveNodes {m : Model}
    (hm : Mapped fuel m.switches m.switches.entries maps) : Returns (deriveNodes m maps) := by
  have hkeys : ∀ e ∈ m.switches.entries, e.1 ∈ maps.switches.keys := by
    intro e he
    obtain ⟨names, hnames⟩ := hm.ends e he
    exact AList.mem_keys.mp (GoMap.mem_iff_lookup.mpr ⟨_, (hm.expanded e.1 _).mpr ⟨e, he, rfl,
      names, hnames, rfl⟩⟩)
  have hparents : ∀ sw p, maps.parentBySwitch.lookup sw = some p → p ∈ maps.switches.keys := by
    intro sw p hp
    obtain ⟨e, he, rfl, -⟩ := (hm.parent sw p).mp hp
    exact hkeys e he
  rw [deriveNodes]
  split_ifs
  · exact Outcome.returns_throw _
  cases maps.switchByNode.keys.find? (· ∉ m.nodes) with
  | some node => exact Outcome.returns_throw _
  | none =>
    refine (Returns.foldlM (fun st e _ => ?_) _).bind fun _ _ => Outcome.returns_pure _
    rw [deriveNode, inheritedBy]
    cases hsw : maps.switchByNode.lookup e.1 with
    | none => exact Outcome.returns_pure _
    | some sw =>
      obtain ⟨e', he', rfl, -⟩ := (hm.node _ _).mp hsw
      refine Returns.bind
        (Returns.bind (returns_switchPath hparents (hkeys e' he') List.nodup_nil
          (List.nil_subset _) ?_)
        fun _ _ => Outcome.returns_pure _) fun _ _ => Outcome.returns_pure _
      rw [GoMap.length_keys, List.length_nil]
      exact Nat.lt_succ_self _

/-- `cluset.Expand` returns on lists without a range up to the largest integer. -/
theorem returns_expand (hfuel : 2 ^ 63 ≤ fuel) {nodes : List String}
    (h : Cluset.RangesBelow (nodes.map String.toList)) : Returns (expand fuel nodes) := by
  rw [expand, Cluset.expand_of_rangesBelow hfuel h]
  exact Outcome.returns_pure _

/-- **What is malformed is rejected**, once the blocks have put their nodes on the switches and if
the lists of the switches expand. -/
theorem derive_eq_throw {m m₁ : Model} (h : completeCapacityBlocks fuel m = pure m₁)
    (hexpand : ∀ name sw, m₁.switches.lookup name = some sw → Returns (expand fuel sw.nodes))
    (hbad : Malformed fuel m₁) : ∃ err, derive fuel m = throw err := by
  rw [derive, h, pure_bind]
  refine Returns.eq_throw ((returns_buildSwitchMaps hexpand).bind fun maps hmaps => ?_)
    fun m' hm' => ?_
  · exact (mapped_of_buildSwitchMaps hmaps).returns_deriveNodes
  · obtain ⟨maps, hmaps, hm'⟩ := Outcome.bind_eq_pure.mp hm'
    exact not_malformed hmaps hm' hbad

end Topograph.Models
