import Topograph.Models.Model

/-! # The spelling of node lists

A list of nodes may be given in full or as entries that `cluset.Expand` reads. `derive` gives the
same model for both spellings (`derive_respelled`), with two provisos. The full list must expand to
itself: no name in it reads as an entry. And `appendUnique` compares the nodes of a block with the
entries of its switch before these are expanded: a node that stands in the full list and not among
the entries is then attached twice (`spelling_matters`). -/

namespace Topograph

namespace GoMap

variable {α β γ : Type} [DecidableEq α] {R : α → β → γ → Prop} {m : GoMap α β} {m' : GoMap α γ}

/-- The entries of two maps stand in the same order, under the same keys, and are related. -/
def Rel (R : α → β → γ → Prop) (m : GoMap α β) (m' : GoMap α γ) : Prop :=
  List.Forall₂ (fun e e' => e.1 = e'.1 ∧ R e.1 e.2 e'.2) m.entries m'.entries

/-- Related maps have related values. -/
theorem Rel.lookup (h : Rel R m m') (a : α) :
    m.lookup a = none ∧ m'.lookup a = none ∨ ∃ b c, m.lookup a = some b ∧
    m'.lookup a = some c ∧ R a b c := by
  rw [Rel] at h
  simp only [AList.lookup]
  generalize m.entries = l, m'.entries = l' at h ⊢
  induction h with
  | nil => exact .inl ⟨rfl, rfl⟩
  | @cons e e' l l' he _ ih =>
    obtain ⟨k, b⟩ := e
    obtain ⟨k', c⟩ := e'
    obtain ⟨rfl, hbc⟩ := he
    by_cases hk : a = k
    · subst hk
      exact .inr ⟨b, c, List.dlookup_cons_eq .., List.dlookup_cons_eq .., hbc⟩
    · rwa [List.dlookup_cons_ne _ _ hk, List.dlookup_cons_ne _ _ hk]

theorem Rel.mem_iff (h : Rel R m m') (a : α) : a ∈ m ↔ a ∈ m' := by
  rw [mem_iff_lookup, mem_iff_lookup]
  obtain ⟨hm, hm'⟩ | ⟨b, c, hm, hm', _⟩ := h.lookup a <;> simp [hm, hm']

theorem Rel.insert (h : Rel R m m') {a : α} {b : β} {c : γ} (hbc : R a b c) :
    Rel R (m.insert a b) (m'.insert a c) := by
  refine .cons ⟨rfl, hbc⟩ ?_
  rw [Rel] at h
  generalize m.entries = l, m'.entries = l' at h ⊢
  induction h with
  | nil => exact .nil
  | @cons e e' l l' he hl ih =>
    obtain ⟨k, b⟩ := e
    obtain ⟨k', c⟩ := e'
    obtain ⟨rfl, hbc⟩ := he
    by_cases hk : a = k
    · rw [List.kerase_cons_eq hk, List.kerase_cons_eq hk]
      exact hl
    · rw [List.kerase_cons_ne hk, List.kerase_cons_ne hk]
      exact .cons ⟨rfl, hbc⟩ ih

end GoMap

namespace Models

open Outcome (Agree)

variable {fuel : Nat} {blocks : List CapacityBlock}

/-! ## Spellings -/

/-- A switch with another spelling of its node list: the list has the same expansion, and names the
same nodes of the blocks on the switch before it is expanded. -/
structure SwitchRespelled (fuel : Nat) (blocks : List CapacityBlock) (name : String)
    (sw sw' : Switch) : Prop where
  same : sw' = { sw with nodes := sw'.nodes }
  expanded : expand fuel sw.nodes = expand fuel sw'.nodes
  attached : ∀ block ∈ blocks, block.switch = name → ∀ names, expand fuel block.nodes = pure names →
    ∀ node ∈ names, node ∈ sw.nodes ↔ node ∈ sw'.nodes

/-- A block with another spelling of its node list. -/
structure BlockRespelled (fuel : Nat) (block block' : CapacityBlock) : Prop where
  same : block' = { block with nodes := block'.nodes }
  expanded : expand fuel block.nodes = expand fuel block'.nodes

/-- A model with other spellings of its node lists. The expansion of a list is one if it expands to
itself. -/
structure Respelled (fuel : Nat) (m m' : Model) : Prop where
  switches : GoMap.Rel (SwitchRespelled fuel m.capacityBlocks) m.switches m'.switches
  blocks : List.Forall₂ (BlockRespelled fuel) m.capacityBlocks m'.capacityBlocks
  nodes : m'.nodes = m.nodes
  instances : m'.instances = m.instances

/-- Expansion works entry by entry. -/
theorem expand_append (fuel : Nat) (l r : List String) :
    expand fuel (l ++ r) = (do
      let names ← expand fuel l
      let rest ← expand fuel r
      pure (names ++ rest)) := by
  simp only [expand, Cluset.expand, List.map_append, List.mapM_append]
  cases (l.map String.toList).mapM (Cluset.expandEntry fuel) with
  | none => rfl
  | some names =>
    cases (r.map String.toList).mapM (Cluset.expandEntry fuel) with
    | none => rfl
    | some rest => simp

/-! ## Blocks -/

/-- What the two runs keep of the model. -/
structure SameModel (fuel : Nat) (blocks : List CapacityBlock) (m m' : Model) : Prop where
  switches : GoMap.Rel (SwitchRespelled fuel blocks) m.switches m'.switches
  rest : m' = { m with switches := m'.switches }

theorem SwitchRespelled.appendUnique {name node : String} {sw sw' : Switch}
    (h : SwitchRespelled fuel blocks name sw sw') (hnode : node ∈ sw.nodes ↔ node ∈ sw'.nodes) :
    SwitchRespelled fuel blocks name { sw with nodes := appendUnique sw.nodes node }
      { sw' with nodes := Models.appendUnique sw'.nodes node } := by
  by_cases hmem : node ∈ sw.nodes
  · rw [Models.appendUnique, if_pos hmem, Models.appendUnique, if_pos (hnode.mp hmem)]
    exact h
  · rw [Models.appendUnique, if_neg hmem, Models.appendUnique,
      if_neg fun hmem' => hmem (hnode.mpr hmem')]
    refine ⟨by rw [h.same], ?_, fun block hblock hname names hnames x hx => ?_⟩
    · rw [expand_append, expand_append, h.expanded]
    · rw [List.mem_append, List.mem_append, h.attached block hblock hname names hnames x hx]

/-- Attaching the same nodes keeps two spellings of one list. -/
theorem SwitchRespelled.foldl_appendUnique {name : String} {names : List String} {sw sw' : Switch}
    (h : SwitchRespelled fuel blocks name sw sw')
    (hnames : ∀ node ∈ names, node ∈ sw.nodes ↔ node ∈ sw'.nodes) :
    SwitchRespelled fuel blocks name { sw with nodes := names.foldl Models.appendUnique sw.nodes }
      { sw' with nodes := names.foldl Models.appendUnique sw'.nodes } := by
  induction names generalizing sw sw' with
  | nil => exact h
  | cons node names ih =>
    have hnode := hnames node List.mem_cons_self
    refine ih (h.appendUnique hnode) fun x hx => ?_
    have hx := hnames x (List.mem_cons_of_mem node hx)
    rw [Models.appendUnique, Models.appendUnique]
    by_cases hmem : node ∈ sw.nodes
    · rw [if_pos hmem, if_pos (hnode.mp hmem), hx]
    · rw [if_neg hmem, if_neg fun hmem' => hmem (hnode.mpr hmem'), List.mem_append,
        List.mem_append, hx]

/-- Attached nodes do not depend on the spelling. -/
theorem attachNodes_agree {switches switches' : GoMap String Switch}
    (h : GoMap.Rel (SwitchRespelled fuel blocks) switches switches') {block : CapacityBlock}
    (hblock : block ∈ blocks) {names : List String} (hnames : expand fuel block.nodes = pure names)
    (index : Nat) :
    Agree (GoMap.Rel (SwitchRespelled fuel blocks)) (attachNodes switches index block.switch names)
      (attachNodes switches' index block.switch names) := by
  rw [attachNodes, attachNodes]
  by_cases hswitch : block.switch = ""
  · rw [if_pos hswitch, if_pos hswitch]
    exact .pure h
  · rw [if_neg hswitch, if_neg hswitch]
    obtain ⟨hl, hl'⟩ | ⟨sw, sw', hl, hl', hsw⟩ := h.lookup block.switch
    · rw [hl, hl']
      exact .throw _
    · rw [hl, hl']
      exact .pure (h.insert (hsw.foldl_appendUnique (hsw.attached block hblock rfl names hnames)))

/-- A capacity block completes both models alike. -/
theorem completeBlock_agree {m m' : Model} (h : SameModel fuel blocks m m')
    {block block' : CapacityBlock} (hblock : block ∈ blocks)
    (hblock' : BlockRespelled fuel block block') :
    Agree (SameModel fuel blocks) (completeBlock fuel m block) (completeBlock fuel m' block') := by
  have hnodes : m'.nodes = m.nodes := by rw [h.rest]
  have hblocks : m'.capacityBlocks = m.capacityBlocks := by rw [h.rest]
  rw [completeBlock, completeBlock, ← hblock'.expanded, hnodes, hblocks]
  obtain hx | ⟨e, hx⟩ | ⟨names, hx⟩ := (expand fuel block.nodes).cases
  · rw [hx]
    exact .loops
  · rw [hx]
    exact .throw e
  rw [hx, pure_bind, pure_bind]
  by_cases hnil : names = []
  · rw [if_pos hnil, if_pos hnil]
    exact .throw _
  rw [if_neg hnil, if_neg hnil, hblock'.same]
  refine (attachNodes_agree h.switches hblock hx _).bind fun switches switches' hswitches => ?_
  refine (Agree.refl (names.foldlM (declareNode block) m.nodes)).bind fun nodes _ hnodes => ?_
  subst hnodes
  exact .pure ⟨hswitches, by rw [h.rest]⟩

/-- All capacity blocks complete both models alike. -/
theorem completeCapacityBlocks_agree {m m' : Model} (h : Respelled fuel m m') :
    Agree (SameModel fuel m.capacityBlocks) (completeCapacityBlocks fuel m)
      (completeCapacityBlocks fuel m') := by
  have hstart : SameModel fuel m.capacityBlocks { m with capacityBlocks := [] }
      { m' with capacityBlocks := [] } := by
    refine ⟨h.switches, ?_⟩
    rw [h.nodes, h.instances]
  have hblocks : List.Forall₂ (fun b b' => b ∈ m.capacityBlocks ∧ BlockRespelled fuel b b')
      m.capacityBlocks m'.capacityBlocks :=
    (List.forall₂_and_left _ _).mpr ⟨fun _ hb => hb, h.blocks⟩
  exact Agree.foldlM hblocks (fun _ _ _ _ hs hb => completeBlock_agree hs hb.1 hb.2) hstart

/-! ## Parents and layers -/

/-- The maps do not depend on the spelling. -/
theorem buildSwitchMaps_eq {m m' : Model} (h : SameModel fuel blocks m m') :
    buildSwitchMaps fuel m = buildSwitchMaps fuel m' := by
  have hsub : mapSubSwitch m.switches = mapSubSwitch m'.switches := by
    funext parent swmap sw
    simp only [mapSubSwitch, h.switches.mem_iff]
  refine (Agree.foldlM h.switches (fun maps _ e e' hmaps he => ?_) rfl).eq
  subst hmaps
  obtain ⟨name, sw⟩ := e
  obtain ⟨name', sw'⟩ := e'
  obtain ⟨rfl, hsw⟩ := he
  rw [mapSwitch, mapSwitch, hsub, ← hsw.expanded, hsw.same]
  exact Agree.refl _

/-- **The spelling of node lists does not matter**: the blocks attach the same nodes to every
switch, all lists expand to the same names, and nothing else of them is read. -/
theorem derive_respelled {m m' : Model} (h : Respelled fuel m m') :
    derive fuel m = derive fuel m' := by
  refine ((completeCapacityBlocks_agree h).bind fun m₁ m₁' h₁ => ?_).eq
  rw [← buildSwitchMaps_eq h₁, h₁.rest]
  exact Agree.refl _

/-- A block of nodes, on a switch that lists some nodes itself or on none. -/
def oneBlock (switch : String) (listed nodes : List String) : Model where
  switches := (∅ : GoMap String Switch).insert "s"
    { labels := ∅, annotations := ∅, switches := [], nodes := listed }
  nodes := ∅
  capacityBlocks := [{ switch := switch, nodes := nodes, labels := ∅, annotations := ∅ }]
  instances := []

theorem derive_respelled_range :
    Respelled 10 (oneBlock "s" [] ["n[1-2]"]) (oneBlock "s" [] ["n1", "n2"]) ∧
      derive 10 (oneBlock "s" [] ["n[1-2]"]) = derive 10 (oneBlock "s" [] ["n1", "n2"]) := by
  have h : Respelled 10 (oneBlock "s" [] ["n[1-2]"]) (oneBlock "s" [] ["n1", "n2"]) :=
    ⟨.cons ⟨rfl, rfl, rfl, fun _ _ _ _ _ _ _ => Iff.rfl⟩ .nil, .cons ⟨rfl, rfl⟩ .nil, rfl, rfl⟩
  exact ⟨h, derive_respelled h⟩

/-- **Where the spelling matters.** A switch that lists `n[1-2]` gets these nodes again from its
block, and one that lists `n1` and `n2` does not; a name with brackets of its own is expanded once
more. -/
theorem spelling_matters :
    (expand 10 ["n[1-2]"] = pure ["n1", "n2"] ∧
      (∃ err, derive 10 (oneBlock "s" ["n[1-2]"] ["n1", "n2"]) = throw err) ∧
      ∃ m, derive 10 (oneBlock "s" ["n1", "n2"] ["n1", "n2"]) = pure m) ∧
    expand 10 ["n[a[1]]"] = pure ["na[1]"] ∧
      (∃ m, derive 10 (oneBlock "" [] ["n[a[1]]"]) = pure m ∧ m.nodes.keys = ["na[1]"]) ∧
      ∃ m, derive 10 (oneBlock "" [] ["na[1]"]) = pure m ∧ m.nodes.keys = ["na1"] := by
  refine ⟨⟨rfl, ⟨_, rfl⟩, _, rfl⟩, rfl, ⟨_, rfl, rfl⟩, _, rfl, rfl⟩

end Models

end Topograph
