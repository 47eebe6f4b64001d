import Topograph.Lib.Chains
import Topograph.Topology.Merge

/-! # The links of the records

The compute node and the tiers of a record form a chain, and the element at position `i` of the
chain is the vertex `place i`. A record links every element below the next one (`linkTiers`).
`TierLink` says which links the heap should hold after a list of chains: an element has a vertex of
its own at its first position, where everything known below it is linked; at another position it has
a copy with the links of the chains that pass it there. -/

namespace Topograph.Topology

/-- The vertex of the element at a position of a chain: the compute node, or the switch of a tier
index. -/
def place : Nat → String → Ref
  | 0, x => .inst x
  | level + 1, x => .sw level x

@[simp] theorem id_place (i : Nat) (x : String) : (place i x).id = x := by
  cases i with
  | zero => rfl
  | succ level => rfl

theorem place_inj {i k : Nat} {x y : String} : place i x = place k y ↔ i = k ∧ x = y := by
  cases i with
  | zero =>
    cases k with
    | zero => simp [place]
    | succ k => simp [place]
  | succ i =>
    cases k with
    | zero => simp [place]
    | succ k => simp [place]

/-- The chain of a record: its instance and its tiers, closest first. -/
def InstanceTopology.chain (inst : InstanceTopology) : List String :=
  inst.instanceID :: inst.tierIDs

/-! ## Linking the tiers of a record -/

/-- IDs stand as they were allocated, and a switch that is not allocated has no children. -/
structure LinkInvariant (st : LinkState) : Prop where
  id : ∀ r, (st.heap r).id = r.id
  blank : ∀ level x, (level, x) ∉ st.nodes → ∀ key, st.heap.child (.sw level x) key = none

/-- What one tier with an ID does. -/
structure TierLinked (st : LinkState) (level : Nat) (x : String) (st' : LinkState) : Prop where
  invariant : LinkInvariant st'
  top : st'.top = .sw level x
  child : ∀ r key, st'.heap.child r key =
    if r = .sw level x ∧ key = st.top.id then some st.top else st.heap.child r key
  nodes : ∀ e, e ∈ st'.nodes ↔ e = (level, x) ∨ e ∈ st.nodes
  frame : ∀ r, r ≠ .sw level x → st'.heap r = st.heap r

/-- Linking a tier keeps the invariant. -/
theorem LinkInvariant.linkTier {st : LinkState} (h : LinkInvariant st) {tier : FabricTier}
    (hne : tier.id ≠ "") (level : Nat) :
    TierLinked st level tier.id (linkTier st (tier, level)) := by
  -- Allocating the switch changes no child, since it had none.
  obtain ⟨heap, hheap, hid, hchild, hframe⟩ : ∃ heap : Heap,
      (if (level, tier.id) ∈ st.nodes then st.heap
        else Function.update st.heap (.sw level tier.id)
          { name := tier.name, id := tier.id, vertices := ∅ }) = heap ∧
      (∀ r, (heap r).id = r.id) ∧ (∀ r key, heap.child r key = st.heap.child r key) ∧
      ∀ r, r ≠ .sw level tier.id → heap r = st.heap r := by
    refine ⟨_, rfl, ?_, ?_, ?_⟩
    · intro r
      split_ifs
      · exact h.id r
      · by_cases hr : r = .sw level tier.id
        · rw [hr, Function.update_self]
          rfl
        · rw [Function.update_of_ne hr]
          exact h.id r
    · intro r key
      split_ifs with hnodes
      · rfl
      · by_cases hr : r = .sw level tier.id
        · rw [hr, h.blank level tier.id hnodes key, Heap.child, Function.update_self]
          rfl
        · rw [Heap.child, Function.update_of_ne hr, Heap.child]
    · intro r hr
      split_ifs
      · rfl
      · exact Function.update_of_ne hr _ _
  have hst : Topology.linkTier st (tier, level) =
      { heap := heap.link (.sw level tier.id) (heap st.top).id st.top
        nodes := if (level, tier.id) ∈ st.nodes then st.nodes else (level, tier.id) :: st.nodes
        top := .sw level tier.id } := by
    rw [Topology.linkTier, if_neg hne, ← hheap]
  have hnodes : ∀ e, e ∈ (if (level, tier.id) ∈ st.nodes then st.nodes
      else (level, tier.id) :: st.nodes) ↔
      e = (level, tier.id) ∨ e ∈ st.nodes := by
    intro e
    split_ifs with hmem
    · constructor
      · exact Or.inr
      · rintro (rfl | he)
        · exact hmem
        · exact he
    · exact List.mem_cons
  have hlinked : ∀ r key, (heap.link (.sw level tier.id) (heap st.top).id st.top).child r key =
      if r = .sw level tier.id ∧ key = st.top.id then some st.top else st.heap.child r key := by
    intro r key
    rw [heap.child_link, hid, hchild]
  rw [hst]
  refine ⟨⟨?_, ?_⟩, rfl, hlinked, hnodes, ?_⟩
  · intro r
    rw [heap.id_link]
    exact hid r
  · intro level' x hx key
    rw [hnodes, not_or] at hx
    rw [hlinked, if_neg, h.blank level' x hx.2 key]
    rintro ⟨hr, -⟩
    obtain ⟨rfl, rfl⟩ := Ref.sw.inj hr
    exact hx.1 rfl
  · intro r hr
    exact (Function.update_of_ne hr _ _).trans (hframe r hr)

/-- What the tiers above the element `x` at position `j` do; `x :: ids` is the rest of the chain. -/
structure TiersLinked (st : LinkState) (j : Nat) (x : String) (ids : List String)
    (st' : LinkState) : Prop where
  invariant : LinkInvariant st'
  top : ∃ y, (x :: ids)[ids.length]? = some y ∧ st'.top = place (j + ids.length) y
  new : ∀ m q p, (x :: ids)[m + 1]? = some q → (x :: ids)[m]? = some p →
    st'.heap.child (place (j + m + 1) q) p = some (place (j + m) p)
  old : ∀ r key, (∀ m q, (x :: ids)[m + 1]? = some q → (x :: ids)[m]? = some key →
    r ≠ place (j + m + 1) q) →
    st'.heap.child r key = st.heap.child r key
  nodes : ∀ level y, (level, y) ∈ st'.nodes ↔
    (level, y) ∈ st.nodes ∨ ∃ m, level = j + m ∧ (x :: ids)[m + 1]? = some y
  frame : ∀ y, st'.heap (.inst y) = st.heap (.inst y)

/-- **The loop over the tiers** links the chain. -/
theorem LinkInvariant.linkTiers {st : LinkState} (h : LinkInvariant st) {tiers : List FabricTier}
    (hne : ∀ tier ∈ tiers, tier.id ≠ "") {j : Nat} {x : String} (htop : st.top = place j x) :
    TiersLinked st j x (tiers.map (·.id)) ((tiers.zipIdx j).foldl Topology.linkTier st) := by
  induction tiers generalizing st j x with
  | nil => exact ⟨h, ⟨x, rfl, htop⟩, by simp, fun _ _ _ => rfl, by simp, fun _ => rfl⟩
  | cons tier tiers ih =>
    obtain ⟨hid, hne⟩ := List.forall_mem_cons.mp hne
    have hstep := h.linkTier hid j
    have hrest := ih hstep.invariant hne (j := j + 1) (x := tier.id) hstep.top
    rw [List.zipIdx_cons, List.foldl_cons, List.map_cons]
    refine ⟨hrest.invariant, ?_, ?_, ?_, ?_, ?_⟩
    · obtain ⟨y, hy, htop'⟩ := hrest.top
      refine ⟨y, ?_, ?_⟩
      · rw [List.length_cons, List.getElem?_cons_succ]
        exact hy
      · rw [htop', List.length_cons]
        congr 1
        omega
    · intro m q p hq hp
      cases m with
      | zero =>
        -- The first link; the later ones are at higher positions.
        obtain rfl : tier.id = q := Option.some.inj hq
        obtain rfl : x = p := Option.some.inj hp
        rw [hrest.old, hstep.child, if_pos, htop]
        · rfl
        · exact ⟨rfl, by rw [htop, id_place]⟩
        · intro m q _ _ heq
          have := (place_inj.mp heq).1
          omega
      | succ m =>
        have := hrest.new m q p hq hp
        rwa [show j + 1 + m + 1 = j + (m + 1) + 1 by omega, show j + 1 + m = j + (m + 1) by omega]
          at this
    · intro r key hr
      rw [hrest.old, hstep.child, if_neg]
      · rintro ⟨rfl, rfl⟩
        exact hr 0 tier.id rfl (by rw [htop, id_place]; rfl) rfl
      · intro m q hq hkey
        have := hr (m + 1) q hq hkey
        rwa [show j + (m + 1) + 1 = j + 1 + m + 1 by omega] at this
    · intro level y
      rw [hrest.nodes, hstep.nodes]
      constructor
      · rintro ((heq | hmem) | ⟨m, rfl, hm⟩)
        · obtain ⟨rfl, rfl⟩ := Prod.mk.inj heq
          exact Or.inr ⟨0, rfl, rfl⟩
        · exact Or.inl hmem
        · exact Or.inr ⟨m + 1, by omega, hm⟩
      · rintro (hmem | ⟨m, rfl, hm⟩)
        · exact Or.inl (Or.inr hmem)
        · cases m with
          | zero =>
            obtain rfl : tier.id = y := Option.some.inj hm
            exact Or.inl (Or.inl rfl)
          | succ m => exact Or.inr ⟨m, by omega, hm⟩
    · intro y
      rw [hrest.frame, hstep.frame _ (by simp)]

/-! ## The links of many records -/

/-- **The links that the heap should hold** after the chains `cs`. -/
def TierLink (cs : List (List String)) (r : Ref) (key : String) (w : Ref) : Prop :=
  ∃ a ∈ cs, ∃ k q, a[k + 1]? = some q ∧ a[k]? = some key ∧
    ((r = place (firstPos cs q) q ∧ w = place (firstPos cs key) key) ∨
      (r = place (k + 1) q ∧ k + 1 ≠ firstPos cs q ∧ w = place k key))

/-- In a forest a key leads to one vertex. -/
theorem TierLink.functional {cs : List (List String)} (hf : IsForest cs) {r w w' : Ref}
    {key : String} (h : TierLink cs r key w) (h' : TierLink cs r key w') : w = w' := by
  obtain ⟨a, ha, k, q, hq, hk, hw⟩ := h
  obtain ⟨a', ha', k', q', hq', hk', hw'⟩ := h'
  obtain rfl : q = q' :=
    Option.some.inj (hq.symm.trans ((hf a ha a' ha' k k' key hk hk').trans hq'))
  rcases hw with ⟨hr, rfl⟩ | ⟨hr, hne, rfl⟩
  · rcases hw' with ⟨-, rfl⟩ | ⟨hr', hne', -⟩
    · rfl
    · exact absurd (place_inj.mp (hr.symm.trans hr')).1.symm hne'
  · rcases hw' with ⟨hr', -⟩ | ⟨hr', -, rfl⟩
    · exact absurd (place_inj.mp (hr.symm.trans hr')).1 hne
    · have := (place_inj.mp (hr.symm.trans hr')).1
      rw [show k = k' by omega]

/-- The first position of an element is a position of it. -/
theorem exists_getElem?_firstPos {cs : List (List String)} (hf : IsForest cs) {x : String}
    (hx : ∃ a ∈ cs, x ∈ a) : ∃ a ∈ cs, a[firstPos cs x]? = some x := by
  obtain ⟨pre, a, post, hcs, hpre, hxa⟩ := exists_first hx
  obtain ⟨i, hi⟩ := List.mem_iff_getElem?.mp hxa
  exact ⟨a, hcs ▸ List.mem_append_cons_self, (firstPos_eq hf hcs hpre hi).symm ▸ hi⟩

/-- A vertex with a link stands at a position of its element. -/
theorem TierLink.exists_chain {cs : List (List String)} (hf : IsForest cs) {i : Nat}
    {x key : String} {w : Ref} (h : TierLink cs (place i x) key w) : ∃ a ∈ cs, a[i]? = some x := by
  obtain ⟨a, ha, k, q, hq, -, ⟨hr, -⟩ | ⟨hr, -, -⟩⟩ := h
  · obtain ⟨rfl, rfl⟩ := place_inj.mp hr
    exact exists_getElem?_firstPos hf ⟨a, ha, List.mem_of_getElem? hq⟩
  · obtain ⟨rfl, rfl⟩ := place_inj.mp hr
    exact ⟨a, ha, hq⟩

/-- A link leads to a position of its element. -/
theorem TierLink.exists_target {cs : List (List String)} (hf : IsForest cs) {r w : Ref}
    {key : String} (h : TierLink cs r key w) :
    ∃ a ∈ cs, ∃ t, w = place t key ∧ a[t]? = some key := by
  obtain ⟨a, ha, k, q, -, hkey, ⟨-, rfl⟩ | ⟨-, -, rfl⟩⟩ := h
  · obtain ⟨b, hb, hpos⟩ := exists_getElem?_firstPos hf ⟨a, ha, List.mem_of_getElem? hkey⟩
    exact ⟨b, hb, _, rfl, hpos⟩
  · exact ⟨a, ha, k, rfl, hkey⟩

/-- Another chain keeps the links of the chains before it. -/
theorem TierLink.append {cs : List (List String)} {r w : Ref} {key : String}
    (h : TierLink cs r key w) (cs' : List (List String)) : TierLink (cs ++ cs') r key w := by
  obtain ⟨a, ha, k, q, hq, hkey, hw⟩ := h
  refine ⟨a, List.mem_append_left _ ha, k, q, hq, hkey, ?_⟩
  rwa [firstPos_append ⟨a, ha, List.mem_of_getElem? hq⟩,
    firstPos_append ⟨a, ha, List.mem_of_getElem? hkey⟩]

/-! ## One more chain -/

section Chain

variable {cs : List (List String)} {ch : List String} {h h₀ : Heap}

/-- The heap `h₀` is `h` with the links of a chain written into it. -/
structure ChainLinked (ch : List String) (h h₀ : Heap) : Prop where
  new : ∀ m q p, ch[m + 1]? = some q → ch[m]? = some p →
    h₀.child (place (m + 1) q) p = some (place m p)
  old : ∀ r key, (∀ m q, ch[m + 1]? = some q → ch[m]? = some key → r ≠ place (m + 1) q) →
    h₀.child r key = h.child r key

/-- The new element of a chain has its position there. -/
theorem firstPos_of_new (hf : IsForest (cs ++ [ch])) {x : String} {i : Nat} (hx : ∀ a ∈ cs, x ∉ a)
    (hi : ch[i]? = some x) : firstPos (cs ++ [ch]) x = i :=
  firstPos_eq hf rfl hx hi

/-- A link is written, or as before. -/
theorem ChainLinked.cases (hl : ChainLinked ch h h₀) (r : Ref) (key : String) :
    (∃ m q, ch[m + 1]? = some q ∧ ch[m]? = some key ∧ r = place (m + 1) q ∧
      h₀.child r key = some (place m key)) ∨
      (∀ m q, ch[m + 1]? = some q → ch[m]? = some key → r ≠ place (m + 1) q) ∧
      h₀.child r key = h.child r key := by
  by_cases hnew : ∃ m q, ch[m + 1]? = some q ∧ ch[m]? = some key ∧ r = place (m + 1) q
  · obtain ⟨m, q, hq, hkey, rfl⟩ := hnew
    exact Or.inl ⟨m, q, hq, hkey, rfl, hl.new m q key hq hkey⟩
  · have hold : ∀ m q, ch[m + 1]? = some q → ch[m]? = some key → r ≠ place (m + 1) q :=
      fun m q hq hkey hr => hnew ⟨m, q, hq, hkey, hr⟩
    exact Or.inr ⟨hold, hl.old r key hold⟩

/-- The written links are among the links to be reached. -/
theorem ChainLinked.within (hl : ChainLinked ch h h₀) (hset : Settled (cs ++ [ch]))
    (hchild : ∀ r key w, h.child r key = some w → TierLink cs r key w) :
    h₀.Within (TierLink (cs ++ [ch])) := by
  intro r key w hw
  rcases hl.cases r key with ⟨m, q, hq, hkey, rfl, hnew⟩ | ⟨-, hold⟩
  · obtain rfl : place m key = w := Option.some.inj (hnew.symm.trans hw)
    have hc : ch ∈ cs ++ [ch] := List.mem_append_cons_self
    refine ⟨ch, hc, m, q, hq, hkey, ?_⟩
    by_cases hpos : firstPos (cs ++ [ch]) q = m + 1
    · -- At its first position the element below is at its own, too.
      left
      rw [hpos, hset ch hc m q key hq hkey hpos]
      exact ⟨rfl, rfl⟩
    · exact Or.inr ⟨rfl, fun heq => hpos heq.symm, rfl⟩
  · exact (hchild r key w (hold ▸ hw)).append [ch]

/-- **What is still missing**: a new element is not yet below the vertex of the next one at its
first position. -/
theorem ChainLinked.missing (hl : ChainLinked ch h h₀) (hf : IsForest (cs ++ [ch]))
    (hset : Settled (cs ++ [ch])) (hchild : ∀ r key w, h.child r key = some w ↔ TierLink cs r key w)
    {r w : Ref} {key : String} (hw : TierLink (cs ++ [ch]) r key w) :
    h₀.child r key = some w ∨ ∃ k q, ch[k + 1]? = some q ∧ ch[k]? = some key ∧ (∀ a ∈ cs, key ∉ a) ∧
      firstPos (cs ++ [ch]) q ≠ k + 1 ∧ r = place (firstPos (cs ++ [ch]) q) q ∧
      w = place k key := by
  have hc : ch ∈ cs ++ [ch] := List.mem_append_cons_self
  have hwithin := hl.within hset fun r key w => (hchild r key w).mp
  -- A link of the earlier chains is there, or was overwritten with itself.
  have hkeep : TierLink cs r key w → h₀.child r key = some w := by
    intro hold
    rcases hl.cases r key with ⟨m, -, -, -, -, hnew⟩ | ⟨-, hsame⟩
    · rw [hnew, (hwithin _ _ _ hnew).functional hf hw]
    · exact hsame.trans ((hchild r key w).mpr hold)
  obtain ⟨a, ha, k, q, hq, hkey, hcases⟩ := id hw
  have hfirst : ∀ b ∈ cs, ∀ y ∈ b, firstPos (cs ++ [ch]) y = firstPos cs y :=
    fun b hb y hy => firstPos_append ⟨b, hb, hy⟩ [ch]
  rcases List.mem_append.mp ha with ha' | ha'
  · left
    apply hkeep
    refine ⟨a, ha', k, q, hq, hkey, ?_⟩
    rwa [hfirst a ha' q (List.mem_of_getElem? hq), hfirst a ha' key (List.mem_of_getElem? hkey)]
      at hcases
  · obtain rfl := List.mem_singleton.mp ha'
    rcases hcases with ⟨rfl, rfl⟩ | ⟨rfl, -, rfl⟩
    · by_cases hpos : firstPos (cs ++ [a]) q = k + 1
      · left
        rw [hpos, hset a hc k q key hq hkey hpos]
        exact hl.new k q key hq hkey
      · by_cases hknown : ∃ b ∈ cs, key ∈ b
        · -- An earlier chain has the element below the same one.
          left
          obtain ⟨b, hb, hkb⟩ := hknown
          obtain ⟨k', hk'⟩ := List.mem_iff_getElem?.mp hkb
          have hq' := (hf b (List.mem_append_left _ hb) a hc k' k key hk' hkey).trans hq
          apply hkeep
          refine ⟨b, hb, k', q, hq', hk', Or.inl ?_⟩
          rw [hfirst b hb q (List.mem_of_getElem? hq'), hfirst b hb key hkb]
          exact ⟨rfl, rfl⟩
        · right
          have hnew : ∀ b ∈ cs, key ∉ b := fun b hb hkb => hknown ⟨b, hb, hkb⟩
          exact ⟨k, q, hq, hkey, hnew, hpos, rfl, by rw [firstPos_of_new hf hnew hkey]⟩
    · exact Or.inl (hl.new k q key hq hkey)

/-- A copy of an element is merged into its vertex at the first position. -/
def CopyOf (cs : List (List String)) (d s : Ref) : Prop :=
  ∃ a ∈ cs, ∃ k q, a[k]? = some q ∧ k ≠ firstPos cs q ∧ d = place (firstPos cs q) q ∧ s = place k q

/-- The links of a copy are those of the chains that pass it at its position. -/
theorem TierLink.of_copy {k : Nat} {q key : String} {w : Ref} (hne : k ≠ firstPos cs q)
    (h : TierLink cs (place k q) key w) :
    ∃ a ∈ cs, ∃ m, k = m + 1 ∧ a[m + 1]? = some q ∧ a[m]? = some key ∧
      w = place m key := by
  obtain ⟨a, ha, m, q', hq, hkey, ⟨hr, -⟩ | ⟨hr, -, rfl⟩⟩ := h
  · obtain ⟨heq, rfl⟩ := place_inj.mp hr
    exact absurd heq hne
  · obtain ⟨rfl, rfl⟩ := place_inj.mp hr
    exact ⟨a, ha, m, rfl, hq, hkey, rfl⟩

/-- **The plan of a merge** after a chain is linked. -/
theorem ChainLinked.plan (hl : ChainLinked ch h h₀) (hf : IsForest (cs ++ [ch]))
    (hset : Settled (cs ++ [ch]))
    (hchild : ∀ r key w, h.child r key = some w ↔ TierLink cs r key w) :
    MergePlan h₀ (TierLink (cs ++ [ch])) (CopyOf (cs ++ [ch])) where
  functional r key w w' := TierLink.functional hf
  source := by
    rintro d s ⟨a, ha, k, q, hk, hne, rfl, rfl⟩ key w hw
    rcases hl.missing hf hset hchild hw with hw | ⟨m, q', -, -, -, -, hr, -⟩
    · exact hw
    · obtain ⟨heq, rfl⟩ := place_inj.mp hr
      exact absurd heq hne
  pair := by
    rintro d s ⟨a, ha, k, q, hk, hne, rfl, rfl⟩ key child hw
    obtain ⟨b, hb, m, rfl, hq, hkey, rfl⟩ := hw.of_copy hne
    refine ⟨_, ⟨b, hb, m, q, hq, hkey, Or.inl ⟨rfl, rfl⟩⟩, ?_⟩
    by_cases hm : m = firstPos (cs ++ [ch]) key
    · left
      rw [← hm]
    · exact Or.inr ⟨b, hb, m, key, hkey, hm, rfl, rfl⟩
  fresh := by
    rintro d s ⟨a, ha, k, q, hk, hne, rfl, rfl⟩ key child hw hnone
    obtain ⟨b, hb, m, rfl, hq, hkey, rfl⟩ := hw.of_copy hne
    have hown : TierLink (cs ++ [ch]) (place (firstPos (cs ++ [ch]) q) q) key
        (place (firstPos (cs ++ [ch]) key) key) := ⟨b, hb, m, q, hq, hkey, Or.inl ⟨rfl, rfl⟩⟩
    rcases hl.missing hf hset hchild hown with hw | ⟨k', q', -, hkey', hnew, -, -, hplace⟩
    · exact absurd (hnone.symm.trans hw) (by simp)
    · -- A new element occurs in the new chain only.
      rcases List.mem_append.mp hb with hb | hb
      · exact absurd (List.mem_of_getElem? hkey) (hnew b hb)
      · obtain rfl := List.mem_singleton.mp hb
        obtain rfl := hf.index_unique (List.mem_append_cons_self) hkey hkey'
        rwa [hplace] at hown

end Chain

end Topograph.Topology
