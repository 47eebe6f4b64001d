import Topograph.Topology.TierLinks

/-! # What `ToGraph` builds

When the chains of the processed records are settled, the heap holds the links of `TierLink` after
every record: a record writes its chain, and merging its top vertex brings over what is missing
(`BuildInvariant.addInstance`). -/

namespace Topograph.Topology

/-! ## A merged chain -/

section Chain

variable {cs : List (List String)} {ch : List String} {h h₀ h' : Heap}

/-- Going down one element: below the vertex at the first position stands the vertex of the next
element at its first position. -/
theorem covered_step {T : List (List String)} (hf : IsForest T) (hwithin : h'.Within (TierLink T))
    (hc : ch ∈ T) {n t : Nat} {q p : String} (hq : ch[t + 1]? = some q) (hp : ch[t]? = some p)
    (hne : firstPos T q ≠ t + 1)
    (hcov : Covered (TierLink T) h' n (place (firstPos T q) q) (place (t + 1) q)) :
    h'.child (place (firstPos T q) q) p = some (place (firstPos T p) p) ∧
      ∃ n', Covered (TierLink T) h' n' (place (firstPos T p) p) (place t p) := by
  have hcopy : TierLink T (place (t + 1) q) p (place t p) :=
    ⟨ch, hc, t, q, hq, hp, Or.inr ⟨rfl, fun heq => hne heq.symm, rfl⟩⟩
  have hown : TierLink T (place (firstPos T q) q) p (place (firstPos T p) p) :=
    ⟨ch, hc, t, q, hq, hp, Or.inl ⟨rfl, rfl⟩⟩
  have hdiff : place (firstPos T q) q ≠ place (t + 1) q := fun heq => hne (place_inj.mp heq).1
  cases n with
  | zero => exact absurd hcov hdiff
  | succ n =>
    obtain ⟨e, he, hcov'⟩ := hcov.resolve_left hdiff p _ hcopy
    obtain rfl := (hwithin _ _ _ he).functional hf hown
    exact ⟨he, n, hcov'⟩

section

variable (hl : ChainLinked ch h h₀) (hf : IsForest (cs ++ [ch])) (hset : Settled (cs ++ [ch]))
  (hchild : ∀ r key w, h.child r key = some w ↔ TierLink cs r key w)

include hl hf hset hchild

/-- **After the merge the links are complete.** -/
theorem ChainLinked.complete (hm : Merged h₀ h') (hwithin : h'.Within (TierLink (cs ++ [ch])))
    {n t : Nat} {y : String} (ht : ch[t]? = some y) (hlast : ch.length = t + 1)
    (hcov : Covered (TierLink (cs ++ [ch])) h' n (place (firstPos (cs ++ [ch]) y) y) (place t y))
    (r : Ref) (key : String) (w : Ref) :
    h'.child r key = some w ↔ TierLink (cs ++ [ch]) r key w := by
  refine ⟨hwithin r key w, fun hw => ?_⟩
  rcases hl.missing hf hset hchild hw with hw | ⟨k, q, hq, hkey, -, hne, rfl, rfl⟩
  · exact hm.keeps _ _ _ hw
  · have hc : ch ∈ cs ++ [ch] := List.mem_append_cons_self
    -- Down from the top no element is at its first position before `q`.
    have hdown : ∀ d t y n, t = k + 1 + d → ch[t]? = some y →
        Covered (TierLink (cs ++ [ch])) h' n (place (firstPos (cs ++ [ch]) y) y) (place t y) →
        ∃ n', Covered (TierLink (cs ++ [ch])) h' n' (place (firstPos (cs ++ [ch]) q) q)
        (place (k + 1) q) := by
      intro d
      induction d with
      | zero =>
        rintro t y n rfl ht hcov
        obtain rfl := Option.some.inj (ht.symm.trans hq)
        exact ⟨n, hcov⟩
      | succ d ih =>
        rintro t y n rfl ht hcov
        have hlt := (List.getElem?_eq_some_iff.mp ht).1
        obtain ⟨z, hz⟩ : ∃ z, ch[k + 1 + d]? = some z := ⟨_, List.getElem?_eq_getElem (by omega)⟩
        have hney : firstPos (cs ++ [ch]) y ≠ k + 1 + d + 1 :=
          fun hpos => hne (hset.of_le hc ht hpos hq (by omega))
        obtain ⟨-, n', hcov'⟩ := covered_step hf hwithin hc ht hz hney hcov
        exact ih _ z n' rfl hz hcov'
    have hk := (List.getElem?_eq_some_iff.mp hq).1
    obtain ⟨n', hcov'⟩ := hdown (t - (k + 1)) t y n (by omega) ht hcov
    obtain ⟨hstep, -⟩ := covered_step hf hwithin hc hq hkey hne hcov'
    rw [hstep]
    exact congrArg some (hw.functional hf ⟨ch, hc, k, q, hq, hkey, Or.inl ⟨rfl, rfl⟩⟩).symm

/-- A chain whose top element is at its first position needs no merge. -/
theorem ChainLinked.complete_of_top {t : Nat} {y : String} (ht : ch[t]? = some y)
    (hlast : ch.length = t + 1) (hpos : firstPos (cs ++ [ch]) y = t) (r : Ref) (key : String)
    (w : Ref) : h₀.child r key = some w ↔ TierLink (cs ++ [ch]) r key w := by
  have hwithin := hl.within hset fun r key w => (hchild r key w).mp
  refine hl.complete hf hset hchild (.refl h₀) hwithin ht hlast (n := 0) ?_ r key w
  rw [hpos]
  rfl

end

end Chain

/-! ## The state after some records -/

/-- What the chains of processed records must satisfy: they describe a forest and are settled, and
instances are no switches. -/
structure GoodChains (cs : List (List String)) : Prop where
  forest : IsForest cs
  settled : Settled cs
  apart : ∀ a ∈ cs, ∀ b ∈ cs, ∀ x k, a[0]? = some x → b[k]? = some x → k = 0

theorem GoodChains.of_append {cs cs' : List (List String)} (h : GoodChains (cs ++ cs')) :
    GoodChains cs where
  forest := h.forest.mono fun _ ha => List.mem_append_left _ ha
  settled := h.settled.of_append
  apart a ha b hb := h.apart a (List.mem_append_left _ ha) b (List.mem_append_left _ hb)

/-- **What holds after the records with the chains `cs`**; `names` gives the node names of the
instances. -/
structure BuildInvariant (names : String → String) (cs : List (List String)) (st : BuildState) :
    Prop where
  id : ∀ r, (st.heap r).id = r.id
  nodes : ∀ level x, (level, x) ∈ st.nodes ↔ ∃ a ∈ cs, a[level + 1]? = some x
  child : ∀ r key w, st.heap.child r key = some w ↔ TierLink cs r key w
  forest : ∀ x r, st.forest.lookup x = some r ↔
    (∃ a ∈ cs, a.getLast? = some x) ∧ r = place (firstPos cs x) x
  inst : ∀ a ∈ cs, ∀ x, a[0]? = some x → (st.heap (.inst x)).name = names x

/-- The invariant holds at the start. -/
theorem buildInvariant_start (names : String → String) (i2n : GoMap String String) :
    BuildInvariant names []
      { heap := .blank, nodes := [], forest := ∅, i2n := i2n, domainMap := .new } where
  id _ := rfl
  nodes := by simp
  child r key w := by simp [Heap.child, Heap.blank, TierLink]
  forest := by simp
  inst := by simp

variable {order : RangeOrder} {fuel : Nat}

/-- The outcomes of a requested record: its top vertex is merged into a root, or is one. -/
theorem addInstance_cases {trimTiers : Int} {st st' : BuildState} {inst : InstanceTopology}
    {nodeName : String} (hreq : st.i2n.lookup inst.instanceID = some nodeName) {linked : LinkState}
    (hlinked : linkInstance st inst nodeName trimTiers = linked)
    (hrun : addInstance order fuel trimTiers st inst = some st') :
    ∃ heap forest, st' = { heap := heap, nodes := linked.nodes, forest := forest
                           i2n := st.i2n.erase inst.instanceID
                           domainMap := addDomain st.domainMap inst nodeName } ∧
      ((∃ first, st.forest.lookup (linked.heap linked.top).id = some first ∧ forest = st.forest ∧
          mergeVertices order fuel linked.heap first linked.top = some heap) ∨
        st.forest.lookup (linked.heap linked.top).id = none ∧ heap = linked.heap ∧
          forest = st.forest.insert (linked.heap linked.top).id linked.top) := by
  subst hlinked
  rw [addInstance, hreq] at hrun
  dsimp only at hrun
  split at hrun
  · rename_i first hfirst
    obtain ⟨heap, hmerge, rfl⟩ := Option.map_eq_some_iff.mp hrun
    exact ⟨heap, st.forest, rfl, Or.inl ⟨first, hfirst, rfl, hmerge⟩⟩
  · rename_i hnone
    obtain rfl := Option.some.inj hrun
    exact ⟨_, _, rfl, Or.inr ⟨hnone, rfl, rfl⟩⟩

theorem trimmedTiers_zero (inst : InstanceTopology) : trimmedTiers inst 0 = inst.fabricTiers := by
  simp [trimmedTiers]

section Step

variable {names : String → String} {cs : List (List String)} {st : BuildState}
  {inst : InstanceTopology}

/-- The chain of the record is linked. -/
theorem BuildInvariant.tiersLinked (h : BuildInvariant names cs st) (hf : IsForest cs)
    (nodeName : String) (hnew : ∀ a ∈ cs, inst.instanceID ∉ a)
    (hne : ∀ tier ∈ inst.fabricTiers, tier.id ≠ "") :
    LinkInvariant (linkInstance st inst nodeName 0) ∧
      ChainLinked inst.chain st.heap (linkInstance st inst nodeName 0).heap ∧
      (∃ y, inst.chain[inst.tierIDs.length]? = some y ∧
        (linkInstance st inst nodeName 0).top = place inst.tierIDs.length y) ∧
      (∀ level y, (level, y) ∈ (linkInstance st inst nodeName 0).nodes ↔
        (level, y) ∈ st.nodes ∨ inst.chain[level + 1]? = some y) ∧
      ((linkInstance st inst nodeName 0).heap (.inst inst.instanceID)).name = nodeName ∧
      ∀ x, x ≠ inst.instanceID →
        (linkInstance st inst nodeName 0).heap (.inst x) = st.heap (.inst x) := by
  -- The new compute node had no children.
  have hblank : ∀ key, st.heap.child (.inst inst.instanceID) key = none := by
    intro key
    cases hw : st.heap.child (.inst inst.instanceID) key with
    | none => rfl
    | some w =>
      have hlink : TierLink cs (place 0 inst.instanceID) key w := (h.child _ _ _).mp hw
      obtain ⟨a, ha, hx⟩ := hlink.exists_chain hf
      exact absurd (List.mem_of_getElem? hx) (hnew a ha)
  have hchild : ∀ r key, Heap.child (Function.update st.heap (.inst inst.instanceID)
      { name := nodeName, id := inst.instanceID, vertices := ∅ }) r key = st.heap.child r key := by
    intro r key
    by_cases hr : r = .inst inst.instanceID
    · rw [hr, hblank, Heap.child, Function.update_self]
      rfl
    · rw [Heap.child, Function.update_of_ne hr, Heap.child]
  have hstart : LinkInvariant
      { heap := Function.update st.heap (.inst inst.instanceID)
          { name := nodeName, id := inst.instanceID, vertices := ∅ }
        nodes := st.nodes, top := .inst inst.instanceID } := by
    constructor
    · intro r
      by_cases hr : r = .inst inst.instanceID
      · show (Function.update st.heap (.inst inst.instanceID) _ r).id = _
        rw [hr, Function.update_self]
        rfl
      · show (Function.update st.heap (.inst inst.instanceID) _ r).id = _
        rw [Function.update_of_ne hr]
        exact h.id r
    · intro level x hx key
      refine (hchild _ key).trans ?_
      cases hw : st.heap.child (.sw level x) key with
      | none => rfl
      | some w =>
        have hlink : TierLink cs (place (level + 1) x) key w := (h.child _ _ _).mp hw
        exact absurd ((h.nodes level x).mpr (hlink.exists_chain hf)) hx
  have hlinked := hstart.linkTiers hne (j := 0) (x := inst.instanceID) rfl
  rw [← trimmedTiers_zero inst] at hlinked
  have hids : (trimmedTiers inst 0).map (·.id) = inst.tierIDs := by rw [trimmedTiers_zero]; rfl
  rw [hids] at hlinked
  refine ⟨hlinked.invariant, ⟨?_, ?_⟩, ?_, ?_, ?_, ?_⟩
  · intro m q p hq hp
    have := hlinked.new m q p hq hp
    rwa [Nat.zero_add] at this
  · intro r key hr
    refine (hlinked.old r key ?_).trans (hchild r key)
    intro m q hq hkey
    rw [Nat.zero_add]
    exact hr m q hq hkey
  · obtain ⟨y, hy, htop⟩ := hlinked.top
    exact ⟨y, hy, by rw [Nat.zero_add] at htop; exact htop⟩
  · intro level y
    refine (hlinked.nodes level y).trans (or_congr Iff.rfl ?_)
    constructor
    · rintro ⟨m, rfl, hm⟩
      rwa [Nat.zero_add]
    · exact fun hy => ⟨level, (Nat.zero_add level).symm, hy⟩
  · refine (congrArg Vertex.name (hlinked.frame inst.instanceID)).trans ?_
    show (Function.update st.heap (.inst inst.instanceID) _ (.inst inst.instanceID)).name = _
    rw [Function.update_self]
  · intro x hx
    refine (hlinked.frame x).trans (Function.update_of_ne ?_ _ _)
    exact fun heq => hx (Ref.inst.inj heq)

/-- The height of a vertex: its position on a chain. -/
def rank : Ref → Nat
  | .sw level _ => level + 1
  | _ => 0

theorem rank_place (i : Nat) (x : String) : rank (place i x) = i := by
  cases i with
  | zero => rfl
  | succ level => rfl

/-- The last element of a chain, in an earlier chain, is last there. -/
theorem getLast?_of_mem {ch a : List String} (hf : IsForest (cs ++ [ch])) (ha : a ∈ cs) {t : Nat}
    {y : String} (ht : ch[t]? = some y) (hlast : ch.length = t + 1) (hy : y ∈ a) :
    a.getLast? = some y := by
  obtain ⟨i, hi⟩ := List.mem_iff_getElem?.mp hy
  have hlen := hf.length_add (List.mem_append_left _ ha) (List.mem_append_cons_self) hi ht
  rw [List.getLast?_eq_getElem?, show a.length - 1 = i by omega, hi]

/-- The forest after another chain. -/
theorem forest_append {ch : List String} (hf : IsForest (cs ++ [ch])) {t : Nat} {y : String}
    (ht : ch[t]? = some y) (hlast : ch.length = t + 1) (x : String) (r : Ref) :
    ((∃ a ∈ cs ++ [ch], a.getLast? = some x) ∧ r = place (firstPos (cs ++ [ch]) x) x) ↔
      ((∃ a ∈ cs, a.getLast? = some x) ∧ r = place (firstPos cs x) x) ∨
        ((∀ a ∈ cs, y ∉ a) ∧ x = y ∧ r = place t y) := by
  have hclast : ch.getLast? = some y := by
    rw [List.getLast?_eq_getElem?, hlast]
    exact ht
  constructor
  · rintro ⟨⟨a, ha, hx⟩, rfl⟩
    by_cases hold : ∃ b ∈ cs, b.getLast? = some x
    · left
      obtain ⟨b, hb, hbx⟩ := hold
      refine ⟨⟨b, hb, hbx⟩, ?_⟩
      rw [firstPos_append ⟨b, hb, List.mem_of_getLast? hbx⟩]
    · right
      rcases List.mem_append.mp ha with ha | ha
      · exact absurd ⟨a, ha, hx⟩ hold
      · obtain rfl := List.mem_singleton.mp ha
        obtain rfl := Option.some.inj (hx.symm.trans hclast)
        have hnew : ∀ b ∈ cs, x ∉ b :=
          fun b hb hxb => hold ⟨b, hb, getLast?_of_mem hf hb ht hlast hxb⟩
        exact ⟨hnew, rfl, by rw [firstPos_of_new hf hnew ht]⟩
  · rintro (⟨⟨a, ha, hx⟩, rfl⟩ | ⟨hnew, rfl, rfl⟩)
    · refine ⟨⟨a, List.mem_append_left _ ha, hx⟩, ?_⟩
      rw [firstPos_append ⟨a, ha, List.mem_of_getLast? hx⟩]
    · exact ⟨⟨ch, List.mem_append_cons_self, hclast⟩, by rw [firstPos_of_new hf hnew ht]⟩

/-- What linking the chain of a record has done; its top element is `y`. -/
structure Linked (names : String → String) (cs : List (List String)) (st : BuildState)
    (inst : InstanceTopology) (linked : LinkState) (y : String) : Prop where
  id : ∀ r, (linked.heap r).id = r.id
  chain : ChainLinked inst.chain st.heap linked.heap
  last : inst.chain[inst.tierIDs.length]? = some y
  top : linked.top = place inst.tierIDs.length y
  nodes : ∀ level x, (level, x) ∈ linked.nodes ↔ ∃ a ∈ cs ++ [inst.chain], a[level + 1]? = some x
  names : ∀ a ∈ cs ++ [inst.chain], ∀ x, a[0]? = some x → (linked.heap (.inst x)).name = names x

section

variable (h : BuildInvariant names cs st) (hg : GoodChains (cs ++ [inst.chain]))

include h hg

section Linked

variable {linked : LinkState} {y : String} (hl : Linked names cs st inst linked y)
  (i2n : GoMap String String)
  (domainMap : DomainMap)

include hl

/-- The top element has a root already, which the chain is merged into. -/
theorem BuildInvariant.addInstance_merged {first : Ref} (hfirst : st.forest.lookup y = some first)
    {heap : Heap} (hmerge : mergeVertices order fuel linked.heap first linked.top = some heap) :
    BuildInvariant names (cs ++ [inst.chain])
      { heap := heap, nodes := linked.nodes, forest := st.forest, i2n := i2n,
        domainMap := domainMap } := by
  have hlast : inst.chain.length = inst.tierIDs.length + 1 := rfl
  obtain ⟨⟨a, ha, hay⟩, rfl⟩ := (h.forest y first).mp hfirst
  have hya : ∃ b ∈ cs, y ∈ b := ⟨a, ha, List.mem_of_getLast? hay⟩
  rw [← firstPos_append hya [inst.chain], hl.top] at hmerge
  have hforest : ∀ x r, st.forest.lookup x = some r ↔
      (∃ a ∈ cs ++ [inst.chain], a.getLast? = some x) ∧
      r = place (firstPos (cs ++ [inst.chain]) x) x := by
    intro x r
    rw [forest_append hg.forest hl.last hlast, h.forest]
    refine (or_iff_left ?_).symm
    rintro ⟨hnot, -, -⟩
    exact hnot a ha (List.mem_of_getLast? hay)
  have hmerged := merged_mergeVertices hmerge
  have hid : ∀ r, (heap r).id = r.id := fun r => (hmerged.id r).trans (hl.id r)
  by_cases hpos : firstPos (cs ++ [inst.chain]) y = inst.tierIDs.length
  · -- The root is the vertex that was linked last.
    rw [hpos] at hmerge
    obtain rfl : linked.heap = heap := by
      cases fuel with
      | zero => exact absurd hmerge (by simp [mergeVertices])
      | succ fuel =>
        rw [mergeVertices_succ, if_pos rfl] at hmerge
        exact Option.some.inj hmerge
    exact ⟨hid, hl.nodes, hl.chain.complete_of_top hg.forest hg.settled h.child hl.last hlast hpos,
      hforest, hl.names⟩
  · have hc : inst.chain ∈ cs ++ [inst.chain] := List.mem_append_cons_self
    have hpair : CopyOf (cs ++ [inst.chain]) (place (firstPos (cs ++ [inst.chain]) y) y)
        (place inst.tierIDs.length y) :=
      ⟨_, hc, _, y, hl.last, fun heq => hpos heq.symm, rfl, rfl⟩
    have hwithin := hl.chain.within hg.settled fun r key w => (h.child r key w).mp
    have hres := mergeVertices_spec hwithin (hl.chain.plan hg.forest hg.settled h.child) hpair
      hmerge
    refine ⟨hid, hl.nodes, hl.chain.complete hg.forest hg.settled h.child hmerged
      hres.within hl.last hlast
      hres.covered, hforest, fun b hb x hx => ?_⟩
    -- A compute node is never merged into.
    refine (congrArg Vertex.name (hres.frame (.inst x) ?_)).trans (hl.names b hb x hx)
    rintro s ⟨b', hb', k, q, hk, hkne, hd, -⟩
    have hplace : place 0 x = place (firstPos (cs ++ [inst.chain]) q) q := hd
    obtain ⟨hzero, rfl⟩ := place_inj.mp hplace
    exact hkne ((hg.apart b hb b' hb' x k hx hk).trans hzero)

/-- The top element is a new root: the chain has nothing in common with the earlier ones. -/
theorem BuildInvariant.addInstance_root (hnone : st.forest.lookup y = none) :
    BuildInvariant names (cs ++ [inst.chain])
      { heap := linked.heap, nodes := linked.nodes, forest := st.forest.insert y linked.top,
        i2n := i2n
        domainMap := domainMap } := by
  have hlast : inst.chain.length = inst.tierIDs.length + 1 := rfl
  have hynew : ∀ a ∈ cs, y ∉ a := by
    intro a ha hya
    have hlook := (h.forest y _).mpr ⟨⟨a, ha, getLast?_of_mem hg.forest ha hl.last hlast hya⟩, rfl⟩
    exact absurd (hnone.symm.trans hlook) (by simp)
  have hpos := firstPos_of_new hg.forest hynew hl.last
  refine ⟨hl.id, hl.nodes, hl.chain.complete_of_top hg.forest hg.settled h.child hl.last hlast hpos,
    fun x r => ?_,
    hl.names⟩
  rw [forest_append hg.forest hl.last hlast, GoMap.lookup_insert_eq_ite, hl.top]
  by_cases hx : x = y
  · subst hx
    rw [if_pos rfl]
    constructor
    · intro hr
      exact Or.inr ⟨hynew, rfl, (Option.some.inj hr).symm⟩
    · rintro (⟨⟨a, ha, hax⟩, -⟩ | ⟨-, -, rfl⟩)
      · exact absurd (List.mem_of_getLast? hax) (hynew a ha)
      · rfl
  · rw [if_neg hx, h.forest]
    exact (or_iff_left fun hr => hx hr.2.1).symm

end Linked

variable (hnew : ∀ a ∈ cs, inst.instanceID ∉ a) (hne : ∀ tier ∈ inst.fabricTiers, tier.id ≠ "")

include hnew hne

/-- The chain of a record is linked up to its top. -/
theorem BuildInvariant.linked {nodeName : String} (hname : names inst.instanceID = nodeName) :
    ∃ y, Linked names cs st inst (linkInstance st inst nodeName 0) y := by
  obtain ⟨hinv, hchain, ⟨y, hy, htop⟩, hnodes, hleaf, hframe⟩ :=
    h.tiersLinked hg.of_append.forest nodeName hnew hne
  refine ⟨y, hinv.id, hchain, hy, htop, fun level x => ?_, fun a ha x hx => ?_⟩
  · rw [hnodes, h.nodes]
    constructor
    · rintro (⟨a, ha, hx⟩ | hx)
      · exact ⟨a, List.mem_append_left _ ha, hx⟩
      · exact ⟨_, List.mem_append_cons_self, hx⟩
    · rintro ⟨a, ha, hx⟩
      rcases List.mem_append.mp ha with ha | ha
      · exact Or.inl ⟨a, ha, hx⟩
      · exact Or.inr (List.mem_singleton.mp ha ▸ hx)
  · rcases List.mem_append.mp ha with ha | ha
    · rw [hframe x fun heq => hnew a ha (heq ▸ List.mem_of_getElem? hx)]
      exact h.inst a ha x hx
    · rw [List.mem_singleton.mp ha] at hx
      obtain rfl : inst.instanceID = x := Option.some.inj hx
      rw [hleaf, hname]

/-- **One more record keeps the invariant.** -/
theorem BuildInvariant.addInstance {st' : BuildState} {nodeName : String}
    (hreq : st.i2n.lookup inst.instanceID = some nodeName)
    (hname : names inst.instanceID = nodeName)
    (hrun : addInstance order fuel 0 st inst = some st') :
    BuildInvariant names (cs ++ [inst.chain]) st' ∧ st'.i2n = st.i2n.erase inst.instanceID := by
  obtain ⟨y, hl⟩ := h.linked hg hnew hne hname
  have hid : ((linkInstance st inst nodeName 0).heap (linkInstance st inst nodeName 0).top).id =
      y := by
    rw [hl.id, hl.top, id_place]
  obtain ⟨heap, forest, rfl, ⟨first, hfirst, rfl, hmerge⟩ | ⟨hnone, rfl, rfl⟩⟩ :=
    addInstance_cases hreq rfl hrun
  · rw [hid] at hfirst
    exact ⟨h.addInstance_merged hg hl _ _ hfirst hmerge, rfl⟩
  · rw [hid] at hnone
    rw [hid]
    exact ⟨h.addInstance_root hg hl _ _ hnone, rfl⟩

/-- **The record is added** once the fuel exceeds the length of its chain. -/
theorem BuildInvariant.exists_addInstance (hfuel : inst.chain.length ≤ fuel) :
    ∃ st', Topology.addInstance order fuel 0 st inst = some st' := by
  rw [Topology.addInstance]
  split
  · exact ⟨st, rfl⟩
  · rename_i nodeName _
    obtain ⟨hinv, hchain, ⟨y, hy, htop⟩, -⟩ := h.tiersLinked hg.of_append.forest nodeName hnew hne
    have hlast : inst.chain.length = inst.tierIDs.length + 1 := rfl
    generalize linkInstance st inst nodeName 0 = linked at *
    have hid : (linked.heap linked.top).id = y := by rw [hinv.id, htop, id_place]
    dsimp only
    split
    · rename_i first hfirst
      rw [hid] at hfirst
      obtain ⟨⟨a, ha, hay⟩, rfl⟩ := (h.forest y first).mp hfirst
      have hya : ∃ b ∈ cs, y ∈ b := ⟨a, ha, List.mem_of_getLast? hay⟩
      rw [← firstPos_append hya [inst.chain], htop]
      obtain ⟨n, rfl⟩ : ∃ n, fuel = n + 1 := ⟨fuel - 1, by omega⟩
      by_cases hpos : firstPos (cs ++ [inst.chain]) y = inst.tierIDs.length
      · rw [hpos, mergeVertices_succ, if_pos rfl]
        exact ⟨_, rfl⟩
      · have hc : inst.chain ∈ cs ++ [inst.chain] := List.mem_append_cons_self
        have hpair : CopyOf (cs ++ [inst.chain]) (place (firstPos (cs ++ [inst.chain]) y) y)
            (place inst.tierIDs.length y) :=
          ⟨_, hc, _, y, hy, fun heq => hpos heq.symm, rfl, rfl⟩
        have hrank : ∀ d s, CopyOf (cs ++ [inst.chain]) d s → ∀ key child,
            TierLink (cs ++ [inst.chain]) s key child → rank child < rank s := by
          rintro d s ⟨b, hb, k, q, hk, hkne, -, rfl⟩ key child hw
          obtain ⟨-, -, m, rfl, -, -, rfl⟩ := hw.of_copy hkne
          rw [rank_place, rank_place]
          omega
        obtain ⟨heap, hheap⟩ := exists_mergeVertices hrank
          (hchain.within hg.settled fun r key w => (h.child r key w).mp)
          (hchain.plan hg.forest hg.settled h.child) hpair
          (show rank (place inst.tierIDs.length y) < n + 1 by rw [rank_place]; omega)
        exact ⟨_, by rw [hheap, Option.map_some]⟩
    · exact ⟨_, rfl⟩

end

end Step

/-! ## All records -/

/-- The chains of the requested records. -/
def requestedChains (i2n : GoMap String String) (records : ClusterTopology) : List (List String) :=
  (records.filter fun inst => (i2n.lookup inst.instanceID).isSome).map InstanceTopology.chain

/-- The chains of the requested records. -/
theorem mem_requestedChains {i2n : GoMap String String} {records : ClusterTopology}
    {ch : List String} :
    ch ∈ requestedChains i2n records ↔
      ∃ inst ∈ records, (∃ name, i2n.lookup inst.instanceID = some name) ∧ inst.chain = ch := by
  simp only [requestedChains, List.mem_map, List.mem_filter, Option.isSome_iff_exists]
  constructor
  · rintro ⟨inst, ⟨hmem, hreq⟩, rfl⟩
    exact ⟨inst, hmem, hreq, rfl⟩
  · rintro ⟨inst, hmem, hreq, rfl⟩
    exact ⟨inst, ⟨hmem, hreq⟩, rfl⟩

/-- What holds after the records `done`, when `i2n` was requested: a requested instance is no longer
wanted once its record was seen. -/
structure RunInvariant (i2n : GoMap String String) (done : ClusterTopology) (st : BuildState) :
    Prop where
  build : BuildInvariant (fun x => (i2n.lookup x).getD "") (requestedChains i2n done) st
  wanted : ∀ x, st.i2n.lookup x = if x ∈ done.map (·.instanceID) then none else i2n.lookup x

section Run

variable {i2n : GoMap String String} {done rest : ClusterTopology} {inst : InstanceTopology}
  {st : BuildState}

theorem requestedChains_append (i2n : GoMap String String) (rs rs' : ClusterTopology) :
    requestedChains i2n (rs ++ rs') = requestedChains i2n rs ++ requestedChains i2n rs' := by
  rw [requestedChains, List.filter_append, List.map_append]
  rfl

/-- The next record is new and, if it is requested, still wanted. -/
theorem RunInvariant.next (h : RunInvariant i2n done st)
    (hids : ((done ++ inst :: rest).map (·.instanceID)).Nodup) :
    inst.instanceID ∉ done.map (·.instanceID) ∧
      st.i2n.lookup inst.instanceID = i2n.lookup inst.instanceID := by
  rw [List.map_append, List.map_cons, List.nodup_append] at hids
  have hnot : inst.instanceID ∉ done.map (·.instanceID) :=
    fun hmem => hids.2.2 _ hmem _ List.mem_cons_self rfl
  exact ⟨hnot, by rw [h.wanted, if_neg hnot]⟩

/-- The instance of a requested record is in no earlier chain. -/
theorem notMem_of_apart (hg : GoodChains (requestedChains i2n (done ++ inst :: rest)))
    (hnot : inst.instanceID ∉ done.map (·.instanceID)) {name : String}
    (hreq : i2n.lookup inst.instanceID = some name) :
    ∀ a ∈ requestedChains i2n done, inst.instanceID ∉ a := by
  intro a ha hmem
  obtain ⟨d, hd, -, rfl⟩ := mem_requestedChains.mp ha
  obtain ⟨k, hk⟩ := List.mem_iff_getElem?.mp hmem
  have hinst : inst.chain ∈ requestedChains i2n (done ++ inst :: rest) :=
    mem_requestedChains.mpr ⟨inst, List.mem_append_cons_self, ⟨name, hreq⟩, rfl⟩
  have ha' : d.chain ∈ requestedChains i2n (done ++ inst :: rest) := by
    rw [requestedChains_append]
    exact List.mem_append_left _ ha
  obtain rfl : k = 0 := hg.apart _ hinst _ ha' inst.instanceID k rfl hk
  obtain heq : d.instanceID = inst.instanceID := Option.some.inj hk
  exact hnot (List.mem_map.mpr ⟨d, hd, heq⟩)

theorem GoodChains.requested {name : String}
    (hg : GoodChains (requestedChains i2n (done ++ inst :: rest)))
    (hreq : i2n.lookup inst.instanceID = some name) :
    requestedChains i2n [inst] = [inst.chain] ∧
    GoodChains (requestedChains i2n done ++ [inst.chain]) := by
  have hone : requestedChains i2n [inst] = [inst.chain] := by simp [requestedChains, hreq]
  rw [← List.singleton_append, ← List.append_assoc, requestedChains_append,
    requestedChains_append, hone] at hg
  exact ⟨hone, hg.of_append⟩

/-- **One record.** -/
theorem RunInvariant.step {st' : BuildState} (h : RunInvariant i2n done st)
    (hg : GoodChains (requestedChains i2n (done ++ inst :: rest)))
    (hids : ((done ++ inst :: rest).map (·.instanceID)).Nodup)
    (hne : ∀ tier ∈ inst.fabricTiers, tier.id ≠ "")
    (hrun : addInstance order fuel 0 st inst = some st') :
    RunInvariant i2n (done ++ [inst]) st' := by
  obtain ⟨hnot, hwanted⟩ := h.next hids
  have hmem : ∀ x, x ∈ (done ++ [inst]).map (·.instanceID) ↔
      x ∈ done.map (·.instanceID) ∨ x = inst.instanceID := by
    intro x
    rw [List.map_append, List.map_singleton, List.mem_append, List.mem_singleton]
  cases hreq : i2n.lookup inst.instanceID with
  | none =>
    -- The record is skipped.
    rw [hreq] at hwanted
    rw [addInstance, hwanted] at hrun
    obtain rfl := Option.some.inj hrun
    refine ⟨?_, fun x => ?_⟩
    · have hnil : requestedChains i2n [inst] = [] := by simp [requestedChains, hreq]
      rw [requestedChains_append, hnil, List.append_nil]
      exact h.build
    · rw [h.wanted]
      by_cases hx : x = inst.instanceID
      · rw [hx, if_neg hnot, if_pos ((hmem _).mpr (Or.inr rfl)), hreq]
      · simp only [hmem, hx, or_false]
  | some name =>
    rw [hreq] at hwanted
    obtain ⟨hone, hg'⟩ := hg.requested hreq
    obtain ⟨hbuild, hi2n⟩ := h.build.addInstance hg' (notMem_of_apart hg hnot hreq) hne hwanted
      (by rw [hreq, Option.getD_some]) hrun
    refine ⟨?_, fun x => ?_⟩
    · rwa [requestedChains_append, hone]
    · rw [hi2n]
      by_cases hx : x = inst.instanceID
      · rw [hx, AList.lookup_erase, if_pos ((hmem _).mpr (Or.inr rfl))]
      · rw [AList.lookup_erase_ne hx, h.wanted]
        simp only [hmem, hx, or_false]

/-- **All records.** -/
theorem RunInvariant.foldlM {st' : BuildState} (h : RunInvariant i2n [] st)
    (hg : GoodChains (requestedChains i2n rest)) (hids : (rest.map (·.instanceID)).Nodup)
    (hne : ∀ inst ∈ rest, ∀ tier ∈ inst.fabricTiers, tier.id ≠ "")
    (hrun : rest.foldlM (addInstance order fuel 0) st = some st') : RunInvariant i2n rest st' := by
  refine Loops.foldlM_some h (fun done inst back st st' heq hst hstep => ?_) hrun
  subst heq
  exact hst.step hg hids (hne inst (by simp)) hstep

/-- One more record is added without an error. -/
theorem RunInvariant.exists_step (h : RunInvariant i2n done st)
    (hg : GoodChains (requestedChains i2n (done ++ inst :: rest)))
    (hids : ((done ++ inst :: rest).map (·.instanceID)).Nodup)
    (hne : ∀ tier ∈ inst.fabricTiers, tier.id ≠ "") (hfuel : inst.chain.length ≤ fuel) :
    ∃ st', addInstance order fuel 0 st inst = some st' := by
  obtain ⟨hnot, hwanted⟩ := h.next hids
  cases hreq : i2n.lookup inst.instanceID with
  | none =>
    rw [addInstance, hwanted, hreq]
    exact ⟨st, rfl⟩
  | some name =>
    exact h.build.exists_addInstance (hg.requested hreq).2 (notMem_of_apart hg hnot hreq) hne hfuel

/-- **`ToGraph` returns** once the fuel is at least the length of every chain. -/
theorem RunInvariant.exists_foldlM (h : RunInvariant i2n [] st)
    (hg : GoodChains (requestedChains i2n rest)) (hids : (rest.map (·.instanceID)).Nodup)
    (hne : ∀ inst ∈ rest, ∀ tier ∈ inst.fabricTiers, tier.id ≠ "")
    (hfuel : ∀ inst ∈ rest, inst.chain.length ≤ fuel) :
    ∃ st', rest.foldlM (addInstance order fuel 0) st = some st' := by
  obtain ⟨st', hst', -⟩ :=
    Loops.exists_foldlM (f := addInstance order fuel 0) (l := rest) h
    fun done inst back st heq hst => by
    subst heq
    obtain ⟨st₁, hst₁⟩ := hst.exists_step hg hids (hne inst (by simp)) (hfuel inst (by simp))
    exact ⟨st₁, hst₁, hst.step hg hids (hne inst (by simp)) hst₁⟩
  exact ⟨st', hst'⟩

end Run

end Topograph.Topology
