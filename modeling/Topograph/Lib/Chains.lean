import Mathlib.Data.List.Basic

/-! # Chains of a forest

A list of chains describes a forest when every element has the same successor in all chains that
contain it. Chains then agree from a common element on, and an element has one position in a chain.
The position of an element in the first chain that contains it (`firstPos`) can differ from its
position in a later one; `Splits` is the pattern of three chains in which that matters. -/

namespace Topograph

universe u

variable {α : Type u}

/-- Every element has the same successor, or none, wherever it occurs. -/
def IsForest (cs : List (List α)) : Prop :=
  ∀ a ∈ cs, ∀ b ∈ cs, ∀ i k x, a[i]? = some x → b[k]? = some x → a[i + 1]? = b[k + 1]?

namespace IsForest

variable {cs : List (List α)} {a b : List α} {i k : Nat} {x : α}

/-- It is enough to look at positions in the chains. -/
theorem iff_bounded {cs : List (List α)} : IsForest cs ↔
    ∀ a ∈ cs, ∀ b ∈ cs, ∀ i < a.length, ∀ k < b.length, a[i]? = b[k]? → a[i + 1]? = b[k + 1]? := by
  constructor
  · intro h a ha b hb i hi k _ heq
    rw [List.getElem?_eq_getElem hi] at heq
    exact h a ha b hb i k _ (List.getElem?_eq_getElem hi) heq.symm
  · intro h a ha b hb i k x hi hk
    exact h a ha b hb i (List.getElem?_eq_some_iff.mp hi).1 k (List.getElem?_eq_some_iff.mp hk).1
      (hi.trans hk.symm)

instance [DecidableEq α] (cs : List (List α)) : Decidable (IsForest cs) :=
  decidable_of_iff' _ iff_bounded

section

variable (h : IsForest cs)

include h

theorem mono {cs' : List (List α)} (hsub : ∀ a ∈ cs', a ∈ cs) : IsForest cs' :=
  fun a ha b hb => h a (hsub a ha) b (hsub b hb)

/-- Chains agree from a common element on. -/
theorem getElem?_add (ha : a ∈ cs) (hb : b ∈ cs) (hi : a[i]? = some x) (hk : b[k]? = some x)
    (m : Nat) : a[i + m]? = b[k + m]? := by
  induction m with
  | zero => exact hi.trans hk.symm
  | succ m ih =>
    cases hy : a[i + m]? with
    | some y => exact h a ha b hb _ _ y hy (ih ▸ hy)
    | none =>
      -- Both chains have ended.
      have hyb := ih ▸ hy
      rw [List.getElem?_eq_none_iff] at hy hyb
      rw [List.getElem?_eq_none (by omega), List.getElem?_eq_none (by omega)]

/-- As much is left of both chains behind a common element. -/
theorem length_add (ha : a ∈ cs) (hb : b ∈ cs) (hi : a[i]? = some x) (hk : b[k]? = some x) :
    a.length + k = b.length + i := by
  have hend : ∀ m, a.length ≤ i + m ↔ b.length ≤ k + m := by
    intro m
    rw [← List.getElem?_eq_none_iff, ← List.getElem?_eq_none_iff, h.getElem?_add ha hb hi hk m]
  obtain ⟨hia, -⟩ := List.getElem?_eq_some_iff.mp hi
  obtain ⟨hkb, -⟩ := List.getElem?_eq_some_iff.mp hk
  have h1 := (hend (a.length - i)).mp (by omega)
  have h2 := (hend (b.length - k)).mpr (by omega)
  omega

/-- **An element has one position in a chain.** -/
theorem index_unique (ha : a ∈ cs) (hi : a[i]? = some x) (hk : a[k]? = some x) : i = k := by
  have := h.length_add ha ha hi hk
  omega

/-- From a common element on two chains agree. -/
theorem drop_eq (ha : a ∈ cs) (hb : b ∈ cs) (hi : a[i]? = some x) (hk : b[k]? = some x) :
    a.drop i = b.drop k := by
  apply List.ext_getElem?
  intro m
  rw [List.getElem?_drop, List.getElem?_drop]
  exact h.getElem?_add ha hb hi hk m

end

end IsForest

theorem drop_eq_cons_of_getElem? {a : List α} {i : Nat} {x : α} (hi : a[i]? = some x) :
    a.drop i = x :: a.drop (i + 1) := by
  obtain ⟨hlt, rfl⟩ := List.getElem?_eq_some_iff.mp hi
  exact List.drop_eq_getElem_cons hlt

section First

variable [DecidableEq α]

/-- The position of an element in the first chain that contains it. -/
def firstPos (cs : List (List α)) (x : α) : Nat := ((cs.find? (x ∈ ·)).map (·.idxOf x)).getD 0

/-- The first chain with an element gives its position. -/
theorem firstPos_eq {cs pre post : List (List α)} {a : List α} {x : α} {i : Nat} (h : IsForest cs)
    (hcs : cs = pre ++ a :: post) (hpre : ∀ b ∈ pre, x ∉ b) (hi : a[i]? = some x) :
    firstPos cs x = i := by
  have hmem : x ∈ a := List.mem_of_getElem? hi
  have hfind : cs.find? (x ∈ ·) = some a := by
    rw [hcs, List.find?_append, List.find?_eq_none.mpr (by simpa using hpre), Option.none_or,
      List.find?_cons_of_pos (by simpa using hmem)]
  rw [firstPos, hfind, Option.map_some, Option.getD_some]
  have hidx : a[a.idxOf x]? = some x := List.getElem?_idxOf hmem
  exact h.index_unique (hcs ▸ List.mem_append_cons_self) hidx hi

/-- An element of the chains has a first chain. -/
theorem exists_first {cs : List (List α)} {x : α} (hx : ∃ a ∈ cs, x ∈ a) :
    ∃ pre a post, cs = pre ++ a :: post ∧ (∀ b ∈ pre, x ∉ b) ∧ x ∈ a := by
  induction cs with
  | nil =>
    obtain ⟨a, ha, -⟩ := hx
    exact absurd ha List.not_mem_nil
  | cons ch cs ih =>
    by_cases hc : x ∈ ch
    · exact ⟨[], ch, cs, rfl, by simp, hc⟩
    · obtain ⟨pre, a, post, rfl, hpre, ha⟩ := ih (by
        obtain ⟨a, ha, hxa⟩ := hx
        rcases List.mem_cons.mp ha with rfl | ha
        · exact absurd hxa hc
        · exact ⟨a, ha, hxa⟩)
      exact ⟨ch :: pre, a, post, rfl, List.forall_mem_cons.mpr ⟨hc, hpre⟩, ha⟩

/-- Later chains do not change the position of an element. -/
theorem firstPos_append {cs : List (List α)} {x : α} (hx : ∃ a ∈ cs, x ∈ a) (cs' : List (List α)) :
    firstPos (cs ++ cs') x = firstPos cs x := by
  obtain ⟨a, ha, hxa⟩ := hx
  have hsome : (cs.find? (x ∈ ·)).isSome := List.find?_isSome.mpr ⟨a, ha, decide_eq_true hxa⟩
  obtain ⟨b, hb⟩ := Option.isSome_iff_exists.mp hsome
  rw [firstPos, firstPos, List.find?_append, hb, Option.some_or]

/-- No chain leaves the first position of an element to the first position of the next one and
misses it: where an element stands at its first position, so does its predecessor. -/
def Settled (cs : List (List α)) : Prop :=
  ∀ ch ∈ cs, ∀ i q p, ch[i + 1]? = some q → ch[i]? = some p → firstPos cs q = i + 1 →
    firstPos cs p = i

/-- From an element at its first position down, all elements are at theirs. -/
theorem Settled.of_le {cs : List (List α)} (h : Settled cs) {ch : List α} (hc : ch ∈ cs) {t : Nat}
    {y : α} (ht : ch[t]? = some y) (hpos : firstPos cs y = t) {i : Nat} {x : α}
    (hi : ch[i]? = some x) (hle : i ≤ t) :
    firstPos cs x = i := by
  induction t generalizing y with
  | zero =>
    obtain rfl : i = 0 := Nat.le_zero.mp hle
    obtain rfl := Option.some.inj (hi.symm.trans ht)
    exact hpos
  | succ t ih =>
    rcases Nat.lt_or_eq_of_le hle with hlt | rfl
    · have hlen := (List.getElem?_eq_some_iff.mp ht).1
      obtain ⟨z, hz⟩ : ∃ z, ch[t]? = some z := ⟨_, List.getElem?_eq_getElem (by omega)⟩
      exact ih hz (h ch hc t y z ht hz hpos) (by omega)
    · obtain rfl := Option.some.inj (hi.symm.trans ht)
      exact hpos

/-- The chains at the front are settled, too. -/
theorem Settled.of_append {cs cs' : List (List α)} (h : Settled (cs ++ cs')) : Settled cs := by
  intro ch hc i q p hq hp hpos
  rw [← firstPos_append ⟨ch, hc, List.mem_of_getElem? hq⟩ cs'] at hpos
  rw [← firstPos_append ⟨ch, hc, List.mem_of_getElem? hp⟩ cs']
  exact h ch (List.mem_append_left _ hc) i q p hq hp hpos

end First

/-- Three chains in order: the first and the last pass `q` at one position and the second at
another, and the second and the last come from `p`, which the first does not contain. -/
def Splits (cs : List (List α)) : Prop :=
  ∃ a b ch, [a, b, ch].Sublist cs ∧ ∃ i k q p, a[i + 1]? = some q ∧ p ∉ a ∧ b[k + 1]? = some q ∧
    b[k]? = some p ∧ ch[i + 1]? = some q ∧ ch[i]? = some p ∧ i ≠ k

/-- Three elements of an image, in order. -/
theorem exists_of_triple_sublist {β : Type u} {f : α → β} {a b ch : β} {l : List α}
    (h : [a, b, ch].Sublist (l.map f)) :
    ∃ x y z, [x, y, z].Sublist l ∧ f x = a ∧ f y = b ∧ f z = ch := by
  obtain ⟨l', hl', heq⟩ := List.sublist_map_iff.mp h
  obtain ⟨x, l', rfl, hx, heq⟩ := List.map_eq_cons_iff.mp heq.symm
  obtain ⟨y, l', rfl, hy, heq⟩ := List.map_eq_cons_iff.mp heq
  obtain ⟨z, l', rfl, hz, heq⟩ := List.map_eq_cons_iff.mp heq
  obtain rfl := List.map_eq_nil_iff.mp heq
  exact ⟨x, y, z, hl', hx, hy, hz⟩

/-- **Chains without such three are settled.** -/
theorem settled_of_not_splits [DecidableEq α] {cs : List (List α)} (h : IsForest cs)
    (hs : ¬ Splits cs) : Settled cs := by
  intro ch hc i q p hq hp hpos
  by_contra hne
  -- The first chain with `q`; it does not contain `p`.
  obtain ⟨pre, a, post, hcs, hpre, hqa⟩ := exists_first ⟨ch, hc, List.mem_of_getElem? hq⟩
  have ha : a ∈ cs := hcs ▸ List.mem_append_cons_self
  obtain ⟨ia, hia⟩ := List.mem_iff_getElem?.mp hqa
  obtain rfl : i + 1 = ia := hpos.symm.trans (firstPos_eq h hcs hpre hia)
  have hup : ∀ b ∈ cs, ∀ k, b[k]? = some p → b[k + 1]? = some q :=
    fun b hb k hk => (h b hb ch hc k i p hk hp).trans hq
  have hppre : ∀ b ∈ pre, p ∉ b := by
    intro b hb hpb
    obtain ⟨k, hk⟩ := List.mem_iff_getElem?.mp hpb
    exact hpre b hb (List.mem_of_getElem? (hup b (hcs ▸ List.mem_append_left _ hb) k hk))
  have hpa : p ∉ a := by
    intro hpa
    obtain ⟨k, hk⟩ := List.mem_iff_getElem?.mp hpa
    have hki := h.index_unique ha (hup a ha k hk) hia
    exact hne ((firstPos_eq h hcs hppre hk).trans (by omega))
  -- The first chain with `p` comes later, and `ch` behind it.
  have hcpost : ch ∈ post := by
    rw [hcs] at hc
    rcases List.mem_append.mp hc with hc | hc
    · exact absurd (List.mem_of_getElem? hp) (hppre ch hc)
    · rcases List.mem_cons.mp hc with rfl | hc
      · exact absurd (List.mem_of_getElem? hp) hpa
      · exact hc
  obtain ⟨pre', b, post', hpost, hpre', hpb⟩ := exists_first ⟨ch, hcpost, List.mem_of_getElem? hp⟩
  have hb : b ∈ cs := by
    rw [hcs, hpost]
    simp
  obtain ⟨k, hk⟩ := List.mem_iff_getElem?.mp hpb
  have hfirst : firstPos cs p = k := by
    have hsplit : cs = (pre ++ a :: pre') ++ b :: post' := by
      rw [hcs, hpost, List.append_assoc, List.cons_append]
    refine firstPos_eq h hsplit (fun b' hb' => ?_) hk
    rcases List.mem_append.mp hb' with hb' | hb'
    · exact hppre b' hb'
    · rcases List.mem_cons.mp hb' with rfl | hb'
      · exact hpa
      · exact hpre' b' hb'
  have hik : i ≠ k := fun hik => hne (hfirst.trans hik.symm)
  have hcpost' : ch ∈ post' := by
    rw [hpost] at hcpost
    rcases List.mem_append.mp hcpost with hc' | hc'
    · exact absurd (List.mem_of_getElem? hp) (hpre' ch hc')
    · rcases List.mem_cons.mp hc' with rfl | hc'
      · exact absurd (h.index_unique hc hp hk) hik
      · exact hc'
  refine hs ⟨a, b, ch, ?_, i, k, q, p, hia, hpa, hup b hb k hk, hk, hq, hp, hik⟩
  rw [hcs, hpost]
  refine List.Sublist.trans ?_ (List.sublist_append_right _ _)
  refine List.Sublist.cons_cons a (List.Sublist.trans ?_ (List.sublist_append_right _ _))
  exact List.Sublist.cons_cons b (List.singleton_sublist.mpr hcpost')

end Topograph
