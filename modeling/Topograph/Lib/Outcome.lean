import Mathlib.Data.List.Forall2
import Topograph.Lib.Loops

/-! # Programs that return, fail or do not end

An `Outcome` is a result or an error, or nothing when the program does not end. Three rules for
programs made of such steps: what a successful loop keeps (`foldlM_eq_pure`), when a loop returns
(`Returns.foldlM`), and when two programs go through the same steps (`Agree`). -/

namespace Topograph

/-- What a fallible program comes to; `none` when it does not end. -/
abbrev Outcome (ε : Type) := ExceptT ε Option

namespace Outcome

variable {ε α β σ τ : Type}

/-- A program without an end. -/
def loops : Outcome ε α := (none : Option (Except ε α))

theorem cases (x : Outcome ε α) : x = loops ∨ (∃ e, x = throw e) ∨ ∃ a, x = pure a := by
  match x with
  | none => exact .inl rfl
  | some (.error e) => exact .inr (.inl ⟨e, rfl⟩)
  | some (.ok a) => exact .inr (.inr ⟨a, rfl⟩)

@[simp] theorem pure_inj {a b : α} : (pure a : Outcome ε α) = pure b ↔ a = b := by
  refine ⟨fun h => ?_, fun h => h ▸ rfl⟩
  cases h
  rfl

@[simp] theorem throw_ne_pure (e : ε) (a : α) : (throw e : Outcome ε α) ≠ pure a := nofun

@[simp] theorem loops_ne_pure (a : α) : (loops : Outcome ε α) ≠ pure a := nofun

/-- A sequence returns when both parts return. -/
theorem bind_eq_pure {x : Outcome ε α} {f : α → Outcome ε β} {b : β} :
    x >>= f = pure b ↔ ∃ a, x = pure a ∧ f a = pure b := by
  obtain rfl | ⟨e, rfl⟩ | ⟨a, rfl⟩ := x.cases
  · exact ⟨nofun, fun ⟨_, h, _⟩ => absurd h (loops_ne_pure _)⟩
  · exact ⟨nofun, fun ⟨_, h, _⟩ => absurd h (throw_ne_pure _ _)⟩
  · simp

/-- **What a successful loop keeps.** An invariant of the items handled so far that every successful
step extends. -/
theorem foldlM_eq_pure {f : σ → α → Outcome ε σ} {I : List α → σ → Prop} {s s' : σ} {l : List α}
    (hstart : I [] s) (hstep : ∀ done s a s', I done s → f s a = pure s' → I (done ++ [a]) s')
    (h : l.foldlM f s = pure s') : I l s' :=
  Loops.foldlM_pure (fun _ _ _ => bind_eq_pure.mp) (fun _ _ => pure_inj.mp) hstart
    (fun done a _ s s' _ => hstep done s a s') h

/-! ## Returning -/

/-- The program ends, with a result or an error. -/
def Returns (x : Outcome ε α) : Prop := x ≠ loops

theorem Returns.eq_throw {x : Outcome ε α} (h : Returns x) (hx : ∀ a, x ≠ pure a) :
    ∃ e, x = throw e := by
  obtain rfl | he | ⟨a, rfl⟩ := x.cases
  · exact absurd rfl h
  · exact he
  · exact absurd rfl (hx a)

theorem returns_pure (a : α) : Returns (pure a : Outcome ε α) := nofun

theorem returns_throw (e : ε) : Returns (throw e : Outcome ε α) := nofun

/-- A sequence of computations that come to an end. -/
theorem Returns.bind {x : Outcome ε α} {f : α → Outcome ε β} (h : Returns x)
    (hf : ∀ a, x = pure a → Returns (f a)) : Returns (x >>= f) := by
  obtain rfl | ⟨e, rfl⟩ | ⟨a, rfl⟩ := x.cases
  · exact absurd rfl h
  · exact returns_throw e
  · rw [pure_bind]
    exact hf a rfl

/-- A loop over computations that come to an end. -/
theorem Returns.foldlM {f : σ → α → Outcome ε σ} {l : List α} (h : ∀ s, ∀ a ∈ l, Returns (f s a))
    (s : σ) : Returns (l.foldlM f s) := by
  induction l generalizing s with
  | nil => exact returns_pure s
  | cons a l ih =>
    rw [List.foldlM_cons]
    exact (h s a List.mem_cons_self).bind fun s' _ =>
      ih (fun s b hb => h s b (List.mem_cons_of_mem a hb)) s'

/-! ## Agreement -/

/-- Two programs come to the same end, with related results or the same error. -/
inductive Agree (R : α → β → Prop) : Outcome ε α → Outcome ε β → Prop where
  | loops : Agree R loops loops
  | throw (e : ε) : Agree R (throw e) (throw e)
  | pure {a : α} {b : β} (h : R a b) : Agree R (pure a) (pure b)

theorem Agree.refl (x : Outcome ε α) : Agree Eq x x := by
  obtain rfl | ⟨e, rfl⟩ | ⟨a, rfl⟩ := x.cases
  · exact .loops
  · exact .throw e
  · exact .pure rfl

theorem Agree.eq {x y : Outcome ε α} (h : Agree Eq x y) : x = y := by
  cases h with
  | loops => rfl
  | throw e => rfl
  | pure h => rw [h]

/-- Sequences agree when their parts do. -/
theorem Agree.bind {R : α → β → Prop} {S : σ → τ → Prop} {x : Outcome ε α} {y : Outcome ε β}
    {f : α → Outcome ε σ} {g : β → Outcome ε τ} (h : Agree R x y)
    (hfg : ∀ a b, R a b → Agree S (f a) (g b)) :
    Agree S (x >>= f) (y >>= g) := by
  cases h with
  | loops => exact .loops
  | throw e => exact .throw e
  | pure h =>
    rw [pure_bind, pure_bind]
    exact hfg _ _ h

/-- Loops agree when their bodies do. -/
theorem Agree.foldlM {R : α → β → Prop} {S : σ → τ → Prop} {f : σ → α → Outcome ε σ}
    {g : τ → β → Outcome ε τ} {l : List α} {l' : List β} (hl : List.Forall₂ R l l')
    (hfg : ∀ s t a b, S s t → R a b → Agree S (f s a) (g t b)) {s : σ} {t : τ} (hs : S s t) :
    Agree S (l.foldlM f s) (l'.foldlM g t) := by
  induction hl generalizing s t with
  | nil => exact .pure hs
  | cons hab _ ih =>
    rw [List.foldlM_cons, List.foldlM_cons]
    exact (hfg s t _ _ hs hab).bind fun _ _ => ih

end Outcome

end Topograph
