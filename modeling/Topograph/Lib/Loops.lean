import Mathlib.Data.List.Basic

/-! # Loops over lists

The rules for loops that other proofs use: an invariant speaks of the items handled so far, and a
step may use where in the list it stands. A loop that can fail keeps the invariant if it succeeds
(`foldlM_some`, `foldlM_ok`), and succeeds if every step does (`exists_foldlM`). -/

namespace Topograph.Loops

universe u v w

variable {α : Type u} {σ : Type v} {l : List α} {s : σ} {I : List α → σ → Prop}

/-- **A loop keeps its invariant.** -/
theorem foldl_rule {f : σ → α → σ} (hstart : I [] s)
    (hstep : ∀ done a rest s, done ++ a :: rest = l → I done s → I (done ++ [a]) (f s a)) :
    I l (l.foldl f s) := by
  suffices hgen : ∀ rest done s, done ++ rest = l → I done s →
      I l (rest.foldl f s) from hgen l [] s rfl hstart
  intro rest
  induction rest with
  | nil =>
    intro done s heq hs
    rwa [← heq, List.append_nil]
  | cons a rest ih =>
    intro done s heq hs
    exact ih (done ++ [a]) (f s a) (by rwa [List.append_assoc]) (hstep done a rest s heq hs)

section Monadic

variable {m : Type v → Type w} [Monad m] {f : σ → α → m σ}

/-- **A loop succeeds** if every step does under the invariant. -/
theorem exists_foldlM [LawfulMonad m] (hstart : I [] s)
    (hstep : ∀ done a rest s, done ++ a :: rest = l → I done s → ∃ s', f s a = pure s' ∧
      I (done ++ [a]) s') :
    ∃ s', l.foldlM f s = pure s' ∧ I l s' := by
  suffices hgen : ∀ rest done s, done ++ rest = l → I done s → ∃ s', rest.foldlM f s = pure s' ∧
      I l s' from hgen l [] s rfl hstart
  intro rest
  induction rest with
  | nil =>
    intro done s heq hs
    exact ⟨s, rfl, by rwa [← heq, List.append_nil]⟩
  | cons a rest ih =>
    intro done s heq hs
    obtain ⟨s₁, hs₁, hI⟩ := hstep done a rest s heq hs
    rw [List.foldlM_cons, hs₁, pure_bind]
    exact ih (done ++ [a]) s₁ (by rwa [List.append_assoc]) hI

/-- **A loop that has succeeded keeps its invariant**, in a monad where a program succeeds only if
its parts do. -/
theorem foldlM_pure (hinv : ∀ (x : m σ) (g : σ → m σ) b, x >>= g = pure b →
      ∃ a, x = pure a ∧ g a = pure b)
    (hinj : ∀ a b : σ, (pure a : m σ) = pure b → a = b) (hstart : I [] s)
    (hstep : ∀ done a rest s s', done ++ a :: rest = l → I done s → f s a = pure s' →
      I (done ++ [a]) s') {s' : σ}
    (h : l.foldlM f s = pure s') : I l s' := by
  suffices hgen : ∀ rest done s, done ++ rest = l → I done s → rest.foldlM f s = pure s' →
      I l s' from hgen l [] s rfl hstart h
  intro rest
  induction rest with
  | nil =>
    intro done s heq hs h
    rwa [← heq, List.append_nil, ← hinj _ _ h]
  | cons a rest ih =>
    intro done s heq hs h
    rw [List.foldlM_cons] at h
    obtain ⟨s₁, hs₁, h⟩ := hinv _ _ _ h
    exact ih (done ++ [a]) s₁ (by rwa [List.append_assoc]) (hstep done a rest s s₁ heq hs hs₁) h

end Monadic

/-- The invariant rule for a loop that may stop with nothing. -/
theorem foldlM_some {f : σ → α → Option σ} (hstart : I [] s)
    (hstep : ∀ done a rest s s', done ++ a :: rest = l → I done s → f s a = some s' →
      I (done ++ [a]) s') {s' : σ}
    (h : l.foldlM f s = some s') : I l s' :=
  foldlM_pure (fun _ _ _ => Option.bind_eq_some_iff.mp) (fun _ _ => Option.some.inj) hstart hstep h

theorem bind_eq_ok {ε : Type w} {x : Except ε σ} {g : σ → Except ε σ} {b : σ}
    (h : x >>= g = .ok b) : ∃ a, x = .ok a ∧ g a = .ok b := by
  cases x with
  | error err => exact absurd h nofun
  | ok a => exact ⟨a, rfl, h⟩

/-- The invariant rule for a loop that may fail. -/
theorem foldlM_ok {ε : Type w} {f : σ → α → Except ε σ} (hstart : I [] s)
    (hstep : ∀ done a rest s s', done ++ a :: rest = l → I done s → f s a = .ok s' →
      I (done ++ [a]) s') {s' : σ}
    (h : l.foldlM f s = .ok s') : I l s' :=
  foldlM_pure (fun _ _ _ => bind_eq_ok) (fun _ _ => Except.ok.inj) hstart hstep h

end Topograph.Loops
