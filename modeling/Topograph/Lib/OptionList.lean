import Mathlib.Data.List.Perm.Basic

/-! # Lists of partial results

A loop that calls a partial function on every element of a list and concatenates the results
succeeds when every call does. A loop that keeps the results there are can be led through them in
any order. -/

namespace Topograph.OptionList

variable {α β : Type*}

/-- **Concatenating partial results.** If `g a` is the only possible result of `f a`, the loop
succeeds exactly when every call does, and its result is the concatenation of the `g a`. -/
theorem mapM_flatten_eq_some_iff {f : α → Option (List β)} {g : α → List β} {l : List α}
    (hg : ∀ a ∈ l, ∀ b, f a = some b → b = g a) {out : List β} :
    (l.mapM f).map List.flatten = some out ↔ (∀ a ∈ l, (f a).isSome) ∧ out = l.flatMap g := by
  induction l generalizing out with
  | nil =>
    rw [List.mapM_nil]
    refine ⟨fun h => ⟨by simp, (Option.some.inj h).symm⟩, fun h => ?_⟩
    rw [h.2]
    rfl
  | cons a l ih =>
    have ih' := fun b : List β => @ih (fun x hx => hg x (List.mem_cons_of_mem a hx)) b
    rw [List.mapM_cons]
    cases hfa : f a with
    | none => simp [hfa]
    | some b =>
      have hb := hg a List.mem_cons_self b hfa
      cases hrest : l.mapM f with
      | none =>
        have hfail : ¬ ∀ x ∈ l, (f x).isSome := by
          intro hall
          have := (ih' (l.flatMap g)).mpr ⟨hall, rfl⟩
          simp [hrest] at this
        simp only [Option.bind_eq_bind, Option.bind_some, Option.bind_none, Option.map_none,
          reduceCtorEq, false_iff, not_and]
        intro hall
        exact absurd (fun x hx => hall x (List.mem_cons_of_mem a hx)) hfail
      | some bs =>
        obtain ⟨hall, hbs⟩ := (ih' bs.flatten).mp (by rw [hrest, Option.map_some])
        simp only [Option.bind_eq_bind, Option.bind_some, Option.pure_def, Option.map_some,
          Option.some.injEq, List.flatten_cons, List.flatMap_cons, hb, hbs]
        refine ⟨fun h => ⟨?_, h.symm⟩, fun h => h.2.symm⟩
        intro x hx
        rcases List.mem_cons.mp hx with rfl | hx
        · rw [hfa]
          rfl
        · exact hall x hx

/-- **Any order of the kept results comes from an order of the list** that leaves the elements
without a result alone. -/
theorem exists_perm_filterMap {f : α → Option β} {l : List α} {out : List β}
    (h : out.Perm (l.filterMap f)) :
    ∃ l' : List α, l'.Perm l ∧ l'.filterMap f = out ∧
      l'.filter (fun a => (f a).isNone) = l.filter fun a => (f a).isNone := by
  have hkept : List.Forall₂ (fun b a => f a = some b) (l.filterMap f) (l.filter fun a =>
      (f a).isSome) := by
    clear h
    induction l with
    | nil => exact .nil
    | cons a l ih =>
      cases hfa : f a with
      | none => simpa [List.filterMap_cons, hfa] using ih
      | some b => simpa [List.filterMap_cons, hfa] using ih
  obtain ⟨kept, hall, hperm⟩ := List.perm_comp_forall₂ h hkept
  have hout : kept.filterMap f = out ∧ kept.filter (fun a => (f a).isNone) = [] := by
    clear hperm h hkept
    induction hall with
    | nil => exact ⟨rfl, rfl⟩
    | cons hfa _ ih => simp [hfa, ih]
  refine ⟨kept ++ l.filter fun a => (f a).isNone, ?_, ?_, ?_⟩
  · have hsplit := List.filter_append_perm (fun a => (f a).isSome) l
    simp only [Option.not_isSome] at hsplit
    exact (hperm.append_right _).trans hsplit
  · rw [List.filterMap_append, hout.1, List.filterMap_filter]
    simp
  · rw [List.filter_append, hout.2, List.filter_filter]
    simp

end Topograph.OptionList
