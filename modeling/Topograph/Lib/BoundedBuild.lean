import Mathlib.Data.List.Basic

/-! # Building a list within a limit

A loop appends to a list and gives up with an error when the list grows past a limit. `Within` says
what such a loop does: it returns everything it was to append if that fits, and otherwise it stops
with a part of it that is at most one element too long. Loops of this kind compose
(`foldlM_within`). -/

namespace Topograph.BoundedBuild

universe u

variable {α β ε : Type u}

/-- A build that was given up: the elements built so far, and the error. -/
structure Exceeded (β ε : Type u) where
  built : List β
  err : ε

/-- **The outcomes of appending `new` to `result` within a limit.** -/
inductive Within (limit : Nat) (err : ε) (result new : List β) :
    Option (Except (Exceeded β ε) (List β)) → Prop
  | fits (h : (result ++ new).length ≤ limit) :
      Within limit err result new (some (.ok (result ++ new)))
  | exceeds {built : List β} (h : limit < (result ++ new).length) (hbuilt : built <+: result ++ new)
      (hlen : built.length ≤ limit + 1) : Within limit err result new (some (.error ⟨built, err⟩))

/-- What comes behind a step that fits is appended behind its elements. -/
theorem Within.of_append {limit : Nat} {err : ε} {result new rest : List β}
    {r : Option (Except (Exceeded β ε) (List β))} (h : Within limit err (result ++ new) rest r) :
    Within limit err result (new ++ rest) r := by
  cases h with
  | fits h =>
    rw [List.append_assoc] at h ⊢
    exact .fits h
  | exceeds h hbuilt hlen =>
    rw [List.append_assoc] at h hbuilt
    exact .exceeds h hbuilt hlen

/-- **A loop of bounded steps is one bounded step** that appends what all of them append. -/
theorem foldlM_within {limit : Nat} {err : ε}
    {step : List β → α → ExceptT (Exceeded β ε) Option (List β)} {g : α → List β}
    (hstep : ∀ result a, result.length ≤ limit → Within limit err result (g a) (step result a).run)
    (l : List α) {result : List β} (hresult : result.length ≤ limit) :
    Within limit err result (l.flatMap g) (l.foldlM step result).run := by
  induction l generalizing result with
  | nil =>
    have hfits : (result ++ []).length ≤ limit := by rwa [List.append_nil]
    have hrun : Within limit err result [] _ := .fits hfits
    rwa [List.append_nil] at hrun
  | cons a l ih =>
    rw [List.foldlM_cons, List.flatMap_cons, ExceptT.run_bind]
    have ha := hstep result a hresult
    generalize (step result a).run = r at ha ⊢
    cases ha with
    | fits h => exact (ih h).of_append
    | exceeds h hbuilt hlen =>
      refine .exceeds ?_ ?_ hlen
      · rw [← List.append_assoc, List.length_append]
        exact Nat.lt_add_right _ h
      · rw [← List.append_assoc]
        exact hbuilt.trans (List.prefix_append _ _)

end Topograph.BoundedBuild
