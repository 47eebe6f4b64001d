import Mathlib.Data.List.Basic
import Mathlib.Order.Basic

/-! # Consecutive elements

The elements of a list with one key are consecutive when no element with another key stands between
them, as in a sorted list. -/

namespace Topograph

universe u v

/-- Between two elements with one key there are only elements with that key. -/
def Consecutive {α : Type u} {β : Type v} (key : α → β) (l : List α) : Prop :=
  ∀ (i j k : Nat) (x y z : α), i ≤ j → j ≤ k → l[i]? = some x → l[j]? = some y → l[k]? = some z →
    key x = key z → key y = key x

theorem Consecutive.of_sorted {α : Type u} {β : Type v} [PartialOrder β] {key : α → β} {l : List α}
    (h : l.Pairwise fun a b => key a ≤ key b) : Consecutive key l := by
  have hle : ∀ (i j : Nat) (x y : α), i ≤ j → l[i]? = some x → l[j]? = some y → key x ≤ key y := by
    intro i j x y hij hx hy
    rcases Nat.eq_or_lt_of_le hij with rfl | hlt
    · exact (congrArg key (Option.some.inj (hx.symm.trans hy))).le
    · obtain ⟨hi, rfl⟩ := List.getElem?_eq_some_iff.mp hx
      obtain ⟨hj, rfl⟩ := List.getElem?_eq_some_iff.mp hy
      exact List.pairwise_iff_getElem.mp h i j hi hj hlt
  intro i j k x y z hij hjk hx hy hz heq
  exact le_antisymm (heq ▸ hle j k y z hjk hy hz) (hle i j x y hij hx hy)

end Topograph
