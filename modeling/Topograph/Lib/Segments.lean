import Mathlib.Algebra.BigOperators.Group.List.Basic
import Mathlib.Algebra.GroupWithZero.Nat

/-! # Positions in concatenated and filtered lists

The elements of `l.flatMap f` by the segment they come from: position `j` of the segment of `l[i]`
is behind all earlier segments. An element that a filter keeps moves by the number of elements
dropped in front of it. -/

namespace Topograph

universe u v

variable {α : Type u} {β : Type v}

/-- Where the segment of the element `i` begins. -/
def segmentStart (f : α → List β) (l : List α) (i : Nat) : Nat :=
  ((l.take i).map fun a => (f a).length).sum

theorem getElem?_flatMap_segment (f : α → List β) {l : List α} {i j : Nat} {a : α}
    (hi : l[i]? = some a) (hj : j < (f a).length) :
    (l.flatMap f)[segmentStart f l i + j]? = (f a)[j]? := by
  induction l generalizing i with
  | nil => exact absurd hi (by simp)
  | cons x l ih =>
    cases i with
    | zero =>
      obtain rfl : x = a := by simpa using hi
      rw [List.flatMap_cons, segmentStart, List.take_zero, List.map_nil, List.sum_nil, Nat.zero_add,
        List.getElem?_append_left hj]
    | succ i =>
      rw [List.getElem?_cons_succ] at hi
      rw [List.flatMap_cons, segmentStart, List.take_succ_cons, List.map_cons, List.sum_cons,
        Nat.add_assoc,
        List.getElem?_append_right (Nat.le_add_right _ _), Nat.add_sub_cancel_left]
      exact ih hi

/-- Every position lies in a segment. -/
theorem exists_segment (f : α → List β) {l : List α} {n : Nat} (h : n < (l.flatMap f).length) :
    ∃ i a j, l[i]? = some a ∧ j < (f a).length ∧ n = segmentStart f l i + j := by
  induction l generalizing n with
  | nil => exact absurd h (by simp)
  | cons x l ih =>
    rw [List.flatMap_cons, List.length_append] at h
    by_cases hn : n < (f x).length
    · exact ⟨0, x, n, rfl, hn, by simp [segmentStart]⟩
    · obtain ⟨i, a, j, hi, hj, hstart⟩ := ih (n := n - (f x).length) (by omega)
      refine ⟨i + 1, a, j, hi, hj, ?_⟩
      rw [segmentStart, List.take_succ_cons, List.map_cons, List.sum_cons, Nat.add_assoc]
      rw [segmentStart] at hstart
      omega

/-- Segments of one length begin at its multiples. -/
theorem segmentStart_const {f : α → List β} {l : List α} {k : Nat} (h : ∀ a ∈ l, (f a).length = k)
    {i : Nat} (hi : i ≤ l.length) : segmentStart f l i = i * k := by
  have hmap : (l.take i).map (fun a => (f a).length) = List.replicate i k := by
    rw [List.map_congr_left fun a ha => h a (List.mem_of_mem_take ha), List.map_const',
      List.length_take, Nat.min_eq_left hi]
  rw [segmentStart, hmap, List.sum_replicate, Nat.nsmul_eq_mul]

/-! ## Filters -/

/-- Where a filter leaves the element that stood at `i`. -/
def filterIndex (p : α → Bool) (l : List α) (i : Nat) : Nat := ((l.take i).filter p).length

theorem getElem?_filter_filterIndex {p : α → Bool} {l : List α} {i : Nat} {a : α}
    (hi : l[i]? = some a) (ha : p a = true) : (l.filter p)[filterIndex p l i]? = some a := by
  induction l generalizing i with
  | nil => exact absurd hi (by simp)
  | cons x l ih =>
    cases i with
    | zero =>
      obtain rfl : x = a := by simpa using hi
      rw [filterIndex, List.take_zero, List.filter_cons_of_pos ha]
      rfl
    | succ i =>
      rw [List.getElem?_cons_succ] at hi
      rw [filterIndex, List.take_succ_cons]
      by_cases hx : p x = true
      · rw [List.filter_cons_of_pos hx, List.filter_cons_of_pos hx, List.length_cons,
          List.getElem?_cons_succ]
        exact ih hi
      · rw [List.filter_cons_of_neg hx, List.filter_cons_of_neg hx]
        exact ih hi

/-- The elements dropped in front of `i` are missing. -/
theorem filterIndex_add (p : α → Bool) {l : List α} {i : Nat} (hi : i ≤ l.length) :
    filterIndex p l i + ((l.take i).filter fun a => !p a).length = i := by
  rw [filterIndex, ← List.length_eq_length_filter_add, List.length_take, Nat.min_eq_left hi]

end Topograph
