import Mathlib.Data.List.Nodup

/-! # Numbering by first occurrence

A loop that gives every new element the next number keeps the elements in the order in which they
first came by (`note`). An element's number is its place in that list, and stays the same when more
elements come by (`idxOf_foldl_note`). -/

namespace Topograph.Numbering

variable {α : Type} [DecidableEq α]

/-- An element comes by. -/
def note (seen : List α) (a : α) : List α := if a ∈ seen then seen else seen ++ [a]

variable {seen : List α}

theorem mem_note {a b : α} : b ∈ note seen a ↔ b ∈ seen ∨ b = a := by
  rw [note]
  split_ifs with ha
  · constructor
    · exact Or.inl
    · rintro (hb | rfl)
      · exact hb
      · exact ha
  · simp

theorem nodup_note (h : seen.Nodup) (a : α) : (note seen a).Nodup := by
  rw [note]
  split_ifs with ha
  · exact h
  · exact List.nodup_append.mpr ⟨h, List.nodup_singleton a,
      by rintro b hb _ hc rfl; exact ha (List.mem_singleton.mp hc ▸ hb)⟩

/-- A number that was given stays. -/
theorem idxOf_note {b : α} (hb : b ∈ seen) (a : α) : (note seen a).idxOf b = seen.idxOf b := by
  rw [note]
  split_ifs
  · rfl
  · exact List.idxOf_append_of_mem hb

/-- A new element gets the next number. -/
theorem idxOf_note_self {a : α} (ha : a ∉ seen) : (note seen a).idxOf a = seen.length := by
  rw [note, if_neg ha, List.idxOf_append_of_notMem ha, List.idxOf_cons_self, Nat.add_zero]

/-- After the loop everything has a number. -/
theorem mem_foldl_note {l seen : List α} {b : α} : b ∈ l.foldl note seen ↔ b ∈ seen ∨ b ∈ l := by
  induction l generalizing seen with
  | nil => simp
  | cons a l ih => rw [List.foldl_cons, ih, mem_note, List.mem_cons, or_assoc]

theorem nodup_foldl_note {l seen : List α} (h : seen.Nodup) : (l.foldl note seen).Nodup := by
  induction l generalizing seen with
  | nil => exact h
  | cons a l ih => exact ih (nodup_note h a)

/-- **Numbers stay.** -/
theorem idxOf_foldl_note {l seen : List α} {b : α} (hb : b ∈ seen) :
    (l.foldl note seen).idxOf b = seen.idxOf b := by
  induction l generalizing seen with
  | nil => rfl
  | cons a l ih => rw [List.foldl_cons, ih (mem_note.mpr (Or.inl hb)), idxOf_note hb]

end Topograph.Numbering
