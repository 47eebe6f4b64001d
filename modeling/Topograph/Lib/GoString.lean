import Mathlib.Data.List.DropRight

/-! # White space in the strings of Go -/

namespace Topograph.GoString

/-- `unicode.IsSpace`. -/
def isSpace (c : Char) : Bool :=
  c.toNat ∈ [0x09, 0x0a, 0x0b, 0x0c, 0x0d, 0x20, 0x85, 0xa0, 0x1680, 0x2028, 0x2029, 0x202f, 0x205f,
    0x3000] || (0x2000 ≤ c.toNat && c.toNat ≤ 0x200a)

/-- `strings.TrimSpace`, on the characters of a string. -/
def trimSpace (s : List Char) : List Char := (s.dropWhile isSpace).rdropWhile isSpace

/-- Nothing is trimmed from a string without white space. -/
theorem trimSpace_of_forall {s : List Char} (h : ∀ c ∈ s, isSpace c = false) : trimSpace s = s := by
  have hdrop : s.dropWhile isSpace = s := by
    cases s with
    | nil => rfl
    | cons c s => rw [List.dropWhile_cons_of_neg (by simp [h c])]
  rw [trimSpace, hdrop]
  rcases List.eq_nil_or_concat s with rfl | ⟨s, c, rfl⟩
  · rfl
  · rw [List.concat_eq_append] at h ⊢
    rw [List.rdropWhile_concat_neg]
    simp [h c]

end Topograph.GoString
