import Topograph.Cluset.Expansion

/-! # Bounded expansion (`ExpandWithLimit` in `internal/cluset/cluset.go`)

Like `expand`, but with a bound on the number of names. A range is checked before it is expanded,
and its loop ends at the upper bound itself, so it cannot run past the largest `int`. -/

namespace Topograph.Cluset

/-- The bound of `ExpandWithLimit`. -/
def maxExpandedNodes : Nat := 500000

/-- The error of an expansion that grows too large. -/
def limitExceeded (limit : Nat) : String :=
  "expanded node list exceeds " ++ toString limit ++ " entries"

/-- One part of a bracketed list, behind the names so far. -/
def expandPartWithLimit (limit : Nat) (pre : Text) (result : List Text) (part : Text) :
    Except String (List Text) :=
  if '-' ∈ part then
    let bounds := part.splitOn '-'
    let lo := atoi (bounds.getD 0 [])
    let hi := atoi (bounds.getD 1 [])
    if lo ≤ hi ∧ (limit : Int) - result.length ≤ hi - lo then .error (limitExceeded limit)
    else .ok (result ++ boundedRange pre (byteLen (bounds.getD 0 [])) lo hi)
  else if limit < (result ++ [pre ++ part]).length then .error (limitExceeded limit)
  else .ok (result ++ [pre ++ part])

/-- One entry, behind the names so far. -/
def expandEntryWithLimit (limit : Nat) (result : List Text) (entry : Text) :
    Except String (List Text) :=
  match expandMatch entry with
  | some (pre, ranges) => (ranges.splitOn ',').foldlM (expandPartWithLimit limit pre) result
  | none =>
    if limit < (result ++ [entry]).length then .error (limitExceeded limit)
      else .ok (result ++ [entry])

/-- `ExpandWithLimit`, on names as strings. -/
def expandWithLimit (compressed : List String) : Except String (List String) :=
  ((compressed.map (·.toList)).foldlM (expandEntryWithLimit maxExpandedNodes) []).map fun names =>
    names.map String.ofList

/-! ## What is returned -/

/-- The names so far with more of them, or an error if that is too many. -/
def appendWithin (limit : Nat) (result new : List Text) : Except String (List Text) :=
  if (result ++ new).length ≤ limit then .ok (result ++ new) else .error (limitExceeded limit)

variable {limit : Nat} {result : List Text}

/-- A loop whose steps append within the limit appends within the limit. -/
theorem foldlM_appendWithin {α : Type} {f : List Text → α → Except String (List Text)}
    {g : α → List Text}
    (hf : ∀ result a, result.length ≤ limit → f result a = appendWithin limit result (g a))
    (l : List α) (hresult : result.length ≤ limit) :
    l.foldlM f result = appendWithin limit result (l.flatMap g) := by
  induction l generalizing result with
  | nil =>
    rw [List.foldlM_nil, List.flatMap_nil, appendWithin, List.append_nil, if_pos hresult]
    rfl
  | cons a l ih =>
    rw [List.foldlM_cons, hf result a hresult, List.flatMap_cons, appendWithin]
    split_ifs with hfits
    · refine (ih hfits).trans ?_
      rw [appendWithin, appendWithin, List.append_assoc]
    · -- What is too long already gets no shorter.
      rw [appendWithin, if_neg]
      · rfl
      · rw [← List.append_assoc, List.length_append]
        omega

/-- The check of the code, after a name is appended. -/
theorem ite_lt_eq_appendWithin (limit : Nat) (result new : List Text) :
    (if limit < (result ++ new).length then .error (limitExceeded limit) else .ok (result ++ new)) =
      appendWithin limit result new := by
  rw [appendWithin, ← ite_not]
  simp only [Nat.not_lt]

/-- A part appends its names. -/
theorem expandPartWithLimit_eq (hresult : result.length ≤ limit) (pre part : Text) :
    expandPartWithLimit limit pre result part = appendWithin limit result (partNames pre part) := by
  rw [expandPartWithLimit, partNames]
  by_cases hdash : '-' ∈ part
  · -- The check in front of the loop counts the names that it would append.
    have hcount : ∀ (width : Nat) (lo hi : Int), (lo ≤ hi ∧
        (limit : Int) - result.length ≤ hi - lo) ↔
        limit < (result ++ boundedRange pre width lo hi).length := by
      intro width lo hi
      rw [List.length_append, boundedRange, List.length_map, List.length_range]
      omega
    rw [if_pos hdash, if_pos hdash, ← ite_lt_eq_appendWithin]
    simp only [hcount (byteLen ((part.splitOn '-').getD 0 []))]
  · rw [if_neg hdash, if_neg hdash, ite_lt_eq_appendWithin]

/-- An entry appends its names. -/
theorem expandEntryWithLimit_eq (hresult : result.length ≤ limit) (entry : Text) :
    expandEntryWithLimit limit result entry = appendWithin limit result (entryNames entry) := by
  rw [expandEntryWithLimit, entryNames]
  cases expandMatch entry with
  | none => exact ite_lt_eq_appendWithin limit result [entry]
  | some m =>
    exact foldlM_appendWithin (fun _ part h => expandPartWithLimit_eq h m.1 part) _ hresult

/-- **`ExpandWithLimit` is exact**: it returns the expansion, or there are too many names in it. -/
theorem expandWithLimit_eq (compressed : List String) : expandWithLimit compressed =
    (appendWithin maxExpandedNodes [] (expansion (compressed.map String.toList))).map fun names =>
      names.map String.ofList :=
  congrArg _ (foldlM_appendWithin (fun _ entry h => expandEntryWithLimit_eq h entry) _
    (Nat.zero_le _))

/-- **Plain names stand for themselves**, as long as there are not too many. -/
theorem expandWithLimit_plain {names : List String} (hplain : ∀ n ∈ names, '[' ∉ n.toList)
    (hlen : names.length ≤ maxExpandedNodes) : expandWithLimit names = .ok names := by
  have hexpansion : expansion (names.map String.toList) = names.map String.toList := by
    rw [expansion, List.flatMap_map]
    refine (List.flatMap_congr fun n hn => ?_).trans List.map_eq_flatMap.symm
    rw [entryNames, expandMatch_plain (hplain n hn)]
  rw [expandWithLimit_eq, hexpansion, appendWithin, List.nil_append,
    if_pos (by rwa [List.length_map])]
  show Except.ok ((names.map String.toList).map String.ofList) = _
  rw [List.map_map]
  congr 1
  exact List.map_id'' (fun n => String.ofList_toList) names

end Topograph.Cluset
