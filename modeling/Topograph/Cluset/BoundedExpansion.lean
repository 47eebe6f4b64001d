import Topograph.Cluset.Limit
import Topograph.Lib.BoundedBuild

/-! # Bounded expansion on machine integers (`expandWithLimit` in `internal/cluset/cluset.go`)

The loops of `expandWithLimit` with the overflow of `int` arithmetic and the slice they have built
when they give up. They end after at most as many turns as the limit allows, and they are exact
(`expandBounded_within`): the names are those of the mathematical expansion, or there are too many
of them. `Limit` states the same function with its range loop already summed up, and both agree
(`expandWithLimit_eq_expandBounded`). -/

namespace Topograph.Cluset

open BoundedBuild

/-! ## The loops -/

/-- `for i := lo; i <= hi; i++` with the break at the upper bound, behind the names so far. -/
def rangeLoop (pre : Text) (width : Nat) (hi : Int) : Nat → Int → List Text → Option (List Text)
  | 0, _, _ => none
  | fuel + 1, i, result =>
    if i ≤ hi then
      let result := result ++ [pre ++ sprintfPadded width i]
      if i = hi then some result else rangeLoop pre width hi fuel (wrapInt (i + 1)) result
    else some result

/-- A build of `expandWithLimit`: the names, or the names so far and the error; nothing while a loop
still runs. -/
abbrev Build := ExceptT (Exceeded Text String) Option (List Text)

/-- The build is given up. -/
def exceeded (limit : Nat) (built : List Text) : Build := throw ⟨built, limitExceeded limit⟩

/-- One more name, checked afterwards. -/
def appendName (limit : Nat) (result : List Text) (name : Text) : Build :=
  let result := result ++ [name]
  if limit < result.length then exceeded limit result else pure result

/-- A range from `lo` to `hi`, checked before its loop starts. -/
def expandRangeBounded (fuel limit : Nat) (pre : Text) (width : Nat) (lo hi : Int)
    (result : List Text) : Build :=
  if lo ≤ hi ∧ wrapInt (limit - result.length) ≤ wrapInt (hi - lo) then exceeded limit result
  else .mk ((rangeLoop pre width hi fuel lo result).map .ok)

/-- One part of a bracketed list: a range or a single number. -/
def expandPartBounded (fuel limit : Nat) (pre : Text) (result : List Text) (part : Text) : Build :=
  if '-' ∈ part then
    let bounds := part.splitOn '-'
    expandRangeBounded fuel limit pre (byteLen (bounds.getD 0 [])) (atoi (bounds.getD 0 []))
      (atoi (bounds.getD 1 [])) result
  else appendName limit result (pre ++ part)

/-- One entry. -/
def expandEntryBounded (fuel limit : Nat) (result : List Text) (entry : Text) : Build :=
  match expandMatch entry with
  | some (pre, ranges) => (ranges.splitOn ',').foldlM (expandPartBounded fuel limit pre) result
  | none => appendName limit result entry

/-- `expandWithLimit`. -/
def expandBounded (fuel limit : Nat) (compressed : List Text) : Build :=
  compressed.foldlM (expandEntryBounded fuel limit) []

/-! ## Ranges -/

section

variable (pre : Text) (width : Nat)

/-- A range has as many names as numbers. -/
theorem length_boundedRange (lo hi : Int) :
    ((boundedRange pre width lo hi).length : Int) = max 0 (hi - lo + 1) := by
  rw [boundedRange, List.length_map, List.length_range]
  omega

/-- A range is its first number and the rest. -/
theorem boundedRange_cons {lo hi : Int} (h : lo ≤ hi) :
    boundedRange pre width lo hi = (pre ++ sprintfPadded width lo) :: boundedRange pre width
      (lo + 1) hi := by
  have hcount : (hi + 1 - lo).toNat = (hi + 1 - (lo + 1)).toNat + 1 := by omega
  rw [boundedRange, boundedRange, hcount, List.range_succ_eq_map, List.map_cons, List.map_map,
    Int.natCast_zero, Int.add_zero]
  congr 2
  funext k
  have hk : lo + ((k + 1 : Nat) : Int) = lo + 1 + k := by omega
  simp only [Function.comp_apply, Nat.succ_eq_add_one, hk]

theorem boundedRange_of_lt {lo hi : Int} (h : hi < lo) : boundedRange pre width lo hi = [] := by
  rw [boundedRange, show (hi + 1 - lo).toNat = 0 by omega]
  rfl

end

/-- **The range loop ends at its upper bound**, even if that is the largest integer. -/
theorem rangeLoop_eq (pre : Text) (width : Nat) {hi : Int} (hhi : hi ≤ maxInt) {fuel : Nat}
    {i : Int} (hi0 : 0 ≤ i) (hfuel : (hi + 1 - i).toNat < fuel) (result : List Text) :
    rangeLoop pre width hi fuel i result = some (result ++ boundedRange pre width i hi) := by
  induction fuel generalizing i result with
  | zero => omega
  | succ fuel ih =>
    rw [rangeLoop]
    by_cases hle : i ≤ hi
    · rw [if_pos hle, boundedRange_cons pre width hle]
      by_cases hlast : i = hi
      · simp only [hlast, if_true, boundedRange_of_lt pre width (show hi < hi + 1 by omega)]
      · -- The increment stays below the upper bound, so it does not wrap around.
        have hwrap : wrapInt (i + 1) = i + 1 := wrapInt_of_mem (by rw [minInt]; omega) (by omega)
        simp only [hlast, if_false, hwrap]
        rw [ih (by omega) (by omega), List.append_assoc, List.singleton_append]
    · rw [if_neg hle, boundedRange_of_lt pre width (by omega), List.append_nil]

/-! ## Exactness -/

section Exact

variable {fuel limit : Nat} {result : List Text}

/-- One name is added, or the limit is exceeded. -/
theorem appendName_within (hresult : result.length ≤ limit) (name : Text) :
    Within limit (limitExceeded limit) result [name] (appendName limit result name).run := by
  rw [appendName]
  split_ifs with h
  · refine .exceeds h List.prefix_rfl ?_
    rw [List.length_append, List.length_singleton]
    omega
  · exact .fits (Nat.not_lt.mp h)

section

variable (hfuel : limit < fuel) (hlimit : (limit : Int) ≤ maxInt) (hresult : result.length ≤ limit)

include hfuel hlimit hresult

/-- **A range is expanded exactly**: the check compares its length with the room that is left,
without overflow. -/
theorem expandRangeBounded_within (pre : Text) (width : Nat) {lo hi : Int}
    (hlo : 0 ≤ lo ∧ lo ≤ maxInt) (hhi : 0 ≤ hi ∧ hi ≤ maxInt) :
    Within limit (limitExceeded limit) result (boundedRange pre width lo hi)
      (expandRangeBounded fuel limit pre width lo hi result).run := by
  have hroom : wrapInt (limit - result.length) = limit - result.length :=
    wrapInt_of_mem (by rw [minInt]; omega) (by omega)
  have hdiff : wrapInt (hi - lo) = hi - lo :=
    wrapInt_of_mem (by rw [minInt, maxInt] at *; omega) (by omega)
  have hlength := length_boundedRange pre width lo hi
  rw [expandRangeBounded, hroom, hdiff]
  split_ifs with hmany
  · refine .exceeds ?_ (List.prefix_append _ _) (by omega)
    rw [List.length_append]
    omega
  · have hfits : (result ++ boundedRange pre width lo hi).length ≤ limit := by
      rw [List.length_append]
      omega
    rw [rangeLoop_eq pre width hhi.2 hlo.1 (by omega)]
    exact .fits hfits

/-- The names of a part are added, or the limit is exceeded. -/
theorem expandPartBounded_within
    (pre part : Text) :
    Within limit (limitExceeded limit) result (partNames pre part)
      (expandPartBounded fuel limit pre result part).run := by
  rw [expandPartBounded, partNames]
  by_cases hdash : '-' ∈ part
  · rw [if_pos hdash, if_pos hdash]
    exact expandRangeBounded_within hfuel hlimit hresult pre _ (atoi_bound part 0)
      (atoi_bound part 1)
  · rw [if_neg hdash, if_neg hdash]
    exact appendName_within hresult (pre ++ part)

/-- The names of an entry are added, or the limit is exceeded. -/
theorem expandEntryBounded_within (entry : Text) :
    Within limit (limitExceeded limit) result (entryNames entry)
      (expandEntryBounded fuel limit result entry).run := by
  rw [expandEntryBounded, entryNames]
  cases expandMatch entry with
  | none => exact appendName_within hresult entry
  | some m =>
    exact foldlM_within (fun result part h => expandPartBounded_within hfuel hlimit h m.1 part) _
      hresult

end

/-- **Bounded expansion is exact.** -/
theorem expandBounded_within (hfuel : limit < fuel) (hlimit : (limit : Int) ≤ maxInt)
    (compressed : List Text) :
    Within limit (limitExceeded limit) [] (expansion compressed)
      (expandBounded fuel limit compressed).run :=
  foldlM_within (fun _ entry h => expandEntryBounded_within hfuel hlimit h entry) _ (Nat.zero_le _)

end Exact

/-- **Bounded expansion is exact and terminates.** -/
theorem expandBounded_exact (compressed : List Text) (limit : Nat) (hlimit : (limit : Int) ≤ maxInt)
    (fuel : Nat) (hfuel : limit < fuel) :
    ∃ r, (expandBounded fuel limit compressed).run = some r ∧
      ((∃ e, r = .error e) ↔ limit < (expansion compressed).length) ∧
      (∀ names, r = .ok names → names = expansion compressed) ∧
      ∀ e, r = .error e → e.built.length ≤ limit + 1 ∧ e.built <+: expansion compressed ∧
      e.err = limitExceeded limit := by
  have h := expandBounded_within hfuel hlimit compressed
  generalize (expandBounded fuel limit compressed).run = out at h
  cases h with
  | fits h =>
    refine ⟨_, rfl, ⟨?_, fun hlong => absurd h (Nat.not_le.mpr hlong)⟩, ?_, ?_⟩
    · rintro ⟨e, he⟩
      cases he
    · intro names hnames
      cases hnames
      rfl
    · intro e he
      cases he
  | exceeds h hbuilt hlen =>
    refine ⟨_, rfl, ⟨fun _ => h, fun _ => ⟨_, rfl⟩⟩, ?_, ?_⟩
    · intro names hnames
      cases hnames
    · intro e he
      cases he
      exact ⟨hlen, hbuilt, rfl⟩

/-- A range that ends at the largest integer. -/
theorem maxInt_range_exact : ((5 : Nat) : Int) ≤ maxInt ∧
    expansion ["n[9223372036854775806-9223372036854775807]".toList] =
      ["n9223372036854775806".toList, "n9223372036854775807".toList] ∧
    ∃ r, (expandBounded 6 5 ["n[9223372036854775806-9223372036854775807]".toList]).run = some r ∧
      ((∃ e, r = .error e) ↔
        5 < (expansion ["n[9223372036854775806-9223372036854775807]".toList]).length) := by
  have hlimit : ((5 : Nat) : Int) ≤ maxInt := by decide
  obtain ⟨r, hr, herr, -⟩ :=
    expandBounded_exact ["n[9223372036854775806-9223372036854775807]".toList] 5 hlimit 6 (by decide)
  exact ⟨hlimit, by decide, r, hr, herr⟩

/-- **The loops and their summed-up form agree.** -/
theorem expandWithLimit_eq_expandBounded (compressed : List String) {fuel : Nat}
    (hfuel : maxExpandedNodes < fuel) :
    ∃ r, (expandBounded fuel maxExpandedNodes (compressed.map String.toList)).run = some r ∧
      expandWithLimit compressed = (r.mapError Exceeded.err).map fun names =>
        names.map String.ofList := by
  have h := expandBounded_within hfuel (by decide) (compressed.map String.toList)
  rw [expandWithLimit_eq, appendWithin]
  generalize (expandBounded fuel maxExpandedNodes (compressed.map String.toList)).run = out at h
  cases h with
  | fits h => exact ⟨_, rfl, by rw [if_pos h]; rfl⟩
  | exceeds h => exact ⟨_, rfl, by rw [if_neg (Nat.not_le.mpr h)]; rfl⟩

end Topograph.Cluset
