import Topograph.Cluset.Runs
import Topograph.Lib.OptionList

/-! # Reading entries back

An entry of a compact list is a prefix with the compressed numbers of its group. `expandEntry` reads
it back as the names of the group (`expandEntry_eq_some_iff`), and `splitList` recovers the entries
from the comma separated list (`splitList_intercalate`). -/

namespace Topograph.Cluset

open GoString

/-- The characters of host names: letters, digits, `-`, `_` and `.`. -/
def isHostChar (c : Char) : Bool := c.isAlphanum || c == '-' || c == '_' || c == '.'

variable {c : Char}

theorem isHostChar_of_isDigit (h : c.isDigit) : isHostChar c := by
  simp [isHostChar, Char.isAlphanum, h]

/-- The code points of host characters. -/
theorem hostChar_bounds (h : isHostChar c) :
    c.toNat = 45 ∨ c.toNat = 46 ∨ 48 ≤ c.toNat ∧ c.toNat ≤ 57 ∨ 65 ≤ c.toNat ∧ c.toNat ≤ 90 ∨
      c.toNat = 95 ∨ 97 ≤ c.toNat ∧ c.toNat ≤ 122 := by
  change (((decide (c.val ≥ 65 ∧ c.val ≤ 90) || (decide (c.val ≥ 97) && decide (c.val ≤ 122))) ||
    c.isDigit) ||
    c == '-' || c == '_' || c == '.') = true at h
  simp only [Bool.or_eq_true, Bool.and_eq_true, decide_eq_true_eq, beq_iff_eq, ge_iff_le,
    UInt32.le_iff_toNat_le] at h
  rcases h with ((((⟨h1, h2⟩ | ⟨h1, h2⟩) | h) | rfl) | rfl) | rfl
  · exact Or.inr (Or.inr (Or.inr (Or.inl ⟨h1, h2⟩)))
  · exact Or.inr (Or.inr (Or.inr (Or.inr (Or.inr ⟨h1, h2⟩))))
  · exact Or.inr (Or.inr (Or.inl (digit_bounds h)))
  · exact Or.inl rfl
  · exact Or.inr (Or.inr (Or.inr (Or.inr (Or.inl rfl))))
  · exact Or.inr (Or.inl rfl)

/-! ## The names of a group -/

/-- The ranges that `compressRange` forms of a list of numerals. -/
def groupRanges : List Text → List (Text × Text)
  | [] => []
  | n :: ns => ranges n n ns

/-- The names that the entry of a group expands to: the prefix alone for an empty group. -/
def groupNames (pre : Text) (nums : List Text) : List Text :=
  if nums = [] then [pre] else ((groupRanges nums).flatMap rangeNames).map (pre ++ ·)

/-- Every range runs upward between numerals of the list. -/
theorem ranges_bounds {start stop : Text} {ns : List Text} (hs : isNumeral start)
    (hnum : ∀ n ∈ stop :: ns, isNumeral n) (hlt : start = stop ∨ atoi start < atoi stop) :
    ∀ r ∈ ranges start stop ns,
      isNumeral r.1 ∧ isNumeral r.2 ∧ (r.1 = r.2 ∨ atoi r.1 < atoi r.2) := by
  induction ns generalizing start stop with
  | nil =>
    intro r hr
    rw [ranges_nil, List.mem_singleton] at hr
    rw [hr]
    exact ⟨hs, hnum stop (by simp), hlt⟩
  | cons n ns ih =>
    have hn : isNumeral n := hnum n (by simp)
    have hnum' : ∀ m ∈ n :: ns, isNumeral m := fun m hm => hnum m (List.mem_cons_of_mem stop hm)
    intro r hr
    rw [ranges_cons] at hr
    by_cases h : Follows stop n
    · rw [if_pos h] at hr
      have hstep := (follows_iff (hnum stop (by simp)) hn).mp h
      refine ih hs hnum' (Or.inr ?_) r hr
      rcases hlt with rfl | hlt <;> omega
    · rw [if_neg h] at hr
      rcases List.mem_cons.mp hr with rfl | hr
      · exact ⟨hs, hnum stop (by simp), hlt⟩
      · exact ih hn hnum' (Or.inl rfl) r hr

variable {nums : List Text}

/-- A range has numerals as its ends, in order. -/
theorem groupRanges_bounds (hnum : ∀ n ∈ nums, isNumeral n) :
    ∀ r ∈ groupRanges nums, isNumeral r.1 ∧ isNumeral r.2 ∧ (r.1 = r.2 ∨ atoi r.1 < atoi r.2) := by
  cases nums with
  | nil => simp [groupRanges]
  | cons n ns => exact ranges_bounds (hnum n (by simp)) hnum (Or.inl rfl)

theorem groupRanges_ne_nil {n : Text} {ns : List Text} (hnum : ∀ m ∈ n :: ns, isNumeral m) :
    groupRanges (n :: ns) ≠ [] := by
  obtain ⟨z, rest, hz, -⟩ := ranges_head n n hnum
  rw [groupRanges, hz]
  exact List.cons_ne_nil _ _

/-! ## One range -/

variable {s : Text}

theorem not_mem_numeral (h : isNumeral s) (hc : c.isDigit = false) : c ∉ s := by
  intro hm
  have := (isNumeral_iff.mp h).2 c hm
  rw [hc] at this
  exact Bool.false_ne_true this

/-- Whether the loop over a range ends within the fuel. -/
def RangeEnds (fuel : Nat) (r : Text × Text) : Prop :=
  r.1 = r.2 ∨ atoi r.2 < maxInt ∧ (atoi r.2 + 1 - atoi r.1).toNat < fuel

/-- **A part of an entry is read as its range.** -/
theorem expandPart_formatRange (fuel : Nat) (pre : Text) {r : Text × Text} (h1 : isNumeral r.1)
    (h2 : isNumeral r.2) :
    ((expandPart fuel pre (formatRange r.1 r.2)).isSome ↔ RangeEnds fuel r) ∧
      ∀ out, expandPart fuel pre (formatRange r.1 r.2) = some out →
        out = (rangeNames r).map (pre ++ ·) := by
  have hdash : '-' ∉ r.1 := not_mem_numeral h1 rfl
  have hdash' : '-' ∉ r.2 := not_mem_numeral h2 rfl
  by_cases heq : r.1 = r.2
  · -- A single number has no dash in it.
    rw [formatRange, if_pos heq, expandPart, if_neg hdash, rangeNames, if_pos heq]
    refine ⟨by simp [RangeEnds, heq], ?_⟩
    intro out hout
    rw [← Option.some.inj hout]
    rfl
  · have hsplit : (r.1 ++ '-' :: r.2).splitOn '-' = [r.1, r.2] := by
      rw [List.splitOn_append_cons_self_of_not_mem hdash, List.splitOn_eq_singleton hdash']
    have hexpand : expandPart fuel pre (formatRange r.1 r.2)
        = expandRange pre (byteLen r.1) (atoi r.2) fuel (atoi r.1) := by
      rw [formatRange, if_neg heq, expandPart, if_pos (by simp), hsplit]
      rfl
    have hle := atoi_le_maxInt h2
    rw [hexpand]
    by_cases hmax : atoi r.2 = maxInt
    · rw [hmax, expandRange_maxInt _ _ _ (atoi_le_maxInt h1)]
      refine ⟨?_, fun out hout => absurd hout (by simp)⟩
      simp [RangeEnds, heq, hmax]
    · have hlt : atoi r.2 < maxInt := by omega
      rw [expandRange_eq_map _ _ _ (atoi_nonneg h1) hlt]
      by_cases hfuel : (atoi r.2 + 1 - atoi r.1).toNat < fuel
      · rw [if_pos hfuel]
        refine ⟨by simp [RangeEnds, heq, hlt, hfuel], ?_⟩
        intro out hout
        rw [← Option.some.inj hout, rangeNames, if_neg heq, List.map_map]
        rfl
      · rw [if_neg hfuel]
        refine ⟨?_, fun out hout => absurd hout (by simp)⟩
        simp only [Option.isSome_none, Bool.false_eq_true, RangeEnds, false_iff]
        rintro (h | ⟨-, h⟩)
        · exact heq h
        · exact hfuel h

/-! ## One entry -/

/-- A text of host characters. -/
def IsHostText (s : Text) : Prop := ∀ c ∈ s, isHostChar c

instance (s : Text) : Decidable (IsHostText s) :=
  decidable_of_iff (s.all isHostChar) List.all_eq_true

theorem IsHostText.append {s t : Text} (hs : IsHostText s) (ht : IsHostText t) :
    IsHostText (s ++ t) := by
  intro c hc
  rcases List.mem_append.mp hc with hc | hc
  · exact hs c hc
  · exact ht c hc

theorem IsHostText.of_isNumeral (h : isNumeral s) : IsHostText s :=
  fun c hc => isHostChar_of_isDigit ((isNumeral_iff.mp h).2 c hc)

/-- A host text has no other characters. -/
theorem IsHostText.not_mem (hs : IsHostText s) (hc : isHostChar c = false) : c ∉ s := by
  intro hm
  have := hs c hm
  rw [hc] at this
  exact Bool.false_ne_true this

/-- A text without a bracket is a plain name. -/
theorem expandMatch_plain (h : '[' ∉ s) : expandMatch s = none := by
  have hdrop : s.dropWhile (· ≠ '[') = [] := by
    rw [List.dropWhile_eq_nil_iff]
    intro c hc
    simpa using fun he : c = '[' => h (he ▸ hc)
  rw [expandMatch, hdrop]
  split <;> rfl

/-- An entry without brackets is one name. -/
theorem expandEntry_plain (fuel : Nat) (h : '[' ∉ s) : expandEntry fuel s = some [s] := by
  rw [expandEntry, expandMatch_plain h]

/-- A bracketed list is split off its prefix. -/
theorem expandMatch_bracket {pre body : Text} (hpre : IsHostText pre) (hbody : '\n' ∉ body) :
    expandMatch (pre ++ '[' :: (body ++ [']'])) = some (pre, body) := by
  have hline : '\n' ∉ pre ++ '[' :: (body ++ [']']) := by
    simp [hbody, hpre.not_mem (c := '\n') rfl]
  have hne : ∀ c ∈ pre, decide (c ≠ '[') = true := by
    intro c hc
    simpa using fun he : c = '[' => hpre.not_mem (c := '[') rfl (he ▸ hc)
  have hdrop : (pre ++ '[' :: (body ++ [']'])).dropWhile (· ≠ '[') = '[' :: (body ++ [']']) := by
    rw [List.dropWhile_append_of_pos hne, List.dropWhile_cons_of_neg (by simp)]
  have htake : (pre ++ '[' :: (body ++ [']'])).takeWhile (· ≠ '[') = pre := by
    rw [List.takeWhile_append_of_pos hne, List.takeWhile_cons_of_neg (by simp), List.append_nil]
  unfold expandMatch
  rw [if_neg hline, hdrop, htake]
  simp

/-- The parts of a bracketed list are made of digits and dashes. -/
theorem mem_formatRange {a b : Text} (ha : isNumeral a) (hb : isNumeral b)
    (hc : c ∈ formatRange a b) : c.isDigit ∨ c = '-' := by
  unfold formatRange at hc
  split at hc
  · exact Or.inl ((isNumeral_iff.mp ha).2 c hc)
  · rcases List.mem_append.mp hc with hc | hc
    · exact Or.inl ((isNumeral_iff.mp ha).2 c hc)
    · rcases List.mem_cons.mp hc with hc | hc
      · exact Or.inr hc
      · exact Or.inl ((isNumeral_iff.mp hb).2 c hc)

/-- A printed range has only digits and a dash. -/
theorem not_mem_formatRange {a b : Text} (ha : isNumeral a) (hb : isNumeral b)
    (hc : c.isDigit = false) (hdash : c ≠ '-') : c ∉ formatRange a b := by
  intro hm
  rcases mem_formatRange ha hb hm with h | h
  · rw [hc] at h
    exact Bool.false_ne_true h
  · exact hdash h

/-- A character of neither the parts nor the separator is not in the list. -/
theorem not_mem_intercalate {sep : Char} {l : List Text} (hsep : c ≠ sep) (h : ∀ s ∈ l, c ∉ s) :
    c ∉ List.intercalate [sep] l := by
  induction l with
  | nil => simp [List.intercalate]
  | cons s l ih =>
    have hl : c ∉ List.intercalate [sep] l := ih fun t ht => h t (List.mem_cons_of_mem s ht)
    have hs : c ∉ s := h s List.mem_cons_self
    cases l with
    | nil => simpa [List.intercalate] using hs
    | cons t l => simp [List.intercalate_cons_cons, hs, hsep, hl]

/-- The bracketed text of at least two numerals. -/
theorem compressRange_cons_cons (n m : Text) (ns : List Text) :
    compressRange (n :: m :: ns) = '[' :: (List.intercalate [',']
      ((groupRanges (n :: m :: ns)).map fun r => formatRange r.1 r.2) ++ [']']) := by
  rw [compressRange, compressLoop_eq_map]
  · rfl
  · simp

variable {pre : Text}

/-- A bracketed list of ranges is read range by range. -/
theorem expandEntry_bracket {fuel : Nat} {rs : List (Text × Text)} {out : List Text}
    (hpre : IsHostText pre) (hrs : ∀ r ∈ rs, isNumeral r.1 ∧ isNumeral r.2) (hne : rs ≠ []) :
    expandEntry fuel (pre ++ '[' ::
        (List.intercalate [','] (rs.map fun r => formatRange r.1 r.2) ++ [']'])) = some out ↔
      (∀ r ∈ rs, RangeEnds fuel r) ∧ out = (rs.flatMap rangeNames).map (pre ++ ·) := by
  have hparts : ∀ c : Char, c.isDigit = false → c ≠ '-' →
      ∀ s ∈ rs.map fun r => formatRange r.1 r.2, c ∉ s := by
    intro c hc hdash s hs
    obtain ⟨r, hr, rfl⟩ := List.mem_map.mp hs
    exact not_mem_formatRange (hrs r hr).1 (hrs r hr).2 hc hdash
  have hbody : '\n' ∉ List.intercalate [','] (rs.map fun r => formatRange r.1 r.2) :=
    not_mem_intercalate (by decide) (hparts '\n' rfl (by decide))
  have hread : expandEntry fuel (pre ++ '[' ::
      (List.intercalate [','] (rs.map fun r => formatRange r.1 r.2) ++ [']']))
        = (rs.mapM fun r => expandPart fuel pre (formatRange r.1 r.2)).map List.flatten := by
    rw [expandEntry, expandMatch_bracket hpre hbody]
    change ((List.splitOn ',' _).mapM (expandPart fuel pre)).map List.flatten = _
    rw [List.splitOn_intercalate ',' (hparts ',' rfl (by decide)) (by simpa using hne),
      List.mapM_map]
    rfl
  rw [hread, OptionList.mapM_flatten_eq_some_iff fun r hr =>
    (expandPart_formatRange fuel pre (hrs r hr).1 (hrs r hr).2).2, List.map_flatMap]
  refine and_congr_left fun _ => forall₂_congr fun r hr => ?_
  exact (expandPart_formatRange fuel pre (hrs r hr).1 (hrs r hr).2).1

/-- **An entry is read as its group**: `expandEntry` succeeds when every range ends within the fuel,
and returns the names of the group. -/
theorem expandEntry_eq_some_iff {fuel : Nat} {out : List Text} (hpre : IsHostText pre)
    (hnum : ∀ n ∈ nums, isNumeral n) :
    expandEntry fuel (pre ++ compressRange nums) = some out ↔
      (∀ r ∈ groupRanges nums, RangeEnds fuel r) ∧ out = groupNames pre nums := by
  match nums, hnum with
  | [], _ =>
    rw [compressRange, List.append_nil, expandEntry_plain fuel (hpre.not_mem rfl)]
    simp [groupRanges, groupNames, eq_comm]
  | [n], hnum =>
    have htext : IsHostText (pre ++ n) := hpre.append (.of_isNumeral (hnum n (by simp)))
    rw [compressRange, expandEntry_plain fuel (htext.not_mem rfl)]
    simp [groupRanges, groupNames, rangeNames_self, RangeEnds, eq_comm]
  | n :: m :: ns, hnum =>
    have hb := groupRanges_bounds hnum
    rw [compressRange_cons_cons, expandEntry_bracket hpre (fun r hr => ⟨(hb r hr).1, (hb r hr).2.1⟩)
      (groupRanges_ne_nil hnum), groupNames, if_neg (List.cons_ne_nil _ _)]

/-! ## Splitting the list -/

/-- A text that the splitting loop takes over whole outside brackets. -/
def Atomic (s : Text) : Prop :=
  ∀ current rest, splitLoop 0 current (s ++ rest) = splitLoop 0 (current ++ s) rest

theorem Atomic.append {s t : Text} (hs : Atomic s) (ht : Atomic t) : Atomic (s ++ t) := by
  intro current rest
  rw [List.append_assoc, hs, ht, List.append_assoc]

/-- A text without commas and brackets is taken over whole. -/
theorem atomic_of_not_mem (h1 : '[' ∉ s) (h2 : ']' ∉ s) (h3 : ',' ∉ s) : Atomic s := by
  induction s with
  | nil => simp [Atomic]
  | cons c s ih =>
    simp only [List.mem_cons, not_or] at h1 h2 h3
    intro current rest
    rw [List.cons_append, splitLoop, if_neg (Ne.symm h1.1), if_neg (Ne.symm h2.1),
      if_neg fun hc => h3.1 hc.1.symm, ih h1.2 h2.2 h3.2, List.append_assoc, List.singleton_append]

/-- Within brackets every text without brackets is taken over whole, commas included. -/
theorem splitLoop_within (depth : Nat) (h1 : '[' ∉ s) (h2 : ']' ∉ s) (current rest : Text) :
    splitLoop (depth + 1) current (s ++ rest) = splitLoop (depth + 1) (current ++ s) rest := by
  induction s generalizing current with
  | nil => simp
  | cons c s ih =>
    simp only [List.mem_cons, not_or] at h1 h2
    rw [List.cons_append, splitLoop, if_neg (Ne.symm h1.1), if_neg (Ne.symm h2.1),
      if_neg fun hc => absurd hc.2 (Nat.succ_ne_zero depth), ih h1.2 h2.2, List.append_assoc,
      List.singleton_append]

/-- A bracketed text is taken over whole. -/
theorem atomic_bracket {body : Text} (h1 : '[' ∉ body) (h2 : ']' ∉ body) :
    Atomic ('[' :: (body ++ [']'])) := by
  intro current rest
  rw [List.cons_append, splitLoop, if_pos rfl, List.append_assoc, splitLoop_within 0 h1 h2,
    List.singleton_append, splitLoop, if_neg (by decide), if_pos rfl]
  simp

/-- The entry of a group is taken over whole. -/
theorem atomic_entry (hpre : IsHostText pre) (hnum : ∀ n ∈ nums, isNumeral n) :
    Atomic (pre ++ compressRange nums) := by
  have hplain : ∀ {s : Text}, IsHostText s → Atomic s := fun hs =>
    atomic_of_not_mem (hs.not_mem rfl) (hs.not_mem rfl) (hs.not_mem rfl)
  refine (hplain hpre).append ?_
  match nums, hnum with
  | [], _ => exact hplain (by simp [compressRange, IsHostText])
  | [n], hnum => exact hplain (.of_isNumeral (hnum n (by simp)))
  | n :: m :: ns, hnum =>
    have hb := groupRanges_bounds hnum
    have hparts : ∀ c : Char, c.isDigit = false → c ≠ '-' →
        ∀ s ∈ (groupRanges (n :: m :: ns)).map fun r => formatRange r.1 r.2, c ∉ s := by
      intro c hc hdash s hs
      obtain ⟨r, hr, rfl⟩ := List.mem_map.mp hs
      exact not_mem_formatRange (hb r hr).1 (hb r hr).2.1 hc hdash
    rw [compressRange_cons_cons]
    exact atomic_bracket (not_mem_intercalate (by decide) (hparts '[' rfl (by decide)))
      (not_mem_intercalate (by decide) (hparts ']' rfl (by decide)))

/-- **The entries come back from the comma separated list.** -/
theorem splitList_intercalate {l : List Text} (hatomic : ∀ s ∈ l, Atomic s) (hne : ∀ s ∈ l, s ≠ [])
    (hspace : ∀ s ∈ l, ∀ c ∈ s, isSpace c = false) : splitList (List.intercalate [','] l) = l := by
  induction l with
  | nil => rfl
  | cons s l ih =>
    have hkeep : ∀ rest, keepPart s rest = s :: rest := by
      intro rest
      have htrim := trimSpace_of_forall (hspace s List.mem_cons_self)
      rw [keepPart, htrim, if_neg (hne s List.mem_cons_self)]
    have hl := ih (fun t ht => hatomic t (List.mem_cons_of_mem s ht))
      (fun t ht => hne t (List.mem_cons_of_mem s ht)) fun t ht =>
      hspace t (List.mem_cons_of_mem s ht)
    have hs : ∀ rest, splitLoop 0 [] (s ++ rest) = splitLoop 0 s rest :=
      hatomic s List.mem_cons_self []
    cases l with
    | nil =>
      have := hs []
      rw [List.append_nil] at this
      rw [List.intercalate_singleton, splitList, this, splitLoop, hkeep]
    | cons t l =>
      rw [List.intercalate_cons_cons, splitList, List.append_assoc, hs,
        List.singleton_append, splitLoop,
        if_neg (by decide), if_neg (by decide), if_pos ⟨rfl, rfl⟩, hkeep]
      exact congrArg _ hl

end Topograph.Cluset
