import Topograph.Cluset.Cluset

/-! # Numerals: reading, padding and stepping

A numeral is determined by its length and its value (`numeral_ext`), and `zeroPad` writes the
numeral of a given value and least length (`zeroPad_numeralValue`). With the bounds on `atoi` this
turns the range loop of `expand` into a plain list of padded numbers (`expandRange_eq_map`), or into
a loop without end when the upper bound is the largest integer (`expandRange_maxInt`). -/

namespace Topograph.Cluset

/-- The value of a run of digits. -/
def numeralValue (s : Text) : Nat := Nat.ofDigitChars 10 s 0

variable {s : Text}

theorem isNumeral_iff : isNumeral s ↔ s ≠ [] ∧ ∀ c ∈ s, c.isDigit := by
  simp [isNumeral]

/-- Appending in front of a numeral adds the shifted digit. -/
theorem numeralValue_cons (c : Char) (s : Text) :
    numeralValue (c :: s) = 10 ^ s.length * (c.toNat - 48) + numeralValue s := by
  rw [numeralValue, Nat.ofDigitChars_cons, Nat.ofDigitChars_eq_ofDigitChars_zero]
  simp [numeralValue]

/-- A digit has a value below ten and is determined by it. -/
theorem digit_bounds {c : Char} (h : c.isDigit) : 48 ≤ c.toNat ∧ c.toNat ≤ 57 := by
  simp only [Char.isDigit, ge_iff_le, Bool.and_eq_true, decide_eq_true_eq] at h
  exact ⟨UInt32.le_iff_toNat_le.mp h.1, UInt32.le_iff_toNat_le.mp h.2⟩

/-- A run of `n` digits has a value below `10 ^ n`. -/
theorem numeralValue_lt (h : ∀ c ∈ s, c.isDigit) : numeralValue s < 10 ^ s.length := by
  induction s with
  | nil => simp [numeralValue]
  | cons c s ih =>
    have htail := ih fun d hd => h d (List.mem_cons_of_mem c hd)
    have hc := digit_bounds (h c List.mem_cons_self)
    rw [numeralValue_cons, List.length_cons, pow_succ]
    have hmul : 10 ^ s.length * (c.toNat - 48) ≤ 10 ^ s.length * 9 :=
      Nat.mul_le_mul_left _ (by omega)
    omega

/-- **Numerals are determined by length and value.** -/
theorem numeral_ext {s t : Text} (hs : ∀ c ∈ s, c.isDigit) (ht : ∀ c ∈ t, c.isDigit)
    (hlen : s.length = t.length) (hval : numeralValue s = numeralValue t) : s = t := by
  induction s generalizing t with
  | nil => exact (List.length_eq_zero_iff.mp hlen.symm).symm
  | cons c s ih =>
    cases t with
    | nil => simp at hlen
    | cons d t =>
      have hlen' : s.length = t.length := by simpa using hlen
      have hs' : ∀ x ∈ s, x.isDigit := fun x hx => hs x (List.mem_cons_of_mem c hx)
      have ht' : ∀ x ∈ t, x.isDigit := fun x hx => ht x (List.mem_cons_of_mem d hx)
      have hsv := numeralValue_lt hs'
      have htv := numeralValue_lt ht'
      have hc := digit_bounds (hs c List.mem_cons_self)
      have hd := digit_bounds (ht d List.mem_cons_self)
      rw [numeralValue_cons, numeralValue_cons, ← hlen'] at hval
      rw [← hlen'] at htv
      -- The leading digits agree: both are the quotient by the same power of ten.
      have hdigit : c.toNat - 48 = d.toNat - 48 := by
        have h1 := congrArg (· / 10 ^ s.length) hval
        have hpos : 0 < 10 ^ s.length := Nat.pow_pos (by omega)
        simpa [Nat.mul_add_div hpos, Nat.div_eq_of_lt hsv, Nat.div_eq_of_lt htv] using h1
      have hcd : c = d := Char.toNat_inj.mp (by omega)
      have hrest : numeralValue s = numeralValue t := by
        rw [hdigit] at hval
        omega
      rw [hcd, ih hs' ht' hlen' hrest]

/-- A number is read off from its decimal digits. -/
theorem toString_nat_injective {m n : Nat} (h : toString m = toString n) : m = n := by
  have hdigits : Nat.toDigits 10 m = Nat.toDigits 10 n := String.ofList_injective h
  have hvalue := congrArg (Nat.ofDigitChars 10 · 0) hdigits
  simpa using hvalue

/-! ## Padding -/

/-- The number of decimal digits of `n`. -/
def digitCount (n : Nat) : Nat := (Nat.toDigits 10 n).length

/-- A number has at most `k` digits when it is below `10 ^ k`. -/
theorem digitCount_le_iff {n k : Nat} (hk : 0 < k) : digitCount n ≤ k ↔ n < 10 ^ k :=
  Nat.length_toDigits_le_iff (by omega) hk

theorem digitCount_pos (n : Nat) : 0 < digitCount n := Nat.length_toDigits_pos

/-- Larger numbers have at least as many digits. -/
theorem digitCount_mono {m n : Nat} (h : m ≤ n) : digitCount m ≤ digitCount n := by
  rw [digitCount_le_iff (digitCount_pos n)]
  exact lt_of_le_of_lt h ((digitCount_le_iff (digitCount_pos n)).mp le_rfl)

/-- A numeral has at least as many characters as its value has digits. -/
theorem digitCount_numeralValue_le (h : isNumeral s) : digitCount (numeralValue s) ≤ s.length := by
  obtain ⟨hne, hdig⟩ := isNumeral_iff.mp h
  rw [digitCount_le_iff (List.length_pos_iff.mpr hne)]
  exact numeralValue_lt hdig

/-- Padding never cuts digits off. -/
theorem length_zeroPad (width n : Nat) : (zeroPad width n).length = max width (digitCount n) := by
  rw [zeroPad, List.length_append, List.length_replicate, digitCount]
  omega

theorem isNumeral_zeroPad (width n : Nat) : isNumeral (zeroPad width n) := by
  rw [isNumeral_iff, zeroPad]
  refine ⟨by simp [Nat.toDigits_ne_nil], ?_⟩
  intro c hc
  rcases List.mem_append.mp hc with hc | hc
  · rw [(List.mem_replicate.mp hc).2]
    rfl
  · exact Nat.isDigit_of_mem_toDigits (by omega) (by omega) hc

/-- Padding keeps the number. -/
theorem numeralValue_zeroPad (width n : Nat) : numeralValue (zeroPad width n) = n := by
  rw [numeralValue, zeroPad, Nat.ofDigitChars_append, Nat.ofDigitChars_replicate_zero]
  simp

section

variable (h : isNumeral s)

include h

/-- **Padding rewrites a numeral** exactly when it has the padded length. -/
theorem zeroPad_numeralValue {width : Nat} :
    zeroPad width (numeralValue s) = s ↔ s.length = max width (digitCount (numeralValue s)) := by
  refine ⟨fun he => ?_, fun hlen => ?_⟩
  · rw [← length_zeroPad, he]
  · apply numeral_ext (isNumeral_iff.mp (isNumeral_zeroPad _ _)).2 (isNumeral_iff.mp h).2
    · rw [length_zeroPad, hlen]
    · exact numeralValue_zeroPad _ _

/-- A numeral padded to its own length is itself. -/
theorem zeroPad_length : zeroPad s.length (numeralValue s) = s := by
  rw [zeroPad_numeralValue h, max_eq_left (digitCount_numeralValue_le h)]

/-! ## Reading -/

/-- A numeral is read as its value, saturated at the largest integer. -/
theorem atoi_numeral : atoi s = min maxInt (numeralValue s) := by
  obtain ⟨hne, hdig⟩ := isNumeral_iff.mp h
  cases s with
  | nil => exact absurd rfl hne
  | cons c s =>
    have hc := digit_bounds (hdig c List.mem_cons_self)
    have hminus : c ≠ '-' := by
      rintro rfl
      simp at hc
    have hplus : c ≠ '+' := by
      rintro rfl
      simp at hc
    unfold atoi
    split
    · rename_i heq
      exact absurd (List.cons.inj heq).1 hminus
    · rename_i heq
      exact absurd (List.cons.inj heq).1 hplus
    · rw [if_pos h, numeralValue]

theorem atoi_nonneg : 0 ≤ atoi s := by
  rw [atoi_numeral h, maxInt]
  omega

theorem atoi_le_maxInt : atoi s ≤ maxInt := by
  rw [atoi_numeral h]
  exact min_le_left _ _

/-- Below the largest integer a numeral is read exactly. -/
theorem atoi_eq_numeralValue (hlt : atoi s < maxInt) : atoi s = numeralValue s := by
  rw [atoi_numeral h] at hlt ⊢
  omega

end

/-- An `int` does not wrap around. -/
theorem wrapInt_of_mem {n : Int} (h1 : minInt ≤ n) (h2 : n ≤ maxInt) : wrapInt n = n := by
  rw [wrapInt, minInt, maxInt] at *
  exact Int.bmod_eq_of_le (by omega) (by omega)

theorem wrapInt_le_maxInt (n : Int) : wrapInt n ≤ maxInt := by
  have h := Int.bmod_lt (x := n) (m := 2 ^ 64) (by decide)
  rw [wrapInt, maxInt]
  omega

/-- Two numerals are joined into one range when the second number is one more than the first. -/
theorem atoi_eq_wrapInt_succ {s t : Text} (hs : isNumeral s) (ht : isNumeral t) :
    atoi t = wrapInt (atoi s + 1) ↔ atoi t = atoi s + 1 := by
  have h0 := atoi_nonneg hs
  have h1 := atoi_le_maxInt hs
  have h2 := atoi_nonneg ht
  have h3 := atoi_le_maxInt ht
  rcases eq_or_lt_of_le h1 with hmax | hlt
  · -- At the largest integer the successor wraps around to a negative number.
    have hwrap : wrapInt (atoi s + 1) = minInt := by
      rw [hmax]
      decide
    rw [hwrap, hmax]
    rw [maxInt] at *
    rw [minInt]
    omega
  · rw [wrapInt_of_mem (by rw [minInt]; omega) (by omega)]

/-! ## The range loop -/

/-- A character of a numeral takes one byte. -/
theorem byteLen_numeral (h : isNumeral s) : byteLen s = s.length := by
  have hsize : ∀ c ∈ s, c.utf8Size = 1 := by
    intro c hc
    have hb := digit_bounds ((isNumeral_iff.mp h).2 c hc)
    rw [Char.utf8Size_eq_one_iff, UInt32.le_iff_toNat_le]
    change c.toNat ≤ 127
    omega
  unfold byteLen
  rw [List.map_congr_left hsize, List.map_const', List.sum_replicate_nat, Nat.mul_one]

/-- Formatting a non-negative number at an accepted width pads it. -/
theorem sprintfPadded_natCast {width n : Nat} (h : width ≤ maxWidth) :
    sprintfPadded width (n : Int) = zeroPad width n := by
  simp [sprintfPadded, h]

/-- **The range loop lists the range** when its upper bound is not the largest integer, and it takes
one turn more than the range is long. -/
theorem expandRange_eq_map (pre : Text) (width fuel : Nat) {lo hi : Int} (h0 : 0 ≤ lo)
    (hhi : hi < maxInt) :
    expandRange pre width hi fuel lo =
      if (hi + 1 - lo).toNat < fuel then
        some ((List.range (hi + 1 - lo).toNat).map fun k : Nat => pre ++
          sprintfPadded width (lo + k))
      else none := by
  induction fuel generalizing lo with
  | zero => rfl
  | succ fuel ih =>
    unfold expandRange
    by_cases hle : lo ≤ hi
    · have hwrap : wrapInt (lo + 1) = lo + 1 :=
        wrapInt_of_mem (by rw [minInt]; omega) (by omega)
      have hcount : (hi + 1 - lo).toNat = (hi + 1 - (lo + 1)).toNat + 1 := by omega
      -- The rest of the range is the same list with every number counted from `lo`.
      have hrest : ∀ k : Nat, lo + 1 + (k : Int) = lo + (k.succ : Nat) := by
        intro k
        omega
      rw [if_pos hle, hwrap, ih (by omega), hcount]
      by_cases hfuel : (hi + 1 - (lo + 1)).toNat < fuel
      · rw [if_pos hfuel, if_pos (by omega), Option.map_some, List.range_succ_eq_map, List.map_cons,
          List.map_map, Int.natCast_zero, Int.add_zero]
        simp only [hrest, Function.comp_def]
      · rw [if_neg hfuel, if_neg (by omega), Option.map_none]
    · rw [if_neg hle, show (hi + 1 - lo).toNat = 0 by omega, if_pos (by omega)]
      rfl

/-- **The range loop does not end** when its upper bound is the largest integer. -/
theorem expandRange_maxInt (pre : Text) (width fuel : Nat) {i : Int} (hi : i ≤ maxInt) :
    expandRange pre width maxInt fuel i = none := by
  induction fuel generalizing i with
  | zero => rfl
  | succ fuel ih =>
    unfold expandRange
    rw [if_pos hi, ih (wrapInt_le_maxInt _), Option.map_none]

end Topograph.Cluset
