import Topograph.Cluset.Numerals

/-! # What a compressed list of numbers expands to

`compressRange` writes a sorted list of numerals as ranges of consecutive numbers, and `expand`
prints the numbers of a range again at the width of its first numeral. Read position by position, a
numeral that does not follow its predecessor comes back as it is, and one that does comes back
padded to the width of the start of its run (`printedAt`). The ranges of the compressed list expand
to exactly these texts (`flatMap_rangeNames`). -/

namespace Topograph.Cluset

/-! ## Ranges -/

/-- Whether `compressRange` joins `b` to a range that ends in `a`. -/
def Follows (a b : Text) : Prop := atoi b = wrapInt (atoi a + 1)

instance (a b : Text) : Decidable (Follows a b) := inferInstanceAs (Decidable (_ = _))

/-- On numerals the successor is computed without wrapping around. -/
theorem follows_iff {a b : Text} (ha : isNumeral a) (hb : isNumeral b) :
    Follows a b ↔ atoi b = atoi a + 1 :=
  atoi_eq_wrapInt_succ ha hb

/-- The bounds of the ranges that `compressRange` forms. -/
def ranges (start stop : Text) : List Text → List (Text × Text)
  | [] => [(start, stop)]
  | n :: ns => if Follows stop n then ranges start n ns else (start, stop) :: ranges n n ns

@[simp] theorem ranges_nil (start stop : Text) : ranges start stop [] = [(start, stop)] := rfl

theorem ranges_cons (start stop n : Text) (ns : List Text) :
    ranges start stop (n :: ns)
      = if Follows stop n then ranges start n ns else (start, stop) :: ranges n n ns := rfl

theorem compressLoop_cons (start stop n : Text) (ns : List Text) :
    compressLoop start stop (n :: ns) = if Follows stop n then compressLoop start n ns
      else formatRange start stop :: compressLoop n n ns := rfl

/-- The printed ranges are the formatted bounds. -/
theorem compressLoop_eq_map (start stop : Text) (ns : List Text) :
    compressLoop start stop ns = (ranges start stop ns).map fun r => formatRange r.1 r.2 := by
  induction ns generalizing start stop with
  | nil => rfl
  | cons n ns ih =>
    rw [compressLoop_cons, ranges_cons]
    by_cases h : Follows stop n
    · rw [if_pos h, if_pos h, ih]
    · rw [if_neg h, if_neg h, List.map_cons, ih]

/-- The texts a range expands to, without the prefix of the group. -/
def rangeNames (r : Text × Text) : List Text :=
  if r.1 = r.2 then [r.1]
  else (List.range (atoi r.2 + 1 - atoi r.1).toNat).map fun k : Nat =>
    sprintfPadded (byteLen r.1) (atoi r.1 + k)

/-- A range of one number has one name. -/
theorem rangeNames_self (n : Text) : rangeNames (n, n) = [n] := by
  rw [rangeNames, if_pos rfl]

/-- A range of several numbers gains the next number at the end. -/
theorem rangeNames_extend {a b n : Text} (hab : atoi a < atoi b) (hn : atoi n = atoi b + 1) :
    rangeNames (a, n) = rangeNames (a, b) ++ [sprintfPadded (byteLen a) (atoi n)] := by
  have hne : a ≠ b := fun h => by rw [h] at hab; omega
  have hne' : a ≠ n := fun h => by rw [h] at hab; omega
  have hcount : (atoi n + 1 - atoi a).toNat = (atoi b + 1 - atoi a).toNat + 1 := by omega
  have hlast : atoi a + ((atoi b + 1 - atoi a).toNat : Int) = atoi n := by omega
  unfold rangeNames
  rw [if_neg hne, if_neg hne', hcount, List.range_succ, List.map_append, List.map_singleton, hlast]

/-- A range that starts with its first two numbers prints the first one as it stands. -/
theorem rangeNames_pair {a n : Text} (ha : isNumeral a) (hmax : atoi a < maxInt)
    (hwidth : byteLen a ≤ maxWidth) (hn : atoi n = atoi a + 1) :
    rangeNames (a, n) = [a, sprintfPadded (byteLen a) (atoi n)] := by
  have hne : a ≠ n := fun h => by rw [h] at hn; omega
  have hcount : (atoi n + 1 - atoi a).toNat = 2 := by omega
  have hfirst : sprintfPadded (byteLen a) (atoi a) = a := by
    rw [atoi_eq_numeralValue ha hmax, sprintfPadded_natCast hwidth, byteLen_numeral ha,
      zeroPad_length ha]
  unfold rangeNames
  rw [if_neg hne, hcount, hn]
  simp [List.range_succ, hfirst]

/-! ## Position by position -/

/-- The start of the run of `n`, given the numerals before it, last one first. -/
def runStart : List Text → Text → Text
  | [], n => n
  | e :: before, n => if Follows e n then runStart before e else n

/-- What comes back for `n`, given the numerals before it, last one first. -/
def printedAt : List Text → Text → Text
  | [], n => n
  | e :: before, n =>
    if Follows e n then sprintfPadded (byteLen (runStart before e)) (atoi n) else n

/-- What comes back for a list of numerals behind others. -/
def printed (before : List Text) : List Text → List Text
  | [] => []
  | n :: ns => printedAt before n :: printed (n :: before) ns

/-- Inside a run a numeral is padded to the width of the run's start. -/
theorem printedAt_of_follows {e n : Text} (before : List Text) (h : Follows e n) :
    printedAt (e :: before) n = sprintfPadded (byteLen (runStart before e)) (atoi n) :=
  if_pos h

/-- The start of a run is printed as it is. -/
theorem printedAt_of_not_follows {e n : Text} (before : List Text) (h : ¬ Follows e n) :
    printedAt (e :: before) n = n :=
  if_neg h

/-- The printed texts belong to the places of the list; the numerals before a place are given last
one first. -/
theorem mem_printed {before l : List Text} {t : Text} :
    t ∈ printed before l ↔
      ∃ l₁ n l₂, l = l₁.reverse ++ n :: l₂ ∧ t = printedAt (l₁ ++ before) n := by
  induction l generalizing before with
  | nil => simp [printed]
  | cons m ns ih =>
    rw [printed, List.mem_cons, ih]
    refine ⟨?_, ?_⟩
    · intro h
      rcases h with rfl | ⟨l₁, n, l₂, rfl, rfl⟩
      · exact ⟨[], m, ns, rfl, rfl⟩
      · exact ⟨l₁ ++ [m], n, l₂, by simp, by simp⟩
    · rintro ⟨l₁, n, l₂, hl, rfl⟩
      rcases List.eq_nil_or_concat l₁ with rfl | ⟨l₁, a, rfl⟩
      · obtain ⟨rfl, -⟩ := List.cons.inj hl
        exact Or.inl rfl
      · rw [List.concat_eq_append, List.reverse_append, List.reverse_singleton] at hl
        obtain ⟨rfl, hns⟩ := List.cons.inj hl
        exact Or.inr ⟨l₁, n, l₂, hns, by simp⟩

/-! ## The two readings agree -/

/-- The first range formed starts where the loop stands and reaches at least as far. -/
theorem ranges_head (start stop : Text) {ns : List Text} (hnum : ∀ n ∈ stop :: ns, isNumeral n) :
    ∃ z rest, ranges start stop ns = (start, z) :: rest ∧ atoi stop ≤ atoi z := by
  induction ns generalizing stop with
  | nil => exact ⟨stop, [], rfl, le_rfl⟩
  | cons n ns ih =>
    rw [ranges_cons]
    by_cases h : Follows stop n
    · obtain ⟨z, rest, hz, hle⟩ := ih n fun m hm => hnum m (List.mem_cons_of_mem stop hm)
      have hstep := (follows_iff (hnum stop (by simp)) (hnum n (by simp))).mp h
      exact ⟨z, rest, by rw [if_pos h, hz], by omega⟩
    · exact ⟨stop, _, if_neg h, le_rfl⟩

/-- **The ranges print position by position**: the names of all ranges are those of the current
range followed by what is printed for the numerals still to come. Only the widths of true ranges
matter. -/
theorem flatMap_rangeNames {start stop : Text} {ns before : List Text}
    (hstart : start = runStart before stop) (hlt : start = stop ∨ atoi start < atoi stop)
    (hnum : ∀ n ∈ stop :: ns, isNumeral n) (hsnum : isNumeral start)
    (hwidth : ∀ r ∈ ranges start stop ns, r.1 ≠ r.2 → byteLen r.1 ≤ maxWidth) :
    (ranges start stop ns).flatMap rangeNames
      = rangeNames (start, stop) ++ printed (stop :: before) ns := by
  induction ns generalizing start stop before with
  | nil => simp [printed]
  | cons n ns ih =>
    have hstop : isNumeral stop := hnum stop (by simp)
    have hn : isNumeral n := hnum n (by simp)
    have hnum' : ∀ m ∈ n :: ns, isNumeral m := fun m hm => hnum m (List.mem_cons_of_mem stop hm)
    rw [ranges_cons] at hwidth ⊢
    by_cases h : Follows stop n
    · rw [if_pos h] at hwidth ⊢
      have hstep := (follows_iff hstop hn).mp h
      have hprint : printedAt (stop :: before) n = sprintfPadded (byteLen start) (atoi n) := by
        rw [printedAt_of_follows before h, hstart]
      have hext : rangeNames (start, n) = rangeNames (start, stop) ++
          [printedAt (stop :: before) n] := by
        rw [hprint]
        rcases hlt with rfl | hlt
        · -- The run has just begun, so its first numeral is padded to its own width.
          obtain ⟨z, rest, hz, hle⟩ := ranges_head start n hnum'
          have hne : start ≠ z := fun he => by rw [← he] at hle; omega
          have hw := hwidth (start, z) (by rw [hz]; exact List.mem_cons_self) hne
          have hmax := atoi_le_maxInt hn
          rw [rangeNames_pair hsnum (by omega) hw hstep, rangeNames_self]
          rfl
        · exact rangeNames_extend hlt hstep
      have hlt' : start = n ∨ atoi start < atoi n := by
        rcases hlt with rfl | hlt
        · exact Or.inr (by omega)
        · exact Or.inr (by omega)
      have hstart' : start = runStart (stop :: before) n := by
        rw [hstart]
        exact (if_pos h).symm
      rw [ih hstart' hlt' hnum' hsnum hwidth, hext, printed, List.append_assoc]
      rfl
    · rw [if_neg h] at hwidth ⊢
      have hrest : ∀ r ∈ ranges n n ns, r.1 ≠ r.2 → byteLen r.1 ≤ maxWidth :=
        fun r hr => hwidth r (List.mem_cons_of_mem _ hr)
      have hstart' : n = runStart (stop :: before) n := (if_neg h).symm
      rw [List.flatMap_cons, ih hstart' (Or.inl rfl) hnum' hn hrest, rangeNames_self, printed,
        printedAt_of_not_follows before h]
      rfl

end Topograph.Cluset
