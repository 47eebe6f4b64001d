import Topograph.Cluset.Entries

/-! # When the numbers of a group survive

The numbers of one prefix are sorted, compressed and printed again. Which numerals come back depends
on the pairs of consecutive numbers only: `StepSurvives` says what a pair needs, and `returns_iff`
that the numbers come back, whatever the order of equal ones, exactly when every pair has it. -/

namespace Topograph.Cluset

/-- The numerals that the compressed list expands to are those of the list, and the expansion
ends. -/
def Returns (nums : List Text) : Prop :=
  (∀ r ∈ groupRanges nums, r.1 = r.2 ∨ atoi r.2 < maxInt) ∧
    ∀ t, t ∈ (groupRanges nums).flatMap rangeNames ↔ t ∈ nums

/-- What the pair of a number `x` and the next one `y` needs: the upper bound of a range stays below
the largest integer, the width of `x` is one that `fmt` accepts, and `y` printed at the width of `x`
is `y` again, or it is another numeral of the list while `y` is there twice. -/
def StepSurvives (nums : List Text) (x y : Text) : Prop :=
  atoi y < maxInt ∧ x.length ≤ maxWidth ∧
    (zeroPad x.length (numeralValue y) = y ∨
      zeroPad x.length (numeralValue y) ∈ nums ∧ 2 ≤ nums.count y)

/-! ## Adjacent numerals of a sorted list -/

variable {e z : Text}

/-- Two numerals that follow each other lie in one range, which starts where their run starts. -/
theorem mem_ranges_of_follows {start stop : Text} {ns before l₁ l₂ : List Text}
    (hnum : ∀ n ∈ stop :: ns, isNumeral n) (hstart : start = runStart before stop)
    (hl : stop :: ns = l₁ ++ e :: z :: l₂) (hez : Follows e z) :
    ∃ b, (runStart (l₁.reverse ++ before) e, b) ∈ ranges start stop ns ∧ atoi z ≤ atoi b := by
  induction ns generalizing start stop before l₁ with
  | nil =>
    have := congrArg List.length hl
    simp only [List.length_cons, List.length_nil, List.length_append] at this
    omega
  | cons n ns ih =>
    have hnum' : ∀ m ∈ n :: ns, isNumeral m := fun m hm => hnum m (List.mem_cons_of_mem stop hm)
    rw [ranges_cons]
    cases l₁ with
    | nil =>
      obtain ⟨rfl, hrest⟩ := List.cons.inj hl
      obtain ⟨rfl, rfl⟩ := List.cons.inj hrest
      obtain ⟨b, rest, hb, hle⟩ := ranges_head start n hnum'
      refine ⟨b, ?_, hle⟩
      rw [if_pos hez, hb, hstart]
      exact List.mem_cons_self
    | cons a l₁ =>
      obtain ⟨rfl, hrest⟩ := List.cons.inj hl
      rw [List.reverse_cons, List.append_assoc, List.singleton_append]
      by_cases h : Follows stop n
      · rw [if_pos h]
        exact ih hnum' (hstart.trans (if_pos h).symm) hrest
      · rw [if_neg h]
        have hn : n = runStart (stop :: before) n := (if_neg h).symm
        obtain ⟨b, hb, hle⟩ := ih hnum' hn hrest
        exact ⟨b, List.mem_cons_of_mem _ hb, hle⟩

/-- A run with two numerals is a range that reaches the second. -/
theorem mem_groupRanges_of_follows {l₁ l₂ : List Text}
    (hnum : ∀ n ∈ l₁ ++ e :: z :: l₂, isNumeral n) (hez : Follows e z) :
    ∃ b, (runStart l₁.reverse e, b) ∈ groupRanges (l₁ ++ e :: z :: l₂) ∧ atoi z ≤ atoi b := by
  obtain ⟨n, ns, hl⟩ : ∃ n ns, l₁ ++ e :: z :: l₂ = n :: ns :=
    List.exists_cons_of_ne_nil (by simp)
  rw [hl] at hnum ⊢
  have hstart : n = runStart [] n := rfl
  obtain ⟨b, hb, hle⟩ := mem_ranges_of_follows hnum hstart hl.symm hez
  rw [List.append_nil] at hb
  exact ⟨b, hb, hle⟩

variable {nums : List Text}

/-- A range of several numbers begins and ends with a pair of consecutive numerals of the list. -/
theorem neighbours_of_mem_ranges {start stop : Text} {ns : List Text} (hstart : start ∈ nums)
    (hsub : ∀ n ∈ stop :: ns, n ∈ nums)
    (hne : start = stop ∨ (∃ z ∈ nums, Follows start z) ∧ ∃ e ∈ nums, Follows e stop) :
    ∀ r ∈ ranges start stop ns, r.1 ∈ nums ∧ r.2 ∈ nums ∧
      (r.1 = r.2 ∨ (∃ z ∈ nums, Follows r.1 z) ∧ ∃ e ∈ nums, Follows e r.2) := by
  induction ns generalizing start stop with
  | nil =>
    intro r hr
    rw [List.mem_singleton.mp hr]
    exact ⟨hstart, hsub stop (by simp), hne⟩
  | cons n ns ih =>
    have hstop : stop ∈ nums := hsub stop (by simp)
    have hn : n ∈ nums := hsub n (by simp)
    have hsub' : ∀ m ∈ n :: ns, m ∈ nums := fun m hm => hsub m (List.mem_cons_of_mem stop hm)
    intro r hr
    rw [ranges_cons] at hr
    by_cases h : Follows stop n
    · rw [if_pos h] at hr
      refine ih hstart hsub' (Or.inr ⟨?_, stop, hstop, h⟩) r hr
      rcases hne with rfl | ⟨hz, -⟩
      · exact ⟨n, hn, h⟩
      · exact hz
    · rw [if_neg h] at hr
      rcases List.mem_cons.mp hr with rfl | hr
      · exact ⟨hstart, hstop, hne⟩
      · exact ih hn hsub' (Or.inl rfl) r hr

/-- The ends of a range have neighbours in the list. -/
theorem neighbours_of_mem_groupRanges {r : Text × Text} (hr : r ∈ groupRanges nums) :
    r.1 ∈ nums ∧ r.2 ∈ nums ∧
      (r.1 = r.2 ∨ (∃ z ∈ nums, Follows r.1 z) ∧ ∃ e ∈ nums, Follows e r.2) := by
  cases nums with
  | nil => simp [groupRanges] at hr
  | cons n ns =>
    exact neighbours_of_mem_ranges List.mem_cons_self (fun m hm => hm) (Or.inl rfl) r hr

/-- The names of a group of numerals are those printed position by position. -/
theorem flatMap_groupRanges (hnum : ∀ n ∈ nums, isNumeral n)
    (hwidth : ∀ r ∈ groupRanges nums, r.1 ≠ r.2 → byteLen r.1 ≤ maxWidth) :
    (groupRanges nums).flatMap rangeNames = printed [] nums := by
  cases nums with
  | nil => rfl
  | cons n ns =>
    have hn : isNumeral n := hnum n List.mem_cons_self
    have hstart : n = runStart [] n := rfl
    rw [groupRanges, flatMap_rangeNames hstart (Or.inl rfl) hnum hn hwidth, rangeNames_self]
    rfl

/-- What is printed is printed at its place. -/
theorem mem_printed_nil {l : List Text} {t : Text} :
    t ∈ printed [] l ↔ ∃ before n l₂, l = before.reverse ++ n :: l₂ ∧ t = printedAt before n := by
  rw [mem_printed]
  simp only [List.append_nil]

/-! ## Sorted lists -/

/-- The order in which `compact` arranges the numbers of a group. -/
def SortedNumbers (l : List Text) : Prop := l.Pairwise fun a b => atoi a ≤ atoi b

theorem SortedNumbers.le_left {l₁ l₂ : List Text} {z : Text} (h : SortedNumbers (l₁ ++ z :: l₂)) :
    ∀ a ∈ l₁, atoi a ≤ atoi z :=
  fun a ha => (List.pairwise_append.mp h).2.2 a ha z List.mem_cons_self

theorem SortedNumbers.le_right {l₁ l₂ : List Text} {z : Text} (h : SortedNumbers (l₁ ++ z :: l₂)) :
    ∀ a ∈ l₂, atoi z ≤ atoi a :=
  (List.pairwise_cons.mp (List.pairwise_append.mp h).2.1).1

/-- A numeral that is there twice is there again behind a smaller one and itself. -/
theorem mem_right_of_count {l before l₂ : List Text} {e t : Text} (hsorted : SortedNumbers l)
    (hl : l = before.reverse ++ e :: t :: l₂) (hlt : atoi e < atoi t) (htwo : 2 ≤ l.count t) :
    t ∈ l₂ := by
  rw [hl] at hsorted htwo
  have hleft : t ∉ before.reverse := fun hm => by
    have := hsorted.le_left t hm
    omega
  have he : e ≠ t := fun he => by rw [he] at hlt; omega
  rw [List.count_append, List.count_eq_zero_of_not_mem hleft, List.count_cons_of_ne he,
    List.count_cons_self] at htwo
  exact List.count_pos_iff.mp (by omega)

/-- A numeral with a smaller one before it and a larger one behind it is alone with its number. -/
theorem count_eq_one {l₁ l₂ : List Text} {w e z : Text}
    (h : SortedNumbers (l₁ ++ w :: e :: z :: l₂)) (hwe : atoi w < atoi e) (hez : atoi e < atoi z) :
    (l₁ ++ w :: e :: z :: l₂).count e = 1 := by
  have hleft : e ∉ l₁ := fun hm => by
    have := h.le_left e hm
    omega
  have hright : e ∉ l₂ := fun hm => by
    have h' : SortedNumbers ((l₁ ++ [w, e]) ++ z :: l₂) := by simpa using h
    have := h'.le_right e hm
    omega
  have hw : w ≠ e := fun he => by rw [he] at hwe; omega
  have hz : z ≠ e := fun he => by rw [he] at hez; omega
  rw [List.count_append, List.count_eq_zero_of_not_mem hleft, List.count_cons_of_ne hw,
    List.count_cons_self, List.count_cons_of_ne hz, List.count_eq_zero_of_not_mem hright]

/-- A numeral behind another one of the same number comes back as it is. -/
theorem printedAt_repeat {l before m k : List Text} {t u : Text} (hnum : ∀ n ∈ l, isNumeral n)
    (hsorted : SortedNumbers l) (hl : l = before.reverse ++ t :: (m ++ u :: k))
    (hval : atoi u = atoi t) : printedAt (m.reverse ++ t :: before) u = u := by
  have hu : isNumeral u := hnum u (by simp [hl])
  cases hm : m.reverse with
  | nil =>
    apply printedAt_of_not_follows
    rw [follows_iff (hnum t (by simp [hl])) hu]
    omega
  | cons q m' =>
    have hq : q ∈ m := by
      rw [← List.mem_reverse, hm]
      exact List.mem_cons_self
    have hle : atoi t ≤ atoi q := (hl ▸ hsorted).le_right q (by simp [hq])
    apply printedAt_of_not_follows
    rw [follows_iff (hnum q (by simp [hl, hq])) hu]
    omega

/-- A run starts with a number that is not larger. -/
theorem atoi_runStart_le {before : List Text} {e : Text} (hnum : ∀ n ∈ e :: before, isNumeral n) :
    atoi (runStart before e) ≤ atoi e := by
  induction before generalizing e with
  | nil => exact le_rfl
  | cons w before ih =>
    unfold runStart
    by_cases h : Follows w e
    · have hstep := (follows_iff (hnum w (by simp)) (hnum e (by simp))).mp h
      have := ih fun n hn => hnum n (List.mem_cons_of_mem e hn)
      rw [if_pos h]
      omega
    · rw [if_neg h]

/-- Padding beyond the number of digits is all that distinguishes widths. -/
theorem zeroPad_congr {w w' v : Nat} (h : max w (digitCount v) = max w' (digitCount v)) :
    zeroPad w v = zeroPad w' v := by
  unfold zeroPad digitCount at *
  congr 2
  omega

section Positions

variable {l : List Text} (hnum : ∀ n ∈ l, isNumeral n)
  (hends : ∀ r ∈ groupRanges l, r.1 = r.2 ∨ atoi r.2 < maxInt)
  (hwidth : ∀ r ∈ groupRanges l, r.1 ≠ r.2 → byteLen r.1 ≤ maxWidth)

include hnum hends hwidth

/-- Where the expansion ends and the widths are accepted, a numeral that follows another comes back
padded to the width of the start of its run. -/
theorem printedAt_eq_zeroPad {before l₂ : List Text} (hl : l = before.reverse ++ e :: z :: l₂)
    (hez : Follows e z) :
    atoi z < maxInt ∧ (runStart before e).length ≤ maxWidth ∧
      printedAt (e :: before) z = zeroPad (runStart before e).length (numeralValue z) := by
  have he : isNumeral e := hnum e (by simp [hl])
  have hz : isNumeral z := hnum z (by simp [hl])
  have hstep := (follows_iff he hz).mp hez
  have hnum' : ∀ n ∈ before.reverse ++ e :: z :: l₂, isNumeral n := hl ▸ hnum
  obtain ⟨b, hb, hle⟩ := mem_groupRanges_of_follows hnum' hez
  rw [List.reverse_reverse, ← hl] at hb
  have hstart : atoi (runStart before e) ≤ atoi e := by
    apply atoi_runStart_le
    intro n hn
    refine hnum n ?_
    rw [hl]
    rcases List.mem_cons.mp hn with rfl | hn
    · simp
    · simp [hn]
  have hne : runStart before e ≠ b := fun heq => by rw [← heq] at hle; omega
  have hstartNum : isNumeral (runStart before e) := (groupRanges_bounds hnum _ hb).1
  have hwid : byteLen (runStart before e) ≤ maxWidth := hwidth _ hb hne
  have hmax : atoi z < maxInt := by
    rcases hends _ hb with heq | hlt
    · exact absurd heq hne
    · exact lt_of_le_of_lt hle hlt
  refine ⟨hmax, byteLen_numeral hstartNum ▸ hwid, ?_⟩
  rw [printedAt_of_follows before hez, atoi_eq_numeralValue hz hmax, sprintfPadded_natCast hwid,
    byteLen_numeral hstartNum]

end Positions

/-! ## Enough -/

section Sufficient

variable {l : List Text} (hnum : ∀ n ∈ l, isNumeral n) (hsorted : SortedNumbers l)
  (hsteps : ∀ x ∈ l, ∀ y ∈ l, atoi y = atoi x + 1 → StepSurvives l x y)

include hnum hsorted hsteps

/-- Along a run the widths agree: padding to the width of its start or to that of any of its
numerals is the same for all larger numbers. -/
theorem zeroPad_runStart {before l₂ : List Text} (hl : l = before.reverse ++ e :: z :: l₂)
    (hez : Follows e z) {v : Nat} (hv : numeralValue e ≤ v) :
    zeroPad (runStart before e).length v = zeroPad e.length v := by
  induction before generalizing e z l₂ with
  | nil => rfl
  | cons w before ih =>
    have hl' : l = before.reverse ++ w :: e :: (z :: l₂) := by simpa using hl
    have hw : isNumeral w := hnum w (by simp [hl'])
    have he : isNumeral e := hnum e (by simp [hl'])
    have hz : isNumeral z := hnum z (by simp [hl'])
    unfold runStart
    by_cases h : Follows w e
    · have hstep := (follows_iff hw he).mp h
      have hstep' := (follows_iff he hz).mp hez
      have hone : l.count e = 1 := by
        rw [hl'] at hsorted ⊢
        exact count_eq_one hsorted (by omega) (by omega)
      obtain ⟨hmax, -, hpad⟩ := hsteps w (by simp [hl']) e (by simp [hl']) hstep
      have hpad : zeroPad w.length (numeralValue e) = e := by
        rcases hpad with hpad | ⟨-, htwo⟩
        · exact hpad
        · omega
      -- `e` has the length to which the run pads it, so both widths pad larger numbers alike.
      have hlen := (zeroPad_numeralValue he).mp hpad
      have hwv : numeralValue w ≤ v := by
        have h1 := atoi_eq_numeralValue he hmax
        have h2 := atoi_eq_numeralValue hw (by omega)
        omega
      rw [if_pos h, ih hl' h hwv]
      apply zeroPad_congr
      have := digitCount_mono hv
      omega
    · rw [if_neg h]

/-- **Surviving steps are enough.** -/
theorem returns_of_steps : Returns l := by
  have hpair : ∀ {x y : Text}, x ∈ l → y ∈ l → Follows x y → StepSurvives l x y := fun hx hy h =>
    hsteps _ hx _ hy ((follows_iff (hnum _ hx) (hnum _ hy)).mp h)
  have hends : ∀ r ∈ groupRanges l, r.1 = r.2 ∨ atoi r.2 < maxInt := by
    intro r hr
    obtain ⟨-, h2, heq | ⟨-, e, he, hf⟩⟩ := neighbours_of_mem_groupRanges hr
    · exact Or.inl heq
    · exact Or.inr (hpair he h2 hf).1
  have hwidth : ∀ r ∈ groupRanges l, r.1 ≠ r.2 → byteLen r.1 ≤ maxWidth := by
    intro r hr hne
    obtain ⟨h1, -, heq | ⟨⟨z, hz, hf⟩, -⟩⟩ := neighbours_of_mem_groupRanges hr
    · exact absurd heq hne
    · rw [byteLen_numeral (hnum _ h1)]
      exact (hpair h1 hz hf).2.1
  -- What is printed where a pair follows each other, at the width of the first of the two.
  have hprint : ∀ {before l₂ : List Text} {e z : Text}, l = before.reverse ++ e :: z :: l₂ →
      Follows e z → printedAt (e :: before) z = zeroPad e.length (numeralValue z) := by
    intro before l₂ e z hl hf
    obtain ⟨hmax, -, heq⟩ := printedAt_eq_zeroPad hnum hends hwidth hl hf
    have he : isNumeral e := hnum e (by simp [hl])
    have hz : isNumeral z := hnum z (by simp [hl])
    have hstep := (follows_iff he hz).mp hf
    have h1 := atoi_eq_numeralValue hz hmax
    have h2 := atoi_eq_numeralValue he (by omega)
    rw [heq, zeroPad_runStart hnum hsorted hsteps hl hf (by omega)]
  refine ⟨hends, fun t => ?_⟩
  rw [flatMap_groupRanges hnum hwidth, mem_printed_nil]
  refine ⟨?_, ?_⟩
  · -- Nothing new: a printed text is the numeral itself or the listed one of the surviving step.
    rintro ⟨before, n, l₂, hl, rfl⟩
    have hn : n ∈ l := by simp [hl]
    cases before with
    | nil => exact hn
    | cons e before =>
      have hl' : l = before.reverse ++ e :: n :: l₂ := by simpa using hl
      by_cases hf : Follows e n
      · rw [hprint hl' hf]
        rcases (hpair (by simp [hl']) hn hf).2.2 with heq | ⟨hmem, -⟩
        · rw [heq]
          exact hn
        · exact hmem
      · rw [printedAt_of_not_follows _ hf]
        exact hn
  · -- Nothing lost: a numeral that is not printed at its place is there twice, and printed at the
    -- second.
    intro ht
    obtain ⟨l₁, l₂, hl⟩ := List.append_of_mem ht
    obtain ⟨before, rfl⟩ : ∃ before, l₁ = before.reverse := ⟨l₁.reverse, by simp⟩
    cases before with
    | nil => exact ⟨[], t, l₂, hl, rfl⟩
    | cons e before =>
      have hl' : l = before.reverse ++ e :: t :: l₂ := by simpa using hl
      by_cases hf : Follows e t
      · rcases (hpair (by simp [hl']) ht hf).2.2 with heq | ⟨-, htwo⟩
        · exact ⟨e :: before, t, l₂, hl, by rw [hprint hl' hf, heq]⟩
        · have hstep := (follows_iff (hnum e (by simp [hl'])) (hnum t ht)).mp hf
          have hright : t ∈ l₂ := mem_right_of_count hsorted hl' (by omega) htwo
          obtain ⟨m, k, rfl⟩ := List.append_of_mem hright
          refine ⟨m.reverse ++ t :: e :: before, t, k, by simp [hl'], ?_⟩
          exact (printedAt_repeat hnum hsorted hl rfl).symm
      · exact ⟨e :: before, t, l₂, hl, (printedAt_of_not_follows _ hf).symm⟩

end Sufficient

/-! ## Needed -/

/-- **A range is printed at a width that `fmt` accepts** if all that comes back are numerals. -/
theorem byteLen_le_of_returns {l : List Text} (hnum : ∀ n ∈ l, isNumeral n) (h : Returns l) :
    ∀ r ∈ groupRanges l, r.1 ≠ r.2 → byteLen r.1 ≤ maxWidth := by
  intro r hr hne
  obtain ⟨-, -, hlt⟩ := groupRanges_bounds hnum r hr
  have hlt : atoi r.1 < atoi r.2 := hlt.resolve_left hne
  -- The first number of the range comes back, and would carry the complaint about its width.
  have hfirst : sprintfPadded (byteLen r.1) (atoi r.1) ∈ l := by
    rw [← h.2]
    refine List.mem_flatMap.mpr ⟨r, hr, ?_⟩
    rw [rangeNames, if_neg hne]
    exact List.mem_map.mpr ⟨0, List.mem_range.mpr (by omega), by simp⟩
  by_contra hwide
  have hpercent : '%' ∈ sprintfPadded (byteLen r.1) (atoi r.1) := by
    unfold sprintfPadded
    rw [if_neg hwide]
    exact List.mem_append_left _ (by decide)
  exact not_mem_numeral (hnum _ hfirst) rfl hpercent

/-- Two places of a list are the same, or one lies before the other. -/
theorem place_cases {A B R K : List Text} {x n : Text} (h : A ++ x :: R = B ++ n :: K) :
    (B = A ∧ n = x) ∨ n ∈ A ∨ ∃ m, B = A ++ x :: m ∧ R = m ++ n :: K := by
  rcases List.append_eq_append_iff.mp h with ⟨c, hB, hR⟩ | ⟨c, hA, hK⟩
  · cases c with
    | nil => exact Or.inl ⟨by simpa using hB, (List.cons.inj hR).1.symm⟩
    | cons d c =>
      obtain ⟨rfl, hR'⟩ := List.cons.inj hR
      exact Or.inr (Or.inr ⟨c, hB, hR'⟩)
  · cases c with
    | nil => exact Or.inl ⟨by simpa using hA.symm, (List.cons.inj hK).1⟩
    | cons d c =>
      obtain ⟨rfl, -⟩ := List.cons.inj hK
      exact Or.inr (Or.inl (by simp [hA]))

section Necessary

variable {l : List Text} (hnum : ∀ n ∈ l, isNumeral n) (hsorted : SortedNumbers l)
  (hret : Returns l)

include hnum hret

/-- A numeral that comes back is printed at a place of its own number. -/
theorem exists_printedAt {t : Text} (ht : t ∈ l) :
    ∃ b n k, l = b.reverse ++ n :: k ∧ t = printedAt b n ∧ atoi n = atoi t := by
  have hwidth := byteLen_le_of_returns hnum hret
  have hmem := (hret.2 t).mpr ht
  rw [flatMap_groupRanges hnum hwidth, mem_printed_nil] at hmem
  obtain ⟨b, n, k, hsplit, hprint⟩ := hmem
  refine ⟨b, n, k, hsplit, hprint, ?_⟩
  cases b with
  | nil => rw [hprint, printedAt]
  | cons e b =>
    by_cases hf : Follows e n
    · obtain ⟨hmax, -, hpad⟩ :=
        printedAt_eq_zeroPad hnum hret.1 hwidth (by simpa using hsplit) hf
      have hn := atoi_eq_numeralValue (hnum n (by simp [hsplit])) hmax
      rw [hprint, hpad, atoi_numeral (isNumeral_zeroPad _ _), numeralValue_zeroPad]
      omega
    · rw [hprint, printedAt_of_not_follows _ hf]

variable {before l₂ : List Text} {x y : Text} (hl : l = before.reverse ++ x :: y :: l₂)
  (hstep : atoi y = atoi x + 1)

include hsorted hl hstep

/-- The numeral before a step has the width of its run, up to the digits of its own number. -/
theorem length_runStart (hmax : atoi y < maxInt) :
    runStart before x = x ∨
      x.length = max (runStart before x).length (digitCount (numeralValue x)) := by
  have hx : isNumeral x := hnum x (by simp [hl])
  cases before with
  | nil => exact Or.inl rfl
  | cons w before =>
    unfold runStart
    by_cases hf : Follows w x
    · right
      rw [if_pos hf]
      have hl' : l = before.reverse ++ w :: x :: (y :: l₂) := by simpa using hl
      have hwx := (follows_iff (hnum w (by simp [hl'])) hx).mp hf
      have hwidth := byteLen_le_of_returns hnum hret
      obtain ⟨-, -, hpad⟩ := printedAt_eq_zeroPad hnum hret.1 hwidth hl' hf
      -- `x` is alone with its number, so it is printed at its own place.
      obtain ⟨b, n, k, hsplit, hprint, hval⟩ := exists_printedAt hnum hret (t := x) (by simp [hl])
      have hplace : b.reverse = (w :: before).reverse ∧ n = x := by
        rcases place_cases (hl.symm.trans hsplit) with hsame | hleft | ⟨m, hB, hR⟩
        · exact hsame
        · have hsorted' : SortedNumbers (before.reverse ++ w :: (x :: y :: l₂)) := hl' ▸ hsorted
          have hle : atoi n ≤ atoi w := by
            rw [List.reverse_cons, List.mem_append, List.mem_singleton] at hleft
            rcases hleft with hleft | rfl
            · exact hsorted'.le_left n hleft
            · exact le_rfl
          omega
        · have hsorted' : SortedNumbers ((before.reverse ++ [w, x]) ++ y :: l₂) := by
            simpa using hl' ▸ hsorted
          have hle : atoi y ≤ atoi n := by
            have hn : n ∈ y :: l₂ := by simp [hR]
            rcases List.mem_cons.mp hn with rfl | hn
            · exact le_rfl
            · exact hsorted'.le_right n hn
          omega
      rw [List.reverse_inj.mp hplace.1, hplace.2, hpad] at hprint
      exact (zeroPad_numeralValue hx).mp hprint.symm
    · exact Or.inl (if_neg hf)

/-- **A step between neighbours survives** when the numbers come back. -/
theorem stepSurvives_of_returns : StepSurvives l x y := by
  have hx : isNumeral x := hnum x (by simp [hl])
  have hy : isNumeral y := hnum y (by simp [hl])
  have hf : Follows x y := (follows_iff hx hy).mpr hstep
  have hwidth := byteLen_le_of_returns hnum hret
  obtain ⟨hmax, hlen, hpad⟩ := printedAt_eq_zeroPad hnum hret.1 hwidth hl hf
  have hvy := atoi_eq_numeralValue hy hmax
  have hvx := atoi_eq_numeralValue hx (by omega)
  have hrun := length_runStart hnum hsorted hret hl hstep hmax
  have hsame : zeroPad (runStart before x).length (numeralValue y) =
      zeroPad x.length (numeralValue y) := by
    rcases hrun with heq | hxlen
    · rw [heq]
    · apply zeroPad_congr
      have := digitCount_mono (show numeralValue x ≤ numeralValue y by omega)
      omega
  have hxwidth : x.length ≤ maxWidth := by
    rcases hrun with heq | hxlen
    · rwa [heq] at hlen
    · have hdigits : digitCount (numeralValue x) ≤ 19 := by
        rw [digitCount_le_iff (by omega)]
        rw [maxInt] at hmax
        omega
      rw [hxlen]
      exact max_le hlen (le_trans hdigits (by decide))
  rw [hsame] at hpad
  refine ⟨hmax, hxwidth, ?_⟩
  -- What is printed in the place of `y` is listed; `y` itself comes back there or from a second
  -- place.
  have hlisted : zeroPad x.length (numeralValue y) ∈ l := by
    rw [← hret.2, flatMap_groupRanges hnum hwidth, mem_printed_nil]
    exact ⟨x :: before, y, l₂, by simpa using hl, hpad.symm⟩
  obtain ⟨b, n, k, hsplit, hprint, hval⟩ := exists_printedAt hnum hret (t := y) (by simp [hl])
  have hl' : l = (x :: before).reverse ++ y :: l₂ := by simpa using hl
  rcases place_cases (hl'.symm.trans hsplit) with ⟨hB, rfl⟩ | hleft | ⟨m, hB, hR⟩
  · left
    rw [List.reverse_inj.mp hB, hpad] at hprint
    exact hprint.symm
  · have hle : atoi n ≤ atoi x := by
      rw [List.reverse_cons, List.mem_append, List.mem_singleton] at hleft
      rcases hleft with hleft | rfl
      · exact (hl ▸ hsorted).le_left n hleft
      · exact le_rfl
    omega
  · right
    have hb : b = m.reverse ++ y :: x :: before := by
      rw [← List.reverse_inj, hB]
      simp
    have hny : y = n := by
      rw [hprint, hb]
      exact printedAt_repeat hnum hsorted (hR ▸ hl') hval
    refine ⟨hlisted, ?_⟩
    rw [hl', hR, ← hny]
    simp only [List.count_append, List.count_cons_self]
    omega

end Necessary

/-! ## An unlucky order of equal numbers -/

/-- The order that puts `x` last and `y` first among the numerals of the same number. -/
def Between (x y a b : Text) : Prop :=
  atoi a < atoi b ∨ atoi a = atoi b ∧ (b = x ∨ a = y ∨ a ≠ x ∧ b ≠ y)

instance (x y : Text) : DecidableRel (Between x y) :=
  fun _ _ => inferInstanceAs (Decidable (_ ∨ _))

theorem between_total (x y a b : Text) : Between x y a b ∨ Between x y b a := by
  unfold Between
  rcases lt_trichotomy (atoi a) (atoi b) with h | h | h
  · exact Or.inl (Or.inl h)
  · by_cases h1 : a = x
    · exact Or.inr (Or.inr ⟨h.symm, Or.inl h1⟩)
    · by_cases h2 : b = y
      · exact Or.inr (Or.inr ⟨h.symm, Or.inr (Or.inl h2)⟩)
      · exact Or.inl (Or.inr ⟨h, Or.inr (Or.inr ⟨h1, h2⟩)⟩)
  · exact Or.inr (Or.inl h)

/-- The sort that puts `x` before `y` among equal numbers is transitive. -/
theorem between_trans {x y : Text} (hne : x ≠ y) {a b c : Text} (hab : Between x y a b)
    (hbc : Between x y b c) : Between x y a c := by
  unfold Between at *
  rcases hab with hab | ⟨hab, h1⟩
  · left
    rcases hbc with hbc | ⟨hbc, -⟩ <;> omega
  · rcases hbc with hbc | ⟨hbc, h2⟩
    · left
      omega
    · refine Or.inr ⟨hab.trans hbc, ?_⟩
      grind

/-- The sort that puts `x` last and `y` first among equal numbers. -/
def sortBetween (x y : Text) (hne : x ≠ y) : NumberSort where
  sort l := l.insertionSort (Between x y)
  perm l := List.perm_insertionSort _ l
  sorted l := by
    have : Std.Total (Between x y) := ⟨between_total x y⟩
    have : IsTrans Text (Between x y) := ⟨fun _ _ _ => between_trans hne⟩
    refine (List.pairwise_insertionSort (Between x y) l).imp ?_
    intro _ _ h
    rcases h with h | h <;> omega

/-- In that order `y` comes right behind `x`. -/
theorem adjacent_of_between {l : List Text} {x y : Text} (hl : l.Pairwise (Between x y))
    (hx : x ∈ l) (hy : y ∈ l) (hstep : atoi y = atoi x + 1) :
    ∃ before l₂ : List Text, l = before.reverse ++ x :: y :: l₂ := by
  obtain ⟨A, R, rfl, hnot⟩ := List.eq_append_cons_of_mem hy
  obtain ⟨hA, hR, hAR⟩ := List.pairwise_append.mp hl
  have hxA : x ∈ A := by
    rcases List.mem_append.mp hx with hx | hx
    · exact hx
    · -- `x` is smaller than `y`, so it does not come behind it.
      rcases List.mem_cons.mp hx with rfl | hx
      · omega
      · rcases (List.pairwise_cons.mp hR).1 x hx with h | h <;> omega
  rcases List.eq_nil_or_concat A with rfl | ⟨A, q, rfl⟩
  · simp at hxA
  · have hqy : Between x y q y := hAR q (by simp) y List.mem_cons_self
    have hq : q = x := by
      by_contra hqx
      have hxq : Between x y x q := by
        rw [List.concat_eq_append] at hA hxA
        have hxA : x ∈ A := by simpa [Ne.symm hqx] using hxA
        exact (List.pairwise_append.mp hA).2.2 x hxA q (by simp)
      have hqy' : q ≠ y := fun h => hnot (by simp [h])
      unfold Between at hxq hqy
      rcases hxq with hxq | ⟨-, h | h | h⟩
      · rcases hqy with hqy | ⟨-, h | h | h⟩
        · omega
        · rw [h] at hstep
          omega
        · exact hqy' h
        · exact h.2 rfl
      · exact hqx h
      · rw [h] at hstep
        omega
      · exact h.1 rfl
    exact ⟨A.reverse, R, by simp [hq]⟩

/-- Survival of a step does not depend on the order. -/
theorem StepSurvives.perm {l l' : List Text} {x y : Text} (hp : l.Perm l')
    (h : StepSurvives l x y) : StepSurvives l' x y := by
  refine ⟨h.1, h.2.1, h.2.2.imp_right fun hlisted => ?_⟩
  exact ⟨hp.mem_iff.mp hlisted.1, hp.count_eq y ▸ hlisted.2⟩

/-- **The numbers of a group come back, whatever the order of equal ones, exactly when every step
survives.** -/
theorem returns_iff (hnum : ∀ n ∈ nums, isNumeral n) :
    (∀ srt : NumberSort, Returns (srt.sort nums)) ↔
      ∀ x ∈ nums, ∀ y ∈ nums, atoi y = atoi x + 1 → StepSurvives nums x y := by
  refine ⟨?_, ?_⟩
  · intro h x hx y hy hstep
    have hne : x ≠ y := fun he => by rw [he] at hstep; omega
    have hperm := (sortBetween x y hne).perm nums
    have hpair : ((sortBetween x y hne).sort nums).Pairwise (Between x y) := by
      have : Std.Total (Between x y) := ⟨between_total x y⟩
      have : IsTrans Text (Between x y) := ⟨fun _ _ _ => between_trans hne⟩
      exact List.pairwise_insertionSort (Between x y) nums
    obtain ⟨before, l₂, hl⟩ :=
      adjacent_of_between hpair (hperm.mem_iff.mpr hx) (hperm.mem_iff.mpr hy) hstep
    have hsort : SortedNumbers ((sortBetween x y hne).sort nums) :=
      (sortBetween x y hne).sorted nums
    exact (stepSurvives_of_returns (fun n hn => hnum n (hperm.mem_iff.mp hn)) hsort (h _)
      hl hstep).perm
      hperm
  · intro h srt
    have hperm := srt.perm nums
    refine returns_of_steps (fun n hn => hnum n (hperm.mem_iff.mp hn)) (srt.sorted nums) ?_
    intro x hx y hy hstep
    exact (h x (hperm.mem_iff.mp hx) y (hperm.mem_iff.mp hy) hstep).perm hperm.symm

end Topograph.Cluset
