import Topograph.Cluset.RoundTrip

/-! # The order of a host list

`Compact` groups the names by stem and sorts the stems and the numbers, so the order of the list
matters in two cases only (`compact_perm_iff`): a name without digits empties the group of its stem
when it comes by, and the sort leaves numbers of equal value in some order of its own. -/

namespace Topograph.Cluset

/-- No two names of one stem have equal numbers, and none is without digits beside another one. -/
def NumbersApart (names : List Text) : Prop :=
  ∀ x ∈ names, ∀ y ∈ names, stem x = stem y → digits x = [] ∨ atoi (digits x) = atoi (digits y) →
    x = y

/-- Different numbers: no stem has a bare name beside numbered ones. -/
theorem NumbersApart.separate {names : List Text} (h : NumbersApart names) : Separate names := by
  intro x hx y hy hstem
  refine (h x hx y hy ?_ (Or.inl ?_)).symm
  · rw [← hstem, stem_stem]
  · rw [← hstem, digits_stem]

/-! ## Reordered lists -/

section Perm

variable {names names' : List Text} (hperm : names'.Perm names)

include hperm

theorem sortedStems_perm (h : ∀ x ∈ names, IsHostText x) :
    sortedStems names' = sortedStems names := by
  have h' : ∀ x ∈ names', IsHostText x := fun x hx => h x (hperm.mem_iff.mp hx)
  have hkeys : (groupNodes names').keys.Perm (groupNodes names).keys := by
    refine (List.perm_ext_iff_of_nodup (groupNodes names').nodupKeys
      (groupNodes names).nodupKeys).mpr fun p => ?_
    show p ∈ (groupNodes names').keys ↔ p ∈ (groupNodes names).keys
    rw [mem_keys_groupNodes h', mem_keys_groupNodes h, (hperm.map stem).mem_iff]
  refine List.Perm.eq_of_pairwise (fun a b _ _ => le_antisymm) (List.pairwise_insertionSort _ _)
    (List.pairwise_insertionSort _ _) ?_
  exact (List.perm_insertionSort _ _).trans (hkeys.trans (List.perm_insertionSort _ _).symm)

/-- The numbers of a stem without a plain name are reordered with the list. -/
theorem groupOf_perm {p : Text} (hnumbered : ∀ x ∈ names, stem x = p → digits x ≠ []) :
    (groupOf names' p).Perm (groupOf names p) := by
  rw [groupOf_of_numbered hnumbered, groupOf_of_numbered fun x hx =>
    hnumbered x (hperm.mem_iff.mp hx)]
  exact (hperm.filter _).map _

/-- **Numbers that differ have one order**, whatever the sort does to equal ones. -/
theorem sortedGroup_perm (happart : NumbersApart names) (srt srt' : NumberSort) (p : Text) :
    sortedGroup srt' names' p = sortedGroup srt names p := by
  have hsort : ∀ srt : NumberSort, srt.sort [] = [] := fun srt => (srt.perm []).eq_nil
  rcases happart.separate.plain_or_numbered p with hplain | hnumbered
  · rw [sortedGroup, sortedGroup, groupOf_of_plain hplain, groupOf_of_plain fun x hx =>
      hplain x (hperm.mem_iff.mp hx), hsort, hsort]
  · have hgroup := groupOf_perm hperm hnumbered
    refine List.Perm.eq_of_pairwise ?_ (srt'.sorted _) (srt.sorted _)
      ((srt'.perm _).trans (hgroup.trans (srt.perm _).symm))
    intro a b ha hb hab hba
    -- Two numerals of the group are the digits of two listed names.
    rw [sortedGroup, (srt'.perm _).mem_iff, hgroup.mem_iff] at ha
    rw [sortedGroup, (srt.perm _).mem_iff] at hb
    rw [groupOf_of_numbered hnumbered] at ha hb
    obtain ⟨x, hx, rfl⟩ := List.mem_map.mp ha
    obtain ⟨y, hy, rfl⟩ := List.mem_map.mp hb
    obtain ⟨hx, hxp⟩ := List.mem_filter.mp hx
    obtain ⟨hy, hyp⟩ := List.mem_filter.mp hy
    have hstem : stem x = stem y := (of_decide_eq_true hxp).trans (of_decide_eq_true hyp).symm
    rw [happart x hx y hy hstem (Or.inr (le_antisymm hab hba))]

/-- **`Compact` does not see the order** of names whose numbers are apart. -/
theorem compact_of_numbersApart (h : ∀ x ∈ names, IsHostText x) (happart : NumbersApart names)
    (srt srt' : NumberSort) : compact srt' names' = compact srt names := by
  rw [compact_eq_map h, compact_eq_map fun x hx => h x (hperm.mem_iff.mp hx),
    sortedStems_perm hperm h]
  simp only [sortedGroup_perm hperm happart srt srt']

end Perm

/-! ## Reading ranges back -/

/-- The bounds of a printed range. -/
def readRange (t : Text) : Text × Text := ((t.splitOn '-').headD [], (t.splitOn '-').getLastD [])

/-- A printed range is read back. -/
theorem readRange_formatRange {r : Text × Text} (h1 : isNumeral r.1) (h2 : isNumeral r.2) :
    readRange (formatRange r.1 r.2) = r := by
  have hdash : '-' ∉ r.1 := not_mem_numeral h1 rfl
  have hdash' : '-' ∉ r.2 := not_mem_numeral h2 rfl
  rw [formatRange, readRange]
  split_ifs with heq
  · rw [List.splitOn_eq_singleton hdash]
    exact Prod.ext rfl heq
  · rw [List.splitOn_append_cons_self_of_not_mem hdash, List.splitOn_eq_singleton hdash']
    rfl

/-- **Lists of two or more numerals that are compressed alike** have the same ranges. -/
theorem groupRanges_eq_of_compressRange {l l' : List Text} (hnum : ∀ n ∈ l, isNumeral n)
    (hnum' : ∀ n ∈ l', isNumeral n) (hlen : 2 ≤ l.length) (hlen' : 2 ≤ l'.length)
    (h : compressRange l = compressRange l') :
    groupRanges l = groupRanges l' := by
  have hread : ∀ l : List Text, (∀ n ∈ l, isNumeral n) → 2 ≤ l.length →
      ∃ body, compressRange l = '[' :: (body ++ [']']) ∧
      groupRanges l = (body.splitOn ',').map readRange := by
    intro l hnum hlen
    match l, hlen with
    | n :: m :: ns, _ =>
      have hbounds := groupRanges_bounds hnum
      refine ⟨_, compressRange_cons_cons n m ns, ?_⟩
      have hcomma : ∀ s ∈ (groupRanges (n :: m :: ns)).map fun r => formatRange r.1 r.2,
          ',' ∉ s := by
        intro s hs
        obtain ⟨r, hr, rfl⟩ := List.mem_map.mp hs
        exact not_mem_formatRange (hbounds r hr).1 (hbounds r hr).2.1 rfl (by decide)
      have hne : (groupRanges (n :: m :: ns)).map (fun r => formatRange r.1 r.2) ≠ [] :=
        mt List.map_eq_nil_iff.mp (groupRanges_ne_nil hnum)
      rw [List.splitOn_intercalate ',' hcomma hne, List.map_map]
      refine (List.map_id _).symm.trans (List.map_congr_left fun r hr => ?_)
      exact (readRange_formatRange (hbounds r hr).1 (hbounds r hr).2.1).symm
  obtain ⟨body, hbody, hranges⟩ := hread l hnum hlen
  obtain ⟨body', hbody', hranges'⟩ := hread l' hnum' hlen'
  rw [hbody, hbody', List.cons_inj_right, List.append_cancel_right_eq] at h
  rw [hranges, hranges', h]

/-! ## Equal numbers -/

/-- A range ends at the first of two equal numbers. -/
theorem find_ranges_equal {v : Int} {start t u : Text} {rest : List Text} (ht : isNumeral t)
    (hu : isNumeral u) (htv : atoi t = v) (huv : atoi u = v) :
    ∃ r, (ranges start t (u :: rest)).find? (fun r => v ≤ atoi r.2) = some r ∧ r.2 = t := by
  have hnot : ¬ Follows t u := by
    rw [follows_iff ht hu, htv, huv]
    omega
  rw [ranges_cons, if_neg hnot]
  exact ⟨(start, t), List.find?_cons_of_pos (by simp [htv]), rfl⟩

/-- Behind smaller numbers, the first of several equal ones ends a range. -/
theorem find_ranges {v : Int} {start stop t u : Text} {before rest : List Text} (ht : isNumeral t)
    (hu : isNumeral u) (htv : atoi t = v) (huv : atoi u = v) (hstop : atoi stop < v)
    (hbefore : ∀ n ∈ before, atoi n < v) :
    ∃ r, (ranges start stop (before ++ t :: u :: rest)).find? (fun r => v ≤ atoi r.2) = some r ∧
    r.2 = t := by
  induction before generalizing start stop with
  | nil =>
    rw [List.nil_append, ranges_cons]
    split_ifs
    · exact find_ranges_equal ht hu htv huv
    · rw [List.find?_cons_of_neg (by simpa using hstop)]
      exact find_ranges_equal ht hu htv huv
  | cons n before ih =>
    obtain ⟨hn, hbefore⟩ := List.forall_mem_cons.mp hbefore
    rw [List.cons_append, ranges_cons]
    split_ifs
    · exact ih hn hbefore
    · rw [List.find?_cons_of_neg (by simpa using hstop)]
      exact ih hn hbefore

/-- Of two numerals with one number, the first ends the range that reaches the number. -/
theorem find_groupRanges {v : Int} {t u : Text} {before rest : List Text} (ht : isNumeral t)
    (hu : isNumeral u) (htv : atoi t = v) (huv : atoi u = v) (hbefore : ∀ n ∈ before, atoi n < v) :
    ∃ r, (groupRanges (before ++ t :: u :: rest)).find? (fun r => v ≤ atoi r.2) = some r ∧
    r.2 = t := by
  cases before with
  | nil => exact find_ranges_equal ht hu htv huv
  | cons n before =>
    obtain ⟨hn, hbefore⟩ := List.forall_mem_cons.mp hbefore
    exact find_ranges ht hu htv huv hn hbefore

/-- In the order that puts `x` first among equal numbers, smaller numbers stand in front of it and
an equal one behind it. -/
theorem exists_first_of_between {l : List Text} {x y : Text} (hl : l.Pairwise (Between y x))
    (hne : x ≠ y) (hx : x ∈ l) (hy : y ∈ l) (heq : atoi x = atoi y) :
    ∃ before u rest, l = before ++ x :: u :: rest ∧ atoi u = atoi x ∧
    ∀ n ∈ before, atoi n < atoi x := by
  obtain ⟨before, rest, rfl, hnot⟩ := List.eq_append_cons_of_mem hx
  obtain ⟨-, hrest, hcross⟩ := List.pairwise_append.mp hl
  have hbefore : ∀ n ∈ before, atoi n < atoi x := by
    intro n hn
    have hnx : n ≠ x := fun h => hnot (h ▸ hn)
    rcases hcross n hn x List.mem_cons_self with hlt | ⟨-, h | h | h⟩
    · exact hlt
    · exact absurd h hne
    · exact absurd h hnx
    · exact absurd rfl h.2
  have hyrest : y ∈ rest := by
    rcases List.mem_append.mp hy with hy | hy
    · exact absurd (hbefore y hy) (by omega)
    · exact (List.mem_cons.mp hy).resolve_left hne.symm
  obtain ⟨hhead, htail⟩ := List.pairwise_cons.mp hrest
  cases rest with
  | nil => exact absurd hyrest List.not_mem_nil
  | cons u rest =>
    refine ⟨before, u, rest, rfl, ?_, hbefore⟩
    -- The next number lies between `x` and `y`.
    have hxu : atoi x ≤ atoi u := by rcases hhead u List.mem_cons_self with h | h <;> omega
    have huy : atoi u ≤ atoi y := by
      rcases List.mem_cons.mp hyrest with rfl | hmem
      · exact le_rfl
      · rcases (List.pairwise_cons.mp htail).1 y hmem with h | h <;> omega
    omega

/-- The names ordered by number, with `x` first and `y` last among the equal ones. -/
def firstAmongEqual (x y : Text) (names : List Text) : List Text :=
  names.insertionSort fun a b => Between (digits y) (digits x) (digits a) (digits b)

theorem perm_firstAmongEqual (x y : Text) (names : List Text) :
    (firstAmongEqual x y names).Perm names :=
  List.perm_insertionSort _ names

/-- Listed first among equal numbers, a number ends a range. -/
theorem find_firstAmongEqual {names : List Text} {x y : Text} (hx : x ∈ names) (hy : y ∈ names)
    (hstem : stem x = stem y) (hnumbered : ∀ z ∈ names, stem z = stem x → digits z ≠ [])
    (hne : digits x ≠ digits y) (heq : atoi (digits x) = atoi (digits y)) :
    2 ≤ (sortedGroup stableSort (firstAmongEqual x y names) (stem x)).length ∧
      ∃ r, (groupRanges (sortedGroup stableSort (firstAmongEqual x y names) (stem x))).find?
        (fun r => atoi (digits x) ≤ atoi r.2) = some r ∧ r.2 = digits x := by
  have hperm := perm_firstAmongEqual x y names
  have hnumbered' : ∀ z ∈ firstAmongEqual x y names, stem z = stem x → digits z ≠ [] :=
    fun z hz => hnumbered z (hperm.mem_iff.mp hz)
  have hgroup := groupOf_of_numbered hnumbered'
  have horder : (groupOf (firstAmongEqual x y names) (stem x)).Pairwise
      (Between (digits y) (digits x)) := by
    have : Std.Total fun a b => Between (digits y) (digits x) (digits a) (digits b) :=
      ⟨fun a b => between_total _ _ _ _⟩
    have : IsTrans Text fun a b => Between (digits y) (digits x) (digits a) (digits b) :=
      ⟨fun _ _ _ => between_trans hne.symm⟩
    rw [hgroup, List.pairwise_map]
    exact (List.pairwise_insertionSort _ names).filter _
  -- The group is listed in the order of its numbers, so the sort leaves it alone.
  have hsorted : sortedGroup stableSort (firstAmongEqual x y names) (stem x) =
      groupOf (firstAmongEqual x y names) (stem x) := by
    refine List.Pairwise.insertionSort_eq (horder.imp ?_)
    intro a b h
    rcases h with h | h <;> omega
  have hmem : ∀ z ∈ names, stem z = stem x →
      digits z ∈ groupOf (firstAmongEqual x y names) (stem x) := by
    intro z hz hzx
    rw [hgroup]
    exact List.mem_map_of_mem (List.mem_filter.mpr ⟨hperm.mem_iff.mpr hz, by simpa using hzx⟩)
  obtain ⟨before, u, rest, hl, hu, hbefore⟩ :=
    exists_first_of_between horder hne (hmem x hx rfl) (hmem y hy hstem.symm) heq
  have hmemu : u ∈ groupOf (firstAmongEqual x y names) (stem x) := by simp [hl]
  have hunum : isNumeral u := isNumeral_of_mem_groupOf hmemu
  rw [hsorted, hl]
  refine ⟨by simp only [List.length_append, List.length_cons]; omega, ?_⟩
  exact find_groupRanges (isNumeral_digits.mpr (hnumbered x hx rfl)) hunum rfl hu hbefore

/-! ## Lists compressed alike in every order -/

section Orders

variable {names : List Text} (htext : ∀ x ∈ names, IsHostText x)
  (hsame : ∀ names', names'.Perm names → compact stableSort names' = compact stableSort names)

include htext hsame

/-- The entries agree stem by stem. -/
theorem compressRange_of_compact {names' : List Text} (hperm : names'.Perm names) {p : Text}
    (hp : p ∈ names.map stem) :
    compressRange (sortedGroup stableSort names' p) = compressRange
      (sortedGroup stableSort names p) := by
  have heq := hsame names' hperm
  rw [compact_eq_map htext, compact_eq_map fun x hx => htext x (hperm.mem_iff.mp hx),
    sortedStems_perm hperm htext] at heq
  exact List.append_cancel_left (List.map_inj_left.mp heq p ((mem_sortedStems htext).mpr hp))

/-- **A plain name beside a numbered one shows the order**: listed last it empties the group, listed
first it does not. -/
theorem separate_of_compact : Separate names := by
  intro x hx y hy hstem
  by_contra hne
  have hplain : stem x = x := by rw [← hstem, stem_stem]
  have hdigits : digits x = [] := by rw [← hplain, digits_stem]
  have hnumbered : ∀ z, stem z = x → z ≠ x → digits z ≠ [] :=
    fun z hz hzx h => hzx (by rw [← hz, stem_of_digits_eq_nil h])
  have hp : x ∈ names.map stem := List.mem_map.mpr ⟨y, hy, hstem⟩
  have hpart : (names.filter (· = x) ++ names.filter (· ≠ x)).Perm names := by
    simpa using List.filter_append_perm (· = x) names
  -- Behind the copies of the plain name the group starts afresh.
  have hempty : ∀ group, ((names.filter (· = x)).filter (stem · = x)).foldl groupStep group =
      [] := by
    intro group
    obtain ⟨l, z, hl⟩ :=
      (List.eq_nil_or_concat ((names.filter (· = x)).filter (stem · = x))).resolve_left
      (List.ne_nil_of_mem (List.mem_filter.mpr ⟨List.mem_filter.mpr ⟨hx, by simp⟩,
        by simpa using hplain⟩))
    have hz : z = x := by
      have : z ∈ (names.filter (· = x)).filter (stem · = x) := by simp [hl]
      simpa using (List.mem_filter.mp (List.mem_filter.mp this).1).2
    rw [hl, List.concat_eq_append, List.foldl_append, List.foldl_cons, List.foldl_nil, groupStep,
      hz, if_pos hdigits]
  have hlast : groupOf (names.filter (· ≠ x) ++ names.filter (· = x)) x = [] := by
    rw [groupOf, List.filter_append, List.foldl_append, hempty]
  have hfirst : digits y ∈ groupOf (names.filter (· = x) ++ names.filter (· ≠ x)) x := by
    rw [groupOf, List.filter_append, List.foldl_append, hempty, foldl_groupStep]
    · exact List.mem_map.mpr ⟨y, by simp [hy, hne, hstem], rfl⟩
    · intro z hz
      obtain ⟨hz, hzx⟩ := List.mem_filter.mp hz
      exact hnumbered z (by simpa using hzx) (by simpa using (List.mem_filter.mp hz).2)
  have h1 := compressRange_of_compact htext hsame (List.perm_append_comm.trans hpart) hp
  have h2 := compressRange_of_compact htext hsame hpart hp
  have hnone : sortedGroup stableSort (names.filter (· ≠ x) ++ names.filter (· = x)) x = [] := by
    rw [sortedGroup, hlast]
    rfl
  rw [← h1, hnone] at h2
  have hnil := eq_nil_of_compressRange isNumeral_of_mem_sortedGroup h2
  rw [← (stableSort.perm _).mem_iff, ← sortedGroup, hnil] at hfirst
  exact absurd hfirst List.not_mem_nil

/-- **Equal numbers show the order**: the sort leaves them as they are listed, and the first of them
ends a range. -/
theorem digits_eq_of_compact {x y : Text} (hx : x ∈ names) (hy : y ∈ names)
    (hstem : stem x = stem y) (hnumbered : ∀ z ∈ names, stem z = stem x → digits z ≠ [])
    (heq : atoi (digits x) = atoi (digits y)) : digits x = digits y := by
  by_contra hne
  obtain ⟨hlen, r, hr, hrx⟩ := find_firstAmongEqual hx hy hstem hnumbered hne heq
  obtain ⟨hlen', r', hr', hry⟩ :=
    find_firstAmongEqual hy hx hstem.symm (hstem ▸ hnumbered) (Ne.symm hne) heq.symm
  have hp : stem x ∈ names.map stem := List.mem_map_of_mem hx
  have h1 := compressRange_of_compact htext hsame (perm_firstAmongEqual x y names) hp
  have h2 := compressRange_of_compact htext hsame (perm_firstAmongEqual y x names) hp
  rw [← hstem, ← heq] at hr'
  rw [← hstem] at hlen'
  have hranges := groupRanges_eq_of_compressRange isNumeral_of_mem_sortedGroup
    isNumeral_of_mem_sortedGroup hlen hlen' (h1.trans h2.symm)
  rw [hranges, hr'] at hr
  exact hne (by rw [← hrx, ← hry, Option.some.inj hr])

/-- If the text does not depend on the sort, the numbers differ. -/
theorem numbersApart_of_compact : NumbersApart names := by
  have hsep := separate_of_compact htext hsame
  intro x hx y hy hstem h
  by_cases hdx : digits x = []
  · rw [stem_of_digits_eq_nil hdx] at hstem
    exact (hsep x hx y hy hstem.symm).symm
  · rcases hsep.plain_or_numbered (stem x) with hplain | hnumbered
    · exact absurd (hplain x hx rfl) hdx
    · have hdigits := digits_eq_of_compact htext hsame hx hy hstem hnumbered (h.resolve_left hdx)
      rw [← stem_append_digits x, ← stem_append_digits y, hstem, hdigits]

end Orders

/-- **`Compact` is canonical exactly on names whose numbers are apart.** -/
theorem compact_perm_iff {names : List Text} (htext : ∀ x ∈ names, IsHostText x) :
    (∀ names', names'.Perm names → compact stableSort names' = compact stableSort names) ↔
      NumbersApart names :=
  ⟨fun hsame => numbersApart_of_compact htext hsame, fun happart _ hperm =>
    compact_of_numbersApart hperm htext happart _ _⟩

end Topograph.Cluset
