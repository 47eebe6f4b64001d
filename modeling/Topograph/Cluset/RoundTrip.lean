import Topograph.Cluset.Expansion
import Topograph.Cluset.Groups

/-! # The round trip of a host list

`ExpandList` applied to the joined output of `Compact` gives back the set of names exactly when no
listed name is another one without its digits, and every step from one number of a stem to the next
survives (`roundTrips_iff`). Otherwise a group is overwritten, or a number is printed at the width
of another one. -/

namespace Topograph.Cluset

/-- Reading the compact list of `names` ends and gives the names of the list. -/
def RoundTrips (srt : NumberSort) (names : List Text) : Prop :=
  ∃ fuel out, expandList fuel (compactList srt names) = some out ∧ ∀ x, x ∈ out ↔ x ∈ names

/-- No listed name is what another listed name leaves without its digits. -/
def Separate (names : List Text) : Prop := ∀ x ∈ names, ∀ y ∈ names, stem y = x → y = x

/-- The name `y` with its number written at the width of the number of `x`. -/
def rewriteAt (x y : Text) : Text :=
  stem y ++ zeroPad (digits x).length (numeralValue (digits y))

/-- What the names `x` and `y` of two consecutive numbers need. -/
def StepKept (names : List Text) (x y : Text) : Prop :=
  atoi (digits y) < maxInt ∧ (digits x).length ≤ maxWidth ∧
    (rewriteAt x y = y ∨ rewriteAt x y ∈ names ∧ 2 ≤ names.count y)

/-! ## What a group prints -/

/-- What comes back for a numeral is a numeral, or shows the complaint about its width. -/
theorem mem_flatMap_rangeNames {nums : List Text} (hnum : ∀ n ∈ nums, isNumeral n) {t : Text}
    (ht : t ∈ (groupRanges nums).flatMap rangeNames) : isNumeral t ∨ '%' ∈ t := by
  obtain ⟨r, hr, ht⟩ := List.mem_flatMap.mp ht
  obtain ⟨h1, -, -⟩ := groupRanges_bounds hnum r hr
  unfold rangeNames at ht
  split_ifs at ht with heq
  · rw [List.mem_singleton.mp ht]
    exact Or.inl h1
  · obtain ⟨k, -, rfl⟩ := List.mem_map.mp ht
    have h0 := atoi_nonneg h1
    obtain ⟨v, hv⟩ : ∃ v : Nat, atoi r.1 + (k : Int) = v := ⟨(atoi r.1 + k).toNat, by omega⟩
    rw [hv]
    by_cases hwidth : byteLen r.1 ≤ maxWidth
    · left
      rw [sprintfPadded_natCast hwidth]
      exact isNumeral_zeroPad _ _
    · right
      unfold sprintfPadded
      rw [if_neg hwidth]
      exact List.mem_append_left _ (by decide)

/-- **The names of a group have its stem**, as far as they are host names. -/
theorem stem_of_mem_groupNames {p : Text} {nums : List Text} (hp : stem p = p)
    (hnum : ∀ n ∈ nums, isNumeral n) {x : Text} (hx : IsHostText x) (h : x ∈ groupNames p nums) :
    stem x = p := by
  unfold groupNames at h
  split_ifs at h with hnil
  · rw [List.mem_singleton.mp h, hp]
  · obtain ⟨t, ht, rfl⟩ := List.mem_map.mp h
    rcases mem_flatMap_rangeNames hnum ht with hnumeral | hpercent
    · exact stem_append hp (isNumeral_iff.mp hnumeral).2
    · exact absurd (List.mem_append_right p hpercent) (hx.not_mem rfl)

/-! ## Groups under separation -/

/-- Bare names leave no numerals in the group. -/
theorem groupOf_of_plain {names : List Text} {p : Text}
    (h : ∀ x ∈ names, stem x = p → digits x = []) : groupOf names p = [] := by
  unfold groupOf
  rcases List.eq_nil_or_concat (names.filter (stem · = p)) with hnil | ⟨l, x, hl⟩
  · rw [hnil]
    rfl
  · rw [List.concat_eq_append] at hl
    have hx : x ∈ names ∧ stem x = p := by
      have : x ∈ names.filter (stem · = p) := by simp [hl]
      simpa using this
    rw [hl, List.foldl_append, List.foldl_cons, List.foldl_nil, groupStep, if_pos (h x hx.1 hx.2)]

theorem foldl_groupStep {l : List Text} (h : ∀ x ∈ l, digits x ≠ []) (group : List Text) :
    l.foldl groupStep group = group ++ l.map digits := by
  induction l generalizing group with
  | nil => simp
  | cons x l ih =>
    rw [List.foldl_cons, ih fun y hy => h y (List.mem_cons_of_mem x hy), groupStep,
      if_neg (h x List.mem_cons_self), List.append_assoc]
    rfl

/-- The group of a stem without a bare name: all its numerals. -/
theorem groupOf_of_numbered {names : List Text} {p : Text}
    (h : ∀ x ∈ names, stem x = p → digits x ≠ []) :
    groupOf names p = (names.filter (stem · = p)).map digits := by
  rw [groupOf, foldl_groupStep, List.nil_append]
  intro x hx
  obtain ⟨hx, hxp⟩ := List.mem_filter.mp hx
  exact h x hx (by simpa using hxp)

/-- A number occurs in its group as often as its name occurs in the list. -/
theorem count_groupOf {names : List Text} {p d : Text} (hp : stem p = p) (hd : ∀ c ∈ d, c.isDigit)
    (h : ∀ x ∈ names, stem x = p → digits x ≠ []) :
    (groupOf names p).count d = names.count (p ++ d) := by
  rw [groupOf_of_numbered h, List.count_eq_countP, List.countP_map, List.countP_filter,
    List.count_eq_countP]
  apply List.countP_congr
  intro x _
  simp only [Function.comp_apply, Bool.and_eq_true, beq_iff_eq, decide_eq_true_eq]
  rw [eq_append_iff hp hd]
  exact and_comm

/-- A numeral is in the group when the name is in the list. -/
theorem mem_groupOf {names : List Text} {p d : Text} (hp : stem p = p) (hd : ∀ c ∈ d, c.isDigit)
    (h : ∀ x ∈ names, stem x = p → digits x ≠ []) : d ∈ groupOf names p ↔ p ++ d ∈ names := by
  rw [← List.count_pos_iff, count_groupOf hp hd h, List.count_pos_iff]

/-- Under separation the names of a stem are numbered, or they are all the stem. -/
theorem Separate.plain_or_numbered {names : List Text} (h : Separate names) (p : Text) :
    (∀ x ∈ names, stem x = p → digits x = []) ∨ ∀ x ∈ names, stem x = p → digits x ≠ [] := by
  by_cases hp : p ∈ names
  · left
    intro x hx hxp
    have hxp' : x = p := h p hp x hx hxp
    have hdig := digits_stem x
    rwa [hxp, ← hxp'] at hdig
  · right
    intro x hx hxp hd
    rw [stem_of_digits_eq_nil hd] at hxp
    exact hp (hxp ▸ hx)

/-! ## Group by group -/

/-- Some sort of the numbers: equal ones keep their order. -/
def stableSort : NumberSort where
  sort l := l.insertionSort fun a b => atoi a ≤ atoi b
  perm l := List.perm_insertionSort _ l
  sorted l := by
    have : Std.Total fun a b : Text => atoi a ≤ atoi b := ⟨fun a b => le_total (atoi a) (atoi b)⟩
    have : IsTrans Text fun a b => atoi a ≤ atoi b := ⟨fun _ _ _ => le_trans⟩
    exact List.pairwise_insertionSort _ l

section Hosts

variable {names : List Text} (hhost : ∀ x ∈ names, IsHostName x)

include hhost

/-- The round trip, group by group. -/
theorem roundTrips_iff_groups (srt : NumberSort) :
    RoundTrips srt names ↔
      (∀ p ∈ names.map stem, ∀ r ∈ groupRanges (sortedGroup srt names p),
        r.1 = r.2 ∨ atoi r.2 < maxInt) ∧
      ∀ x, (∃ p ∈ names.map stem, x ∈ groupNames p (sortedGroup srt names p)) ↔ x ∈ names := by
  have htext : ∀ x ∈ names, IsHostText x := fun x hx => (hhost x hx).2
  have hout : ∀ x, (x ∈ (sortedStems names).flatMap fun p =>
      groupNames p (sortedGroup srt names p)) ↔
      ∃ p ∈ names.map stem, x ∈ groupNames p (sortedGroup srt names p) := by
    intro x
    simp only [List.mem_flatMap, mem_sortedStems htext]
  refine ⟨?_, ?_⟩
  · rintro ⟨fuel, out, hexpand, hmem⟩
    obtain ⟨hends, rfl⟩ := (expandList_eq_some_iff hhost srt).mp hexpand
    refine ⟨fun p hp r hr => ?_, fun x => by rw [← hout, hmem]⟩
    exact (hends p hp r hr).imp_right fun h => h.1
  · rintro ⟨hends, hmem⟩
    refine ⟨2 ^ 64, _, (expandList_eq_some_iff hhost srt).mpr ⟨?_, rfl⟩,
      fun x => by rw [hout, hmem]⟩
    intro p hp r hr
    have hb := groupRanges_bounds isNumeral_of_mem_sortedGroup r hr
    refine (hends p hp r hr).imp_right fun h => ⟨h, ?_⟩
    have h0 := atoi_nonneg hb.1
    rw [maxInt] at h
    omega

/-- A host name of the list can only come from the group of its stem. -/
theorem mem_groupNames_stem {srt : NumberSort} (h : RoundTrips srt names) {x : Text}
    (hx : x ∈ names) : x ∈ groupNames (stem x) (sortedGroup srt names (stem x)) := by
  obtain ⟨-, hmem⟩ := (roundTrips_iff_groups hhost srt).mp h
  obtain ⟨p, hp, hxp⟩ := (hmem x).mpr hx
  obtain ⟨y, -, rfl⟩ := List.mem_map.mp hp
  have hstem := stem_of_mem_groupNames (stem_stem y) isNumeral_of_mem_sortedGroup (hhost x hx).2 hxp
  rwa [hstem]

/-- **A name that is the stem of another one is lost, or takes it along.** -/
theorem separate_of_roundTrips {srt : NumberSort} (h : RoundTrips srt names) : Separate names := by
  intro x hx y hy hstem
  have hplain : stem x = x := by rw [← hstem, stem_stem]
  have hy' := mem_groupNames_stem hhost h hy
  have hx' := mem_groupNames_stem hhost h hx
  rw [hstem] at hy'
  rw [hplain] at hx'
  by_cases hgroup : sortedGroup srt names x = []
  · -- The group was emptied: only the plain name comes back.
    rw [groupNames, if_pos hgroup] at hy'
    exact List.mem_singleton.mp hy'
  · -- The group has numbers: nothing without digits comes back.
    rw [groupNames, if_neg hgroup] at hx'
    obtain ⟨t, ht, htx⟩ := List.mem_map.mp hx'
    have hnil : t = [] := List.append_right_eq_self.mp htx
    rcases mem_flatMap_rangeNames isNumeral_of_mem_sortedGroup ht with hnum | hpercent
    · exact absurd hnil (isNumeral_iff.mp hnum).1
    · simp [hnil] at hpercent

/-- The numbers of a numbered stem come back exactly when its names do. -/
theorem returns_iff_groupNames {srt : NumberSort} {p : Text} (hp : stem p = p)
    (hnumbered : ∀ x ∈ names, stem x = p → digits x ≠ []) (hmem : p ∈ names.map stem) :
    Returns (sortedGroup srt names p) ↔
      (∀ r ∈ groupRanges (sortedGroup srt names p), r.1 = r.2 ∨ atoi r.2 < maxInt) ∧
        (∀ x ∈ groupNames p (sortedGroup srt names p), x ∈ names) ∧
          ∀ x ∈ names, stem x = p → x ∈ groupNames p (sortedGroup srt names p) := by
  have hne : sortedGroup srt names p ≠ [] := by
    obtain ⟨x, hx, hxp⟩ := List.mem_map.mp hmem
    have : digits x ∈ groupOf names p := by
      rw [mem_groupOf hp (fun c => isDigit_of_mem_digits) hnumbered, ← hxp, stem_append_digits]
      exact hx
    exact List.ne_nil_of_mem ((srt.perm _).mem_iff.mpr this)
  -- Names of the stem and their numerals correspond, before and after printing.
  have hsorted : ∀ t : Text, (∀ c ∈ t, c.isDigit) →
      (t ∈ sortedGroup srt names p ↔ p ++ t ∈ names) := by
    intro t ht
    rw [sortedGroup, (srt.perm _).mem_iff, mem_groupOf hp ht hnumbered]
  have hnames : ∀ t, p ++ t ∈ groupNames p (sortedGroup srt names p) ↔
      t ∈ (groupRanges (sortedGroup srt names p)).flatMap rangeNames := by
    intro t
    rw [groupNames, if_neg hne, List.mem_map]
    constructor
    · rintro ⟨u, hu, he⟩
      exact List.append_cancel_left he ▸ hu
    · exact fun h => ⟨t, h, rfl⟩
  unfold Returns
  refine and_congr_right fun _ => ⟨fun h => ⟨?_, ?_⟩, fun h t => ⟨fun ht => ?_, fun ht => ?_⟩⟩
  · intro x hx
    have hx' := hx
    rw [groupNames, if_neg hne] at hx'
    obtain ⟨t, ht, rfl⟩ := List.mem_map.mp hx'
    have ht' := (h t).mp ht
    exact (hsorted t (isNumeral_iff.mp (isNumeral_of_mem_sortedGroup t ht')).2).mp ht'
  · intro x hx hxp
    have hjoin : p ++ digits x = x := by rw [← hxp, stem_append_digits]
    have hdig : digits x ∈ sortedGroup srt names p := by
      rw [hsorted _ fun c => isDigit_of_mem_digits, hjoin]
      exact hx
    have hprinted := (hnames _).mpr ((h _).mpr hdig)
    rwa [hjoin] at hprinted
  · have hlisted := h.1 _ ((hnames t).mpr ht)
    have hnum : isNumeral t := by
      rcases mem_flatMap_rangeNames isNumeral_of_mem_sortedGroup ht with hnum | hpercent
      · exact hnum
      · exact absurd (List.mem_append_right p hpercent) ((hhost _ hlisted).2.not_mem rfl)
    exact (hsorted t (isNumeral_iff.mp hnum).2).mpr hlisted
  · have hdig := (isNumeral_iff.mp (isNumeral_of_mem_sortedGroup t ht)).2
    rw [← hnames]
    exact h.2 _ ((hsorted t hdig).mp ht) (stem_append hp hdig)

end Hosts

/-- Surviving steps of a group are kept steps of its names. -/
theorem stepSurvives_iff {names : List Text} {x y : Text}
    (hnumbered : ∀ z ∈ names, stem z = stem y → digits z ≠ []) :
    StepSurvives (groupOf names (stem y)) (digits x) (digits y) ↔ StepKept names x y := by
  have hpad := (isNumeral_iff.mp (isNumeral_zeroPad (digits x).length (numeralValue (digits y)))).2
  have hsame : zeroPad (digits x).length (numeralValue (digits y)) = digits y ↔
      rewriteAt x y = y := by
    refine ⟨fun h => by rw [rewriteAt, h, stem_append_digits], fun h => ?_⟩
    rw [rewriteAt] at h
    nth_rewrite 3 [← stem_append_digits y] at h
    exact List.append_cancel_left h
  unfold StepSurvives StepKept
  rw [hsame, mem_groupOf (stem_stem y) hpad hnumbered,
    count_groupOf (stem_stem y) (fun c => isDigit_of_mem_digits) hnumbered, stem_append_digits]
  rfl

/-- **A host list survives the round trip** when no listed name is another one without its digits
and the steps between its numbers are kept. -/
theorem roundTrips_of_steps {names : List Text} (hhost : ∀ x ∈ names, IsHostName x)
    (hsep : Separate names)
    (hsteps : ∀ x ∈ names, ∀ y ∈ names, stem x = stem y → digits x ≠ [] → digits y ≠ [] →
      atoi (digits y) = atoi (digits x) + 1 → StepKept names x y) (srt :
      NumberSort) : RoundTrips srt names := by
  -- Every stem prints its own names: the plain ones by themselves, the numbered ones by their
  -- steps.
  have hgroup : ∀ p ∈ names.map stem,
      (∀ r ∈ groupRanges (sortedGroup srt names p), r.1 = r.2 ∨ atoi r.2 < maxInt) ∧
        (∀ x ∈ groupNames p (sortedGroup srt names p), x ∈ names) ∧
          ∀ x ∈ names, stem x = p → x ∈ groupNames p (sortedGroup srt names p) := by
    intro p hp
    have hpp : stem p = p := by
      obtain ⟨y, -, rfl⟩ := List.mem_map.mp hp
      exact stem_stem y
    rcases hsep.plain_or_numbered p with hplain | hnumbered
    · have hempty := groupOf_of_plain hplain
      have hnil : sortedGroup srt names p = [] := by
        have hperm := srt.perm (groupOf names p)
        rw [hempty] at hperm
        rw [sortedGroup, hempty]
        exact hperm.eq_nil
      rw [hnil, groupNames, if_pos rfl]
      refine ⟨by simp [groupRanges], fun x hx => ?_, fun x hx hxp => ?_⟩
      · rw [List.mem_singleton.mp hx]
        exact mem_of_groupOf_eq_nil hp hempty
      · rw [List.mem_singleton, ← hxp, stem_of_digits_eq_nil (hplain x hx hxp)]
    · rw [← returns_iff_groupNames hhost hpp hnumbered hp]
      refine (returns_iff fun n hn => isNumeral_of_mem_groupOf hn).mpr ?_ srt
      intro m hm n hn hnext
      have hdm := (isNumeral_iff.mp (isNumeral_of_mem_groupOf hm))
      have hdn := (isNumeral_iff.mp (isNumeral_of_mem_groupOf hn))
      have hx := (mem_groupOf hpp hdm.2 hnumbered).mp hm
      have hy := (mem_groupOf hpp hdn.2 hnumbered).mp hn
      have hsx := stem_append hpp hdm.2
      have hsy := stem_append hpp hdn.2
      have hdx := digits_append hpp hdm.2
      have hdy := digits_append hpp hdn.2
      have hkept := hsteps _ hx _ hy (by rw [hsx, hsy]) (by rw [hdx]; exact hdm.1)
        (by rw [hdy]; exact hdn.1) (by rw [hdx, hdy]; exact hnext)
      rw [← stepSurvives_iff (by rw [hsy]; exact hnumbered), hsy, hdx, hdy] at hkept
      exact hkept
  refine (roundTrips_iff_groups hhost srt).mpr ⟨fun p hp => (hgroup p hp).1, fun x => ⟨?_, ?_⟩⟩
  · rintro ⟨p, hp, hx⟩
    exact (hgroup p hp).2.1 x hx
  · intro hx
    have hp : stem x ∈ names.map stem := List.mem_map.mpr ⟨x, hx, rfl⟩
    exact ⟨stem x, hp, (hgroup _ hp).2.2 x hx rfl⟩

/-- **When a host list survives the round trip.** Whatever order the sort gives to equal numbers,
the names read back from the compact list are those of the list exactly when no listed name is
another one without its digits and every pair of consecutive numbers of a stem keeps its step. -/
theorem roundTrips_iff (names : List Text) (hhost : ∀ x ∈ names, IsHostName x) :
    (∀ srt : NumberSort, RoundTrips srt names) ↔
      Separate names ∧ ∀ x ∈ names, ∀ y ∈ names, stem x = stem y → digits x ≠ [] → digits y ≠ [] →
        atoi (digits y) = atoi (digits x) + 1 → StepKept names x y := by
  refine ⟨fun h => ?_, fun ⟨hsep, hsteps⟩ => roundTrips_of_steps hhost hsep hsteps⟩
  have hsep := separate_of_roundTrips hhost (h stableSort)
  refine ⟨hsep, fun x hx y hy hstem hdx hdy hnext => ?_⟩
  have hmem : stem y ∈ names.map stem := List.mem_map.mpr ⟨y, hy, rfl⟩
  have hnumbered : ∀ z ∈ names, stem z = stem y → digits z ≠ [] :=
    (hsep.plain_or_numbered (stem y)).resolve_left fun hplain => hdy (hplain y hy rfl)
  have hreturns : ∀ srt : NumberSort, Returns (srt.sort (groupOf names (stem y))) := by
    intro srt
    obtain ⟨hends, hgroups⟩ := (roundTrips_iff_groups hhost srt).mp (h srt)
    refine (returns_iff_groupNames hhost (stem_stem y) hnumbered hmem).mpr ⟨hends _ hmem, ?_, ?_⟩
    · exact fun z hz => (hgroups z).mp ⟨stem y, hmem, hz⟩
    · intro z hz hzy
      rw [← hzy]
      exact mem_groupNames_stem hhost (h srt) hz
  have hdig : ∀ z ∈ names, stem z = stem y → digits z ∈ groupOf names (stem y) := by
    intro z hz hzy
    rw [mem_groupOf (stem_stem y) (fun c => isDigit_of_mem_digits) hnumbered, ← hzy,
      stem_append_digits]
    exact hz
  rw [← stepSurvives_iff hnumbered]
  exact (returns_iff fun n hn => isNumeral_of_mem_groupOf hn).mp hreturns _ (hdig x hx hstem) _
    (hdig y hy rfl) hnext

/-- A list of host names that survives the round trip, whatever order the sort gives to equal
numbers. -/
def Steady (names : List Text) : Prop :=
  (∀ x ∈ names, IsHostName x) ∧ Separate names ∧
    ∀ x ∈ names, ∀ y ∈ names, stem x = stem y → digits x ≠ [] → digits y ≠ [] →
      atoi (digits y) = atoi (digits x) + 1 → StepKept names x y

instance (names : List Text) : Decidable (Separate names) :=
  inferInstanceAs (Decidable (∀ x ∈ names, ∀ y ∈ names, stem y = x → y = x))

instance (names : List Text) (x y : Text) : Decidable (StepKept names x y) :=
  inferInstanceAs (Decidable (_ ∧ _ ∧ (_ ∨ _)))

instance (names : List Text) : Decidable (Steady names) := inferInstanceAs (Decidable (_ ∧ _ ∧ _))

/-- **Steady lists are kept** when they are written. -/
theorem Steady.kept {names : List String} (h : Steady (names.map String.toList))
    (srt : NumberSort) : Kept srt names := by
  obtain ⟨fuel, out, hexpand, hmem⟩ := roundTrips_of_steps h.1 h.2.1 h.2.2 srt
  intro n
  rw [mem_hosts, hostList, String.toList_ofList, ← expand_eq_some hexpand, hmem,
    List.mem_map_of_injective fun _ _ => String.toList_inj.mp]

/-- Steadiness does not depend on the order. -/
theorem Steady.perm {names names' : List Text} (h : Steady names) (hperm : names'.Perm names) :
    Steady names' := by
  simp only [Steady, Separate, StepKept, hperm.mem_iff, hperm.count_eq]
  exact h

/-- Two stems, one of them with numbers of one width. -/
def uniformHosts : List Text := ["node08".toList, "node09".toList, "node10".toList, "gpu".toList]

/-- Hosts with numerals of one width come back. -/
theorem uniformHosts_roundTrip :
    (∀ x ∈ uniformHosts, IsHostName x) ∧ ∀ srt : NumberSort, RoundTrips srt uniformHosts := by
  have hhost : ∀ x ∈ uniformHosts, IsHostName x := by decide
  exact ⟨hhost, (roundTrips_iff uniformHosts hhost).mpr ⟨by decide, by decide⟩⟩

/-- Two numbers of one stem, the smaller one padded. -/
def mixedHosts : List Text := ["n08".toList, "n9".toList]

/-- The list `n08`, `n9` is written as `n[08-9]`, which is read as `n08`, `n09`. -/
theorem mixedHosts_not_roundTrips :
    (∀ x ∈ mixedHosts, IsHostName x) ∧
      compactList stableSort mixedHosts = "n[08-9]".toList ∧
      expandList 3 "n[08-9]".toList = some ["n08".toList, "n09".toList] ∧
      ¬ RoundTrips stableSort mixedHosts := by
  have hhost : ∀ x ∈ mixedHosts, IsHostName x := by decide
  refine ⟨hhost, by decide, by decide, ?_⟩
  rintro ⟨fuel, out, hexpand, hmem⟩
  obtain ⟨-, rfl⟩ := (expandList_eq_some_iff hhost stableSort).mp hexpand
  have hlost := (hmem "n9".toList).mpr (by decide)
  revert hlost
  decide

end Topograph.Cluset
