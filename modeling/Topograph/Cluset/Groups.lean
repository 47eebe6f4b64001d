import Topograph.Cluset.Steps

/-! # The groups of a host list

A host name is its `stem` and the digits at its end. `compact` keeps one group per stem: the digits
of the names with that stem, emptied whenever a name without digits comes by (`lookup_groupNodes`).
Reading the compact list back gives the names of all groups (`expandList_eq_some_iff`). -/

namespace Topograph.Cluset

open GoString

/-- A host name without the digits at its end. -/
def stem (node : Text) : Text := node.rdropWhile Char.isDigit

/-- The digits at the end of a host name. -/
def digits (node : Text) : Text := node.rtakeWhile Char.isDigit

/-- A host name: letters, digits, `-`, `_` and `.`, at least one of them. -/
def IsHostName (node : Text) : Prop := node ≠ [] ∧ IsHostText node

instance (node : Text) : Decidable (IsHostName node) := inferInstanceAs (Decidable (_ ∧ _))

/-- A name is its stem and its final digits. -/
theorem stem_append_digits (node : Text) : stem node ++ digits node = node :=
  List.rdropWhile_append_rtakeWhile

variable {node : Text}

theorem isDigit_of_mem_digits {c : Char} (h : c ∈ digits node) : c.isDigit :=
  List.mem_rtakeWhile_imp h

theorem isNumeral_digits : isNumeral (digits node) ↔ digits node ≠ [] := by
  rw [isNumeral_iff]
  exact and_iff_left fun c hc => isDigit_of_mem_digits hc

theorem stem_of_digits_eq_nil (h : digits node = []) : stem node = node := by
  have := stem_append_digits node
  rwa [h, List.append_nil] at this

theorem stem_stem (node : Text) : stem (stem node) = stem node :=
  List.rdropWhile_idempotent _ _

theorem digits_stem (node : Text) : digits (stem node) = [] := by
  have := stem_append_digits (stem node)
  rw [stem_stem] at this
  exact List.append_right_eq_self.mp this

/-- Digits behind a stem are the digits of the name. -/
theorem stem_append {p d : Text} (hp : stem p = p) (hd : ∀ c ∈ d, c.isDigit) :
    stem (p ++ d) = p := by
  induction d using List.reverseRecOn with
  | nil => rw [List.append_nil, hp]
  | append_singleton d c ih =>
    have hc : c.isDigit := hd c (by simp)
    unfold stem at *
    rw [← List.append_assoc, List.rdropWhile_concat_pos _ _ _ hc]
    exact ih fun x hx => hd x (by simp [hx])

/-- Digits behind a stem are its final digits. -/
theorem digits_append {p d : Text} (hp : stem p = p) (hd : ∀ c ∈ d, c.isDigit) :
    digits (p ++ d) = d := by
  have h := stem_append_digits (p ++ d)
  rw [stem_append hp hd] at h
  exact List.append_cancel_left h

/-- A name is told by its stem and its digits. -/
theorem eq_append_iff {node p d : Text} (hp : stem p = p) (hd : ∀ c ∈ d, c.isDigit) :
    node = p ++ d ↔ stem node = p ∧ digits node = d := by
  refine ⟨?_, ?_⟩
  · intro h
    rw [h]
    exact ⟨stem_append hp hd, digits_append hp hd⟩
  · intro h
    rw [← stem_append_digits node, h.1, h.2]

theorem isHostText_stem (h : IsHostText node) : IsHostText (stem node) := by
  intro c hc
  refine h c ?_
  rw [← stem_append_digits node]
  exact List.mem_append_left _ hc

/-! ## Grouping -/

/-- One name of a stem: its digits join the group, or the group is emptied. -/
def groupStep (group : List Text) (node : Text) : List Text :=
  if digits node = [] then [] else group ++ [digits node]

/-- The group of a stem. -/
def groupOf (names : List Text) (p : Text) : List Text :=
  (names.filter (stem · = p)).foldl groupStep []

/-- The match of a host name is its stem and its digits. -/
theorem compactMatch_eq (h : IsHostText node) :
    compactMatch node = if digits node = [] then none else some (stem node, digits node) := by
  have hline : '\n' ∉ node.rdropWhile Char.isDigit := (isHostText_stem h).not_mem rfl
  unfold compactMatch digits stem
  simp only [hline, or_false]

/-- A name joins the group of its stem. -/
theorem groupNode_eq (groups : GoMap Text (List Text)) (h : IsHostText node) : groupNode groups node
      = groups.insert (stem node) (groupStep ((groups.lookup (stem node)).getD []) node) := by
  unfold groupNode groupStep
  rw [compactMatch_eq h]
  by_cases hd : digits node = []
  · rw [if_pos hd, if_pos hd, stem_of_digits_eq_nil hd]
  · rw [if_neg hd, if_neg hd]

variable {names : List Text}

/-- **The groups by stem.** -/
theorem lookup_groupNodes (h : ∀ x ∈ names, IsHostText x) (p : Text) :
    (groupNodes names).lookup p = if p ∈ names.map stem then some (groupOf names p) else none := by
  induction names using List.reverseRecOn with
  | nil => rfl
  | append_singleton names x ih =>
    have ih' := ih fun y hy => h y (by simp [hy])
    have hfold : groupNodes (names ++ [x]) = groupNode (groupNodes names) x := by
      rw [groupNodes, List.foldl_append]
      rfl
    rw [hfold, groupNode_eq _ (h x (by simp)), GoMap.lookup_insert_eq_ite]
    by_cases hp : p = stem x
    · -- The group of this stem takes one more step.
      subst hp
      have hgroup : groupOf (names ++ [x]) (stem x) = groupStep (groupOf names (stem x)) x := by
        rw [groupOf, List.filter_append, List.foldl_append]
        simp [groupOf]
      have hold : ((groupNodes names).lookup (stem x)).getD [] = groupOf names (stem x) := by
        rw [ih']
        by_cases hmem : stem x ∈ names.map stem
        · rw [if_pos hmem, Option.getD_some]
        · have hnone : names.filter (stem · = stem x) = [] := by
            rw [List.filter_eq_nil_iff]
            intro y hy
            simpa using fun he : stem y = stem x => hmem (List.mem_map.mpr ⟨y, hy, he⟩)
          rw [if_neg hmem, groupOf, hnone]
          rfl
      rw [if_pos rfl, if_pos (by simp), hold, hgroup]
    · have hgroup : groupOf (names ++ [x]) p = groupOf names p := by
        rw [groupOf, List.filter_append]
        simp [Ne.symm hp, groupOf]
      have hmem : p ∈ (names ++ [x]).map stem ↔ p ∈ names.map stem := by
        simp [hp]
      rw [if_neg hp, ih', hgroup]
      simp only [hmem]

variable {p : Text}

/-- The groups are those of the stems. -/
theorem mem_keys_groupNodes (h : ∀ x ∈ names, IsHostText x) :
    p ∈ (groupNodes names).keys ↔ p ∈ names.map stem := by
  rw [← AList.mem_keys, GoMap.mem_iff_lookup, lookup_groupNodes h]
  split_ifs with hp <;> simp [hp]

/-- A group holds numerals. -/
theorem isNumeral_of_mem_groupOf {p n : Text} (h : n ∈ groupOf names p) : isNumeral n := by
  unfold groupOf at h
  generalize names.filter (stem · = p) = l at h
  induction l using List.reverseRecOn with
  | nil => simp at h
  | append_singleton l x ih =>
    rw [List.foldl_append, List.foldl_cons, List.foldl_nil, groupStep] at h
    split_ifs at h with hd
    · simp at h
    · rcases List.mem_append.mp h with h | h
      · exact ih h
      · rw [List.mem_singleton.mp h]
        exact isNumeral_digits.mpr hd

/-- A group is empty only when a name without digits is its stem. -/
theorem mem_of_groupOf_eq_nil (hp : p ∈ names.map stem) (h : groupOf names p = []) : p ∈ names := by
  obtain ⟨x, hx, hxp⟩ := List.mem_map.mp hp
  have hne : names.filter (stem · = p) ≠ [] :=
    List.ne_nil_of_mem (List.mem_filter.mpr ⟨hx, by simpa using hxp⟩)
  obtain ⟨l, y, hl⟩ := (List.eq_nil_or_concat _).resolve_left hne
  rw [List.concat_eq_append] at hl
  have hy : y ∈ names ∧ stem y = p := by
    have : y ∈ names.filter (stem · = p) := by simp [hl]
    simpa using this
  -- The last name of the stem left the group empty, so it has no digits.
  rw [groupOf, hl, List.foldl_append, List.foldl_cons, List.foldl_nil, groupStep] at h
  split_ifs at h with hd
  · rw [← hy.2, stem_of_digits_eq_nil hd]
    exact hy.1
  · simp at h

/-! ## Reading the groups back -/

/-- The numbers of a stem in the order of the sort. -/
def sortedGroup (srt : NumberSort) (names : List Text) (p : Text) : List Text :=
  srt.sort (groupOf names p)

theorem isNumeral_of_mem_sortedGroup {srt : NumberSort} :
    ∀ n ∈ sortedGroup srt names p, isNumeral n :=
  fun _ hn => isNumeral_of_mem_groupOf ((srt.perm _).mem_iff.mp hn)

/-- The stems in the order in which `compact` writes them. -/
def sortedStems (names : List Text) : List Text := (groupNodes names).keys.insertionSort (· ≤ ·)

section

variable (h : ∀ x ∈ names, IsHostText x)

include h

theorem mem_sortedStems : p ∈ sortedStems names ↔ p ∈ names.map stem := by
  rw [sortedStems, List.mem_insertionSort, mem_keys_groupNodes h]

theorem isHostText_of_mem_stems (hp : p ∈ names.map stem) : IsHostText p := by
  obtain ⟨x, hx, rfl⟩ := List.mem_map.mp hp
  exact isHostText_stem (h x hx)

/-- Compaction prints one entry for each stem, in order. -/
theorem compact_eq_map (srt : NumberSort) : compact srt names
      = (sortedStems names).map fun p => p ++ compressRange (sortedGroup srt names p) := by
  unfold compact
  apply List.map_congr_left
  intro p hp
  rw [lookup_groupNodes h, if_pos ((mem_sortedStems h).mp hp)]
  rfl

end

/-- The characters of an entry are host characters, brackets and commas. -/
theorem mem_compressRange {nums : List Text} (hnum : ∀ n ∈ nums, isNumeral n) {c : Char}
    (hc : c ∈ compressRange nums) : isHostChar c ∨ c = '[' ∨ c = ']' ∨ c = ',' := by
  match nums, hnum with
  | [], _ => simp [compressRange] at hc
  | [n], hnum => exact Or.inl (IsHostText.of_isNumeral (hnum n (by simp)) c hc)
  | n :: m :: ns, hnum =>
    rw [compressRange_cons_cons, List.mem_cons, List.mem_append, List.mem_singleton] at hc
    by_contra hno
    push Not at hno
    rcases hc with hc | hc | hc
    · exact hno.2.1 hc
    · refine not_mem_intercalate hno.2.2.2 ?_ hc
      intro s hs hcs
      obtain ⟨r, hr, rfl⟩ := List.mem_map.mp hs
      have hb := groupRanges_bounds hnum r hr
      rcases mem_formatRange hb.1 hb.2.1 hcs with hd | rfl
      · exact hno.1 (isHostChar_of_isDigit hd)
      · exact hno.1 rfl
    · exact hno.2.2.1 hc

/-- Only an empty group compresses to nothing. -/
theorem eq_nil_of_compressRange {nums : List Text} (hnum : ∀ n ∈ nums, isNumeral n)
    (h : compressRange nums = []) : nums = [] := by
  match nums, hnum with
  | [], _ => rfl
  | [n], hnum => exact absurd h (isNumeral_iff.mp (hnum n (by simp))).1
  | n :: m :: ns, _ =>
    rw [compressRange_cons_cons] at h
    exact absurd h (List.cons_ne_nil _ _)

/-- A printed list has no spaces. -/
theorem isSpace_of_hostChar {c : Char} (h : isHostChar c ∨ c = '[' ∨ c = ']' ∨ c = ',') :
    isSpace c = false := by
  rcases h with h | rfl | rfl | rfl
  · have hb := hostChar_bounds h
    simp only [isSpace, List.mem_cons, List.not_mem_nil, or_false, Bool.or_eq_false_iff,
      decide_eq_false_iff_not, Bool.and_eq_false_iff, not_or]
    omega
  · decide
  · decide
  · decide

/-- **The compact list splits into its entries.** -/
theorem splitList_compactList (h : ∀ x ∈ names, IsHostName x) (srt : NumberSort) :
    splitList (compactList srt names) = compact srt names := by
  have htext : ∀ x ∈ names, IsHostText x := fun x hx => (h x hx).2
  have hentry : ∀ s ∈ compact srt names, ∃ p ∈ names.map stem,
      s = p ++ compressRange (sortedGroup srt names p) := by
    intro s hs
    rw [compact_eq_map htext] at hs
    obtain ⟨p, hp, rfl⟩ := List.mem_map.mp hs
    exact ⟨p, (mem_sortedStems htext).mp hp, rfl⟩
  apply splitList_intercalate
  · intro s hs
    obtain ⟨p, hp, rfl⟩ := hentry s hs
    exact atomic_entry (isHostText_of_mem_stems htext hp) isNumeral_of_mem_sortedGroup
  · intro s hs hnil
    obtain ⟨p, hp, rfl⟩ := hentry s hs
    obtain ⟨hp0, hnums⟩ := List.append_eq_nil_iff.mp hnil
    -- Only an empty group compresses to nothing, and then the stem is itself a name.
    have hgroup : groupOf names p = [] := by
      have hperm := srt.perm (groupOf names p)
      rw [← sortedGroup, eq_nil_of_compressRange isNumeral_of_mem_sortedGroup hnums] at hperm
      exact hperm.nil_eq.symm
    exact (h p (mem_of_groupOf_eq_nil hp hgroup)).1 hp0
  · intro s hs c hc
    obtain ⟨p, hp, rfl⟩ := hentry s hs
    apply isSpace_of_hostChar
    rcases List.mem_append.mp hc with hc | hc
    · exact Or.inl (isHostText_of_mem_stems htext hp c hc)
    · exact mem_compressRange isNumeral_of_mem_sortedGroup hc

/-- **Reading the compact list back** gives the names of all groups, when every range ends within
the fuel. -/
theorem expandList_eq_some_iff (h : ∀ x ∈ names, IsHostName x) (srt : NumberSort) {fuel : Nat}
    {out : List Text} :
    expandList fuel (compactList srt names) = some out ↔
      (∀ p ∈ names.map stem, ∀ r ∈ groupRanges (sortedGroup srt names p), RangeEnds fuel r) ∧
        out = (sortedStems names).flatMap fun p => groupNames p (sortedGroup srt names p) := by
  have htext : ∀ x ∈ names, IsHostText x := fun x hx => (h x hx).2
  have hread : ∀ p ∈ sortedStems names, ∀ out,
      expandEntry fuel (p ++ compressRange (sortedGroup srt names p)) = some out ↔
        (∀ r ∈ groupRanges (sortedGroup srt names p), RangeEnds fuel r) ∧
          out = groupNames p (sortedGroup srt names p) := by
    intro p hp out
    exact expandEntry_eq_some_iff (isHostText_of_mem_stems htext ((mem_sortedStems htext).mp hp))
      isNumeral_of_mem_sortedGroup
  rw [expandList, splitList_compactList h, expand, compact_eq_map htext, List.mapM_map]
  change ((sortedStems names).mapM fun p =>
    expandEntry fuel (p ++ compressRange (sortedGroup srt names p))).map List.flatten = _ ↔ _
  rw [OptionList.mapM_flatten_eq_some_iff fun p hp b hb => ((hread p hp b).mp hb).2]
  refine and_congr_left fun _ => ?_
  simp only [← mem_sortedStems htext]
  refine forall₂_congr fun p hp => ?_
  rw [Option.isSome_iff_exists]
  refine ⟨?_, ?_⟩
  · rintro ⟨b, hb⟩
    exact ((hread p hp b).mp hb).1
  · intro hends
    exact ⟨_, (hread p hp _).mpr ⟨hends, rfl⟩⟩

end Topograph.Cluset
