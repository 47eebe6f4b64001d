import Topograph.Cluset.Entries

/-! # What a list of entries stands for

`expansion` lists the names of entries without a loop: a range stands for its numbers. `Expand`
returns it whenever it returns (`expand_eq_some`), and it returns when no range ends at the largest
integer (`expand_of_rangesBelow`). A written host list is read through it (`hosts`): the list is
`Kept` when the names that it stands for are those it was written for. -/

namespace Topograph.Cluset

/-! ## The mathematical expansion -/

/-- The names of a range, from `lo` to `hi`. -/
def boundedRange (pre : Text) (width : Nat) (lo hi : Int) : List Text :=
  (List.range (hi + 1 - lo).toNat).map fun k : Nat => pre ++ sprintfPadded width (lo + k)

/-- The names of a part: a range from `lo` to `hi` has `hi - lo + 1` of them, or none. -/
def partNames (pre part : Text) : List Text :=
  if '-' ∈ part then
    let bounds := part.splitOn '-'
    boundedRange pre (byteLen (bounds.getD 0 [])) (atoi (bounds.getD 0 []))
      (atoi (bounds.getD 1 []))
  else [pre ++ part]

/-- The names of an entry. -/
def entryNames (entry : Text) : List Text :=
  match expandMatch entry with
  | some (pre, ranges) => (ranges.splitOn ',').flatMap (partNames pre)
  | none => [entry]

/-- The names of a list of entries. -/
def expansion (compressed : List Text) : List Text := compressed.flatMap entryNames

/-! ## The bounds of a range -/

/-- A text without a minus sign is read as a non-negative integer. -/
theorem atoi_bounds {s : Text} (h : '-' ∉ s) : 0 ≤ atoi s ∧ atoi s ≤ maxInt := by
  have hread : ∀ t : Text, 0 ≤ (if isNumeral t then min maxInt (Nat.ofDigitChars 10 t 0 : Int)
      else 0) ∧
      (if isNumeral t then min maxInt (Nat.ofDigitChars 10 t 0 : Int) else 0) ≤ maxInt := by
    intro t
    rw [maxInt]
    split_ifs <;> omega
  unfold atoi
  split
  · exact absurd List.mem_cons_self h
  · exact hread _
  · exact hread _

/-- A piece of a split text does not contain the separator. -/
theorem not_mem_of_mem_splitOn {sep : Char} {s piece : Text} (h : piece ∈ s.splitOn sep) :
    sep ∉ piece := by
  rw [List.splitOn] at h
  induction s generalizing piece with
  | nil => simp_all
  | cons c s ih =>
    rw [List.splitOnP_cons_eq_if_modifyHead] at h
    by_cases hc : (c == sep) = true
    · rw [if_pos hc] at h
      rcases List.mem_cons.mp h with rfl | h
      · exact List.not_mem_nil
      · exact ih h
    · rw [if_neg hc] at h
      cases hrest : s.splitOnP (· == sep) with
      | nil => simp [hrest] at h
      | cons first rest =>
        rw [hrest, List.modifyHead_cons] at h
        rw [hrest] at ih
        rcases List.mem_cons.mp h with rfl | h
        · have hne : sep ≠ c := fun heq => hc (by simp [heq])
          simpa [hne] using ih List.mem_cons_self
        · exact ih (List.mem_cons_of_mem _ h)

/-- The bounds of a range are non-negative integers, since a minus sign separates them. -/
theorem atoi_bound (part : Text) (k : Nat) :
    0 ≤ atoi ((part.splitOn '-').getD k []) ∧ atoi ((part.splitOn '-').getD k []) ≤ maxInt := by
  refine atoi_bounds ?_
  rw [List.getD_eq_getElem?_getD]
  cases hk : (part.splitOn '-')[k]? with
  | none => exact List.not_mem_nil
  | some piece => exact not_mem_of_mem_splitOn (List.mem_of_getElem? hk)

/-! ## `Expand` -/

/-- The loop over a part ends: the part is no range, or its upper bound is not the largest
integer. -/
def PartEnds (part : Text) : Prop := '-' ∈ part → atoi ((part.splitOn '-').getD 1 []) < maxInt

/-- No range of the entries ends at the largest integer. -/
def RangesBelow (compressed : List Text) : Prop :=
  ∀ entry ∈ compressed, ∀ m, expandMatch entry = some m → ∀ part ∈ m.2.splitOn ',', PartEnds part

variable {fuel : Nat} {pre part entry : Text} {compressed out : List Text}

/-- What a part is read as, if its loop ends. -/
theorem expandPart_eq_some (h : expandPart fuel pre part = some out) :
    out = partNames pre part := by
  rw [expandPart] at h
  rw [partNames]
  split_ifs at h ⊢ with hdash
  · dsimp only at h
    have hlo := atoi_bound part 0
    have hhi := (atoi_bound part 1).2
    rcases hhi.lt_or_eq with hlt | hmax
    · rw [expandRange_eq_map _ _ _ hlo.1 hlt] at h
      split_ifs at h
      exact (Option.some.inj h).symm
    · rw [hmax, expandRange_maxInt _ _ _ hlo.2] at h
      exact absurd h (by simp)
  · exact (Option.some.inj h).symm

/-- With fuel for the longest range every part ends that is not without end. -/
theorem expandPart_isSome (hfuel : 2 ^ 63 ≤ fuel) (h : PartEnds part) (pre : Text) :
    (expandPart fuel pre part).isSome := by
  rw [expandPart]
  split_ifs with hdash
  · have hlo := (atoi_bound part 0).1
    have hlt := h hdash
    dsimp only
    rw [expandRange_eq_map _ _ _ hlo hlt, if_pos]
    · rfl
    · rw [maxInt] at hlt
      omega
  · rfl

/-- What an expansion returns are the names of the entry. -/
theorem expandEntry_eq_some (h : expandEntry fuel entry = some out) : out = entryNames entry := by
  rw [expandEntry] at h
  rw [entryNames]
  cases hm : expandMatch entry with
  | none =>
    rw [hm] at h
    exact (Option.some.inj h).symm
  | some m =>
    rw [hm] at h
    exact ((OptionList.mapM_flatten_eq_some_iff fun _ _ _ => expandPart_eq_some).mp h).2

/-- **What `Expand` returns** is the mathematical expansion. -/
theorem expand_eq_some (h : expand fuel compressed = some out) : out = expansion compressed :=
  ((OptionList.mapM_flatten_eq_some_iff fun _ _ _ => expandEntry_eq_some).mp h).2

/-- **`Expand` returns** when no range ends at the largest integer. -/
theorem expand_of_rangesBelow (hfuel : 2 ^ 63 ≤ fuel) (h : RangesBelow compressed) :
    expand fuel compressed = some (expansion compressed) := by
  refine (OptionList.mapM_flatten_eq_some_iff fun _ _ _ => expandEntry_eq_some).mpr
    ⟨fun entry hentry => ?_, rfl⟩
  rw [expandEntry]
  cases hm : expandMatch entry with
  | none => rfl
  | some m =>
    have hparts := (OptionList.mapM_flatten_eq_some_iff fun _ _ _ => expandPart_eq_some).mpr
      ⟨fun part hpart => expandPart_isSome hfuel (h entry hentry m hm part hpart) m.1, rfl⟩
    exact Option.isSome_iff_exists.mpr ⟨_, hparts⟩

/-! ## Written host lists -/

/-- `strings.Join(Compact(names), ",")`: a host list as the writers print it. -/
def hostList (srt : NumberSort) (names : List String) : String :=
  String.ofList (compactList srt (names.map String.toList))

/-- The names that a written host list stands for, as `ExpandList` reads it. -/
def hosts (text : String) : List String := (expansion (splitList text.toList)).map String.ofList

/-- The hosts of a text, as texts of characters. -/
theorem mem_hosts {text n : String} :
    n ∈ hosts text ↔ n.toList ∈ expansion (splitList text.toList) := by
  rw [hosts, List.mem_map]
  constructor
  · rintro ⟨t, ht, rfl⟩
    rwa [String.toList_ofList]
  · exact fun hn => ⟨_, hn, String.ofList_toList⟩

/-- **A host list is kept** when it is written as a text that stands for its names. -/
def Kept (srt : NumberSort) (names : List String) : Prop :=
  ∀ n, n ∈ hosts (hostList srt names) ↔ n ∈ names

/-- Nothing is written for no names. -/
theorem kept_nil (srt : NumberSort) : Kept srt [] := fun _ => Iff.rfl

/-- **A name is lost** when the same name with a number follows it: the number joins its group. -/
theorem hostList_stem_first (srt : NumberSort) : hostList srt ["n", "n1"] = "n1" := by
  have hkeys : (groupNodes ["n".toList, "n1".toList]).keys.insertionSort (· ≤ ·) =
      ["n".toList] := by decide
  have hnums : (groupNodes ["n".toList, "n1".toList]).lookup "n".toList = some ["1".toList] := by
    decide
  have hsort : srt.sort ["1".toList] = ["1".toList] := List.perm_singleton.mp (srt.perm _)
  show String.ofList (compactList srt ["n".toList, "n1".toList]) = _
  rw [compactList, compact, hkeys, List.map_singleton, hnums, Option.getD_some, hsort]
  decide

/-- In the other order it empties the group, and the numbers so far are lost. -/
theorem hostList_stem_last (srt : NumberSort) : hostList srt ["n1", "n"] = "n" := by
  have hkeys : (groupNodes ["n1".toList, "n".toList]).keys.insertionSort (· ≤ ·) =
      ["n".toList] := by decide
  have hnums : (groupNodes ["n1".toList, "n".toList]).lookup "n".toList = some [] := by decide
  show String.ofList (compactList srt ["n1".toList, "n".toList]) = _
  rw [compactList, compact, hkeys, List.map_singleton, hnums, Option.getD_some,
    (srt.perm []).eq_nil]
  decide

end Topograph.Cluset
