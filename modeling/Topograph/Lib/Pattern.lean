import Mathlib.Data.List.Infix

/-! # Patterns with priorities

A regular expression that is anchored at the front, and the ways in which it reads the front of a
text, the preferred one first: a repetition prefers to read more, an optional part prefers to be
there (`Pat.ways`). The match is the first way (`submatch`).

A printed line is read in one way only, because what follows a repetition never starts with a
character of the repetition. The rules for that (`readings_lit_cons`, `readings_plus`,
`readings_group`, `readings_opt`) are equations, so they also show that a line is not matched. -/

namespace Topograph.Pattern

/-- A pattern; `eos` is the end of the text, and repetitions are those of a class of characters. -/
inductive Pat where
  | eos
  | lit (s : List Char)
  | one (p : Char → Bool)
  | star (p : Char → Bool)
  | seq (r r' : Pat)
  | opt (r : Pat)
  | group (r : Pat)

/-- One way to read the front of a text: what is read, what the groups hold, and what is left. -/
structure Way where
  text : List Char
  groups : List (List Char)
  rest : List Char

/-- Longer readings come first. -/
def starWays (p : Char → Bool) : List Char → List Way
  | [] => [⟨[], [], []⟩]
  | c :: text =>
    if p c then (starWays p text).map (fun w => { w with text := c :: w.text }) ++
      [⟨[], [], c :: text⟩]
    else [⟨[], [], c :: text⟩]

namespace Pat

/-- The number of groups. -/
def groups : Pat → Nat
  | eos | lit _ | one _ | star _ => 0
  | seq r r' => r.groups + r'.groups
  | opt r => r.groups
  | group r => r.groups + 1

/-- The ways to read the front of a text, the preferred one first. -/
def ways : Pat → List Char → List Way
  | eos, text => if text = [] then [⟨[], [], []⟩] else []
  | lit s, text => if s.isPrefixOf text then [⟨s, [], text.drop s.length⟩] else []
  | one _, [] => []
  | one p, c :: text => if p c then [⟨[c], [], text⟩] else []
  | star p, text => starWays p text
  | seq r r', text =>
    (r.ways text).flatMap fun w =>
      (r'.ways w.rest).map fun w' => ⟨w.text ++ w'.text, w.groups ++ w'.groups, w'.rest⟩
  | opt r, text => r.ways text ++ [⟨[], List.replicate r.groups [], text⟩]
  | group r, text => (r.ways text).map fun w => { w with groups := w.text :: w.groups }

@[simp] theorem ways_eos (text : List Char) :
    eos.ways text = if text = [] then [⟨[], [], []⟩] else [] := rfl

@[simp] theorem ways_lit (s text : List Char) :
    (lit s).ways text = if s.isPrefixOf text then [⟨s, [], text.drop s.length⟩] else [] := rfl

@[simp] theorem ways_one_nil (p : Char → Bool) : (one p).ways [] = [] := rfl

@[simp] theorem ways_one (p : Char → Bool) (c : Char) (text : List Char) :
    (one p).ways (c :: text) = if p c then [⟨[c], [], text⟩] else [] := rfl

@[simp] theorem ways_star (p : Char → Bool) (text : List Char) :
    (star p).ways text = starWays p text := rfl

theorem ways_seq (r r' : Pat) (text : List Char) :
    (seq r r').ways text =
      (r.ways text).flatMap fun w =>
        (r'.ways w.rest).map fun w' => ⟨w.text ++ w'.text, w.groups ++ w'.groups, w'.rest⟩ := rfl

theorem ways_opt (r : Pat) (text : List Char) :
    (opt r).ways text = r.ways text ++ [⟨[], List.replicate r.groups [], text⟩] := rfl

theorem ways_group (r : Pat) (text : List Char) :
    (group r).ways text = (r.ways text).map fun w => { w with groups := w.text :: w.groups } := rfl

/-- One or more. -/
def plus (p : Char → Bool) : Pat := seq (one p) (star p)

/-- One pattern after the other. -/
def cat (rs : List Pat) : Pat := rs.foldr seq (lit [])

end Pat

open Pat

/-- What the groups hold and what is left, for every way. -/
def readings (rs : List Pat) (text : List Char) : List (List (List Char) × List Char) :=
  ((cat rs).ways text).map fun w => (w.groups, w.rest)

/-- The groups of the match. -/
def submatch (rs : List Pat) (text : List Char) : Option (List (List Char)) :=
  (readings rs text).head?.map (·.1)

/-! ## Equations -/

@[simp] theorem readings_nil (text : List Char) : readings [] text = [([], text)] := by
  simp [readings, cat]

theorem readings_cons (r : Pat) (rs : List Pat) (text : List Char) :
    readings (r :: rs) text = (r.ways text).flatMap fun w => (readings rs w.rest).map fun g =>
      (w.groups ++ g.1, g.2) := by
  rw [readings, cat, List.foldr_cons, ways_seq, List.map_flatMap]
  refine List.flatMap_congr fun w _ => ?_
  rw [readings, cat, List.map_map, List.map_map]
  rfl

@[simp] theorem readings_lit_nil (text : List Char) (rs : List Pat) :
    readings (lit [] :: rs) text = readings rs text := by
  simp [readings_cons]

@[simp] theorem readings_lit_cons (c : Char) (s text : List Char) (rs : List Pat) :
    readings (lit (c :: s) :: rs) (c :: text) = readings (lit s :: rs) text := by
  by_cases h : s <+: text <;> simp [readings_cons, h]

theorem readings_lit_append (s rest : List Char) (rs : List Pat) :
    readings (lit s :: rs) (s ++ rest) = readings rs rest := by
  induction s with
  | nil => exact readings_lit_nil rest rs
  | cons c s ih => rw [List.cons_append, readings_lit_cons, ih]

/-- A literal does not match at another character. -/
theorem readings_lit_ne {c c' : Char} (h : c ≠ c') (s text : List Char) (rs : List Pat) :
    readings (lit (c :: s) :: rs) (c' :: text) = [] := by
  simp [readings_cons, h]

@[simp] theorem readings_eos (rs : List Pat) : readings (eos :: rs) [] = readings rs [] := by
  simp [readings_cons]

@[simp] theorem readings_eos_cons (rs : List Pat) (c : Char) (text : List Char) :
    readings (eos :: rs) (c :: text) = [] := by
  simp [readings_cons]

theorem readings_one (p : Char → Bool) (rs : List Pat) (c : Char) (text : List Char) :
    readings (one p :: rs) (c :: text) = if p c then readings rs text else [] := by
  rw [readings_cons, ways_one]
  split_ifs <;> simp

/-- With the optional part first, and then without. -/
theorem readings_opt (r : Pat) (rs : List Pat) (text : List Char) :
    readings (opt r :: rs) text =
      readings (r :: rs) text ++ (readings rs text).map fun g =>
        (List.replicate r.groups [] ++ g.1, g.2) := by
  simp [readings_cons, ways_opt]

/-! ## What a repetition reads -/

/-- What is left does not start with a character of the class. -/
def Stops (p : Char → Bool) (rest : List Char) : Prop := ∀ c ∈ rest.head?, p c = false

@[simp] theorem stops_nil (p : Char → Bool) : Stops p [] := by simp [Stops]

variable {p : Char → Bool}

@[simp] theorem stops_cons {c : Char} {rest : List Char} :
    Stops p (c :: rest) ↔ p c = false := by simp [Stops]

/-- The patterns do not match where a character of the class is next. -/
def Rejects (rs : List Pat) (p : Char → Bool) : Prop :=
  ∀ c text, p c = true → readings rs (c :: text) = []

variable {l rest : List Char}

/-- **A repetition reads all it can**, if the shorter readings lead nowhere. -/
theorem flatMap_starWays {β : Type} (hl : ∀ c ∈ l, p c) (hrest : Stops p rest) (f : Way → List β)
    (hf : ∀ w c text, w.rest = c :: text → p c = true → f w = []) :
    (starWays p (l ++ rest)).flatMap f = f ⟨l, [], rest⟩ := by
  induction l generalizing f with
  | nil =>
    cases rest with
    | nil => simp [starWays]
    | cons c rest =>
      have hc : p c = false := stops_cons.mp hrest
      simp [starWays, hc]
  | cons c l ih =>
    obtain ⟨hc, hl⟩ := List.forall_mem_cons.mp hl
    rw [List.cons_append, starWays, if_pos hc, List.flatMap_append, List.flatMap_map,
      List.flatMap_singleton,
      hf ⟨[], [], c :: (l ++ rest)⟩ c (l ++ rest) rfl hc, List.append_nil]
    exact ih hl _ fun w c' text hw hc' => hf _ c' text hw hc'

/-- Only the longest run has a continuation. -/
theorem flatMap_ways_plus {β : Type} (hne : l ≠ []) (hl : ∀ c ∈ l, p c) (hrest : Stops p rest)
    (f : Way → List β) (hf : ∀ w c text, w.rest = c :: text →
      p c = true → f w = []) :
    ((plus p).ways (l ++ rest)).flatMap f = f ⟨l, [], rest⟩ := by
  cases l with
  | nil => exact absurd rfl hne
  | cons c l =>
    obtain ⟨hc, hl⟩ := List.forall_mem_cons.mp hl
    rw [plus, List.cons_append, ways_seq, ways_one, if_pos hc, List.flatMap_singleton, ways_star,
      List.flatMap_map]
    exact flatMap_starWays hl hrest (fun w => f ⟨c :: w.text, w.groups, w.rest⟩)
      fun w c' text hw hc' => hf _ c' text hw hc'

variable {rs : List Pat}

/-- **Any number of characters of a class**, with something else behind them. -/
theorem readings_star (hl : ∀ c ∈ l, p c) (hrest : Stops p rest) (hrs : Rejects rs p) :
    readings (star p :: rs) (l ++ rest) = readings rs rest := by
  rw [readings_cons, ways_star, flatMap_starWays hl hrest]
  · simp
  · intro w c text hw hc
    rw [hw, hrs c text hc, List.map_nil]

section

variable (hne : l ≠ []) (hl : ∀ c ∈ l, p c) (hrest : Stops p rest) (hrs : Rejects rs p)

include hne hl hrest hrs

/-- **One or more characters of a class**, with something else behind them. -/
theorem readings_plus : readings (plus p :: rs) (l ++ rest) = readings rs rest := by
  rw [readings_cons, flatMap_ways_plus hne hl hrest]
  · simp
  · intro w c text hw hc
    rw [hw, hrs c text hc, List.map_nil]

/-- The same as a group. -/
theorem readings_group :
    readings (group (plus p) :: rs)
    (l ++ rest) = (readings rs rest).map fun g => (l :: g.1, g.2) := by
  rw [readings_cons, ways_group, List.flatMap_map, flatMap_ways_plus hne hl hrest]
  · rfl
  · intro w c text hw hc
    rw [hw, hrs c text hc, List.map_nil]

end

variable {text : List Char}

/-- A run needs a first character. -/
theorem ways_plus_of_stops (h : Stops p text) : (plus p).ways text = [] := by
  cases text with
  | nil => rfl
  | cons c text =>
    rw [plus, ways_seq, ways_one, if_neg (by simp [stops_cons.mp h])]
    rfl

theorem readings_plus_of_stops (h : Stops p text) (rs : List Pat) :
    readings (plus p :: rs) text = [] := by
  rw [readings_cons, ways_plus_of_stops h, List.flatMap_nil]

theorem readings_group_of_stops (h : Stops p text) (rs : List Pat) :
    readings (group (plus p) :: rs) text = [] := by
  rw [readings_cons, ways_group, ways_plus_of_stops h, List.map_nil, List.flatMap_nil]

/-! ## Every way -/

/-- A way of a repetition splits the text. -/
theorem mem_starWays {w : Way} (h : w ∈ starWays p text) :
    text = w.text ++ w.rest ∧ w.groups = [] ∧ ∀ c ∈ w.text, p c := by
  induction text generalizing w with
  | nil =>
    obtain rfl := List.mem_singleton.mp h
    simp
  | cons c text ih =>
    rw [starWays] at h
    split_ifs at h with hc
    · rcases List.mem_append.mp h with h | h
      · obtain ⟨w', hw', rfl⟩ := List.mem_map.mp h
        obtain ⟨htext, hgroups, hall⟩ := ih hw'
        refine ⟨by rw [htext]; rfl, hgroups, fun x hx => ?_⟩
        rcases List.mem_cons.mp hx with rfl | hx
        · exact hc
        · exact hall x hx
      · obtain rfl := List.mem_singleton.mp h
        simp
    · obtain rfl := List.mem_singleton.mp h
      simp

/-- A way of a run splits the text, and is not empty. -/
theorem mem_ways_plus {w : Way} (h : w ∈ (plus p).ways text) :
    text = w.text ++ w.rest ∧ w.groups = [] ∧ w.text ≠ [] ∧ ∀ c ∈ w.text, p c := by
  cases text with
  | nil => exact absurd h (by rw [ways_plus_of_stops (stops_nil p)]; exact List.not_mem_nil)
  | cons c text =>
    rw [plus, ways_seq, ways_one] at h
    split_ifs at h with hc
    · rw [List.flatMap_singleton] at h
      obtain ⟨w', hw', rfl⟩ := List.mem_map.mp h
      obtain ⟨htext, hgroups, hall⟩ := mem_starWays hw'
      refine ⟨by rw [show text = w'.text ++ w'.rest from htext]; rfl, by simpa using hgroups,
        by simp, fun x hx => ?_⟩
      rcases List.mem_cons.mp hx with rfl | hx
      · exact hc
      · exact hall x hx
    · exact absurd h List.not_mem_nil

/-- A way divides the text. -/
theorem text_append_rest (r : Pat) {w : Way} (h : w ∈ r.ways text) : w.text ++ w.rest = text := by
  induction r generalizing text w with
  | eos =>
    rw [ways_eos] at h
    split_ifs at h with hnil
    · obtain rfl := List.mem_singleton.mp h
      exact hnil.symm
    · exact absurd h List.not_mem_nil
  | lit s =>
    rw [ways_lit] at h
    split_ifs at h with hs
    · obtain rfl := List.mem_singleton.mp h
      obtain ⟨rest, rfl⟩ := List.isPrefixOf_iff_prefix.mp hs
      rw [List.drop_left]
    · exact absurd h List.not_mem_nil
  | one p =>
    cases text with
    | nil => exact absurd h List.not_mem_nil
    | cons c text =>
      rw [ways_one] at h
      split_ifs at h
      · obtain rfl := List.mem_singleton.mp h
        rfl
      · exact absurd h List.not_mem_nil
  | star p => exact (mem_starWays h).1.symm
  | seq r r' ih ih' =>
    rw [ways_seq] at h
    obtain ⟨w₁, hw₁, h⟩ := List.mem_flatMap.mp h
    obtain ⟨w₂, hw₂, rfl⟩ := List.mem_map.mp h
    rw [List.append_assoc, ih' hw₂, ih hw₁]
  | opt r ih =>
    rw [ways_opt] at h
    rcases List.mem_append.mp h with h | h
    · exact ih h
    · obtain rfl := List.mem_singleton.mp h
      rfl
  | group r ih =>
    rw [ways_group] at h
    obtain ⟨w', hw', rfl⟩ := List.mem_map.mp h
    exact ih (w := w') hw'

/-- A group around patterns that read `l` in one way. -/
theorem readings_group_cat {inner rs : List Pat} {groups : List (List Char)}
    (h : readings inner (l ++ rest) = [(groups, rest)]) :
    readings (group (cat inner) :: rs) (l ++ rest) = (readings rs rest).map fun g =>
      (l :: (groups ++ g.1), g.2) := by
  obtain ⟨w, hw⟩ : ∃ w, (cat inner).ways (l ++ rest) = [w] := by
    have hlength := congrArg List.length h
    rw [readings, List.length_map] at hlength
    exact List.length_eq_one_iff.mp hlength
  have htext := text_append_rest (cat inner) (show w ∈ (cat inner).ways (l ++ rest) by
    rw [hw]; exact List.mem_singleton_self w)
  rw [readings, hw] at h
  obtain ⟨hgroups, hrest⟩ := Prod.mk.inj (List.singleton_inj.mp h)
  rw [hrest] at htext
  rw [readings_cons, ways_group, hw, List.map_singleton, List.flatMap_singleton, hgroups, hrest,
    List.append_cancel_right htext]
  rfl

theorem readings_group_cat_nil {inner rs : List Pat} (h : readings inner text = []) :
    readings (group (cat inner) :: rs) text = [] := by
  rw [readings_cons, ways_group, List.map_eq_nil_iff.mp h, List.map_nil, List.flatMap_nil]

/-! ### Runs of characters -/

/-- One or more characters of a class. -/
structure Run (p : Char → Bool) where
  text : List Char
  ne_nil : text ≠ []
  all : ∀ c ∈ text, p c = true

theorem Run.stops {p q : Char → Bool} (run : Run p) (h : ∀ c, p c = true → q c = false)
    (rest : List Char) : Stops q (run.text ++ rest) := by
  obtain ⟨s, hne, hs⟩ := run
  cases s with
  | nil => exact absurd rfl hne
  | cons c s => exact stops_cons.mpr (h c (hs c List.mem_cons_self))

/-- A run is read as a whole if what follows rejects its characters. -/
theorem Run.readings_plus (run : Run p) {rest : List Char} (hrest : Stops p rest)
    (hrs : Rejects rs p) : readings (plus p :: rs) (run.text ++ rest) = readings rs rest :=
  Pattern.readings_plus run.ne_nil run.all hrest hrs

/-- A captured run is read as a whole. -/
theorem Run.readings_group (run : Run p) {rest : List Char} (hrest : Stops p rest)
    (hrs : Rejects rs p) :
    readings (group (plus p) :: rs) (run.text ++ rest) = (readings rs rest).map fun g =>
      (run.text :: g.1, g.2) :=
  Pattern.readings_group run.ne_nil run.all hrest hrs

/-! ### What does not match -/

/-- A literal rejects what its first character is not. -/
theorem rejects_lit {c : Char} (s : List Char) (rs : List Pat) (h : p c = false) :
    Rejects (lit (c :: s) :: rs) p := by
  intro c' text hc'
  refine readings_lit_ne ?_ s text rs
  rintro rfl
  rw [h] at hc'
  exact absurd hc' (by simp)

theorem rejects_plus {p q : Char → Bool} (rs : List Pat) (h : ∀ c, p c = true → q c = false) :
    Rejects (plus q :: rs) p :=
  fun c _ hc => readings_plus_of_stops (stops_cons.mpr (h c hc)) rs

theorem rejects_one {p q : Char → Bool} (rs : List Pat) (h : ∀ c, p c = true → q c = false) :
    Rejects (one q :: rs) p := by
  intro c text hc
  rw [readings_one, if_neg (by simp [h c hc])]

theorem rejects_eos (rs : List Pat) (p : Char → Bool) : Rejects (eos :: rs) p :=
  fun c text _ => readings_eos_cons rs c text

/-! ### What matches -/

variable {g : List (List Char) × List Char}

/-- Every reading of a run splits the text. -/
theorem mem_readings_plus (h : g ∈ readings (plus p :: rs) text) :
    ∃ l rest, text = l ++ rest ∧ l ≠ [] ∧ (∀ c ∈ l, p c) ∧ g ∈ readings rs rest := by
  rw [readings_cons] at h
  obtain ⟨w, hw, hg⟩ := List.mem_flatMap.mp h
  obtain ⟨htext, hgroups, hne, hall⟩ := mem_ways_plus hw
  obtain ⟨g', hg', rfl⟩ := List.mem_map.mp hg
  exact ⟨w.text, w.rest, htext, hne, hall, by simpa [hgroups] using hg'⟩

/-- Every reading of a captured run has it as its first group. -/
theorem mem_readings_group (h : g ∈ readings (group (plus p) :: rs) text) :
    ∃ l rest g', text = l ++ rest ∧ l ≠ [] ∧ (∀ c ∈ l, p c) ∧ g' ∈ readings rs rest ∧
    g = (l :: g'.1, g'.2) := by
  rw [readings_cons, ways_group] at h
  obtain ⟨w, hw, hg⟩ := List.mem_flatMap.mp h
  obtain ⟨w', hw', rfl⟩ := List.mem_map.mp hw
  obtain ⟨htext, hgroups, hne, hall⟩ := mem_ways_plus hw'
  obtain ⟨g', hg', rfl⟩ := List.mem_map.mp hg
  exact ⟨w'.text, w'.rest, g', htext, hne, hall, hg', by simp [hgroups]⟩

end Topograph.Pattern
