import Mathlib.Data.List.AList
import Mathlib.Data.List.Sort
import Mathlib.Data.String.Basic

/-! # Finite maps with an iteration order

A map of the modelled programs is an association list without duplicate keys: Mathlib's `AList`
with a constant value family. A loop over a map runs through `entries`; the order of the entries is
whatever the map was built with, so a statement about every map is a statement about every
iteration order. This file adds the operations the models need on top of `AList`
(`GoMap.filterMap`, `GoMap.values`, sorted keys) with their lookup laws. -/

namespace Topograph

universe u v w

/-- A finite map from `α` to `β`, iterated in the order of its entries. -/
abbrev GoMap (α : Type u) (β : Type v) : Type (max u v) := AList (fun _ : α => β)

namespace GoMap

variable {α : Type u} {β : Type v} {γ : Type w}

/-- The stored values, in iteration order. -/
def values (m : GoMap α β) : List β := m.entries.map (·.2)

@[simp] theorem values_empty : values (∅ : GoMap α β) = [] := rfl

/-- The entries kept and rewritten by one pass over an association list. -/
def filterMapEntries (f : α → β → Option γ) :
    List (Σ _ : α, β) → List (Σ _ : α, γ)
  | [] => []
  | e :: es =>
    match f e.1 e.2 with
    | some c => ⟨e.1, c⟩ :: filterMapEntries f es
    | none => filterMapEntries f es

/-- A pass over the entries only drops keys, so the keys stay a sublist. -/
theorem keys_filterMapEntries_sublist (f : α → β → Option γ) (l : List (Σ _ : α, β)) :
    (filterMapEntries f l).keys.Sublist l.keys := by
  induction l with
  | nil => exact .slnil
  | cons e es ih =>
    cases hf : f e.1 e.2 with
    | none => simpa [filterMapEntries, hf] using ih.cons e.1
    | some c => simpa [filterMapEntries, hf] using ih.cons_cons e.1

/-- **One pass over a map** that drops or rewrites each entry; the order is kept. -/
def filterMap (f : α → β → Option γ) (m : GoMap α β) : GoMap α γ where
  entries := filterMapEntries f m.entries
  nodupKeys := (keys_filterMapEntries_sublist f m.entries).nodup m.nodupKeys

variable {m : GoMap α β} {a : α} {f : α → β → Option γ}

/-- The entries of a pass are exactly the rewritten images of the entries it keeps. -/
theorem mem_entries_filterMap {c : γ} :
    ⟨a, c⟩ ∈ (filterMap f m).entries ↔ ∃ b, ⟨a, b⟩ ∈ m.entries ∧
    f a b = some c := by
  change ⟨a, c⟩ ∈ filterMapEntries f m.entries ↔ _
  induction m.entries with
  | nil => simp [filterMapEntries]
  | cons e es ih =>
    obtain ⟨a', b'⟩ := e
    cases hf : f a' b' with
    | none =>
      simp only [filterMapEntries, hf, ih, List.mem_cons]
      constructor
      · rintro ⟨b, hb, hc⟩
        exact ⟨b, Or.inr hb, hc⟩
      · rintro ⟨b, hb | hb, hc⟩
        · cases hb
          rw [hf] at hc
          cases hc
        · exact ⟨b, hb, hc⟩
    | some c' =>
      simp only [filterMapEntries, hf, ih, List.mem_cons]
      constructor
      · rintro (hc | ⟨b, hb, hc⟩)
        · cases hc
          exact ⟨b', Or.inl rfl, hf⟩
        · exact ⟨b, Or.inr hb, hc⟩
      · rintro ⟨b, hb | hb, hc⟩
        · cases hb
          rw [hf] at hc
          cases hc
          exact Or.inl rfl
        · exact Or.inr ⟨b, hb, hc⟩

/-- A pass that drops nothing keeps the keys. -/
theorem keys_filterMap_of_isSome (h : ∀ a b, (f a b).isSome) : (filterMap f m).keys = m.keys := by
  change (filterMapEntries f m.entries).keys = m.entries.keys
  induction m.entries with
  | nil => rfl
  | cons e es ih =>
    obtain ⟨c, hc⟩ := Option.isSome_iff_exists.mp (h e.1 e.2)
    simp only [filterMapEntries, hc, List.keys_cons, ih]

/-- A map has as many entries as keys. -/
theorem length_keys (m : GoMap α β) : m.keys.length = m.entries.length := by
  simp [AList.keys, List.keys]

/-- A map has more than one entry if it has another key than `a`. -/
theorem one_lt_length_iff (ha : a ∈ m) : 1 < m.entries.length ↔ ∃ a' ∈ m, a' ≠ a := by
  have hnodup : m.keys.Nodup := m.nodupKeys
  rw [← length_keys]
  constructor
  · intro hlt
    by_contra hnone
    have hall : m.keys = List.replicate m.keys.length a := by
      refine List.eq_replicate_iff.mpr ⟨rfl, fun a' ha' => ?_⟩
      by_contra hne
      exact hnone ⟨a', AList.mem_keys.mpr ha', hne⟩
    rw [hall] at hnodup
    exact absurd hlt (not_lt_of_ge (List.nodup_replicate.mp hnodup))
  · rintro ⟨a', ha', hne⟩
    have hpair : [a', a].Subperm m.keys :=
      List.subperm_of_subset (by simpa using hne) (by simpa [AList.mem_keys] using ⟨ha', ha⟩)
    exact hpair.length_le

/-- Maps with the same keys have as many entries. -/
theorem length_eq_of_mem_iff {m' : GoMap α γ} (h : ∀ a, a ∈ m ↔ a ∈ m') :
    m.entries.length = m'.entries.length := by
  rw [← length_keys, ← length_keys]
  exact ((List.perm_ext_iff_of_nodup m.nodupKeys m'.nodupKeys).mpr h).length_eq

/-- A map with as many entries as another one that has all its keys has the same keys. -/
theorem mem_of_length_eq {m' : GoMap α γ} (h : ∀ a, a ∈ m → a ∈ m')
    (hlen : m.entries.length = m'.entries.length) (ha : a ∈ m') : a ∈ m := by
  rw [← length_keys, ← length_keys] at hlen
  have hperm := (List.subperm_of_subset m.nodupKeys fun a ha => h a ha).perm_of_length_le
    (le_of_eq hlen.symm)
  exact hperm.mem_iff.mpr ha

section Lookup

variable [DecidableEq α]

/-- A key is bound to a value exactly when the pair is one of the entries. -/
theorem lookup_eq_some_iff {b : β} : m.lookup a = some b ↔ (⟨a, b⟩ : Σ _ : α, β) ∈ m.entries :=
  AList.mem_lookup_iff

/-- A key belongs to a map exactly when a lookup finds a value. -/
theorem mem_iff_lookup : a ∈ m ↔ ∃ b, m.lookup a = some b := by
  rw [← AList.lookup_isSome, Option.isSome_iff_exists]

/-- Looking up a rewritten map rewrites the lookup. -/
theorem lookup_filterMap (f : α → β → Option γ) (m : GoMap α β) (a : α) :
    (filterMap f m).lookup a = (m.lookup a).bind (f a) := by
  apply Option.ext
  intro c
  rw [Option.bind_eq_some_iff]
  constructor
  · intro h
    obtain ⟨b, hb, hc⟩ := mem_entries_filterMap.mp (lookup_eq_some_iff.mp h)
    exact ⟨b, lookup_eq_some_iff.mpr hb, hc⟩
  · rintro ⟨b, hb, hc⟩
    exact lookup_eq_some_iff.mpr (mem_entries_filterMap.mpr ⟨b, lookup_eq_some_iff.mp hb, hc⟩)

/-- A lookup after an insertion, by cases on the key. -/
theorem lookup_insert_eq_ite (m : GoMap α β) (a a' : α) (b : β) :
    (m.insert a b).lookup a' = if a' = a then some b else m.lookup a' := by
  by_cases h : a' = a
  · subst h
    rw [if_pos rfl, AList.lookup_insert]
  · rw [if_neg h, AList.lookup_insert_ne h]

/-- A map is empty exactly when no lookup succeeds. -/
theorem entries_eq_nil_iff : m.entries = [] ↔ ∀ a, m.lookup a = none := by
  constructor
  · intro h a
    rw [Option.eq_none_iff_forall_not_mem]
    intro b hb
    have hmem := AList.mem_lookup_iff.mp hb
    rw [h] at hmem
    cases hmem
  · intro h
    rw [List.eq_nil_iff_forall_not_mem]
    rintro ⟨a, b⟩ hmem
    have hlook : m.lookup a = some b := lookup_eq_some_iff.mpr hmem
    rw [h a] at hlook
    cases hlook

/-- **A loop over a map** that changes, for every entry, what another map holds under the key of the
entry. -/
theorem lookup_foldl_entries {F : GoMap α γ → (Σ _ : α, β) → GoMap α γ}
    {f : α → β → Option γ → Option γ}
    (hF : ∀ m e a, (F m e).lookup a = if a = e.1 then f e.1 e.2 (m.lookup e.1) else m.lookup a)
    (src : GoMap α β) (m : GoMap α γ) (a : α) :
    (src.entries.foldl F m).lookup a = (src.lookup a).elim
      (m.lookup a) fun b => f a b (m.lookup a) := by
  obtain ⟨l, hl⟩ := src
  show (l.foldl F m).lookup a = (List.dlookup a l).elim (m.lookup a) fun b => f a b (m.lookup a)
  induction l generalizing m with
  | nil => rfl
  | cons e l ih =>
    obtain ⟨he, hrest⟩ := List.nodupKeys_cons.mp hl
    obtain ⟨key, b⟩ := e
    rw [List.foldl_cons, ih (F m ⟨key, b⟩) hrest, hF]
    by_cases ha : a = key
    · -- The key comes up once.
      subst ha
      rw [if_pos rfl, List.dlookup_cons_eq, List.dlookup_eq_none.mpr he]
      rfl
    · rw [if_neg ha, List.dlookup_cons_ne _ _ ha]

/-- `maps.Copy`: the entries of `src` are stored in `dst`. -/
def copy (dst src : GoMap α β) : GoMap α β := src.entries.foldl (fun m e => m.insert e.1 e.2) dst

/-- `maps.Copy`: the source wins. -/
theorem lookup_copy (dst src : GoMap α β) (a : α) :
    (dst.copy src).lookup a = (src.lookup a).or (dst.lookup a) := by
  rw [copy, lookup_foldl_entries (f := fun _ b _ => some b) (fun m e a =>
    lookup_insert_eq_ite m e.1 a e.2)]
  cases src.lookup a <;> rfl

variable {δ : Type w} {key : δ → α} {l : List δ}

/-- **A loop over records with different keys** that stores some of them. -/
theorem lookup_foldl_insert {val : δ → Option β} (hnodup : (l.map key).Nodup) (m : GoMap α β)
    (a : α) :
    (l.foldl (fun m c => (val c).elim m (m.insert (key c))) m).lookup a =
      ((l.find? fun c => key c = a).bind val).or (m.lookup a) := by
  induction l generalizing m with
  | nil => rfl
  | cons c l ih =>
    obtain ⟨hc, hnodup⟩ := List.nodup_cons.mp hnodup
    rw [List.foldl_cons, ih hnodup, List.find?_cons]
    by_cases ha : key c = a
    · -- The key does not come up again.
      have hnone : l.find? (fun c => key c = a) = none := by
        rw [List.find?_eq_none]
        intro c' hc' heq
        exact hc (List.mem_map.mpr ⟨c', hc', (of_decide_eq_true heq).trans ha.symm⟩)
      rw [hnone, ← ha]
      cases hv : val c with
      | none => simp [hv]
      | some b => simp [hv]
    · cases hv : val c with
      | none => simp [ha]
      | some b =>
        have hne : a ≠ key c := fun h => ha h.symm
        simp [ha, AList.lookup_insert_ne hne]

/-- A record that is stored is found, whatever was there before. -/
theorem lookup_foldl_insert_of_mem (val : δ → Option β) (hnodup : (l.map key).Nodup) (m : GoMap α β)
    {c : δ} (hc : c ∈ l) {b : β} (hv : val c = some b) :
    (l.foldl (fun m c => (val c).elim m (m.insert (key c))) m).lookup (key c) = some b := by
  have hfind : (l.find? fun c' => key c' = key c) = some c := by
    cases hfind : l.find? fun c' => key c' = key c with
    | none => exact absurd (List.find?_eq_none.mp hfind c hc) (by simp)
    | some c' =>
      have hkey : key c' = key c := by simpa using List.find?_some hfind
      rw [List.inj_on_of_nodup_map hnodup (List.mem_of_find?_eq_some hfind) hc hkey]
  rw [lookup_foldl_insert hnodup, hfind, Option.bind_some, hv, Option.some_or]

/-- A loop that fills a map, with distinct keys. -/
theorem lookup_foldl_insert_empty (val : δ → Option β) (hnodup : (l.map key).Nodup) {b : β} :
    (l.foldl (fun m c => (val c).elim m (m.insert (key c))) (∅ : GoMap α β)).lookup a = some b ↔
      ∃ c ∈ l, key c = a ∧ val c = some b := by
  constructor
  · intro h
    rw [lookup_foldl_insert hnodup, AList.lookup_empty, Option.or_none, Option.bind_eq_some_iff]
      at h
    obtain ⟨c, hc, hv⟩ := h
    exact ⟨c, List.mem_of_find?_eq_some hc, by simpa using List.find?_some hc, hv⟩
  · rintro ⟨c, hc, rfl, hv⟩
    exact lookup_foldl_insert_of_mem val hnodup ∅ hc hv

/-- **A loop over records that stores all of them**: a later one replaces an earlier one under its
key. -/
theorem lookup_foldl_insert_reverse (key : δ → α) (val : δ → β) (l : List δ) (m : GoMap α β)
    (a : α) :
    (l.foldl (fun m c => m.insert (key c) (val c)) m).lookup a =
      ((l.reverse.find? fun c => key c = a).map val).or (m.lookup a) := by
  induction l generalizing m with
  | nil => rfl
  | cons c l ih =>
    rw [List.foldl_cons, ih, lookup_insert_eq_ite, List.reverse_cons, List.find?_append,
      Option.map_or, Option.or_assoc]
    congr 1
    by_cases ha : a = key c
    · simp [ha]
    · have hne : key c ≠ a := fun h => ha h.symm
      simp [ha, hne]

/-- The keys after a loop that fills a map. -/
theorem mem_foldl_insert {val : δ → β} {m : GoMap α β} :
    a ∈ l.foldl (fun m c => m.insert (key c) (val c)) m ↔ a ∈ m ∨ ∃ c ∈ l, key c = a := by
  induction l generalizing m with
  | nil => simp
  | cons c l ih =>
    rw [List.foldl_cons, ih, AList.mem_insert, List.exists_mem_cons_iff]
    tauto

/-- What is found after such a loop is one of the records, or was there before and was not
replaced. -/
theorem exists_of_lookup_foldl_insert {val : δ → β} {m : GoMap α β} {b : β}
    (h : (l.foldl (fun m c => m.insert (key c) (val c)) m).lookup a = some b) :
    (∃ c ∈ l, key c = a ∧ val c = b) ∨ (∀ c ∈ l, key c ≠ a) ∧ m.lookup a = some b := by
  rw [lookup_foldl_insert_reverse] at h
  cases hfind : l.reverse.find? fun c => key c = a with
  | none =>
    rw [hfind] at h
    exact .inr ⟨by simpa using hfind, h⟩
  | some c =>
    rw [hfind] at h
    exact .inl ⟨c, List.mem_reverse.mp (List.mem_of_find?_eq_some hfind),
      by simpa using List.find?_some hfind, Option.some.inj h⟩

/-- **A loop over records that agree on every key** stores all of them. -/
theorem lookup_foldl_insert_iff (key : δ → α) {val : δ → β}
    (hval : ∀ c ∈ l, ∀ c' ∈ l, key c = key c' → val c = val c') {m : GoMap α β} {b : β} :
    (l.foldl (fun m c => m.insert (key c) (val c)) m).lookup a = some b ↔
      (∃ c ∈ l, key c = a ∧ val c = b) ∨ (∀ c ∈ l, key c ≠ a) ∧ m.lookup a = some b := by
  refine ⟨exists_of_lookup_foldl_insert, ?_⟩
  rintro (⟨c, hc, rfl, rfl⟩ | ⟨hfree, hb⟩)
  · obtain ⟨b, hb⟩ :
        ∃ b, (l.foldl (fun m c => m.insert (key c) (val c)) m).lookup (key c) = some b := by
      have hfind : (l.reverse.find? fun c' => key c' = key c).isSome :=
        List.find?_isSome.mpr ⟨c, by simpa using hc, by simp⟩
      obtain ⟨c', hc'⟩ := Option.isSome_iff_exists.mp hfind
      exact ⟨val c', by rw [lookup_foldl_insert_reverse, hc']; rfl⟩
    obtain ⟨c', hc', hkey, rfl⟩ | ⟨hfree, -⟩ := exists_of_lookup_foldl_insert hb
    · rw [hb, hval c' hc' c hc hkey]
    · exact absurd rfl (hfree c hc)
  · rw [lookup_foldl_insert_reverse, List.find?_eq_none.mpr (by simpa using hfree)]
    exact hb

/-- `maps.Equal`: as many entries, and the same ones. -/
def equal [DecidableEq β] (m m' : GoMap α β) : Bool :=
  m.entries.length = m'.entries.length ∧ ∀ e ∈ m.entries, m'.lookup e.1 = some e.2

/-- `maps.Equal` compares lookups. -/
theorem equal_iff [DecidableEq β] {m m' : GoMap α β} :
    m.equal m' = true ↔ ∀ a, m.lookup a = m'.lookup a := by
  rw [equal, decide_eq_true_iff]
  constructor
  · rintro ⟨hlen, hsub⟩ a
    have hkeys : ∀ key, key ∈ m → key ∈ m' := by
      intro key hkey
      obtain ⟨b, hb⟩ := mem_iff_lookup.mp hkey
      exact mem_iff_lookup.mpr ⟨b, hsub _ (lookup_eq_some_iff.mp hb)⟩
    cases ha : m.lookup a with
    | some b => exact (hsub ⟨a, b⟩ (lookup_eq_some_iff.mp ha)).symm
    | none =>
      -- All keys of the second map are keys of the first.
      exact (AList.lookup_eq_none.mpr fun hmem => AList.lookup_eq_none.mp ha
        (mem_of_length_eq hkeys hlen hmem)).symm
  · intro h
    refine ⟨length_eq_of_mem_iff fun a => ?_, fun e he => ?_⟩
    · rw [mem_iff_lookup, mem_iff_lookup, h]
    · rw [← h]
      exact lookup_eq_some_iff.mpr he

end Lookup

/-- A value is stored under some key exactly when it is one of the values. -/
theorem mem_values {b : β} : b ∈ m.values ↔ ∃ a, (⟨a, b⟩ : Σ _ : α, β) ∈ m.entries := by
  simp only [values, List.mem_map, Sigma.exists]
  constructor
  · rintro ⟨a, b', h, rfl⟩
    exact ⟨a, h⟩
  · rintro ⟨a, h⟩
    exact ⟨a, b, h, rfl⟩

end GoMap

end Topograph
