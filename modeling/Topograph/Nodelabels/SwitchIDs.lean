import Mathlib.Data.Set.Finite.Basic
import Topograph.Cluset.Numerals
import Topograph.Nodelabels.Provider

/-! # Switch IDs tell paths apart

The string that is hashed for a switch determines the label values if these contain neither `/` nor
`#`; the ID determines the digest, which has a fixed length. So, if the truncated digest does not
collide on the strings that are hashed, two switches have the same ID exactly when their values and
all values above agree. -/

namespace Topograph.Nodelabels

open Topograph.Topology

/-! ## Label values -/

/-- A value without the characters that separate the values and the salt of a hashed string. -/
def Unseparated (value : String) : Prop := '/' ∉ value.toList ∧ '#' ∉ value.toList

theorem mem_intercalate {c sep : Char} {l : List (List Char)} (h : c ∈ [sep].intercalate l) :
    c = sep ∨ ∃ cs ∈ l, c ∈ cs := by
  induction l with
  | nil => exact absurd h (by simp)
  | cons cs l ih =>
    cases l with
    | nil => exact Or.inr ⟨cs, by simp, by simpa using h⟩
    | cons cs' l =>
      rw [List.intercalate_cons_cons] at h
      simp only [List.append_assoc, List.mem_append, List.mem_singleton] at h
      rcases h with h | rfl | h
      · exact Or.inr ⟨cs, by simp, h⟩
      · exact Or.inl rfl
      · rcases ih h with rfl | ⟨cs, hcs, hc⟩
        · exact Or.inl rfl
        · exact Or.inr ⟨cs, List.mem_cons_of_mem _ hcs, hc⟩

/-- A salted path: the values, and the salt behind a separator of its own. -/
theorem toList_saltedPath (values : List String) (salt : Nat) :
    (saltedPath values salt).toList = ['/'].intercalate (values.map String.toList) ++
      '#' :: (toString salt).toList := by
  simp [saltedPath, String.toList_append, String.toList_intercalate]

/-- Different salts give different texts. -/
theorem saltedPath_injective (values : List String) : Function.Injective (saltedPath values) := by
  intro salt salt' h
  have hlist := congrArg String.toList h
  rw [toList_saltedPath, toList_saltedPath, List.append_cancel_left_eq, List.cons.injEq,
    String.toList_inj] at hlist
  exact Cluset.toString_nat_injective hlist.2

/-- **The hashed string determines the values.** -/
theorem eq_of_saltedPath_eq {values values' : List String} (hvalid : ∀ v ∈ values, Unseparated v)
    (hvalid' : ∀ v ∈ values', Unseparated v) (hne : values ≠ []) (hne' : values' ≠ [])
    {salt salt' : Nat} (h : saltedPath values salt = saltedPath values' salt') :
    values = values' := by
  have hpath : ∀ {vs : List String} (n : Nat), (∀ v ∈ vs, Unseparated v) →
      (saltedPath vs n).toList.takeWhile (· != '#') = ['/'].intercalate (vs.map String.toList) := by
    intro vs n hvs
    rw [toList_saltedPath, List.takeWhile_append_of_pos]
    · simp
    · intro c hc
      rcases mem_intercalate hc with rfl | ⟨cs, hcs, hmem⟩
      · decide
      · obtain ⟨v, hv, rfl⟩ := List.mem_map.mp hcs
        have : c ≠ '#' := fun heq => (hvs v hv).2 (heq ▸ hmem)
        simpa using this
  have hsplit : ∀ {vs : List String}, (∀ v ∈ vs, Unseparated v) → vs ≠ [] →
      (['/'].intercalate (vs.map String.toList)).splitOn '/' = vs.map String.toList := by
    intro vs hvs hnil
    refine List.splitOn_intercalate '/' (fun cs hcs => ?_) (by simpa using hnil)
    obtain ⟨v, hv, rfl⟩ := List.mem_map.mp hcs
    exact (hvs v hv).1
  have hlist : values.map String.toList = values'.map String.toList := by
    rw [← hsplit hvalid hne, ← hsplit hvalid' hne', ← hpath salt hvalid, ← hpath salt' hvalid', h]
  exact List.map_injective_iff.mpr (fun _ _ => String.toList_inj.mp) hlist

/-! ## Digests -/

section Digest

variable {sum256 : String → Vector UInt8 32}

theorem hexByte_injective : Function.Injective hexByte := by
  have hdigit : ∀ m < 16, ∀ n < 16, Nat.digitChar m = Nat.digitChar n → m = n := by decide
  intro a b h
  simp only [hexByte, List.cons.injEq, and_true] at h
  have ha := a.toNat_lt
  have hb := b.toNat_lt
  have hhigh := hdigit _ (by omega) _ (by omega) h.1
  have hlow := hdigit _ (by omega) _ (by omega) h.2
  exact UInt8.toNat_inj.mp (by omega)

theorem flatMap_hexByte_injective :
    Function.Injective fun bs : List UInt8 => bs.flatMap hexByte := by
  intro as
  induction as with
  | nil =>
    intro bs h
    cases bs with
    | nil => rfl
    | cons b bs => exact absurd h (by simp [hexByte])
  | cons a as ih =>
    intro bs h
    cases bs with
    | nil => exact absurd h (by simp [hexByte])
    | cons b bs =>
      simp only [List.flatMap_cons] at h
      obtain ⟨hhead, htail⟩ := List.append_inj h rfl
      rw [hexByte_injective hhead, ih htail]

theorem length_truncatedDigest (s : String) : (truncatedDigest sum256 s).length = 16 := by
  simp [truncatedDigest]

/-- **The ID determines the digest.** -/
theorem truncatedDigest_eq {values values' : List String} {salt salt' : Nat}
    (h : saltedID sum256 values salt = saltedID sum256 values' salt') :
    truncatedDigest sum256 (saltedPath values salt) = truncatedDigest sum256
      (saltedPath values' salt') := by
  have hlist := congrArg String.toList h
  simp only [saltedID, String.toList_append, String.toList_ofList] at hlist
  refine flatMap_hexByte_injective (List.append_inj' hlist ?_).2
  simp [List.length_flatMap, hexByte, length_truncatedDigest]

theorem saltedID_ne_empty (values : List String) (salt : Nat) :
    saltedID sum256 values salt ≠ "" := by
  intro h
  have hlist := congrArg String.toList h
  simp [saltedID, String.toList_append] at hlist

/-! ## The loop over the salts -/

/-- The salts that are tried for a switch: all before it are reserved. -/
def Tried (sum256 : String → Vector UInt8 32) (nodeIDs : GoMap String String) (values : List String)
    (salt : Nat) : Prop :=
  ∀ s < salt, saltedID sum256 values s ∈ nodeIDs

variable {values : List String} {id : String}

/-- The loop returns the first ID that no node has. -/
theorem saltLoop_spec {nodeIDs : GoMap String String} {fuel salt : Nat}
    (htried : Tried sum256 nodeIDs values salt)
    (h : saltLoop sum256 values nodeIDs fuel salt = some id) :
    ∃ s, Tried sum256 nodeIDs values s ∧ id = saltedID sum256 values s ∧ id ∉ nodeIDs := by
  induction fuel generalizing salt with
  | zero => exact absurd h (by simp [saltLoop])
  | succ fuel ih =>
    rw [saltLoop] at h
    split_ifs at h with hreserved
    · refine ih (fun s hs => ?_) h
      rcases Nat.lt_succ_iff_lt_or_eq.mp hs with hlt | rfl
      · exact htried s hlt
      · exact hreserved
    · obtain rfl := Option.some.inj h
      exact ⟨salt, htried, rfl, hreserved⟩

/-- The loop stops at a free ID. -/
theorem saltLoop_of_free {nodeIDs : GoMap String String} {fuel salt s : Nat}
    (hfree : saltedID sum256 values s ∉ nodeIDs) (hle : salt ≤ s) (hfuel : s < salt + fuel) :
    ∃ id, saltLoop sum256 values nodeIDs fuel salt = some id := by
  induction fuel generalizing salt with
  | zero => omega
  | succ fuel ih =>
    rw [saltLoop]
    split_ifs with hreserved
    · have hne : salt ≠ s := by
        rintro rfl
        exact hfree hreserved
      exact ih (by omega) (by omega)
    · exact ⟨_, rfl⟩

/-- The strings that are hashed for the switches with the values `paths`. -/
def hashedStrings (sum256 : String → Vector UInt8 32) (nodeIDs : GoMap String String)
    (paths : Set (List String)) : Set String :=
  {s | ∃ values ∈ paths, ∃ salt, Tried sum256 nodeIDs values salt ∧ s = saltedPath values salt}

variable {nodeIDs : GoMap String String} {paths : Set (List String)}

section

variable (hinj : Set.InjOn (truncatedDigest sum256) (hashedStrings sum256 nodeIDs paths))

include hinj

/-- **The loop ends** if the digest does not collide on what it hashes: different salts give
different IDs, and only finitely many IDs are reserved. -/
theorem exists_switchID (hvalues : values ∈ paths) :
    ∃ n, ∀ fuel ≥ n, ∃ id, switchID sum256 fuel values nodeIDs = some id := by
  suffices hfree : ∃ s, saltedID sum256 values s ∉ nodeIDs by
    obtain ⟨s, hs⟩ := hfree
    exact ⟨s + 1, fun fuel hfuel => saltLoop_of_free hs (Nat.zero_le s) (by omega)⟩
  by_contra hall
  push Not at hall
  have hmem : ∀ salt, saltedPath values salt ∈ hashedStrings sum256 nodeIDs paths :=
    fun salt => ⟨values, hvalues, salt, fun s _ => hall s, rfl⟩
  have hids : Function.Injective (saltedID sum256 values) := fun salt salt' h =>
    saltedPath_injective values (hinj (hmem salt) (hmem salt') (truncatedDigest_eq h))
  exact Set.infinite_range_of_injective hids ((nodeIDs.keys.toFinset.finite_toSet).subset (by
    rintro _ ⟨salt, rfl⟩
    simpa [AList.mem_keys] using hall salt))

/-- **Equal IDs come from equal values.** -/
theorem switchID_inj (hpaths : ∀ values ∈ paths, values ≠ [] ∧ ∀ v ∈ values, Unseparated v)
    {values values' : List String} (hvalues : values ∈ paths) (hvalues' : values' ∈ paths)
    {fuel : Nat} (h : switchID sum256 fuel values nodeIDs = some id)
    (h' : switchID sum256 fuel values' nodeIDs = some id) : values = values' := by
  obtain ⟨s, hs, rfl, -⟩ := saltLoop_spec (fun _ hlt => absurd hlt (by omega)) h
  obtain ⟨s', hs', heq, -⟩ := saltLoop_spec (fun _ hlt => absurd hlt (by omega)) h'
  have hpath := hinj ⟨values, hvalues, s, hs, rfl⟩ ⟨values', hvalues', s', hs',
    rfl⟩ (truncatedDigest_eq heq)
  exact eq_of_saltedPath_eq (hpaths _ hvalues).2 (hpaths _ hvalues').2 (hpaths _ hvalues).1
    (hpaths _ hvalues').1 hpath

end

/-- A switch ID is no node ID. -/
theorem switchID_spec {fuel : Nat} (h : switchID sum256 fuel values nodeIDs = some id) :
    id ≠ "" ∧ id ∉ nodeIDs := by
  obtain ⟨s, -, rfl, hfree⟩ := saltLoop_spec (fun _ hlt => absurd hlt (by omega)) h
  exact ⟨saltedID_ne_empty values s, hfree⟩

end Digest

end Topograph.Nodelabels
