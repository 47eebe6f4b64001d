import Topograph.Lib.GoMap
import Mathlib.Data.List.Permutation

/-! # Grouping a list by a key

The groups of a list under the keys of its elements hold together what the list holds, and the
entries of a map are read off from its keys. -/

namespace Topograph

universe u v

namespace Grouping

variable {α : Type u} {κ : Type v} [DecidableEq κ]

/-- **Nothing is lost or repeated by grouping**: the groups of distinct keys that cover a list are a
rearrangement of it. -/
theorem flatMap_filter_perm (f : α → κ) {keys : List κ} (hnodup : keys.Nodup) {l : List α}
    (hcover : ∀ x ∈ l, f x ∈ keys) : (keys.flatMap fun k => l.filter fun x => f x = k).Perm l := by
  induction keys generalizing l with
  | nil =>
    have hnil : l = [] := List.eq_nil_iff_forall_not_mem.mpr fun x hx => by simpa using hcover x hx
    rw [hnil]
    exact .nil
  | cons k keys ih =>
    obtain ⟨hk, hnodup⟩ := List.nodup_cons.mp hnodup
    -- The other groups only see the elements with another key.
    have hrest : (keys.flatMap fun k' => l.filter fun x => f x = k') =
        keys.flatMap fun k' => (l.filter fun x => f x ≠ k).filter fun x => f x = k' := by
      apply List.flatMap_congr
      intro k' hk'
      rw [List.filter_filter]
      apply List.filter_congr
      intro x _
      have hne : k' ≠ k := fun h => hk (h ▸ hk')
      by_cases hx : f x = k'
      · simp [hx, hne]
      · simp [hx]
    have hcover' : ∀ x ∈ l.filter (fun x => f x ≠ k), f x ∈ keys := by
      intro x hx
      obtain ⟨hx, hne⟩ := List.mem_filter.mp hx
      exact (List.mem_cons.mp (hcover x hx)).resolve_left (by simpa using hne)
    rw [List.flatMap_cons, hrest]
    refine ((ih hnodup hcover').append_left _).trans ?_
    simpa using List.filter_append_perm (fun x => decide (f x = k)) l

end Grouping

namespace GoMap

variable {α : Type u} {β : Type v} [DecidableEq α]

/-- A loop over the entries of a map, as a loop over its keys. -/
theorem flatMap_entries {γ : Type*} (m : GoMap α β) (f : α → β → List γ) :
    (m.entries.flatMap fun e => f e.1 e.2) =
      m.keys.flatMap fun k => (m.lookup k).elim [] (f k) := by
  rw [show m.keys = m.entries.map (·.1) from rfl, List.flatMap_map]
  apply List.flatMap_congr
  intro e he
  rw [lookup_eq_some_iff.mpr he, Option.elim_some]

/-- Maps with the same lookups have the same keys, up to order. -/
theorem keys_perm {γ : Type*} {m : GoMap α β} {n : GoMap α γ}
    (h : ∀ a, (m.lookup a).isSome = (n.lookup a).isSome) : m.keys.Perm n.keys := by
  apply (List.perm_ext_iff_of_nodup m.nodupKeys n.nodupKeys).mpr
  intro a
  show a ∈ m ↔ a ∈ n
  rw [← AList.lookup_isSome, ← AList.lookup_isSome, h a]

/-- A new key comes with one more value. -/
theorem values_insert_of_lookup_eq_none {m : GoMap α β} {a : α} (h : m.lookup a = none) (b : β) :
    values (m.insert a b) = b :: m.values := by
  have hnot : a ∉ m := AList.lookup_eq_none.mp h
  rw [values, AList.entries_insert_of_notMem hnot, List.map_cons]
  rfl

end GoMap

end Topograph
