import Mathlib.Data.List.Sort

/-! # Lists sorted by a key

Two lists with the same keys, each in an order of its own, are matched by sorting them: the elements
that meet have the same key (`forall₂_insertionSort`). -/

namespace Topograph.KeySort

variable {α β κ : Type} [LinearOrder κ]

/-- The keys of a sorted list are the sorted keys. -/
theorem map_insertionSort_key (key : α → κ) (l : List α) :
    (l.insertionSort fun a b => key a ≤ key b).map key = (l.map key).insertionSort (· ≤ ·) :=
  List.map_insertionSort _ _ _ _ fun _ _ _ _ => Iff.rfl

/-- **Sorting matches equal keys.** -/
theorem forall₂_insertionSort {key : α → κ} {key' : β → κ} {R : α → β → Prop} {l : List α}
    {l' : List β} (hperm : (l.map key).Perm (l'.map key'))
    (hR : ∀ a ∈ l, ∀ b ∈ l', key a = key' b → R a b) :
    List.Forall₂ R (l.insertionSort fun a b => key a ≤ key b)
      (l'.insertionSort fun a b => key' a ≤ key' b) := by
  have hkeys : (l.insertionSort fun a b => key a ≤ key b).map key =
      (l'.insertionSort fun a b => key' a ≤ key' b).map key' := by
    rw [map_insertionSort_key, map_insertionSort_key]
    refine List.Perm.eq_of_pairwise (fun _ _ _ _ => le_antisymm) (List.pairwise_insertionSort _ _)
      (List.pairwise_insertionSort _ _) ?_
    exact (List.perm_insertionSort _ _).trans (hperm.trans (List.perm_insertionSort _ _).symm)
  have hlength := congrArg List.length hkeys
  rw [List.length_map, List.length_map] at hlength
  refine List.forall₂_iff_get.mpr ⟨hlength, fun i hi hi' => ?_⟩
  refine hR _ ((List.mem_insertionSort _).mp (List.get_mem _ _)) _
    ((List.mem_insertionSort _).mp (List.get_mem _ _)) ?_
  have hget := congrArg (fun keys => keys[i]?) hkeys
  simp only [List.getElem?_map, List.getElem?_eq_getElem hi, List.getElem?_eq_getElem hi',
    Option.map_some] at hget
  exact Option.some.inj hget

end Topograph.KeySort
