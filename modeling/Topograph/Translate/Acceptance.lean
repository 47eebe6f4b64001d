import Mathlib.Data.List.Perm.Subperm
import Topograph.Translate.InitTree

/-! # Graphs that `initTree` accepts

`initTree` rejects a graph in which an ID is reached twice. On a finite graph the loop ends, and if
there is one way to every ID, it accepts every vertex it takes from the queue. -/

namespace Topograph.Translate

open Topograph.Topology

variable {ρ : Type} {heap : ρ → Vertex (Option ρ)} {v : ρ}

theorem seen_recordVertex (st : TreeState ρ) : (recordVertex heap v st).seen = st.seen := by
  unfold recordVertex
  dsimp only
  split_ifs <;> rfl

variable {st : TreeState ρ}

/-- **The loop over the children** accepts them if their IDs are new and distinct. -/
theorem exists_visitChildren {entries : List (Σ _ : String, Option ρ)}
    (hnew : ∀ e ∈ entries, ∃ w, e.2 = some w ∧ (heap w).id = e.1 ∧ e.1 ≠ (heap v).id ∧
      e.1 ∉ st.seen)
    (hnodup : (entries.map (·.1)).Nodup) :
    ∃ st', entries.foldlM (visitChild heap v) st = .ok st' := by
  induction entries generalizing st with
  | nil => exact ⟨st, rfl⟩
  | cons e entries ih =>
    obtain ⟨⟨w, hw, hid, hself, hseen⟩, hnew⟩ := List.forall_mem_cons.mp hnew
    rw [List.map_cons, List.nodup_cons] at hnodup
    have hstep := visitChild_eq_ok.mpr ⟨w, hw, hself, hid ▸ hself, hid ▸ hseen, rfl⟩
    rw [List.foldlM_cons, hstep]
    refine ih (fun e' he' => ?_) hnodup.2
    obtain ⟨w', hw', hid', hself', hseen'⟩ := hnew e' he'
    refine ⟨w', hw', hid', hself', fun hmem => ?_⟩
    rcases List.mem_cons.mp hmem with heq | hmem
    · exact hnodup.1 (hid ▸ heq ▸ List.mem_map_of_mem he')
    · exact hseen' hmem

/-- **The loop ends** on every finite graph: the visited vertices are different ones, and the fuel
is enough for the others. -/
theorem TreeInvariant.treeLoop_ends {root : ρ} {all : List ρ}
    (hall : ∀ v p, Path heap root v p → v ∈ all) {fuel : Nat} {done : List ρ}
    (h : TreeInvariant heap root done st) (hfuel : all.length < fuel + done.length) :
    ∃ r, Translate.treeLoop heap fuel st = some r := by
  induction fuel generalizing done st with
  | zero =>
    have hsub : done ⊆ all := fun u hu => hall u _ (h.path u (List.mem_append_left _ hu))
    have hnodup : done.Nodup := by
      have := h.nodup
      rw [List.map_append, List.nodup_append] at this
      exact List.Nodup.of_map _ this.1
    have hlen := (hnodup.subperm hsub).length_le
    omega
  | succ fuel ih =>
    unfold Translate.treeLoop
    cases hqueue : st.queue with
    | nil => exact ⟨_, rfl⟩
    | cons v queue =>
      cases hv : visitVertex heap v { st with queue := queue } with
      | error err => exact ⟨.error err, by simp only [hv]⟩
      | ok st₁ =>
        simp only [hv]
        refine ih (h.step hqueue hv) ?_
        rw [List.length_append, List.length_singleton]
        omega

/-- More fuel does not change the result. -/
theorem treeLoop_of_le {fuel fuel' : Nat} (hle : fuel ≤ fuel') {r : Except String (TreeState ρ)}
    (h : treeLoop heap fuel st = some r) : treeLoop heap fuel' st = some r := by
  induction fuel generalizing fuel' st with
  | zero => exact absurd h (by simp [treeLoop])
  | succ fuel ih =>
    obtain ⟨fuel', rfl⟩ : ∃ n, fuel' = n + 1 := ⟨fuel' - 1, by omega⟩
    unfold treeLoop at h ⊢
    cases hqueue : st.queue with
    | nil => simpa only [hqueue] using h
    | cons v queue =>
      simp only [hqueue] at h ⊢
      cases hv : visitVertex heap v { st with queue := queue } with
      | error err => simpa only [hv] using h
      | ok st₁ =>
        simp only [hv] at h ⊢
        exact ih (by omega) h

section Accepted

variable {g : Graph ρ} {root : ρ}

theorem mem_childList {w : ρ} :
    w ∈ childList g.heap v ↔ ∃ key, (g.heap v).vertices.lookup key = some (some w) := by
  simp only [childList, List.mem_filterMap, GoMap.lookup_eq_some_iff]
  constructor
  · rintro ⟨⟨key, child⟩, hmem, rfl⟩
    exact ⟨key, hmem⟩
  · rintro ⟨key, hmem⟩
    exact ⟨_, hmem, rfl⟩

/-- A path of switches is a walk by keys. -/
theorem exists_walk_of_path (hroot : g.tiers = some root) {p : List String}
    (h : Path g.heap root v p) : ∃ keys, g.Walk keys v := by
  induction h with
  | root => exact ⟨[], .nil hroot⟩
  | child _ hw ih =>
    obtain ⟨keys, hkeys⟩ := ih
    obtain ⟨key, hkey⟩ := mem_childList.mp hw
    exact ⟨keys ++ [key], .snoc hkeys hkey⟩

variable (hroot : g.tiers = some root) (htree : g.TreeShaped)

include hroot htree

/-- **A vertex from the queue is accepted.** A child that was seen before would be reached in two
ways. -/
theorem TreeInvariant.exists_visitVertex {done queue : List ρ}
    (h : TreeInvariant g.heap root done st) (hqueue : st.queue = v :: queue) :
    ∃ st', visitVertex g.heap v { st with queue := queue } = .ok st' := by
  have hwalks : ∀ u ∈ done ++ st.queue, ∃ keys, g.Walk keys u :=
    fun u hu => exists_walk_of_path hroot (h.path u hu)
  have hv : v ∈ done ++ st.queue := by simp [hqueue]
  obtain ⟨keys, hkeys⟩ := hwalks v hv
  have hvdone : v ∉ done := by
    intro hmem
    have hnodup := h.nodup
    rw [hqueue, List.map_append, List.nodup_append] at hnodup
    exact hnodup.2.2 _ (List.mem_map_of_mem hmem) _ (List.mem_map_of_mem List.mem_cons_self) rfl
  refine exists_visitChildren (fun e he => ?_) (g.heap v).vertices.nodupKeys
  have hlook : (g.heap v).vertices.lookup e.1 = some e.2 := GoMap.lookup_eq_some_iff.mpr he
  cases hchild : e.2 with
  | none => exact absurd (hlook.trans (by rw [hchild])) (htree.noNil keys v e.1 hkeys)
  | some w =>
    rw [hchild] at hlook
    have hid := htree.keyed keys v e.1 w hkeys hlook
    refine ⟨w, rfl, hid, fun hself => ?_, fun hseen => ?_⟩
    · have := htree.unique _ _ _ _ hkeys (.snoc hkeys hlook) (hself ▸ hid.symm)
      exact absurd this (by simp)
    · rw [seen_recordVertex] at hseen
      obtain ⟨u, hu, huid⟩ := List.mem_map.mp ((h.seen e.1).mp hseen)
      -- `u` is reached in the same way as `w`, so its parent is `v`, which is not done.
      have hway : ∀ keys', g.Walk keys' u → keys' = keys ++ [e.1] :=
        fun keys' hkeys' => htree.unique _ _ _ _ hkeys' (.snoc hkeys hlook) (huid.trans hid.symm)
      rw [h.order] at hu
      rcases List.mem_cons.mp hu with rfl | hu
      · exact absurd (hway [] (.nil hroot)) (by simp)
      · obtain ⟨d, hd, hchild⟩ := List.mem_flatMap.mp hu
        obtain ⟨key', hkey'⟩ := mem_childList.mp hchild
        obtain ⟨keys', hkeys'⟩ := hwalks d (List.mem_append_left _ hd)
        obtain ⟨rfl, -⟩ := List.append_inj' (hway _ (.snoc hkeys' hkey')) rfl
        obtain rfl := Option.some.inj (hkeys'.follow.symm.trans hkeys.follow)
        exact hvdone hd

/-- **No vertex is rejected.** -/
theorem TreeInvariant.treeLoop_ne_error {fuel : Nat} {done : List ρ}
    (h : TreeInvariant g.heap root done st) (err : String) :
    Translate.treeLoop g.heap fuel st ≠ some (.error err) := by
  induction fuel generalizing done st with
  | zero => simp [Translate.treeLoop]
  | succ fuel ih =>
    unfold Translate.treeLoop
    cases hqueue : st.queue with
    | nil => simp
    | cons v queue =>
      obtain ⟨st₁, hst₁⟩ := h.exists_visitVertex hroot htree hqueue
      simp only [hst₁]
      exact ih (h.step hqueue hst₁)

/-- **A graph with one way to every ID is accepted.** -/
theorem exists_initTree : ∃ fuel st, initTree fuel (some g) = some (.ok st) := by
  obtain ⟨ways, hways⟩ := htree.finite
  have hall : ∀ v p, Path g.heap root v p → v ∈ ways.filterMap g.follow := by
    intro v p hp
    obtain ⟨keys, hkeys⟩ := exists_walk_of_path hroot hp
    exact List.mem_filterMap.mpr ⟨keys, hways keys v hkeys, hkeys.follow⟩
  obtain ⟨r, hr⟩ := TreeInvariant.start.treeLoop_ends hall (Nat.lt_succ_self _)
  cases r with
  | error err => exact absurd hr (TreeInvariant.start.treeLoop_ne_error hroot htree err)
  | ok st =>
    refine ⟨(ways.filterMap g.follow).length.succ, { st with tree := sortTree st.tree }, ?_⟩
    simp only [initTree, hroot, hr]

end Accepted

end Topograph.Translate
