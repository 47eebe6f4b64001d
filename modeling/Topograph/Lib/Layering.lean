import Mathlib.Data.List.FinRange

/-! # Layers over a base

A loop that starts from a base set and, round by round, takes the new elements right above the last
round's finds the layers of a distance: `Distance k s` says that a shortest chain from the base up
to `s` has `k` steps. A loop is such a loop if its rounds satisfy one equation
(`level_iff_distance`). An element of the base lies under the last layer exactly when it climbs to
it in as many steps as there are layers (`Ascent`). -/

namespace Topograph.Layering

universe u

variable {α : Type u} (base : α → Prop) (up : α → α → Prop)

/-- `Climb n s`: a chain of `n` steps leads from the base up to `s`. -/
inductive Climb : Nat → α → Prop
  | base {s : α} (h : base s) : Climb 0 s
  | step {n : Nat} {c s : α} (hc : Climb n c) (h : up c s) : Climb (n + 1) s

/-- `Distance k s`: a shortest chain from the base to `s` has `k` steps. -/
def Distance (k : Nat) (s : α) : Prop := Climb base up k s ∧ ∀ m < k, ¬ Climb base up m s

/-- `Ascent n s r`: a chain of `n` steps leads from `s` up to `r`. -/
inductive Ascent : Nat → α → α → Prop
  | refl (s : α) : Ascent 0 s s
  | step {n : Nat} {s c r : α} (h : Ascent n s c) (hr : up c r) : Ascent (n + 1) s r

variable {base up} {j k n : Nat} {s r : α}

/-- Distances are unique. -/
theorem Distance.unique (hj : Distance base up j s) (hk : Distance base up k s) : j = k := by
  rcases Nat.lt_trichotomy j k with h | h | h
  · exact absurd hj.1 (hk.2 j h)
  · exact h
  · exact absurd hk.1 (hj.2 k h)

/-- What can be climbed to has a distance, no longer than the climb. -/
theorem Climb.exists_distance (h : Climb base up n s) : ∃ k ≤ n, Distance base up k s := by
  induction n using Nat.strongRecOn with
  | ind n ih =>
    by_cases hmin : ∃ m < n, Climb base up m s
    · obtain ⟨m, hm, hc⟩ := hmin
      obtain ⟨k, hk, hd⟩ := ih m hm hc
      exact ⟨k, by omega, hd⟩
    · exact ⟨n, Nat.le_refl n, h, fun m hm hc => hmin ⟨m, hm, hc⟩⟩

theorem distance_zero : Distance base up 0 s ↔ base s := by
  constructor
  · rintro ⟨hc, -⟩
    cases hc with
    | base h => exact h
  · exact fun h => ⟨.base h, by simp⟩

/-- The last step of a shortest chain starts one step closer. -/
theorem Distance.exists_pred (h : Distance base up (k + 1) s) :
    ∃ c, up c s ∧ Distance base up k c := by
  obtain ⟨hclimb, hmin⟩ := h
  cases hclimb with
  | step hc hup =>
    refine ⟨_, hup, hc, fun m hm hcm => ?_⟩
    exact hmin (m + 1) (by omega) (.step hcm hup)

/-- Below an element at distance `k` there are elements at every smaller distance. -/
theorem Distance.exists_below (h : Distance base up k s) : ∀ i ≤ k, ∃ t, Distance base up i t := by
  induction k generalizing s with
  | zero =>
    intro i hi
    obtain rfl : i = 0 := by omega
    exact ⟨s, h⟩
  | succ k ih =>
    intro i hi
    rcases Nat.lt_or_ge i (k + 1) with hlt | hge
    · obtain ⟨c, -, hc⟩ := h.exists_pred
      exact ih hc i (by omega)
    · obtain rfl : i = k + 1 := by omega
      exact ⟨s, h⟩

/-- A chain passes each element at most once: if everything from distance `a` on is in a list, that
is at least as long as the rest of the chain. -/
theorem Distance.le_length {all : List α} {a : Nat}
    (hall : ∀ i t, a ≤ i → Distance base up i t → t ∈ all) (h : Distance base up k s) :
    k + 1 - a ≤ all.length := by
  choose f hf using h.exists_below
  let chain := (List.finRange (k + 1 - a)).map fun i => f (a + i.1) (by omega)
  have hnodup : chain.Nodup := by
    refine (List.nodup_map_iff_inj_on (List.nodup_finRange _)).mpr ?_
    intro i _ j _ hij
    have hi := hf (a + i.1) (by omega)
    rw [hij] at hi
    have := hi.unique (hf (a + j.1) (by omega))
    exact Fin.ext (by omega)
  have hsub : chain ⊆ all := by
    intro t ht
    obtain ⟨i, -, rfl⟩ := List.mem_map.mp ht
    exact hall _ _ (by omega) (hf (a + i.1) (by omega))
  have hlen := (List.subperm_of_subset hnodup hsub).length_le
  rwa [List.length_map, List.length_finRange] at hlen

/-- Chains can be put together. -/
theorem Ascent.climb (h : Ascent up n s r) (hs : Distance base up k s) :
    Climb base up (k + n) r := by
  induction h with
  | refl => exact hs.1
  | step _ hup ih => exact .step (ih hs) hup

/-- The steps of a shortest chain are shortest ones. -/
theorem Ascent.distance_pred {c : α} (h : Ascent up n s c) (hup : up c r)
    (hs : Distance base up k s) (hr : Distance base up (k + (n + 1)) r) :
    Distance base up (k + n) c := by
  obtain ⟨m, hm, hd⟩ := (h.climb hs).exists_distance
  rcases Nat.lt_or_ge m (k + n) with hlt | hge
  · exact absurd (.step hd.1 hup) (hr.2 (m + 1) (by omega))
  · rwa [show m = k + n by omega] at hd

/-- **A level is a distance**, when level 0 is the base and the next level has the new elements
above a level. -/
theorem level_iff_distance (level : Nat → α → Prop) (hzero : ∀ s, level 0 s ↔ base s)
    (hsucc : ∀ k s, level (k + 1) s ↔ (∀ j ≤ k, ¬ level j s) ∧ ∃ c, up c s ∧ level k c) (k : Nat)
    (s : α) : level k s ↔ Distance base up k s := by
  induction k using Nat.strongRecOn generalizing s with
  | ind k ih =>
    cases k with
    | zero => rw [hzero, distance_zero]
    | succ k =>
      rw [hsucc]
      constructor
      · rintro ⟨hnew, c, hup, hc⟩
        refine ⟨.step ((ih k (Nat.lt_succ_self k) c).mp hc).1 hup, fun m hm hclimb => ?_⟩
        obtain ⟨j, hj, hd⟩ := hclimb.exists_distance
        exact hnew j (by omega) ((ih j (by omega) s).mpr hd)
      · intro hd
        obtain ⟨c, hup, hc⟩ := hd.exists_pred
        refine ⟨fun j hj hlev => ?_, c, hup, (ih k (Nat.lt_succ_self k) c).mpr hc⟩
        have := ((ih j (by omega) s).mp hlev).unique hd
        omega

/-- **A loop with bounded rounds** that goes on until a round is the last ends at the first such
round, or when the rounds are spent. -/
theorem exists_lastRound {β : Type*} (run : Nat → Nat → β) (last : Nat → Prop)
    (hlast : ∀ fuel k, last k → run (fuel + 1) k = run 0 k)
    (hnext : ∀ fuel k, ¬ last k → run (fuel + 1) k = run fuel (k + 1)) (fuel k : Nat) :
    ∃ j ≤ fuel, run fuel k = run 0 (k + j) ∧ (∀ i < j, ¬ last (k + i)) ∧
    (j < fuel → last (k + j)) := by
  induction fuel generalizing k with
  | zero => exact ⟨0, Nat.le_refl 0, rfl, by simp, by simp⟩
  | succ fuel ih =>
    by_cases hstop : last k
    · exact ⟨0, Nat.zero_le _, hlast fuel k hstop, by simp, fun _ => hstop⟩
    · obtain ⟨j, hj, heq, hne, hend⟩ := ih (k + 1)
      have hadd : ∀ i, k + (i + 1) = k + 1 + i := fun i => by omega
      refine ⟨j + 1, by omega, by rw [hnext fuel k hstop, heq, hadd j], fun i hi => ?_,
        fun hlt => ?_⟩
      · cases i with
        | zero => exact hstop
        | succ i =>
          rw [hadd]
          exact hne i (by omega)
      · rw [hadd]
        exact hend (by omega)

end Topograph.Layering
