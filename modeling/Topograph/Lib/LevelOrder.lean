import Topograph.Lib.Layering

/-! # Level order

A loop that takes elements from a queue and appends their successors works on whole levels, one
behind the other (`queueLoop_eq`). The specification of the order is `levelOrder`, which knows no
queue. -/

namespace Topograph

universe u v

variable {α : Type u} {σ : Type v} {next : α → List α} {step : σ → α → σ}

/-! ## Levels -/

/-- The elements of the first `depth` levels. -/
def levelOrder (next : α → List α) : Nat → List α → List α
  | 0, _ => []
  | depth + 1, level => level ++ levelOrder next depth (level.flatMap next)

/-- `order` lists everything from `start` on, level by level. -/
def BreadthFirst (next : α → List α) (start order : List α) : Prop :=
  ∃ depth, (fun level => level.flatMap next)^[depth] start = [] ∧
    order = levelOrder next depth start

theorem levelOrder_nil (depth : Nat) : levelOrder next depth [] = [] := by
  induction depth with
  | zero => rfl
  | succ depth ih => exact ih

/-- Behind the last level nothing is added. -/
theorem levelOrder_of_le {depth depth' : Nat} {level : List α}
    (h : (fun level => level.flatMap next)^[depth] level = []) (hle : depth ≤ depth') :
    levelOrder next depth' level = levelOrder next depth level := by
  induction depth generalizing depth' level with
  | zero => rw [show level = [] from h, levelOrder_nil, levelOrder_nil]
  | succ depth ih =>
    obtain ⟨depth', rfl⟩ := Nat.exists_eq_add_of_le hle
    rw [show depth + 1 + depth' = depth + depth' + 1 by omega, levelOrder, levelOrder,
      ih (by rwa [Function.iterate_succ_apply] at h) (Nat.le_add_right _ _)]

/-- There is one breadth-first order. -/
theorem BreadthFirst.unique {start order order' : List α} (h : BreadthFirst next start order)
    (h' : BreadthFirst next start order') : order = order' := by
  obtain ⟨depth, hend, rfl⟩ := h
  obtain ⟨depth', hend', rfl⟩ := h'
  rcases Nat.le_total depth depth' with hle | hle
  · exact (levelOrder_of_le hend hle).symm
  · exact levelOrder_of_le hend' hle

/-- A list of its start and of the successors of its members begins with the levels. -/
theorem exists_levelOrder_append {start l : List α} (h : l = start ++ l.flatMap next)
    (depth : Nat) : ∃ rest, l = levelOrder next depth start ++ rest := by
  induction depth generalizing start l with
  | zero => exact ⟨l, rfl⟩
  | succ depth ih =>
    have hnext : l.flatMap next = start.flatMap next ++ (l.flatMap next).flatMap next := by
      rw [← List.flatMap_append, ← h]
    obtain ⟨rest, hrest⟩ := ih hnext
    refine ⟨rest, ?_⟩
    rw [levelOrder, List.append_assoc, ← hrest]
    exact h

/-- **The order lists what can be reached.** -/
theorem BreadthFirst.mem_iff {start order : List α} (h : BreadthFirst next start order) {x : α} :
    x ∈ order ↔ ∃ y ∈ start, Relation.ReflTransGen (fun a b => b ∈ next a) y x := by
  obtain ⟨depth, hend, rfl⟩ := h
  induction depth generalizing start with
  | zero =>
    rw [show start = [] from hend]
    simp [levelOrder]
  | succ depth ih =>
    rw [levelOrder, List.mem_append, ih (by rwa [Function.iterate_succ_apply] at hend)]
    constructor
    · rintro (hx | ⟨y, hy, hyx⟩)
      · exact ⟨x, hx, .refl⟩
      · obtain ⟨z, hz, hzy⟩ := List.mem_flatMap.mp hy
        exact ⟨z, hz, hyx.head hzy⟩
    · rintro ⟨y, hy, hyx⟩
      rcases Relation.ReflTransGen.cases_head hyx with rfl | ⟨z, hz, hzx⟩
      · exact Or.inl hy
      · exact Or.inr ⟨z, List.mem_flatMap.mpr ⟨y, hy, hz⟩, hzx⟩

/-- The elements of a level are those that are climbed to in as many steps. -/
theorem mem_level_iff (root x : α) (depth : Nat) :
    x ∈ (fun level => level.flatMap next)^[depth] [root] ↔
      Layering.Climb (· = root) (fun a b => b ∈ next a) depth x := by
  induction depth generalizing x with
  | zero =>
    rw [Function.iterate_zero, id_eq, List.mem_singleton]
    refine ⟨fun h => .base h, fun h => ?_⟩
    cases h with
    | base h => exact h
  | succ depth ih =>
    rw [Function.iterate_succ_apply', List.mem_flatMap]
    constructor
    · rintro ⟨a, ha, hx⟩
      exact .step ((ih a).mp ha) hx
    · intro h
      cases h with
      | step hc hx => exact ⟨_, (ih _).mpr hc, hx⟩

/-- If everything below the root is in a list and has one depth only, the levels come to an end. -/
theorem exists_breadthFirst {root : α} {all : List α}
    (hall : ∀ k x, Layering.Climb (· = root) (fun a b => b ∈ next a) k x → x ∈ all)
    (hdepth : ∀ j k x, Layering.Climb (· = root) (fun a b => b ∈ next a) j x →
      Layering.Climb (· = root) (fun a b => b ∈ next a) k x → j = k) : ∃ order,
        BreadthFirst next [root] order := by
  refine ⟨_, all.length, List.eq_nil_iff_forall_not_mem.mpr fun x hx => ?_, rfl⟩
  have hclimb := (mem_level_iff root x all.length).mp hx
  have hdist : Layering.Distance (· = root) (fun a b => b ∈ next a) all.length x :=
    ⟨hclimb, fun m hm hc => hm.ne (hdepth m _ x hc hclimb)⟩
  have hle := hdist.le_length (a := 0) fun i t _ ht => hall i t ht.1
  omega

/-! ## The loop -/

/-- A loop over a queue to which every element appends its successors; `none` if the fuel is used
up. -/
def queueLoop (next : α → List α) (step : σ → α → σ) : Nat → List α → σ → Option σ
  | 0, _, _ => none
  | _ + 1, [], st => some st
  | fuel + 1, x :: queue, st => queueLoop next step fuel (queue ++ next x) (step st x)

/-- The loop works off the front of its queue. -/
theorem queueLoop_append {fuel : Nat} {front back : List α} {st st' : σ}
    (h : queueLoop next step fuel (front ++ back) st = some st') :
    ∃ fuel', fuel = fuel' + front.length ∧
      queueLoop next step fuel' (back ++ front.flatMap next) (front.foldl step st) = some st' := by
  induction front generalizing fuel back st with
  | nil => exact ⟨fuel, rfl, by rwa [List.flatMap_nil, List.append_nil]⟩
  | cons x front ih =>
    cases fuel with
    | zero => exact absurd h (by simp [queueLoop])
    | succ fuel =>
      rw [List.cons_append, queueLoop, List.append_assoc] at h
      obtain ⟨fuel', rfl, hloop⟩ := ih h
      exact ⟨fuel', rfl, by rwa [List.append_assoc, ← List.flatMap_cons] at hloop⟩

/-- **The loop follows the levels.** -/
theorem queueLoop_eq {fuel : Nat} {queue : List α} {st st' : σ}
    (h : queueLoop next step fuel queue st = some st') :
    ∃ order, BreadthFirst next queue order ∧ st' = order.foldl step st := by
  induction fuel using Nat.strongRecOn generalizing queue st with
  | ind fuel ih =>
    cases queue with
    | nil =>
      refine ⟨[], ⟨0, rfl, rfl⟩, ?_⟩
      cases fuel with
      | zero => exact absurd h (by simp [queueLoop])
      | succ fuel => exact (Option.some.inj h).symm
    | cons x queue =>
      -- A whole level is worked off, and the next one stands in the queue.
      have hlevel : queueLoop next step fuel ((x :: queue) ++ []) st = some st' := by
        rwa [List.append_nil]
      obtain ⟨fuel', rfl, hloop⟩ := queueLoop_append hlevel
      obtain ⟨order, ⟨depth, hend, rfl⟩, rfl⟩ := ih fuel' (by simp) hloop
      refine ⟨levelOrder next (depth + 1) (x :: queue), ⟨depth + 1, ?_, rfl⟩, ?_⟩
      · rw [Function.iterate_succ_apply]
        exact hend
      · rw [levelOrder, List.foldl_append]
        rfl

end Topograph
