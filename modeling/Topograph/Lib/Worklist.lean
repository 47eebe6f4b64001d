import Mathlib.Data.List.Basic
import Mathlib.Logic.Relation

/-! # Worklists

A breadth first loop that marks an element as visited when it takes it from the queue, and skips it
if it is marked already. `visitOrder` lists the elements such a loop works on. What it visits is the
closure of its queue (`VisitOrder`), each element once and behind an element that queued it; a
finite closed set is enough for it to come to an end (`exists_visitOrder`). -/

namespace Topograph

universe u

variable {α : Type u}

/-- The elements worked on by the loop, in order; `none` if the fuel is used up. -/
def visitOrder [DecidableEq α] (next : α → List α) : Nat → List α → List α → Option (List α)
  | 0, _, _ => none
  | _ + 1, _, [] => some []
  | fuel + 1, visited, x :: queue =>
    if x ∈ visited then visitOrder next fuel visited queue
    else (visitOrder next fuel (x :: visited) (queue ++ next x)).map (x :: ·)

/-- What holds of the elements worked on from a queue, beyond those visited before. -/
structure VisitOrder (next : α → List α) (visited queue out : List α) : Prop where
  nodup : out.Nodup
  fresh : ∀ x ∈ out, x ∉ visited
  queued : ∀ x ∈ queue, x ∈ visited ∨ x ∈ out
  closed : ∀ x ∈ out, ∀ y ∈ next x, y ∈ visited ∨ y ∈ out
  /-- An element was queued at the start or by an earlier one. -/
  behind : ∀ pre y post, out = pre ++ y :: post → y ∈ queue ∨ ∃ x ∈ pre, y ∈ next x

/-- **What the loop visits.** -/
theorem visitOrder_spec [DecidableEq α] {next : α → List α} {fuel : Nat}
    {visited queue out : List α} (h : visitOrder next fuel visited queue = some out) :
    VisitOrder next visited queue out := by
  induction fuel generalizing visited queue out with
  | zero => exact absurd h (by simp [visitOrder])
  | succ fuel ih =>
    cases queue with
    | nil =>
      obtain rfl := Option.some.inj h
      exact ⟨List.nodup_nil, by simp, by simp, by simp, by simp⟩
    | cons x queue =>
      rw [visitOrder] at h
      split_ifs at h with hx
      · -- The element is skipped.
        have hspec := ih h
        refine ⟨hspec.nodup, hspec.fresh, ?_, hspec.closed, ?_⟩
        · intro y hy
          rcases List.mem_cons.mp hy with rfl | hy
          · exact Or.inl hx
          · exact hspec.queued y hy
        · intro pre y post heq
          exact (hspec.behind pre y post heq).imp (List.mem_cons_of_mem x) id
      · obtain ⟨out, hout, rfl⟩ := Option.map_eq_some_iff.mp h
        have hspec := ih hout
        have hvis : ∀ y, y ∈ x :: visited ∨ y ∈ out → y ∈ visited ∨ y ∈ x :: out := by
          intro y hy
          simp only [List.mem_cons] at hy ⊢
          tauto
        refine ⟨?_, ?_, ?_, ?_, ?_⟩
        · refine List.nodup_cons.mpr ⟨fun hmem => ?_, hspec.nodup⟩
          exact hspec.fresh x hmem List.mem_cons_self
        · intro y hy
          rcases List.mem_cons.mp hy with rfl | hy
          · exact hx
          · exact fun hmem => hspec.fresh y hy (List.mem_cons_of_mem x hmem)
        · intro y hy
          rcases List.mem_cons.mp hy with rfl | hy
          · exact Or.inr List.mem_cons_self
          · exact hvis y (hspec.queued y (List.mem_append_left _ hy))
        · intro y hy z hz
          rcases List.mem_cons.mp hy with rfl | hy
          · exact hvis z (hspec.queued z (List.mem_append_right _ hz))
          · exact hvis z (hspec.closed y hy z hz)
        · intro pre y post heq
          cases pre with
          | nil =>
            obtain ⟨rfl, -⟩ := List.cons.inj heq
            exact Or.inl List.mem_cons_self
          | cons p pre =>
            obtain ⟨rfl, hrest⟩ := List.cons.inj heq
            rcases hspec.behind pre y post hrest with hy | ⟨z, hz, hyz⟩
            · rcases List.mem_append.mp hy with hy | hy
              · exact Or.inl (List.mem_cons_of_mem x hy)
              · exact Or.inr ⟨x, List.mem_cons_self, hy⟩
            · exact Or.inr ⟨z, List.mem_cons_of_mem x hz, hyz⟩

/-- The queue itself is visited first. -/
theorem visitOrder_append [DecidableEq α] {next : α → List α} {fuel : Nat}
    {visited queue tail out : List α} (h : visitOrder next fuel visited (queue ++ tail) = some out)
    (hnodup : queue.Nodup) (hfresh : ∀ x ∈ queue, x ∉ visited) :
    ∃ rest, out = queue ++ rest := by
  induction queue generalizing fuel visited tail out with
  | nil => exact ⟨out, rfl⟩
  | cons x queue ih =>
    obtain ⟨hx, hnodup⟩ := List.nodup_cons.mp hnodup
    obtain ⟨hxv, hfresh⟩ := List.forall_mem_cons.mp hfresh
    cases fuel with
    | zero => exact absurd h (by simp [visitOrder])
    | succ fuel =>
      rw [List.cons_append, visitOrder, if_neg hxv, List.append_assoc] at h
      obtain ⟨out, hout, rfl⟩ := Option.map_eq_some_iff.mp h
      obtain ⟨rest, rfl⟩ := ih hout hnodup fun y hy => by
        rw [List.mem_cons, not_or]
        exact ⟨fun heq => hx (heq ▸ hy), hfresh y hy⟩
      exact ⟨rest, rfl⟩

/-- Everything visited is reachable from the queue. -/
theorem VisitOrder.reachable {next : α → List α} {visited queue out : List α}
    (h : VisitOrder next visited queue out) {y : α} (hy : y ∈ out) :
    ∃ x ∈ queue, Relation.ReflTransGen (fun a b => b ∈ next a) x y := by
  -- Induction on the elements in front of `y`.
  obtain ⟨pre, post, heq⟩ := List.append_of_mem hy
  induction hn : pre.length using Nat.strongRecOn generalizing pre y post with
  | ind n ih =>
    rcases h.behind pre y post heq with hq | ⟨x, hx, hyx⟩
    · exact ⟨y, hq, .refl⟩
    · obtain ⟨pre', post', hpre⟩ := List.append_of_mem hx
      have hlt : pre'.length < n := by
        rw [← hn, hpre, List.length_append, List.length_cons]
        omega
      have hout : out = pre' ++ x :: (post' ++ y :: post) := by
        rw [heq, hpre, List.append_assoc, List.cons_append]
      obtain ⟨r, hr, hreach⟩ := ih _ hlt (heq ▸ by simp [hpre]) pre' _ hout rfl
      exact ⟨r, hr, hreach.tail hyx⟩

/-- Everything reachable from the queue of a first visit is visited. -/
theorem VisitOrder.mem_of_reachable {next : α → List α} {queue out : List α}
    (h : VisitOrder next [] queue out) {x y : α} (hx : x ∈ queue)
    (hxy : Relation.ReflTransGen (fun a b => b ∈ next a) x y) : y ∈ out := by
  induction hxy with
  | refl => exact (h.queued x hx).resolve_left List.not_mem_nil
  | tail _ hyz ih => exact (h.closed _ ih _ hyz).resolve_left List.not_mem_nil

section Fuel

variable [DecidableEq α] {next : α → List α}

/-- The work that the unvisited elements of a finite set can still queue. -/
def pending (next : α → List α) (visited : List α) : List α → Nat
  | [] => 0
  | x :: all => (if x ∈ visited then 0 else (next x).length) + pending next visited all

theorem pending_cons_le (visited : List α) (x : α) (all : List α) :
    pending next (x :: visited) all ≤ pending next visited all := by
  induction all with
  | nil => exact Nat.le_refl 0
  | cons y all ih =>
    rw [pending, pending]
    by_cases hy : y ∈ visited
    · rw [if_pos (List.mem_cons_of_mem x hy), if_pos hy]
      omega
    · rw [if_neg hy]
      split_ifs <;> omega

/-- A visit takes its own work off. -/
theorem pending_visit_le {visited all : List α} {x : α} (hall : x ∈ all) (hx : x ∉ visited) :
    pending next (x :: visited) all + (next x).length ≤ pending next visited all := by
  induction all with
  | nil => exact absurd hall List.not_mem_nil
  | cons y all ih =>
    rw [pending, pending]
    rcases List.mem_cons.mp hall with rfl | hall
    · have hle : _ ≤ pending next visited all := pending_cons_le visited x all
      rw [if_pos List.mem_cons_self, if_neg hx]
      omega
    · have ih := ih hall
      by_cases hy : y ∈ visited
      · rw [if_pos (List.mem_cons_of_mem x hy), if_pos hy]
        omega
      · rw [if_neg hy]
        split_ifs <;> omega

/-- More successors, more work. -/
theorem pending_mono {next' : α → List α} (h : ∀ x, (next x).length ≤ (next' x).length)
    (visited all : List α) : pending next visited all ≤ pending next' visited all := by
  induction all with
  | nil => exact Nat.le_refl 0
  | cons x all ih =>
    have hx := h x
    rw [pending, pending]
    split_ifs <;> omega

/-- The loop comes to an end within the work that is left. -/
theorem exists_visitOrder_of_lt {all : List α} (hclosed : ∀ x ∈ all, ∀ y ∈ next x, y ∈ all)
    {fuel : Nat} {visited queue : List α} (hqueue : ∀ x ∈ queue, x ∈ all)
    (hlt : queue.length + pending next visited all < fuel) :
    ∃ out, visitOrder next fuel visited queue = some out := by
  induction fuel generalizing visited queue with
  | zero => exact absurd hlt (Nat.not_lt_zero _)
  | succ fuel ih =>
    cases queue with
    | nil => exact ⟨[], rfl⟩
    | cons x queue =>
      obtain ⟨hxall, hqueue⟩ := List.forall_mem_cons.mp hqueue
      rw [List.length_cons] at hlt
      rw [visitOrder]
      split_ifs with hx
      · exact ih hqueue (by omega)
      · have hqueue' : ∀ y ∈ queue ++ next x, y ∈ all := by
          intro y hy
          rcases List.mem_append.mp hy with hy | hy
          · exact hqueue y hy
          · exact hclosed x hxall y hy
        have hle : _ ≤ pending next visited all := pending_visit_le hxall hx
        obtain ⟨out, hout⟩ :
            ∃ out, visitOrder next fuel (x :: visited) (queue ++ next x) = some out :=
          ih hqueue' (by rw [List.length_append]; omega)
        exact ⟨x :: out, by rw [hout, Option.map_some]⟩

/-- **The loop comes to an end** when its queue stays within a finite set. -/
theorem exists_visitOrder {all visited queue : List α} (hqueue : ∀ x ∈ queue, x ∈ all)
    (hclosed : ∀ x ∈ all, ∀ y ∈ next x, y ∈ all) :
    ∃ fuel out, visitOrder next fuel visited queue = some out :=
  ⟨_, exists_visitOrder_of_lt hclosed hqueue (Nat.lt_succ_self _)⟩

end Fuel

end Topograph
