import Mathlib.Data.Finset.Basic
import Topograph.Lib.GoMap

/-! # Delaying work queues

What a program relies on of a queue that gives each key to one worker at a time: a key that is added
while it is processed is dirty and comes back when the processing is done, and a delayed key waits
until it is due. `WorkQueue` has the operations and what can be observed of a state,
`WorkQueue.Lawful` is what is assumed of them, and `delayingQueue` is a queue that meets the
assumptions. -/

namespace Topograph

universe u

/-- The operations of a delaying work queue, and the keys that can be told apart in a state. -/
structure WorkQueue (κ : Type u) where
  State : Type u
  new : State
  add : State → κ → State
  /-- The next key, which is processed from now on. -/
  get : State → Option (κ × State)
  done : State → κ → State
  /-- At a time, a key is to be added after a delay. -/
  addAfter : State → Nat → κ → Nat → State
  /-- At a time, a delayed key is due and added. -/
  readd : State → Nat → κ → Option State
  shutDown : State → State
  shuttingDown : State → Bool
  queued : State → Set κ
  /-- The keys that have to be processed. -/
  dirty : State → Set κ
  processing : State → Set κ
  /-- The delayed keys that are not due yet. -/
  waiting : State → Set κ

namespace WorkQueue

section Laws

variable {κ : Type u} (Q : WorkQueue κ)

/-- The queue has not forgotten the key. -/
def Pending (q : Q.State) (k : κ) : Prop :=
  k ∈ Q.queued q ∨ k ∈ Q.processing q ∨ k ∈ Q.dirty q ∨ k ∈ Q.waiting q

/-- The operation adds the key, now or later, and does nothing else. -/
structure Adds (q q' : Q.State) (k : κ) : Prop where
  queued : ∀ k' ∈ Q.queued q', k' ∈ Q.queued q ∨ k' = k
  dirty : Q.dirty q ⊆ Q.dirty q'
  processing : Q.processing q' = Q.processing q
  shuttingDown : Q.shuttingDown q' = Q.shuttingDown q
  kept : Q.shuttingDown q = false → k ∈ Q.dirty q' ∨ k ∈ Q.waiting q'

/-- **What is assumed of a work queue.** -/
structure Lawful : Prop where
  queued_new : Q.queued Q.new = ∅
  shuttingDown_new : Q.shuttingDown Q.new = false
  queued_of_dirty : ∀ q, ∀ k ∈ Q.dirty q, k ∉ Q.processing q → k ∈ Q.queued q
  add : ∀ q k, Q.Adds q (Q.add q k) k
  dirty_add : ∀ q k, Q.shuttingDown q = false → k ∈ Q.dirty (Q.add q k)
  addAfter : ∀ q now k delay, Q.Adds q (Q.addAfter q now k delay) k
  readd : ∀ q now k q', Q.readd q now k = some q' → Q.Adds q q' k
  dirty_readd : ∀ q now k q', Q.readd q now k = some q' → Q.shuttingDown q = false → k ∈ Q.dirty q'
  get : ∀ q k q', Q.get q = some (k, q') → k ∈ Q.queued q ∧ k ∈ Q.processing q' ∧
    Q.queued q' ⊆ Q.queued q ∧ Q.shuttingDown q' = Q.shuttingDown q
  queued_done : ∀ q k, ∀ k' ∈ Q.queued (Q.done q k), k' ∈ Q.queued q ∨ k' = k
  dirty_done : ∀ q k, Q.dirty (Q.done q k) = Q.dirty q
  waiting_done : ∀ q k, Q.waiting (Q.done q k) = Q.waiting q
  shuttingDown_done : ∀ q k, Q.shuttingDown (Q.done q k) = Q.shuttingDown q
  queued_shutDown : ∀ q, Q.queued (Q.shutDown q) = Q.queued q
  processing_shutDown : ∀ q, Q.processing (Q.shutDown q) = Q.processing q

end Laws

/-! ## A queue that meets the assumptions -/

/-- The state of a delaying queue. A dirty key that is not processed is queued. -/
structure Delaying (κ : Type u) [DecidableEq κ] where
  queue : List κ
  dirty : Finset κ
  processing : Finset κ
  /-- The times at which delayed keys are due. -/
  waiting : GoMap κ Nat
  shuttingDown : Bool
  queued : ∀ k ∈ dirty, k ∉ processing → k ∈ queue

namespace Delaying

variable {κ : Type u} [DecidableEq κ]

/-- `Add`: a key that is processed waits until it is done. -/
def add (q : Delaying κ) (k : κ) : Delaying κ :=
  if q.shuttingDown || k ∈ q.dirty then q
  else if hk : k ∈ q.processing then
    { q with
      dirty := insert k q.dirty
      queued := fun k' hk' hproc =>
        (Finset.mem_insert.mp hk').elim (fun h => absurd hk (h ▸ hproc)) fun h =>
          q.queued k' h hproc }
  else
    { q with
      dirty := insert k q.dirty, queue := q.queue ++ [k]
      queued := fun k' hk' hproc => (Finset.mem_insert.mp hk').elim
        (fun h => List.mem_append_right _ (List.mem_singleton.mpr h))
        fun h => List.mem_append_left _ (q.queued k' h hproc) }

/-- The first key of the queue. -/
def get (q : Delaying κ) : Option (κ × Delaying κ) :=
  match hq : q.queue with
  | [] => none
  | k :: rest => some (k,
    { q with
      queue := rest, processing := insert k q.processing, dirty := q.dirty.erase k
      queued := fun k' hk' hproc => by
        obtain ⟨hne, hdirty⟩ := Finset.mem_erase.mp hk'
        have hmem := q.queued k' hdirty fun h => hproc (Finset.mem_insert_of_mem h)
        exact (List.mem_cons.mp (hq ▸ hmem)).resolve_left hne })

/-- A key that became dirty is queued again. -/
def done (q : Delaying κ) (k : κ) : Delaying κ :=
  { q with
    processing := q.processing.erase k
    queue := if k ∈ q.dirty then q.queue ++ [k] else q.queue
    queued := fun k' hk' hproc => by
      by_cases heq : k' = k
      · rw [if_pos (heq ▸ hk'), heq]
        exact List.mem_append_right _ List.mem_cons_self
      · have hmem := q.queued k' hk' fun h => hproc (Finset.mem_erase.mpr ⟨heq, h⟩)
        split_ifs
        · exact List.mem_append_left _ hmem
        · exact hmem }

/-- A key waits at most once, until the earlier of its due times. -/
def addAfter (q : Delaying κ) (now : Nat) (k : κ) (delay : Nat) : Delaying κ :=
  if q.shuttingDown then q
  else if delay = 0 then q.add k
  else
    let due := ((q.waiting.lookup k).map (min (now + delay))).getD (now + delay)
    { q with waiting := q.waiting.insert k due }

/-- The due time of a waiting key has come. -/
def readd (q : Delaying κ) (now : Nat) (k : κ) : Option (Delaying κ) :=
  match q.waiting.lookup k with
  | some due => if due ≤ now then some (add { q with waiting := q.waiting.erase k } k) else none
  | none => none

end Delaying

variable {κ : Type u} [DecidableEq κ]

/-- The delaying queue. -/
def delayingQueue (κ : Type u) [DecidableEq κ] : WorkQueue κ where
  State := Delaying κ
  new := { queue := [], dirty := ∅, processing := ∅, waiting := ∅, shuttingDown := false,
           queued := by simp }
  add := Delaying.add
  get := Delaying.get
  done := Delaying.done
  addAfter := Delaying.addAfter
  readd := Delaying.readd
  shutDown q := { q with shuttingDown := true }
  shuttingDown := Delaying.shuttingDown
  queued q := {k | k ∈ q.queue}
  dirty q := q.dirty
  processing q := q.processing
  waiting q := {k | k ∈ q.waiting}

theorem adds_add (q : Delaying κ) (k : κ) : (delayingQueue κ).Adds q (q.add k) k := by
  unfold Delaying.add
  split_ifs with hskip hproc
  · refine ⟨fun _ => Or.inl, Set.Subset.rfl, rfl, rfl, fun (hshut : q.shuttingDown = false) => ?_⟩
    rw [hshut, Bool.false_or, decide_eq_true_iff] at hskip
    exact Or.inl hskip
  · exact ⟨fun _ => Or.inl, Finset.subset_insert k q.dirty, rfl, rfl,
      fun _ => Or.inl (Finset.mem_insert_self k q.dirty)⟩
  · refine ⟨fun k' hk' => ?_, Finset.subset_insert k q.dirty, rfl, rfl,
      fun _ => Or.inl (Finset.mem_insert_self k q.dirty)⟩
    exact (List.mem_append.mp hk').imp_right List.mem_singleton.mp

theorem mem_dirty_add (q : Delaying κ) (k : κ) (h : q.shuttingDown = false) :
    k ∈ (q.add k).dirty := by
  unfold Delaying.add
  split_ifs with hskip
  · rwa [h, Bool.false_or, decide_eq_true_iff] at hskip
  · exact Finset.mem_insert_self k q.dirty
  · exact Finset.mem_insert_self k q.dirty

theorem adds_addAfter (q : Delaying κ) (now : Nat) (k : κ) (delay : Nat) :
    (delayingQueue κ).Adds q (q.addAfter now k delay) k := by
  unfold Delaying.addAfter
  split_ifs with hshut
  · exact ⟨fun _ => Or.inl, Set.Subset.rfl, rfl, rfl,
      fun hnot => absurd (hshut.symm.trans hnot) (by simp)⟩
  · exact adds_add q k
  · exact ⟨fun _ => Or.inl, Set.Subset.rfl, rfl, rfl,
      fun _ => Or.inr (AList.mem_insert _ |>.mpr (Or.inl rfl))⟩

/-- A due key is added, and no longer waits. -/
theorem readd_eq_some {q q' : Delaying κ} {now : Nat} {k : κ} (h : q.readd now k = some q') :
    q' = Delaying.add { q with waiting := q.waiting.erase k } k := by
  unfold Delaying.readd at h
  split at h
  · split_ifs at h
    exact (Option.some.inj h).symm
  · exact absurd h (by simp)

/-- `Get` takes the first key of the queue. -/
theorem get_eq_some {q q' : Delaying κ} {k : κ} (h : q.get = some (k, q')) :
    q.queue = k :: q'.queue ∧ q'.processing = insert k q.processing ∧
      q'.shuttingDown = q.shuttingDown := by
  unfold Delaying.get at h
  split at h
  · exact absurd h (by simp)
  · next head rest hqueue =>
      obtain ⟨rfl, rfl⟩ := Prod.mk.inj (Option.some.inj h)
      exact ⟨hqueue, rfl, rfl⟩

/-- **The assumptions can be met.** -/
theorem delayingQueue_lawful : (delayingQueue κ).Lawful where
  queued_new := Set.eq_empty_of_forall_notMem fun k => List.not_mem_nil
  shuttingDown_new := rfl
  queued_of_dirty q := q.queued
  add := adds_add
  dirty_add := mem_dirty_add
  addAfter := adds_addAfter
  readd q now k q' h := by
    obtain rfl := readd_eq_some h
    obtain ⟨hqueued, hdirty, hproc, hshut, hkept⟩ :=
      adds_add { q with waiting := q.waiting.erase k } k
    exact ⟨hqueued, hdirty, hproc, hshut, hkept⟩
  dirty_readd q now k q' h hshut := by
    obtain rfl := readd_eq_some h
    exact mem_dirty_add _ k hshut
  get q k q' h := by
    obtain ⟨hqueue, hproc, hshut⟩ := get_eq_some h
    refine ⟨?_, ?_, fun k' hk' => ?_, hshut⟩
    · exact show k ∈ q.queue from hqueue ▸ List.mem_cons_self
    · exact show k ∈ q'.processing from hproc ▸ Finset.mem_insert_self k _
    · exact show k' ∈ q.queue from hqueue ▸ List.mem_cons_of_mem k hk'
  queued_done q k k' hk' := by
    change k' ∈ (if k ∈ q.dirty then q.queue ++ [k] else q.queue) at hk'
    split_ifs at hk'
    · exact (List.mem_append.mp hk').imp_right List.mem_singleton.mp
    · exact Or.inl hk'
  dirty_done q k := rfl
  waiting_done q k := rfl
  shuttingDown_done q k := rfl
  queued_shutDown q := rfl
  processing_shutDown q := rfl

end WorkQueue

end Topograph
