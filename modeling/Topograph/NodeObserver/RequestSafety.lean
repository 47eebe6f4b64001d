import Topograph.NodeObserver.StatusInformer

/-! # The node observer loses no request

Over every run of the informer, the key of the queue stands for the requests that are not completed:
it is dirty from the moment at which a generation is newer than the one that the worker has read,
and it is dirty or waits while a generation that was attempted is not completed (`Awake`). A
completed generation was reconciled with success after it was requested (`Reconciled`). -/

namespace Topograph.NodeObserver

open Topograph.Runs

/-! ## What a step can do -/

variable {Q : WorkQueue String}

/-- The steps of the informer, with their guards. -/
inductive Step (s : StatusInformer Q) : Event → StatusInformer Q → Prop
  | request :
      Step s .request { s with requestedGeneration := (s.requestedGeneration + 1) % 2 ^ 64,
                               adding := s.adding + 1 }
  | enqueue : Step s .enqueue
      { s with adding := s.adding - 1, queue := Q.add s.queue topologyQueueKey }
  | tick (duration : Nat) : Step s (.tick duration) { s with now := s.now + duration }
  | readd (q : Q.State) (hreadd : Q.readd s.queue s.now topologyQueueKey = some q) :
      Step s .readd { s with queue := q }
  | cancel : Step s .cancel { s with cancelled := true }
  | shutDown (hcancelled : s.cancelled = true) :
      Step s .shutDown { s with queue := Q.shutDown s.queue }
  | get (key : String) (q : Q.State) (hphase : s.phase = .idle)
      (hget : Q.get s.queue = some (key, q)) :
      Step s .get { s with queue := q, phase := .taken }
  | exit (hphase : s.phase = .idle) (hshut : Q.shuttingDown s.queue = true) :
      Step s .get { s with phase := .stopped }
  | load (hphase : s.phase = .taken) :
      Step s .load { s with phase := .loaded s.requestedGeneration }
  | discard (g : Nat) (hphase : s.phase = .loaded g) (hle : g ≤ s.completedGeneration) :
      Step s .check { s with phase := .finished true }
  | early (g : Nat) (hphase : s.phase = .loaded g) (heq : g = s.attemptedGeneration) :
      Step s .check { s with phase := .postponing g }
  | ready (g : Nat) (hphase : s.phase = .loaded g) (hlt : s.completedGeneration < g)
      (hdue : g = s.attemptedGeneration → s.retryNotBefore ≤ s.now) :
      Step s .check { s with phase := .ready g }
  | postpone (g : Nat) (hphase : s.phase = .postponing g) : Step s .postpone
      { s with
        queue := Q.addAfter s.queue s.now topologyQueueKey (s.retryNotBefore - s.now)
        phase := .finished true }
  | start (g : Nat) (hphase : s.phase = .ready g) : Step s .start { s with phase := .reconciling g }
  | returned (g : Nat) (o : Outcome) (hphase : s.phase = .reconciling g) :
      Step s (.returned o) { s with phase := .returned g (reconcile s.hasReqFunc s.cancelled o) }
  | abandon (g : Nat) (result : Nat × Option String) (hphase : s.phase = .returned g result)
      (hcancelled : s.cancelled = true) :
      Step s .settle { s with phase := .finished false }
  | retry (g : Nat) (result : Nat × Option String) (delay : Nat)
      (hphase : s.phase = .returned g result) : Step s .settle
      { s with attemptedGeneration := g, retryNotBefore := s.now + delay,
               phase := .requeueing delay }
  | complete (g : Nat) (hphase : s.phase = .returned g (0, none))
      (hcancelled : s.cancelled = false) : Step s .settle
      { s with attemptedGeneration := g, retryNotBefore := 0, completedGeneration := g,
               phase := .finished true }
  | requeue (delay : Nat) (hphase : s.phase = .requeueing delay) :
      Step s .requeue { s with queue := Q.addAfter s.queue s.now topologyQueueKey delay,
                               phase := .finished true }
  | done (continues : Bool) (hphase : s.phase = .finished continues) : Step s .done
      { s with queue := Q.done s.queue topologyQueueKey,
               phase := if continues then .idle else .stopped }

variable {s s' : StatusInformer Q} {e : Event} {g : Nat}

theorem Step.of_check (hphase : s.phase = .loaded g) :
    Step s .check { s with phase := s.check g } := by
  unfold StatusInformer.check
  split_ifs with hle hearly
  · exact .discard g hphase hle
  · exact .early g hphase hearly.1
  · exact .ready g hphase (Nat.lt_of_not_le hle) fun heq => Nat.le_of_not_lt fun hlt =>
      hearly ⟨heq, hlt⟩

variable {result : Nat × Option String}

theorem Step.of_settle (hphase : s.phase = .returned g result) :
    Step s .settle (s.settle g result) := by
  obtain ⟨requeueAfter, err⟩ := result
  simp only [StatusInformer.settle]
  split_ifs with hcancelled herr hafter
  · exact .abandon g _ hphase hcancelled
  · exact .retry g _ s.retryDelay hphase
  · exact .retry g _ requeueAfter hphase
  · have hnone : err = none := by simpa using herr
    have hzero : requeueAfter = 0 := by omega
    exact .complete g (by rw [hphase, hnone, hzero]) (by simpa using hcancelled)

/-- What a step of the informer can do. -/
theorem Step.of_step (h : step s e = some s') : Step s e s' := by
  cases e with
  | request => exact Option.some.inj h ▸ .request
  | enqueue =>
    simp only [step] at h
    split_ifs at h
    exact Option.some.inj h ▸ .enqueue
  | tick duration => exact Option.some.inj h ▸ .tick duration
  | readd =>
    obtain ⟨q, hq, rfl⟩ := Option.map_eq_some_iff.mp h
    exact .readd q hq
  | cancel => exact Option.some.inj h ▸ .cancel
  | shutDown =>
    simp only [step] at h
    split_ifs at h with hcancelled
    exact Option.some.inj h ▸ .shutDown hcancelled
  | get =>
    simp only [step] at h
    split at h
    · next key q hphase hget => exact Option.some.inj h ▸ .get key q hphase hget
    · next hphase _ =>
        split_ifs at h with hshut
        exact Option.some.inj h ▸ .exit hphase hshut
    · exact absurd h (by simp)
  | load =>
    simp only [step] at h
    split at h
    · next hphase => exact Option.some.inj h ▸ .load hphase
    · exact absurd h (by simp)
  | check =>
    simp only [step] at h
    split at h
    · next g hphase => exact Option.some.inj h ▸ .of_check hphase
    · exact absurd h (by simp)
  | postpone =>
    simp only [step] at h
    split at h
    · next g hphase => exact Option.some.inj h ▸ .postpone g hphase
    · exact absurd h (by simp)
  | start =>
    simp only [step] at h
    split at h
    · next g hphase => exact Option.some.inj h ▸ .start g hphase
    · exact absurd h (by simp)
  | returned o =>
    simp only [step] at h
    split at h
    · next g hphase => exact Option.some.inj h ▸ .returned g o hphase
    · exact absurd h (by simp)
  | settle =>
    simp only [step] at h
    split at h
    · next g result hphase => exact Option.some.inj h ▸ .of_settle hphase
    · exact absurd h (by simp)
  | requeue =>
    simp only [step] at h
    split at h
    · next delay hphase => exact Option.some.inj h ▸ .requeue delay hphase
    · exact absurd h (by simp)
  | done =>
    simp only [step] at h
    split at h
    · next continues hphase => exact Option.some.inj h ▸ .done continues hphase
    · exact absurd h (by simp)

/-! ## The generations -/

/-- The event counts a generation. -/
def Event.isRequest : Event → Bool
  | .request => true
  | _ => false

/-- The number of generations that were requested. -/
def requests (es : List Event) : Nat := es.countP (·.isRequest)

theorem requests_append_singleton (es : List Event) (e : Event) :
    requests (es ++ [e]) = requests es + if e.isRequest then 1 else 0 := by
  simp [requests, List.countP_append, List.countP_cons]

/-- The generation that the worker has read. -/
def Phase.generation : Phase → Option Nat
  | .loaded g | .postponing g | .ready g | .reconciling g | .returned g _ => some g
  | _ => none

/-- The generation that the worker is about to reconcile or has just reconciled. -/
def Phase.reconciles : Phase → Option Nat
  | .ready g | .reconciling g | .returned g _ => some g
  | _ => none

variable {p : Phase}

theorem Phase.generation_of_reconciles (h : p.reconciles = some g) : p.generation = some g := by
  cases p <;> simp_all [Phase.reconciles, Phase.generation]

/-- What holds between the fields when `n` generations were requested. -/
structure Facts (n : Nat) (s : StatusInformer Q) : Prop where
  requested : s.requestedGeneration = n
  attempted : s.attemptedGeneration ≤ n
  completed : s.completedGeneration ≤ s.attemptedGeneration
  key : ∀ k ∈ Q.queued s.queue, k = topologyQueueKey
  shutDown : Q.shuttingDown s.queue = true → s.cancelled = true
  processing : s.phase ≠ .idle → s.phase ≠ .stopped → topologyQueueKey ∈ Q.processing s.queue
  read : ∀ g, s.phase.generation = some g → s.attemptedGeneration ≤ g ∧ g ≤ n
  reconciles : ∀ g, s.phase.reconciles = some g → s.completedGeneration < g
  postponing : ∀ g, s.phase = .postponing g → g = s.attemptedGeneration
  due : ∀ g, s.phase = .ready g → g = s.attemptedGeneration → s.retryNotBefore ≤ s.now
  ended : s.phase = .finished false ∨ s.phase = .stopped → s.cancelled = true

theorem Facts.new (hQ : Q.Lawful) (retryDelay : Int) (hasReqFunc : Bool) (now : Nat) :
    Facts 0 (newStatusInformer Q retryDelay hasReqFunc now) where
  requested := rfl
  attempted := Nat.le_refl 0
  completed := Nat.le_refl 0
  key k hk := absurd (hQ.queued_new ▸ hk) (Set.notMem_empty k)
  shutDown h := absurd (hQ.shuttingDown_new.symm.trans h) Bool.false_ne_true
  processing h := absurd rfl h
  read g h := absurd h (by simp [newStatusInformer, Phase.generation])
  reconciles g h := absurd h (by simp [newStatusInformer, Phase.reconciles])
  postponing g h := absurd h (by simp [newStatusInformer])
  due g h := absurd h (by simp [newStatusInformer])
  ended h := absurd h (by simp [newStatusInformer])

variable {n : Nat}

/-- A phase in which nothing has been read is reached. -/
theorem Facts.withPhase (h : Facts n s) (hgen : p.generation = none)
    (hproc : p ≠ .idle → p ≠ .stopped → topologyQueueKey ∈ Q.processing s.queue)
    (hended : p = .finished false ∨ p = .stopped → s.cancelled = true) :
    Facts n { s with phase := p } :=
  { h with
    processing := hproc
    read := fun g hg => absurd (hgen ▸ hg) (by simp)
    reconciles := fun g hg => absurd (hgen ▸ Phase.generation_of_reconciles hg) (by simp)
    postponing := fun g (hg : p = .postponing g) =>
      absurd hgen (by rw [hg]; simp [Phase.generation])
    due := fun g (hg : p = .ready g) => absurd hgen (by rw [hg]; simp [Phase.generation])
    ended := hended }

/-- A phase of the same generation is reached. -/
theorem Facts.withRead (h : Facts n s) (hgen : p.generation = some g)
    (hproc : topologyQueueKey ∈ Q.processing s.queue) (hread : s.attemptedGeneration ≤ g ∧ g ≤ n)
    (hrec : p.reconciles = some g → s.completedGeneration < g)
    (hpost : p = .postponing g → g = s.attemptedGeneration)
    (hdue : p = .ready g → g = s.attemptedGeneration → s.retryNotBefore ≤ s.now) :
    Facts n { s with phase := p } := by
  have heq {g' : Nat} (hg' : p.generation = some g') : g = g' :=
    Option.some.inj (hgen.symm.trans hg')
  exact { h with
    processing := fun _ _ => hproc
    read := fun g' hg' => heq hg' ▸ hread
    reconciles := fun g' hg' => heq (Phase.generation_of_reconciles hg') ▸
      hrec (heq (Phase.generation_of_reconciles hg') ▸ hg')
    postponing := fun g' (hg' : p = .postponing g') => heq (by rw [hg']; rfl) ▸
      hpost (heq (by rw [hg']; rfl) ▸ hg')
    due := fun g' (hg' : p = .ready g') => heq (by rw [hg']; rfl) ▸
      hdue (heq (by rw [hg']; rfl) ▸ hg')
    ended := fun (hend : p = .finished false ∨ p = .stopped) => by
      rcases hend with rfl | rfl <;> exact absurd hgen (by simp [Phase.generation]) }

/-- The key is added to the queue. -/
theorem Facts.withQueue (h : Facts n s) {q : Q.State} (hq : Q.Adds s.queue q topologyQueueKey) :
    Facts n { s with queue := q } :=
  { h with
    key := fun k hk => (hq.queued k hk).elim (h.key k) id
    shutDown := fun hshut => h.shutDown (hq.shuttingDown ▸ hshut)
    processing := fun hidle hstopped => hq.processing ▸ h.processing hidle hstopped }

/-- Another generation was attempted. -/
theorem Facts.attempt {n g : Nat} (h : Facts n s) (hgen : s.phase.generation = some g) (t c : Nat)
    (hc : c ≤ g) (hp : p.generation = none)
    (hproc : p ≠ .idle ∧ p ≠ .stopped ∧ p ≠ .finished false) :
    Facts n { s with attemptedGeneration := g, retryNotBefore := t, completedGeneration := c,
                     phase := p } :=
  { h with
    attempted := (h.read g hgen).2
    completed := hc
    processing := fun _ _ => by
      refine h.processing ?_ ?_ <;> intro hphase <;> rw [hphase] at hgen <;>
        exact absurd hgen (by simp [Phase.generation])
    read := fun g' hg' => absurd (hp ▸ hg') (by simp)
    reconciles := fun g' hg' => absurd (hp ▸ Phase.generation_of_reconciles hg') (by simp)
    postponing := fun g' (hg' : p = .postponing g') =>
      absurd hp (by rw [hg']; simp [Phase.generation])
    due := fun g' (hg' : p = .ready g') => absurd hp (by rw [hg']; simp [Phase.generation])
    ended := fun hend => hend.elim (fun hf => absurd hf hproc.2.2) fun hf => absurd hf hproc.2.1 }

/-- **Every step keeps the facts.** -/
theorem Facts.step (hQ : Q.Lawful) (h : Facts n s) (hn : n + 1 < 2 ^ 64 ∨ e.isRequest = false)
    (hstep : Step s e s') : Facts (n + if e.isRequest then 1 else 0) s' := by
  -- The worker has the key while it is busy.
  have busy : ∀ p, s.phase = p → p ≠ .idle → p ≠ .stopped →
      topologyQueueKey ∈ Q.processing s.queue :=
    fun p hp hidle hstopped => h.processing (hp ▸ hidle) (hp ▸ hstopped)
  cases hstep with
  | request =>
    have hlt : n + 1 < 2 ^ 64 := hn.resolve_right (by simp [Event.isRequest])
    refine { h with
      requested := ?_, attempted := Nat.le_succ_of_le h.attempted
      read := fun g hg => ⟨(h.read g hg).1, Nat.le_succ_of_le (h.read g hg).2⟩ }
    show (s.requestedGeneration + 1) % 2 ^ 64 = n + 1
    rw [h.requested, Nat.mod_eq_of_lt hlt]
  | enqueue =>
    have hq := h.withQueue (hQ.add s.queue topologyQueueKey)
    exact { hq with }
  | tick duration => exact { h with due := fun g hg heq => Nat.le_add_right_of_le (h.due g hg heq) }
  | readd q hreadd => exact h.withQueue (hQ.readd _ _ _ _ hreadd)
  | cancel => exact { h with shutDown := fun _ => rfl, ended := fun _ => rfl }
  | shutDown hcancelled =>
    exact { h with
      key := fun k hk => h.key k (hQ.queued_shutDown s.queue ▸ hk)
      shutDown := fun _ => hcancelled
      processing := fun hidle hstopped => hQ.processing_shutDown s.queue ▸
        h.processing hidle hstopped }
  | get key q hphase hget =>
    obtain ⟨hmem, hproc, hsub, hshut⟩ := hQ.get _ _ _ hget
    have hkey := h.key key hmem
    exact { h with
      key := fun k hk => h.key k (hsub hk), shutDown := fun hs => h.shutDown (hshut ▸ hs)
      processing := fun _ _ => hkey ▸ hproc
      read := fun g hg => absurd hg (by simp [Phase.generation])
      reconciles := fun g hg => absurd hg (by simp [Phase.reconciles])
      postponing := fun g hg => absurd hg (by simp)
      due := fun g hg => absurd hg (by simp)
      ended := fun hend => absurd hend (by simp) }
  | exit hphase hshut =>
    exact h.withPhase rfl (fun _ hstopped => absurd rfl hstopped) fun _ => h.shutDown hshut
  | load hphase =>
    exact h.withRead rfl (busy _ hphase (by simp) (by simp)) ⟨h.requested ▸ h.attempted,
      h.requested.le⟩
      (by simp [Phase.reconciles]) (by simp) (by simp)
  | discard g hphase hle =>
    exact h.withPhase rfl (fun _ _ => busy _ hphase (by simp) (by simp)) (by simp)
  | early g hphase heq =>
    exact h.withRead rfl (busy _ hphase (by simp) (by simp)) (h.read g (by rw [hphase]; rfl))
      (by simp [Phase.reconciles])
      (fun _ => heq) (by simp)
  | ready g hphase hlt hdue =>
    exact h.withRead rfl (busy _ hphase (by simp) (by simp)) (h.read g (by rw [hphase]; rfl))
      (fun _ => hlt) (by simp)
      fun _ => hdue
  | postpone g hphase =>
    have hq := h.withQueue (hQ.addAfter s.queue s.now topologyQueueKey (s.retryNotBefore - s.now))
    exact hq.withPhase rfl (fun _ _ => hq.processing (by simp [hphase]) (by simp [hphase]))
      (by simp)
  | start g hphase | returned g o hphase =>
    exact h.withRead rfl (busy _ hphase (by simp) (by simp)) (h.read g (by rw [hphase]; rfl))
      (fun _ => h.reconciles g (by rw [hphase]; rfl)) (by simp) (by simp)
  | abandon g result hphase hcancelled =>
    exact h.withPhase rfl (fun _ _ => busy _ hphase (by simp) (by simp)) fun _ => hcancelled
  | retry g result delay hphase =>
    have hlt := h.reconciles g (by rw [hphase]; rfl)
    exact h.attempt (by rw [hphase]; rfl) _ _ (Nat.le_of_lt hlt) rfl (by simp)
  | complete g hphase hcancelled =>
    exact h.attempt (by rw [hphase]; rfl) _ _ (Nat.le_refl g) rfl (by simp)
  | requeue delay hphase =>
    have hq := h.withQueue (hQ.addAfter s.queue s.now topologyQueueKey delay)
    exact hq.withPhase rfl (fun _ _ => hq.processing (by simp [hphase]) (by simp [hphase]))
      (by simp)
  | done continues hphase =>
    refine { h with
      key := fun k hk => (hQ.queued_done _ _ k hk).elim (h.key k) id
      shutDown := fun hs => h.shutDown (hQ.shuttingDown_done _ _ ▸ hs)
      processing := ?_, read := ?_, reconciles := ?_, postponing := ?_, due := ?_, ended := ?_ }
    all_goals cases continues
    all_goals try simp [Phase.generation, Phase.reconciles]
    exact h.ended (Or.inl hphase)

theorem Facts.notShuttingDown (h : Facts n s) (hcancelled : s.cancelled = false) :
    Q.shuttingDown s.queue = false := by
  cases hshut : Q.shuttingDown s.queue with
  | false => rfl
  | true => exact absurd (h.shutDown hshut) (by simp [hcancelled])

/-! ## No request is lost -/

/-- The generation up to which the worker takes care of the requests, if it will not read it again
before it is done. -/
def StatusInformer.covered (s : StatusInformer Q) : Option Nat :=
  if s.phase = .taken then none else some (s.phase.generation.getD s.attemptedGeneration)

/-- The key stands for the requests that the worker does not know, and for those that it could not
complete. -/
structure Awake (s : StatusInformer Q) : Prop where
  fresh : ∀ g, s.covered = some g → g < s.requestedGeneration → topologyQueueKey ∈ Q.dirty s.queue
  kept : s.phase = .idle ∨ (∃ continues, s.phase = .finished continues) →
    s.completedGeneration < s.requestedGeneration →
    topologyQueueKey ∈ Q.dirty s.queue ∨ topologyQueueKey ∈ Q.waiting s.queue

/-- An informer whose key is queued is awake. -/
theorem Awake.of_dirty (h : topologyQueueKey ∈ Q.dirty s.queue) : Awake s :=
  ⟨fun _ _ _ => h, fun _ _ => Or.inl h⟩

theorem Awake.fresh_of_generation (h : Awake s) (hgen : s.phase.generation = some g)
    (hlt : g < s.requestedGeneration) : topologyQueueKey ∈ Q.dirty s.queue := by
  refine h.fresh g ?_ hlt
  have htaken : s.phase ≠ .taken := by
    intro hphase
    rw [hphase] at hgen
    exact absurd hgen (by simp [Phase.generation])
  rw [StatusInformer.covered, if_neg htaken, hgen, Option.getD_some]

/-- The worker knows what it knew before, and is not done. -/
theorem Awake.of_busy (hcovered : s'.covered = some g) (hidle : s'.phase ≠ .idle)
    (hfinished : ∀ continues, s'.phase ≠ .finished continues)
    (h : g < s'.requestedGeneration → topologyQueueKey ∈ Q.dirty s'.queue) : Awake s' where
  fresh g' hg' hlt := by
    obtain rfl := Option.some.inj (hcovered.symm.trans hg')
    exact h hlt
  kept hdone := hdone.elim (fun h' => absurd h' hidle) fun ⟨continues, h'⟩ =>
    absurd h' (hfinished continues)

/-- **Every step keeps the informer awake.** -/
theorem Awake.step (hQ : Q.Lawful) (hf : Facts n s)
    (h : s.cancelled = false → s.adding = 0 → Awake s) (hstep : Step s e s')
    (hcancelled : s'.cancelled = false) (hadding : s'.adding = 0) : Awake s' := by
  cases hstep with
  | request => exact absurd hadding (Nat.succ_ne_zero _)
  | enqueue =>
    have hshut := hf.notShuttingDown hcancelled
    exact .of_dirty (hQ.dirty_add _ _ hshut)
  | tick duration => exact ⟨(h hcancelled hadding).fresh, (h hcancelled hadding).kept⟩
  | readd q hreadd =>
    have hshut := hf.notShuttingDown hcancelled
    exact .of_dirty (hQ.dirty_readd _ _ _ _ hreadd hshut)
  | cancel => exact absurd hcancelled (by simp)
  | shutDown htrue | abandon g result hphase htrue => exact absurd hcancelled (by simp [htrue])
  | get key q hphase hget =>
    exact ⟨fun g hg => absurd hg (by simp [StatusInformer.covered]), by simp⟩
  | exit hphase hshut => exact absurd hcancelled (by simp [hf.shutDown hshut])
  | load hphase =>
    exact .of_busy (g := s.requestedGeneration) rfl (by simp) (by simp) fun hlt =>
      absurd hlt (Nat.lt_irrefl _)
  | discard g hphase hle =>
    have hgen : s.phase.generation = some g := by rw [hphase]; rfl
    have hdirty := (h hcancelled hadding).fresh_of_generation hgen
    have hcompleted := hf.completed
    refine ⟨fun g' hg' hlt => hdirty ?_, fun _ hlt => Or.inl (hdirty (Nat.lt_of_le_of_lt hle hlt))⟩
    -- The generation that was read is completed, so it was attempted.
    obtain rfl : s.attemptedGeneration = g' := by
      simpa [StatusInformer.covered, Phase.generation] using hg'
    exact Nat.lt_of_le_of_lt (Nat.le_trans hle hcompleted) hlt
  | early g hphase heq | ready g hphase hlt hdue | start g hphase | returned g o hphase
  | retry g result delay hphase =>
    exact .of_busy (g := g) rfl (by simp) (by simp)
      ((h hcancelled hadding).fresh_of_generation (by rw [hphase]; rfl))
  | postpone g hphase =>
    have hshut := hf.notShuttingDown hcancelled
    refine ⟨fun g' hg' hlt => ?_, fun _ _ => (hQ.addAfter _ _ _ _).kept hshut⟩
    obtain rfl : s.attemptedGeneration = g' := by
      simpa [StatusInformer.covered, Phase.generation] using hg'
    have hgen : s.phase.generation = some s.attemptedGeneration := by
      rw [hphase, ← hf.postponing g hphase]
      rfl
    exact (hQ.addAfter _ _ _ _).dirty ((h hcancelled hadding).fresh_of_generation hgen hlt)
  | complete g hphase _ =>
    have hdirty := (h hcancelled hadding).fresh_of_generation (g := g) (by rw [hphase]; rfl)
    refine ⟨fun g' hg' hlt => hdirty ?_, fun _ hlt => Or.inl (hdirty hlt)⟩
    obtain rfl : g = g' := by simpa [StatusInformer.covered, Phase.generation] using hg'
    exact hlt
  | requeue delay hphase =>
    have hshut := hf.notShuttingDown hcancelled
    refine ⟨fun g' hg' hlt => ?_, fun _ _ => (hQ.addAfter _ _ _ _).kept hshut⟩
    obtain rfl : s.attemptedGeneration = g' := by
      simpa [StatusInformer.covered, Phase.generation] using hg'
    refine (hQ.addAfter _ _ _ _).dirty ((h hcancelled hadding).fresh _ ?_ hlt)
    simp [StatusInformer.covered, hphase, Phase.generation]
  | done continues hphase =>
    cases continues with
    | false => exact absurd hcancelled (by simp [hf.ended (Or.inl hphase)])
    | true =>
      have hawake := h hcancelled hadding
      refine ⟨fun g' hg' hlt => ?_, fun _ hlt => ?_⟩
      · have hcovered : s.covered = some g' := by
          simpa [StatusInformer.covered, hphase, Phase.generation] using hg'
        rw [hQ.dirty_done s.queue topologyQueueKey]
        exact hawake.fresh g' hcovered hlt
      · show _ ∈ Q.dirty (Q.done _ _) ∨ _ ∈ Q.waiting (Q.done _ _)
        rw [hQ.dirty_done, hQ.waiting_done]
        exact hawake.kept (Or.inr ⟨true, hphase⟩) hlt

/-! ## Reconciliations -/

/-- The event is the start or the end of a reconciliation. -/
def Event.isReconcile : Event → Bool
  | .start | .returned _ => true
  | _ => false

/-- A reconciliation is running that started when at least `g` generations were requested. -/
def Reconciling (es : List Event) (g : Nat) : Prop :=
  ∃ pre mid, es = pre ++ .start :: mid ∧ (∀ e ∈ mid, e.isReconcile = false) ∧ g ≤ requests pre

/-- A reconciliation that started when at least `g` generations were requested has succeeded. -/
def Reconciled (hasReqFunc : Bool) (es : List Event) (g : Nat) : Prop :=
  ∃ pre mid o post, es = pre ++ .start :: mid ++ .returned o :: post ∧
    (∀ e ∈ mid, e.isReconcile = false) ∧ g ≤ requests pre ∧
    o.Succeeds hasReqFunc

variable {es : List Event}

theorem Reconciling.append (h : Reconciling es g) (he : e.isReconcile = false) :
    Reconciling (es ++ [e]) g := by
  obtain ⟨pre, mid, rfl, hmid, hg⟩ := h
  refine ⟨pre, mid ++ [e], by simp, fun e' he' => ?_, hg⟩
  rcases List.mem_append.mp he' with hmem | hmem
  · exact hmid e' hmem
  · exact List.mem_singleton.mp hmem ▸ he

variable {hasReqFunc : Bool}

/-- A reconciliation that returns without error has reconciled. -/
theorem Reconciling.returned (h : Reconciling es g) {o : Outcome} (ho : o.Succeeds hasReqFunc) :
    Reconciled hasReqFunc (es ++ [.returned o]) g := by
  obtain ⟨pre, mid, rfl, hmid, hg⟩ := h
  exact ⟨pre, mid, o, [], rfl, hmid, hg, ho⟩

theorem Reconciled.append (h : Reconciled hasReqFunc es g) (e : Event) :
    Reconciled hasReqFunc (es ++ [e]) g := by
  obtain ⟨pre, mid, o, post, rfl, hrest⟩ := h
  exact ⟨pre, mid, o, post ++ [e], by simp, hrest⟩

/-- What is reconciled includes earlier generations. -/
theorem Reconciled.mono {g g' : Nat} (h : Reconciled hasReqFunc es g) (hle : g' ≤ g) :
    Reconciled hasReqFunc es g' := by
  obtain ⟨pre, mid, o, post, hes, hmid, hg, ho⟩ := h
  exact ⟨pre, mid, o, post, hes, hmid, Nat.le_trans hle hg, ho⟩

/-- Only a success is reported as such while the context is not cancelled. -/
theorem Outcome.succeeds_of_reconcile {o : Outcome} (h : reconcile hasReqFunc false o = (0, none)) :
    o.Succeeds hasReqFunc := by
  unfold reconcile at h
  by_cases hready : (brokerReady o.broker).1 = true
  · refine ⟨hready, fun hreq => ?_⟩
    cases hresp : o.response with
    | none => rfl
    | some err => exact absurd h (by simp [hready, hreq, hresp])
  · exact absurd (congrArg Prod.fst h) (by simp [hready, defaultBrokerRetryDelay])

/-- What the events so far say about the reconciliations. -/
structure History (hasReqFunc : Bool) (es : List Event) (s : StatusInformer Q) : Prop where
  reqFunc : s.hasReqFunc = hasReqFunc
  reconciling : ∀ g, s.phase = .reconciling g → Reconciling es g
  returned : ∀ g, s.phase = .returned g (0, none) → s.cancelled = false → Reconciled hasReqFunc es g
  completed : 0 < s.completedGeneration → Reconciled hasReqFunc es s.completedGeneration

theorem History.new (retryDelay : Int) (hasReqFunc : Bool) (now : Nat) :
    History hasReqFunc [] (newStatusInformer Q retryDelay hasReqFunc now) where
  reqFunc := rfl
  reconciling g h := absurd h (by simp [newStatusInformer])
  returned g h := absurd h (by simp [newStatusInformer])
  completed h := absurd h (Nat.lt_irrefl 0)

/-- An event that neither starts nor ends a reconciliation, nor completes one. -/
theorem History.of_other (h : History hasReqFunc es s) (he : e.isReconcile = false)
    (hreq : s'.hasReqFunc = s.hasReqFunc)
    (hcompleted : s'.completedGeneration = s.completedGeneration)
    (hcancelled : s'.cancelled = false → s.cancelled = false)
    (hphase : s'.phase = s.phase ∨ s'.phase.reconciles = none ∨ ∃ g, s'.phase = .ready g) :
    History hasReqFunc (es ++ [e]) s' where
  reqFunc := hreq.trans h.reqFunc
  reconciling g hg := by
    rcases hphase with hp | hp | ⟨g', hp⟩
    · exact (h.reconciling g (hp ▸ hg)).append he
    · exact absurd hp (by rw [hg]; simp [Phase.reconciles])
    · exact absurd (hp.symm.trans hg) (by simp)
  returned g hg hc := by
    rcases hphase with hp | hp | ⟨g', hp⟩
    · exact (h.returned g (hp ▸ hg) (hcancelled hc)).append e
    · exact absurd hp (by rw [hg]; simp [Phase.reconciles])
    · exact absurd (hp.symm.trans hg) (by simp)
  completed hpos := hcompleted ▸ (h.completed (hcompleted ▸ hpos)).append e

/-- Every step keeps the history. -/
theorem History.step (hf : Facts (requests es) s) (h : History hasReqFunc es s)
    (hstep : Step s e s') : History hasReqFunc (es ++ [e]) s' := by
  cases hstep with
  | request | enqueue | tick duration | readd q hreadd | shutDown hcancelled =>
    exact h.of_other rfl rfl rfl id (Or.inl rfl)
  | cancel => exact h.of_other rfl rfl rfl (fun hc => absurd hc (by simp)) (Or.inl rfl)
  | get key q hphase hget | exit hphase hshut | load hphase | discard g hphase hle
  | early g hphase heq | postpone g hphase | abandon g result hphase hcancelled
  | retry g result delay hphase | requeue delay hphase =>
    exact h.of_other rfl rfl rfl id (Or.inr (Or.inl rfl))
  | ready g hphase hlt hdue => exact h.of_other rfl rfl rfl id (Or.inr (Or.inr ⟨g, rfl⟩))
  | start g hphase =>
    refine ⟨h.reqFunc, fun g' hg' => ?_, fun g' hg' => absurd hg' (by simp),
      fun hpos => (h.completed hpos).append _⟩
    obtain rfl := Phase.reconciling.inj hg'
    exact ⟨es, [], rfl, by simp, (hf.read g (by rw [hphase]; rfl)).2⟩
  | returned g o hphase =>
    refine ⟨h.reqFunc, fun g' hg' => absurd hg' (by simp), fun g' hg' hc => ?_,
      fun hpos => (h.completed hpos).append _⟩
    obtain ⟨rfl, hresult⟩ := Phase.returned.inj hg'
    have hc : s.cancelled = false := hc
    rw [hc, h.reqFunc] at hresult
    exact (h.reconciling g hphase).returned (Outcome.succeeds_of_reconcile hresult)
  | complete g hphase hcancelled =>
    exact ⟨h.reqFunc, fun g' hg' => absurd hg' (by simp), fun g' hg' => absurd hg' (by simp),
      fun _ => (h.returned g hphase hcancelled).append _⟩
  | done continues hphase =>
    exact h.of_other rfl rfl rfl id (Or.inr (Or.inl (by cases continues <;> rfl)))

/-! ## Repeated attempts -/

/-- A reconciliation of the generation has started: it was attempted, it still runs, or the worker
has stopped. -/
def Tried (s : StatusInformer Q) (g : Nat) : Prop :=
  g ≤ s.attemptedGeneration ∨ s.phase = .reconciling g ∨ (∃ result, s.phase = .returned g result) ∨
    s.phase = .finished false ∨
    s.phase = .stopped

/-- In another phase it was attempted. -/
theorem Tried.attempted (h : Tried s g) (hrec : ∀ g', s.phase ≠ .reconciling g')
    (hret : ∀ g' r, s.phase ≠ .returned g' r) (hend : s.phase ≠ .finished false)
    (hstop : s.phase ≠ .stopped) :
    g ≤ s.attemptedGeneration := by
  rcases h with h | h | ⟨result, h⟩ | h | h
  · exact h
  · exact absurd h (hrec g)
  · exact absurd h (hret g result)
  · exact absurd h hend
  · exact absurd h hstop

/-- When its reconciliation has returned, the generation is not newer than the reconciled one. -/
theorem Tried.le_of_returned {n g g' : Nat} (h : Tried s g) (hf : Facts n s)
    (hphase : s.phase = .returned g' result) : g ≤ g' := by
  rcases h with h | h | ⟨result', h⟩ | h | h
  · exact Nat.le_trans h (hf.read g' (by rw [hphase]; rfl)).1
  · exact absurd (hphase.symm.trans h) (by simp)
  · exact (Phase.returned.inj (hphase.symm.trans h)).1.symm.le
  all_goals exact absurd (hphase.symm.trans h) (by simp)

/-- A generation that was tried stays tried. -/
theorem Tried.step {n g : Nat} (hf : Facts n s) (h : Tried s g) (hstep : Step s e s') :
    Tried s' g := by
  cases hstep with
  | request | enqueue | tick duration | readd q hreadd | cancel | shutDown hcancelled => exact h
  | get key q hphase hget | load hphase | discard g' hphase hle | early g' hphase heq
  | ready g' hphase hlt hdue | postpone g' hphase | start g' hphase | requeue delay hphase =>
    exact Or.inl (h.attempted (by simp [hphase]) (by simp [hphase]) (by simp [hphase])
      (by simp [hphase]))
  | exit hphase hshut => exact Or.inr (Or.inr (Or.inr (Or.inr rfl)))
  | returned g' o hphase =>
    rcases h with h | h | ⟨result, h⟩ | h | h
    · exact Or.inl h
    · obtain rfl := Phase.reconciling.inj (hphase.symm.trans h)
      exact Or.inr (Or.inr (Or.inl ⟨_, rfl⟩))
    all_goals exact absurd (hphase.symm.trans h) (by simp)
  | abandon g' result hphase hcancelled => exact Or.inr (Or.inr (Or.inr (Or.inl rfl)))
  | retry g' result delay hphase | complete g' hphase hcancelled =>
    exact Or.inl (h.le_of_returned hf hphase)
  | done continues hphase =>
    cases continues with
    | false => exact Or.inr (Or.inr (Or.inr (Or.inr rfl)))
    | true =>
      exact Or.inl (h.attempted (by simp [hphase]) (by simp [hphase]) (by simp [hphase])
        (by simp [hphase]))

/-! ## Whole runs -/

/-- The completed generation only grows. -/
theorem completed_le (hf : Facts n s) (hstep : Step s e s') :
    s.completedGeneration ≤ s'.completedGeneration := by
  cases hstep with
  | complete g hphase hcancelled => exact Nat.le_of_lt (hf.reconciles g (by rw [hphase]; rfl))
  | _ => exact Nat.le_refl _

/-- What holds after a run. -/
structure RunInvariant (init : StatusInformer Q) (es : List Event) (s : StatusInformer Q) :
    Prop where
  run : run step init es = some s
  facts : Facts (requests es) s
  awake : s.cancelled = false → s.adding = 0 → Awake s
  history : History init.hasReqFunc es s
  monotone : ∀ pre s₀, pre <+: es → Runs.run step init pre = some s₀ →
    s₀.completedGeneration ≤ s.completedGeneration
  tried : ∀ pre post s₀ g, es = pre ++ .start :: post → Runs.run step init pre = some s₀ →
    s₀.phase = .ready g → Tried s g

theorem RunInvariant.new (hQ : Q.Lawful) (retryDelay : Int) (hasReqFunc : Bool) (now : Nat) :
    RunInvariant (newStatusInformer Q retryDelay hasReqFunc now) []
      (newStatusInformer Q retryDelay hasReqFunc now) where
  run := rfl
  facts := .new hQ retryDelay hasReqFunc now
  awake _ _ := ⟨fun g _ hlt => absurd hlt (Nat.not_lt_zero g),
    fun _ hlt => absurd hlt (Nat.lt_irrefl 0)⟩
  history := .new retryDelay hasReqFunc now
  monotone pre s₀ hpre hrun := by
    obtain rfl := List.prefix_nil.mp hpre
    exact Option.some.inj hrun ▸ Nat.le_refl _
  tried pre post s₀ g h := absurd h (by simp)

/-- Every step keeps the invariant of runs. -/
theorem RunInvariant.step (hQ : Q.Lawful) {init : StatusInformer Q} (h : RunInvariant init es s)
    (hn : requests (es ++ [e]) < 2 ^ 64) (hstep : step s e = some s') :
    RunInvariant init (es ++ [e]) s' := by
  have hcases := Step.of_step hstep
  rw [requests_append_singleton] at hn
  have hfacts := h.facts.step hQ (e := e) (by cases he : e.isRequest <;> simp_all) hcases
  have hrun : Runs.run NodeObserver.step init (es ++ [e]) = some s' := by
    rw [run_append_singleton, h.run]
    exact hstep
  refine ⟨hrun, requests_append_singleton es e ▸ hfacts,
    fun hc ha => .step hQ h.facts h.awake hcases hc ha,
    h.history.step h.facts hcases, fun pre s₀ hpre hs₀ => ?_,
    fun pre post s₀ g hes hs₀ hphase => ?_⟩
  · rcases List.prefix_concat_iff.mp hpre with rfl | hpre
    · exact Option.some.inj (hs₀.symm.trans hrun) ▸ Nat.le_refl _
    · exact Nat.le_trans (h.monotone pre s₀ hpre hs₀) (completed_le h.facts hcases)
  · rcases List.eq_nil_or_concat post with rfl | ⟨post', e', rfl⟩
    · -- The reconciliation starts now.
      obtain ⟨rfl, he⟩ := List.append_inj' hes rfl
      obtain rfl := List.singleton_inj.mp he
      obtain rfl := Option.some.inj (hs₀.symm.trans h.run)
      cases hcases with
      | start g' hphase' =>
        obtain rfl := Phase.ready.inj (hphase.symm.trans hphase')
        exact Or.inr (Or.inl rfl)
    · have hes' : es ++ [e] = (pre ++ .start :: post') ++ [e'] := by simpa using hes
      obtain ⟨hes'', -⟩ := List.append_inj' hes' rfl
      exact (h.tried pre post' s₀ g hes'' hs₀ hphase).step h.facts hcases

/-- **The invariant holds after every run.** -/
theorem runInvariant (hQ : Q.Lawful) {retryDelay : Int} {now : Nat}
    (hrun : run step (newStatusInformer Q retryDelay hasReqFunc now) es = some s)
    (hn : requests es < 2 ^ 64) :
    RunInvariant (newStatusInformer Q retryDelay hasReqFunc now) es s := by
  refine invariant_of_step (I := fun es s => requests es < 2 ^ 64 →
    RunInvariant (newStatusInformer Q retryDelay hasReqFunc now) es s)
    (fun _ => .new hQ retryDelay hasReqFunc now) ?_ hrun hn
  intro es e s s' h hstep hlt
  refine (h ?_).step hQ hlt hstep
  rw [requests_append_singleton] at hlt
  omega

/-- **The node observer never loses a request** while fewer than `2 ^ 64` generations are requested.
After every run:

* without cancellation, and with no `sendRequest` between its statements, an uncompleted generation
  has the key in the queue;
* the completed generation is at most the requested one and has never decreased;
* a generation is completed only after a successful reconciliation that started when it was
  requested;
* a generation is not reconciled again before `retryNotBefore`;
* a generation newer than the attempted one is queued or read by the worker, and what is postponed
  is the attempted one. -/
theorem requests_never_lost (Q : WorkQueue String) (hQ : Q.Lawful) (retryDelay : Int)
    (hasReqFunc : Bool) (now : Nat) (es : List Event) (s : StatusInformer Q)
    (hrun : run step (newStatusInformer Q retryDelay hasReqFunc now) es = some s)
    (hn : requests es < 2 ^ 64) :
    (s.cancelled = false → s.adding = 0 → s.completedGeneration < s.requestedGeneration →
      Q.Pending s.queue topologyQueueKey) ∧
    s.completedGeneration ≤ s.requestedGeneration ∧
    (∀ pre s₀, pre <+: es → run step (newStatusInformer Q retryDelay hasReqFunc now) pre = some s₀ →
      s₀.completedGeneration ≤ s.completedGeneration) ∧
    (∀ g, 0 < g → g ≤ s.completedGeneration → Reconciled hasReqFunc es g) ∧
    (∀ pre mid s₁ s₂ g, pre ++ .start :: mid ++ [.start] <+: es →
      run step (newStatusInformer Q retryDelay hasReqFunc now) pre = some s₁ → s₁.phase = .ready g →
      run step (newStatusInformer Q retryDelay hasReqFunc now) (pre ++ .start :: mid) = some s₂ →
        s₂.phase = .ready g → s₂.attemptedGeneration = g ∧ s₂.retryNotBefore ≤ s₂.now) ∧
    (s.cancelled = false → s.adding = 0 → s.attemptedGeneration < s.requestedGeneration →
      topologyQueueKey ∈ Q.queued s.queue ∨ (topologyQueueKey ∈ Q.dirty s.queue ∧
        topologyQueueKey ∈ Q.processing s.queue) ∨
        s.phase = .taken ∨ s.phase = .loaded s.requestedGeneration ∨
          s.phase.reconciles = some s.requestedGeneration) ∧
    ∀ g, s.phase = .postponing g → g = s.attemptedGeneration := by
  have hinv := runInvariant hQ hrun hn
  have hf := hinv.facts
  refine ⟨fun hc ha hlt => ?_, ?_, hinv.monotone, fun g hpos hle => ?_,
    fun pre mid s₁ s₂ g hpre hs₁ hp₁ hs₂ hp₂ => ?_,
    fun hc ha hlt => ?_, hf.postponing⟩
  · by_cases hidle : s.phase = .idle
    · exact Or.inr (Or.inr ((hinv.awake hc ha).kept (Or.inl hidle) hlt))
    · have hstopped : s.phase ≠ .stopped := fun hp => absurd (hf.ended (Or.inr hp)) (by simp [hc])
      exact Or.inr (Or.inl (hf.processing hidle hstopped))
  · rw [hf.requested]
    exact Nat.le_trans hf.completed hf.attempted
  · exact (hinv.history.completed (Nat.lt_of_lt_of_le hpos hle)).mono hle
  · -- The second attempt is due, and the first one has been recorded.
    have hlt : requests (pre ++ .start :: mid) < 2 ^ 64 := by
      have hsub : (pre ++ .start :: mid).Sublist es := ((List.prefix_append _ _).trans hpre).sublist
      exact Nat.lt_of_le_of_lt hsub.countP_le hn
    have hinv₂ := runInvariant hQ hs₂ hlt
    have hle := (hinv₂.tried pre mid s₁ g rfl hs₁ hp₁).attempted (by simp [hp₂]) (by simp [hp₂])
      (by simp [hp₂]) (by simp [hp₂])
    have heq := Nat.le_antisymm hle (hinv₂.facts.read g (by rw [hp₂]; rfl)).1
    exact ⟨heq.symm, hinv₂.facts.due g hp₂ heq⟩
  · by_cases htaken : s.phase = .taken
    · exact Or.inr (Or.inr (Or.inl htaken))
    have hcovered : s.covered = some (s.phase.generation.getD s.attemptedGeneration) :=
      if_neg htaken
    by_cases hfresh : s.phase.generation.getD s.attemptedGeneration < s.requestedGeneration
    · -- The worker has not read the newest generation, so the key is dirty.
      have hdirty := (hinv.awake hc ha).fresh _ hcovered hfresh
      by_cases hproc : topologyQueueKey ∈ Q.processing s.queue
      · exact Or.inr (Or.inl ⟨hdirty, hproc⟩)
      · exact Or.inl (hQ.queued_of_dirty _ _ hdirty hproc)
    · cases hgen : s.phase.generation with
      | none =>
        rw [hgen, Option.getD_none] at hfresh
        exact absurd hlt hfresh
      | some g =>
        rw [hgen, Option.getD_some] at hfresh
        obtain rfl : g = s.requestedGeneration :=
          Nat.le_antisymm (hf.requested ▸ (hf.read g hgen).2) (Nat.le_of_not_lt hfresh)
        have hpost : s.phase ≠ .postponing s.requestedGeneration :=
          fun hp => Nat.ne_of_gt hlt (hf.postponing _ hp)
        cases hphase : s.phase <;> simp_all [Phase.generation, Phase.reconciles]

/-- A request that fails and is repeated after five minutes. -/
def retriedRun : List Event :=
  [.request, .enqueue, .get, .load, .check, .start, .returned ⟨none, some ⟨502, "bad gateway"⟩⟩,
    .settle, .requeue, .done,
    .tick defaultRetryDelay, .readd, .get, .load, .check, .start, .returned ⟨none, none⟩,
    .settle, .done]

theorem retriedRun_reconciled :
    ∃ s, run step (newStatusInformer (WorkQueue.delayingQueue String) 0 true 1) retriedRun =
      some s ∧ requests retriedRun < 2 ^ 64 ∧ s.completedGeneration = 1 ∧
      Reconciled true retriedRun 1 := by
  refine ⟨_, rfl, by decide, rfl, ?_⟩
  exact (requests_never_lost _ WorkQueue.delayingQueue_lawful 0 true 1 retriedRun _
    rfl (by decide)).2.2.2.1 1 Nat.one_pos (Nat.le_refl 1)

/-! ### The generations are 64-bit numbers -/

/-- Requests alone only count generations up. -/
theorem run_replicate_request (s : StatusInformer Q) (hs : s.requestedGeneration < 2 ^ 64)
    (n : Nat) :
    run step s (List.replicate n .request) =
      some { s with requestedGeneration := (s.requestedGeneration + n) % 2 ^ 64,
                    adding := s.adding + n } := by
  induction n with
  | zero => rw [Nat.add_zero, Nat.add_zero, Nat.mod_eq_of_lt hs]; rfl
  | succ n ih =>
    rw [List.replicate_succ', run_append_singleton, ih, Option.bind_some]
    simp only [step, Option.some.injEq, StatusInformer.mk.injEq, true_and, and_true]
    exact ⟨by omega, by omega⟩

/-- A first request that is completed. -/
def completedRun : List Event :=
  [.request, .enqueue, .get, .load, .check, .start, .returned ⟨none, none⟩, .settle, .done]

/-- **After `2 ^ 64` requests the requested generation is zero again**, below the completed one. -/
theorem requestedGeneration_wraps :
    ∃ es s, run step (newStatusInformer (WorkQueue.delayingQueue String) 0 true 1) es = some s ∧
    requests es = 2 ^ 64 ∧ s.cancelled = false ∧
      s.requestedGeneration < s.completedGeneration := by
  obtain ⟨s, hs, hrequested, hcompleted, hcancelled⟩ :
      ∃ s, run step (newStatusInformer (WorkQueue.delayingQueue String) 0 true 1) completedRun =
      some s ∧
      s.requestedGeneration = 1 ∧ s.completedGeneration = 1 ∧ s.cancelled = false :=
      ⟨_, rfl, rfl, rfl, rfl⟩
  have hwrap : ∀ n, run step (newStatusInformer (WorkQueue.delayingQueue String) 0 true 1)
      (completedRun ++ List.replicate n .request) =
      some { s with requestedGeneration := (s.requestedGeneration + n) % 2 ^ 64,
                    adding := s.adding + n } := by
    intro n
    rw [run_append, hs, Option.bind_some, run_replicate_request s (by omega)]
  have hcount : ∀ n, requests (completedRun ++ List.replicate n .request) = 1 + n := by
    intro n
    rw [requests, List.countP_append, List.countP_replicate]
    rfl
  refine ⟨_, _, hwrap (2 ^ 64 - 1), ?_, hcancelled, ?_⟩
  · rw [hcount]
    omega
  · show (s.requestedGeneration + (2 ^ 64 - 1)) % 2 ^ 64 < s.completedGeneration
    omega

end Topograph.NodeObserver
