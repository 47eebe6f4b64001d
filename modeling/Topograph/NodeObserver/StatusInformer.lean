import Topograph.Httperr
import Topograph.Lib.Runs
import Topograph.Lib.WorkQueue

/-! # The status informer of the node observer (`pkg/node_observer/status_informer.go`)

Every informer event requests a new topology: `sendRequest` counts a generation and adds the one key
of the work queue, and one worker runs `processNextWorkItem` in a loop. The informer is a state
machine. The handlers of informer events run at the same time as the worker, so the two statements
of `sendRequest` are events of their own, and so is everything that the worker does between two
accesses to what it shares with them. -/

namespace Topograph.NodeObserver

/-- `topologyQueueKey`. -/
def topologyQueueKey : String := "cluster-topology"

/-- `defaultRetryDelay` and `defaultBrokerRetryDelay`, in nanoseconds. -/
def defaultRetryDelay : Nat := 5 * 60 * 1000000000
def defaultBrokerRetryDelay : Nat := 10 * 1000000000

/-! ## Reconciliation -/

/-- The part of a DaemonSet that is read. -/
structure DaemonSet where
  inNamespace : String
  name : String
  desiredNumberScheduled : Int
  numberReady : Int

/-- The informer of the node-data-broker: whether it has synchronised, and its store. An item of
another type is `none`. -/
structure BrokerInformer where
  hasSynced : Bool
  items : List (Option DaemonSet)

/-- `brokerDaemonSetReady`. -/
def brokerDaemonSetReady (daemonSet : DaemonSet) : Bool × Option String :=
  if daemonSet.desiredNumberScheduled = 0 then
    (false, some ("node-data-broker DaemonSet " ++ daemonSet.inNamespace ++ "/" ++ daemonSet.name ++
      " has 0 desired replicas; check its node selector, affinity, and tolerations"))
  else (daemonSet.desiredNumberScheduled = daemonSet.numberReady, none)

/-- `brokerReady`. Without a broker there is no factory. -/
def brokerReady : Option BrokerInformer → Bool × Option String
  | none => (true, none)
  | some informer =>
    if !informer.hasSynced then (false, none)
    else
      match informer.items with
      | [some daemonSet] => brokerDaemonSetReady daemonSet
      | _ => (false, none)

/-- What a reconciliation meets: the broker, and the error of the request if it is sent. -/
structure Outcome where
  broker : Option BrokerInformer
  response : Option HTTPError

/-- `reconcile`. The error of `brokerReady` is only logged. -/
def reconcile (hasReqFunc cancelled : Bool) (o : Outcome) : Nat × Option String :=
  if !(brokerReady o.broker).1 then (defaultBrokerRetryDelay, none)
  else if !hasReqFunc then (0, none)
  else
    match o.response with
    | some err =>
      if cancelled then (0, none)
        else (0, some ("failed to send topology generation request: " ++ err.message))
    | none => (0, none)

/-- The broker is ready, and the topology was requested without an error. -/
def Outcome.Succeeds (hasReqFunc : Bool) (o : Outcome) : Prop :=
  (brokerReady o.broker).1 = true ∧ (hasReqFunc = true → o.response = none)

/-! ## The state machine -/

/-- Where the worker is in `processNextWorkItem`, with the generation that it has read. -/
inductive Phase where
  /-- Before `Get`. -/
  | idle
  | taken
  | loaded (generation : Nat)
  /-- The entry came too early. -/
  | postponing (generation : Nat)
  /-- Before the call of `reconcile`. -/
  | ready (generation : Nat)
  | reconciling (generation : Nat)
  | returned (generation : Nat) (result : Nat × Option String)
  /-- Before `AddRateLimited` or `AddAfter`. -/
  | requeueing (delay : Nat)
  /-- Before the deferred `Done`, with the value to return. -/
  | finished (continues : Bool)
  | stopped
  deriving DecidableEq, Repr

/-- `StatusInformer`, as far as requests are concerned. The work queue is the one of `client-go`, a
parameter of the model. -/
structure StatusInformer (Q : WorkQueue String) where
  hasReqFunc : Bool
  retryDelay : Nat
  requestedGeneration : Nat
  completedGeneration : Nat
  attemptedGeneration : Nat
  /-- Zero is the zero time. -/
  retryNotBefore : Nat
  queue : Q.State
  cancelled : Bool
  /-- The calls of `sendRequest` between their two statements. -/
  adding : Nat
  phase : Phase
  now : Nat

/-- `NewStatusInformer`. -/
def newStatusInformer (Q : WorkQueue String) (retryDelay : Int) (hasReqFunc : Bool) (now : Nat) :
    StatusInformer Q where
  hasReqFunc := hasReqFunc
  retryDelay := if retryDelay ≤ 0 then defaultRetryDelay else retryDelay.toNat
  requestedGeneration := 0
  completedGeneration := 0
  attemptedGeneration := 0
  retryNotBefore := 0
  queue := Q.new
  cancelled := false
  adding := 0
  phase := .idle
  now := now

/-- The events of the informer: the statements of `sendRequest`, the clock, a delayed key that is
due, the end, and the steps of the worker. -/
inductive Event where
  | request
  | enqueue
  | tick (duration : Nat)
  | readd
  | cancel
  | shutDown
  | get
  | load
  | check
  | postpone
  | start
  | returned (o : Outcome)
  | settle
  | requeue
  | done

variable {Q : WorkQueue String}

namespace StatusInformer

/-- The two comparisons in `processNextWorkItem`. -/
def check (s : StatusInformer Q) (generation : Nat) : Phase :=
  if generation ≤ s.completedGeneration then .finished true
  else if generation = s.attemptedGeneration ∧ s.now < s.retryNotBefore then .postponing generation
  else .ready generation

/-- `processNextWorkItem` after `reconcile` up to the next call of the queue. The rate limiter has
equal least and greatest delays, so `AddRateLimited` waits for `retryDelay`. -/
def settle (s : StatusInformer Q) (generation : Nat) : Nat × Option String → StatusInformer Q
  | (requeueAfter, err) =>
    if s.cancelled then { s with phase := .finished false }
    else if err.isSome then
      { s with
        attemptedGeneration := generation, retryNotBefore := s.now + s.retryDelay, phase :=
          .requeueing s.retryDelay }
    else if 0 < requeueAfter then
      { s with
        attemptedGeneration := generation, retryNotBefore := s.now + requeueAfter, phase :=
          .requeueing requeueAfter }
    else
      { s with
        attemptedGeneration := generation, retryNotBefore := 0, completedGeneration :=
          generation, phase := .finished true }

end StatusInformer

/-- One event. The generations are 64-bit numbers, and the queue has no other key. -/
def step (s : StatusInformer Q) : Event → Option (StatusInformer Q)
  | .request =>
    some { s with requestedGeneration := (s.requestedGeneration + 1) % 2 ^ 64,
                  adding := s.adding + 1 }
  | .enqueue =>
    if s.adding = 0 then none
    else some { s with adding := s.adding - 1, queue := Q.add s.queue topologyQueueKey }
  | .tick duration => some { s with now := s.now + duration }
  | .readd => (Q.readd s.queue s.now topologyQueueKey).map fun q => { s with queue := q }
  | .cancel => some { s with cancelled := true }
  | .shutDown => if s.cancelled then some { s with queue := Q.shutDown s.queue } else none
  | .get =>
    match s.phase, Q.get s.queue with
    | .idle, some (_, q) => some { s with queue := q, phase := .taken }
    -- `Get` blocks on an empty queue until it shuts down.
    | .idle, none => if Q.shuttingDown s.queue then some { s with phase := .stopped } else none
    | _, _ => none
  | .load =>
    match s.phase with
    | .taken => some { s with phase := .loaded s.requestedGeneration }
    | _ => none
  | .check =>
    match s.phase with
    | .loaded generation => some { s with phase := s.check generation }
    | _ => none
  | .postpone =>
    match s.phase with
    | .postponing _ =>
      some
        { s with
          queue := Q.addAfter s.queue s.now topologyQueueKey (s.retryNotBefore - s.now)
          phase := .finished true }
    | _ => none
  | .start =>
    match s.phase with
    | .ready generation => some { s with phase := .reconciling generation }
    | _ => none
  | .returned o =>
    match s.phase with
    | .reconciling generation =>
      some { s with phase := .returned generation (reconcile s.hasReqFunc s.cancelled o) }
    | _ => none
  | .settle =>
    match s.phase with
    | .returned generation result => some (s.settle generation result)
    | _ => none
  | .requeue =>
    match s.phase with
    | .requeueing delay =>
      some { s with queue := Q.addAfter s.queue s.now topologyQueueKey delay,
                    phase := .finished true }
    | _ => none
  | .done =>
    match s.phase with
    | .finished continues =>
      some { s with queue := Q.done s.queue topologyQueueKey,
                    phase := if continues then .idle else .stopped }
    | _ => none

end Topograph.NodeObserver
