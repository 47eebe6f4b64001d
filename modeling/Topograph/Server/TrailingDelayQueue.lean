import Topograph.Httperr
import Topograph.Lib.Runs
import Topograph.Server.Lru

/-! # The trailing delay queue (`pkg/server/trailing_delay_queue.go`)

A request is processed when its hash was not submitted again for some time. The queue is a state
machine: everything that runs under the mutex is one event, and so are the start of a callback and
the return of its handler, which run outside of it. A submission allocates an entry, a timer and the
callback that refers to both, so its number stands for all three; what the program compares by
pointer is compared by number. -/

namespace Topograph.Server

variable {α β : Type}

/-- `Completion`. -/
structure Completion (β : Type) where
  ret : Option β
  status : Nat
  message : String
  deriving DecidableEq, Repr

/-- How far a timer and its callback have come: waiting, stopped before it fired, in the handler,
returned from it, or finished. -/
inductive Phase (β : Type) where
  | armed
  | stopped
  | running
  | returned (result : Except HTTPError β)
  | done (result : Except HTTPError β)

/-- A submission: what its callback captures, with the entry it points to. -/
structure Submission (α β : Type) where
  hash : String
  item : α
  entry : Completion β
  phase : Phase β

/-- `TrailingDelayQueue`, with all submissions so far. -/
structure Queue (α β : Type) where
  submissions : List (Submission α β)
  timers : GoMap String Nat
  store : LruCache String Nat

/-- `RequestHistorySize`. -/
def requestHistorySize : Nat := 100

/-- `NewTrailingDelayQueue`. -/
def newQueue : Queue α β where
  submissions := []
  timers := ∅
  store := .newLRUCache requestHistorySize

/-- The entry of a submission before it is processed. -/
def acceptedEntry (hash : String) : Completion β where
  ret := none
  status := statusAccepted
  message := "request ID " ++ hash ++ " has been created"

/-- The entry of a processed submission. -/
def finishEntry (entry : Completion β) : Except HTTPError β → Completion β
  | .error err => { entry with status := err.code, message := err.message }
  | .ok data => { entry with ret := some data, status := statusOK }

/-- `timer.Stop`: it has no effect on a callback that has started. -/
def Submission.stop (sub : Submission α β) : Submission α β :=
  match sub.phase with
  | .armed => { sub with phase := .stopped }
  | _ => sub

namespace Queue

/-- The queue with another state of one submission. -/
def update (q : Queue α β) (n : Nat) (f : Submission α β → Submission α β) : Queue α β :=
  { q with submissions := q.submissions.modify n f }

/-- The phase of a submission. -/
def phase (q : Queue α β) (n : Nat) : Option (Phase β) := (q.submissions[n]?).map (·.phase)

/-- The part of `Submit` under the mutex. -/
def submit (q : Queue α β) (hash : String) (item : α) : Queue α β :=
  let q :=
    match q.timers.lookup hash with
    | some n => q.update n .stop
    | none => q
  { submissions := q.submissions ++ [{ hash := hash, item := item, entry := acceptedEntry hash,
                                       phase := .armed }]
    timers := q.timers.insert hash q.submissions.length
    store := (q.store.add hash q.submissions.length).1 }

/-- The part of a callback under the mutex: the result is stored if there was no later request, and
the timer is removed if it is still the current one. -/
def publish (q : Queue α β) (n : Nat) (sub : Submission α β) (result : Except HTTPError β) :
    Queue α β :=
  let current := q.store.get sub.hash
  let timers := if q.timers.lookup sub.hash = some n then q.timers.erase sub.hash else q.timers
  if current.1 = some n then
    { submissions := q.submissions.modify n fun sub => { sub with
            entry := finishEntry sub.entry result, phase := .done result }
      timers := timers
      store := (current.2.add sub.hash n).1 }
  else
    { submissions := q.submissions.modify n fun sub => { sub with phase := .done result }
      timers := timers
      store := current.2 }

/-- `Get`. -/
def get (q : Queue α β) (hash : String) : Completion β × Queue α β :=
  let current := q.store.get hash
  match current.1.bind (q.submissions[·]?) with
  | some sub => (sub.entry, { q with store := current.2 })
  | none =>
    ({ ret := none, status := statusNotFound, message := "request ID " ++ hash ++ " not found" },
      { q with store := current.2 })

/-- The loop of `run` after the shutdown: all timers in the map are stopped. -/
def stopTimers (q : Queue α β) : Queue α β :=
  q.timers.entries.foldl (fun q e => q.update e.2 .stop) q

end Queue

/-- The events of the queue. -/
inductive Event (α β : Type) where
  | submit (item : α)
  /-- The timer of a submission fires and its callback calls the handler. -/
  | fire (n : Nat)
  /-- The handler of a submission returns. -/
  | handled (n : Nat) (result : Except HTTPError β)
  /-- The callback of a submission takes the mutex. -/
  | publish (n : Nat)
  | get (hash : String)
  | shutdown

/-- One event. An item that cannot be hashed is rejected without an effect. -/
def step (hashOf : α → Except String String) (q : Queue α β) : Event α β → Option (Queue α β)
  | .submit item =>
    match hashOf item with
    | .error _ => some q
    | .ok hash => some (q.submit hash item)
  | .fire n =>
    match q.phase n with
    | some .armed => some (q.update n fun sub => { sub with phase := .running })
    | _ => none
  | .handled n result =>
    match q.phase n with
    | some .running => some (q.update n fun sub => { sub with phase := .returned result })
    | _ => none
  | .publish n =>
    match q.submissions[n]?, q.phase n with
    | some sub, some (.returned result) => some (q.publish n sub result)
    | _, _ => none
  | .get hash => some (q.get hash).2
  | .shutdown => some q.stopTimers

end Topograph.Server
