import Topograph.Lib.Runs

/-! # The workload-identity token cache (`pkg/providers/lambdai/token.go`)

A credential caches the key of its last exchange. `Token` hands it back while it is not due for a
refresh, and exchanges it under `refreshMu` if it is; `InvalidateIfCurrent` drops it. Many calls run
at once: a call is a small state machine (`Pc`) whose sections under `mu` are single steps, and a
run interleaves the steps of the calls with the clock. Times are in nanoseconds. -/

namespace Topograph.Lambdai

/-! ## Tokens -/

/-- `cachedToken`. -/
structure CachedToken where
  accessToken : String
  /-- The deadline from the server. -/
  expiresAt : Int
  /-- When a refresh begins. -/
  refreshAt : Int
  deriving DecidableEq, Repr

/-- A `*cachedToken`. What it points to never changes, so it is carried along; pointers are equal if
their addresses are. -/
structure TokenPtr where
  addr : Nat
  token : CachedToken
  deriving DecidableEq, Repr

/-- Five minutes. -/
def defaultRefreshWin : Int := 300000000000

/-- Thirty seconds. -/
def failedRefreshBackoff : Int := 30000000000

/-- The range of a `time.Duration`. -/
def minDuration : Int := -9223372036854775808
def maxDuration : Int := 9223372036854775807

/-- `t.Sub(u)`: the difference as a duration, which saturates. -/
def timeSub (t u : Int) : Int :=
  if t - u < minDuration then minDuration else if t - u > maxDuration then maxDuration else t - u

/-- The window of `exchangeOnce`; the division of durations truncates. -/
def window (now expiresAt : Int) : Int :=
  if defaultRefreshWin ≥ timeSub expiresAt now then (timeSub expiresAt now).tdiv 2
    else defaultRefreshWin

/-- The jitter of a window: a fraction below 0.2 of it, truncated. -/
def JitterOf (window jitter : Int) : Prop :=
  if 0 ≤ window then 0 ≤ jitter ∧ 5 * jitter ≤ window else window ≤ 5 * jitter ∧ jitter ≤ 0

instance (window jitter : Int) : Decidable (JitterOf window jitter) :=
  inferInstanceAs (Decidable (if 0 ≤ window then 0 ≤ jitter ∧ 5 * jitter ≤ window
    else window ≤ 5 * jitter ∧ jitter ≤ 0))

/-- When a key is to be refreshed that was minted now. -/
def refreshTime (now expiresAt jitter : Int) : Int :=
  let refreshAt := expiresAt - (window now expiresAt - jitter)
  if refreshAt > now then refreshAt else now + (timeSub expiresAt now).tdiv 2

/-! ## Shared state -/

/-- What the calls share; `nextAddr` is the next free address. -/
structure Shared where
  cur : Option TokenPtr
  nextAddr : Nat
  /-- The call that holds `refreshMu`. -/
  refreshMu : Option Nat
  now : Int
  deriving DecidableEq, Repr

/-- `InvalidateIfCurrent`. -/
def invalidateIfCurrent (sh : Shared) (token : String) : Shared :=
  match sh.cur with
  | some p => if p.token.accessToken = token then { sh with cur := none } else sh
  | none => sh

/-- The critical section of `deferRefresh`. -/
def deferRefresh (sh : Shared) (stale : TokenPtr) (d : Int) : Shared :=
  match sh.cur with
  | none => sh
  | some p =>
    if p.addr ≠ stale.addr then sh
    else
      let next := if sh.now + d > p.token.expiresAt then p.token.expiresAt else sh.now + d
      if ¬ next > p.token.refreshAt then sh
      else { sh with cur := some { addr := sh.nextAddr, token := { p.token with
              refreshAt := next } }, nextAddr := sh.nextAddr + 1 }

/-! ## Calls -/

/-- How a call of `Token` ended. -/
inductive Result where
  /-- With the key in the cache, which was not due for a refresh. -/
  | cached (token : CachedToken) (now : Int)
  /-- With the key in the cache after a failed exchange: the time of the check, and that of
  `deferRefresh` behind it. -/
  | kept (token : CachedToken) (checked deferred : Int)
  /-- With the key of its own exchange. -/
  | minted (token : CachedToken)
  | failed
  deriving DecidableEq, Repr

/-- The key that is returned. -/
def Result.key : Result → Option String
  | .cached token _ => some token.accessToken
  | .kept token _ _ => some token.accessToken
  | .minted token => some token.accessToken
  | .failed => none

/-- Where a call of `Token` is; `cur` is its copy of the cached pointer. -/
inductive Pc where
  | idle
  | called
  | read (cur : Option TokenPtr)
  | waiting
  | locked
  | reread (cur : Option TokenPtr)
  | exchanging (cur : Option TokenPtr)
  | exchanged (fresh : CachedToken)
  | failed (cur : Option TokenPtr)
  | deferring (cur : TokenPtr) (checked : Int)
  | leaving (result : Result)
  | done (result : Result)
  deriving DecidableEq, Repr

/-- The steps of a call. -/
inductive Action where
  | call
  /-- Read the pointer under `mu`, and compare the clock with its refresh time. -/
  | read
  | check
  | lock
  | reread
  | recheck
  /-- The exchange ends. -/
  | exchanged (accessToken : String) (expiresAt jitter : Int)
  | exchangeFailed
  /-- Publish the fresh key under `mu`. -/
  | store (accessToken : String)
  /-- Compare the clock with the expiry of the key, after a failed exchange. -/
  | checkExpiry
  | deferRefresh
  /-- Release `refreshMu` and return. -/
  | leave
  deriving DecidableEq, Repr

/-- `cur != nil && c.now().Before(cur.refreshAt)`. -/
def usable (now : Int) (cur : Option TokenPtr) : Option CachedToken :=
  cur.bind fun p => if now < p.token.refreshAt then some p.token else none

/-- One step of `Token`; `none` if the call is somewhere else, or has to wait. -/
def advance (sh : Shared) (t : Nat) : Pc → Action → Option (Shared × Pc)
  | .idle, .call => some (sh, .called)
  | .called, .read => some (sh, .read sh.cur)
  | .read cur, .check =>
    match usable sh.now cur with
    | some token => some (sh, .done (.cached token sh.now))
    | none => some (sh, .waiting)
  | .waiting, .lock =>
    if sh.refreshMu = none then some ({ sh with refreshMu := some t }, .locked) else none
  | .locked, .reread => some (sh, .reread sh.cur)
  | .reread cur, .recheck =>
    match usable sh.now cur with
    | some token => some (sh, .leaving (.cached token sh.now))
    | none => some (sh, .exchanging cur)
  | .exchanging _, .exchanged accessToken expiresAt jitter =>
    if JitterOf (window sh.now expiresAt) jitter then
      some (sh, .exchanged
        { accessToken := accessToken, expiresAt := expiresAt,
          refreshAt := refreshTime sh.now expiresAt jitter })
    else none
  | .exchanging cur, .exchangeFailed => some (sh, .failed cur)
  | .exchanged fresh, .store accessToken =>
    if fresh.accessToken = accessToken then
      some ({ sh with cur := some { addr := sh.nextAddr, token := fresh },
                      nextAddr := sh.nextAddr + 1 }, .leaving (.minted fresh))
    else none
  | .failed cur, .checkExpiry =>
    match cur with
    | some p =>
      if sh.now < p.token.expiresAt then some (sh, .deferring p sh.now)
        else some (sh, .leaving .failed)
    | none => some (sh, .leaving .failed)
  | .deferring p checked, .deferRefresh =>
    some (deferRefresh sh p failedRefreshBackoff, .leaving (.kept p.token checked sh.now))
  | .leaving result, .leave => some ({ sh with refreshMu := none }, .done result)
  | _, _ => none

/-! ## Runs -/

/-- The shared state and the calls. -/
structure State where
  shared : Shared
  pc : Nat → Pc

/-- What happens: time passes, a key is invalidated, or a call makes a step. -/
inductive Event where
  | tick (d : Nat)
  | invalidateIfCurrent (token : String)
  | act (t : Nat) (a : Action)
  deriving DecidableEq, Repr

/-- One step of the system. -/
def step (s : State) : Event → Option State
  | .tick d => some { s with shared := { s.shared with now := s.shared.now + d } }
  | .invalidateIfCurrent token => some { s with shared := invalidateIfCurrent s.shared token }
  | .act t a =>
    (advance s.shared t (s.pc t) a).map fun r => { shared := r.1, pc := Function.update s.pc t r.2 }

/-- A new credential at some time. -/
def start (now : Int) : State where
  shared := { cur := none, nextAddr := 0, refreshMu := none, now := now }
  pc := fun _ => .idle

end Topograph.Lambdai
