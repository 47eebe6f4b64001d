import Topograph.Lambdai.Token
import Mathlib.Data.List.Basic

/-! # Safety of the token cache

Whatever is interleaved, a key from the cache was found before its expiry, one exchange runs at a
time, and an invalidated key comes back only with a new exchange (`tokenCache_safe`). A key whose
expiry lies in the past when it is minted is due for a refresh at once, so it is never handed out
from the cache (`refreshTime_le`). -/

namespace Topograph.Lambdai

open Topograph.Runs

/-! ## Refresh times -/

/-- Go's division by two rounds towards zero. -/
theorem tdiv_two_of_nonneg {x : Int} (h : 0 ≤ x) : 0 ≤ x.tdiv 2 ∧ 2 * x.tdiv 2 ≤ x := by
  rw [Int.tdiv_eq_ediv_of_nonneg h]
  omega

theorem tdiv_two_of_neg {x : Int} (h : x < 0) : x ≤ 2 * x.tdiv 2 ∧ x.tdiv 2 ≤ 0 := by
  have hneg := tdiv_two_of_nonneg (show 0 ≤ -x by omega)
  rw [Int.neg_tdiv] at hneg
  omega

/-- **A refresh is due before the expiry, or at once.** -/
theorem refreshTime_le {now expiresAt jitter : Int} (h : JitterOf (window now expiresAt) jitter) :
    refreshTime now expiresAt jitter ≤ expiresAt ∨ refreshTime now expiresAt jitter ≤ now := by
  rw [refreshTime]
  set life := timeSub expiresAt now with hlife
  by_cases hpast : life < 0
  · -- The key has expired: the first candidate is no later than half of the way back from now.
    right
    have hhalf := tdiv_two_of_neg hpast
    have hdiff : expiresAt - now ≤ life := by
      rw [hlife, timeSub, minDuration, maxDuration] at hpast ⊢
      split_ifs at hpast ⊢ <;> omega
    have hwindow : window now expiresAt = life.tdiv 2 := by
      rw [window, ← hlife, if_pos]
      rw [defaultRefreshWin]
      omega
    rw [hwindow] at h ⊢
    rw [JitterOf] at h
    split_ifs at h ⊢ <;> omega
  · left
    have hhalf := tdiv_two_of_nonneg (show 0 ≤ life by omega)
    have hdiff : life ≤ expiresAt - now := by
      rw [hlife, timeSub, minDuration, maxDuration] at hpast ⊢
      split_ifs at hpast ⊢ <;> omega
    have hwindow : 0 ≤ window now expiresAt := by
      rw [window, ← hlife]
      split_ifs
      · exact hhalf.1
      · rw [defaultRefreshWin]
        omega
    rw [JitterOf, if_pos hwindow] at h
    split_ifs <;> omega

/-! ## What a step can do -/

/-- The steps of a call, one by one. -/
inductive Moved (sh : Shared) (t : Nat) : Pc → Action → Shared → Pc → Prop where
  | call : Moved sh t .idle .call sh .called
  | read : Moved sh t .called .read sh (.read sh.cur)
  | hit {cur : Option TokenPtr} {token : CachedToken} (h : usable sh.now cur = some token) :
      Moved sh t (.read cur) .check sh (.done (.cached token sh.now))
  | miss {cur : Option TokenPtr} : Moved sh t (.read cur) .check sh .waiting
  | lock (h : sh.refreshMu = none) :
      Moved sh t .waiting .lock { sh with refreshMu := some t } .locked
  | reread : Moved sh t .locked .reread sh (.reread sh.cur)
  | rehit {cur : Option TokenPtr} {token : CachedToken} (h : usable sh.now cur = some token) :
      Moved sh t (.reread cur) .recheck sh (.leaving (.cached token sh.now))
  | remiss {cur : Option TokenPtr} : Moved sh t (.reread cur) .recheck sh (.exchanging cur)
  | exchanged {cur : Option TokenPtr} {accessToken : String} {expiresAt jitter : Int}
      (h : JitterOf (window sh.now expiresAt) jitter) :
      Moved sh t (.exchanging cur) (.exchanged accessToken expiresAt jitter) sh
        (.exchanged { accessToken := accessToken, expiresAt := expiresAt,
                      refreshAt := refreshTime sh.now expiresAt jitter })
  | exchangeFailed {cur : Option TokenPtr} :
      Moved sh t (.exchanging cur) .exchangeFailed sh (.failed cur)
  | store {fresh : CachedToken} :
      Moved sh t (.exchanged fresh) (.store fresh.accessToken)
        { sh with cur := some { addr := sh.nextAddr, token := fresh }, nextAddr := sh.nextAddr + 1 }
            (.leaving (.minted fresh))
  | alive {p : TokenPtr} (h : sh.now < p.token.expiresAt) :
      Moved sh t (.failed (some p)) .checkExpiry sh (.deferring p sh.now)
  | dead {cur : Option TokenPtr} : Moved sh t (.failed cur) .checkExpiry sh (.leaving .failed)
  | deferRefresh {p : TokenPtr} {checked : Int} :
      Moved sh t (.deferring p checked) .deferRefresh (deferRefresh sh p failedRefreshBackoff)
        (.leaving (.kept p.token checked sh.now))
  | leave {result : Result} :
      Moved sh t (.leaving result) .leave { sh with refreshMu := none } (.done result)

variable {a : Action} {sh sh' : Shared} {t : Nat} {pc pc' : Pc}

/-- What one step of a call can do. -/
theorem moved_of_advance (h : advance sh t pc a = some (sh', pc')) : Moved sh t pc a sh' pc' := by
  unfold advance at h
  split at h
  · cases h
    exact .call
  · cases h
    exact .read
  · split at h
    · next hhit =>
        cases h
        exact .hit hhit
    · cases h
      exact .miss
  · split_ifs at h with hfree
    cases h
    exact .lock hfree
  · cases h
    exact .reread
  · split at h
    · next hhit =>
        cases h
        exact .rehit hhit
    · cases h
      exact .remiss
  · split_ifs at h with hjitter
    cases h
    exact .exchanged hjitter
  · cases h
    exact .exchangeFailed
  · split_ifs at h with hkey
    cases h
    subst hkey
    exact .store
  · split at h
    · split_ifs at h with halive
      · cases h
        exact .alive halive
      · cases h
        exact .dead
    · cases h
      exact .dead
  · cases h
    exact .deferRefresh
  · cases h
    exact .leave
  · cases h

variable {s s' : State}

/-- **What an event does**: the clock goes on, a key is invalidated, or a call takes a step, which
changes no other call. -/
theorem step_cases {e : Event} (h : step s e = some s') :
    (∃ d : Nat, e = .tick d ∧ s' = { s with shared := { s.shared with now := s.shared.now + d } }) ∨
    (∃ token, e = .invalidateIfCurrent token ∧
      s' = { s with shared := invalidateIfCurrent s.shared token }) ∨
    ∃ t a sh pc, e = .act t a ∧ Moved s.shared t (s.pc t) a sh pc ∧
    s' = { shared := sh, pc := Function.update s.pc t pc } := by
  cases e with
  | tick d => exact Or.inl ⟨d, rfl, (Option.some.inj h).symm⟩
  | invalidateIfCurrent token => exact Or.inr (Or.inl ⟨token, rfl, (Option.some.inj h).symm⟩)
  | act t a =>
    obtain ⟨⟨sh, pc⟩, hadvance, rfl⟩ := Option.map_eq_some_iff.mp h
    exact Or.inr (Or.inr ⟨t, a, sh, pc, rfl, moved_of_advance hadvance, rfl⟩)

variable {token : CachedToken}

/-- A usable token is not due for a refresh. -/
theorem usable_eq_some {now : Int} {cur : Option TokenPtr} (h : usable now cur = some token) :
    ∃ p, cur = some p ∧ p.token = token ∧ now < token.refreshAt := by
  obtain ⟨p, rfl, hp⟩ := Option.bind_eq_some_iff.mp h
  split_ifs at hp with hnow
  obtain rfl := Option.some.inj hp
  exact ⟨p, rfl, rfl, hnow⟩

/-- **`deferRefresh`** leaves the cache alone, or publishes the cached key again with a later
refresh time. -/
theorem deferRefresh_cases (sh : Shared) (stale : TokenPtr) (d : Int) :
    deferRefresh sh stale d = sh ∨
      ∃ p next, sh.cur = some p ∧ p.addr = stale.addr ∧ p.token.refreshAt < next ∧
      next ≤ p.token.expiresAt ∧
        deferRefresh sh stale d =
          { sh with cur := some { addr := sh.nextAddr, token := { p.token with
                  refreshAt := next } }, nextAddr := sh.nextAddr + 1 } := by
  rw [deferRefresh]
  cases hcur : sh.cur with
  | none => exact Or.inl rfl
  | some p =>
    dsimp only
    split_ifs with haddr hpast hlater hlater
    · exact Or.inl rfl
    · exact Or.inr ⟨p, p.token.expiresAt, rfl, not_not.mp haddr, hlater, Int.le_refl _, rfl⟩
    · exact Or.inl rfl
    · exact Or.inr ⟨p, sh.now + d, rfl, not_not.mp haddr, hlater, by omega, rfl⟩
    · exact Or.inl rfl

/-! ## Expiry -/

/-- The refresh time of a key does not lie behind its expiry, or it has passed. -/
def CachedToken.Safe (token : CachedToken) (now : Int) : Prop :=
  token.refreshAt ≤ token.expiresAt ∨ token.refreshAt ≤ now

/-- A key from the cache was found before its expiry. -/
def Result.Alive : Result → Prop
  | .cached token now => now < token.expiresAt
  | .kept token checked deferred => checked < token.expiresAt ∧ checked ≤ deferred
  | .minted _ => True
  | .failed => True

/-- What a call holds is safe. -/
def Pc.Safe (now : Int) : Pc → Prop
  | .read cur | .reread cur | .exchanging cur | .failed cur => ∀ p, cur = some p → p.token.Safe now
  | .exchanged fresh => fresh.Safe now
  | .deferring p checked => checked < p.token.expiresAt ∧ checked ≤ now
  | .leaving result | .done result => result.Alive
  | .idle | .called | .waiting | .locked => True

theorem CachedToken.Safe.mono {now now' : Int} (h : token.Safe now) (hle : now ≤ now') :
    token.Safe now' :=
  h.imp_right fun hnow => Int.le_trans hnow hle

/-- Tokens that have been checked stay safe as time passes. -/
theorem Pc.Safe.mono {pc : Pc} {now now' : Int} (h : pc.Safe now) (hle : now ≤ now') :
    pc.Safe now' := by
  cases pc with
  | read cur | reread cur | exchanging cur | failed cur => exact fun p hp => (h p hp).mono hle
  | exchanged fresh => exact CachedToken.Safe.mono h hle
  | deferring p checked => exact ⟨h.1, Int.le_trans h.2 hle⟩
  | leaving result => exact h
  | done result => exact h
  | idle => trivial
  | called => trivial
  | waiting => trivial
  | locked => trivial

/-- A key that is not due for a refresh has not expired. -/
theorem CachedToken.Safe.lt_expiresAt {now : Int} (h : token.Safe now)
    (hnow : now < token.refreshAt) : now < token.expiresAt := by
  rcases h with h | h <;> omega

theorem now_deferRefresh (sh : Shared) (stale : TokenPtr) (d : Int) :
    (deferRefresh sh stale d).now = sh.now := by
  rcases deferRefresh_cases sh stale d with heq | ⟨p, next, -, -, -, -, heq⟩ <;> rw [heq]

/-- **A step keeps keys safe.** -/
theorem Moved.safe (h : Moved sh t pc a sh' pc') (hcur : ∀ p, sh.cur = some p → p.token.Safe sh.now)
    (hpc : pc.Safe sh.now) :
    sh'.now = sh.now ∧ (∀ p, sh'.cur = some p → p.token.Safe sh.now) ∧ pc'.Safe sh.now := by
  cases h with
  | call | miss | lock | dead => exact ⟨rfl, hcur, trivial⟩
  | read | reread => exact ⟨rfl, hcur, hcur⟩
  | hit hhit | rehit hhit =>
    obtain ⟨p, rfl, rfl, hnow⟩ := usable_eq_some hhit
    exact ⟨rfl, hcur, (hpc p rfl).lt_expiresAt hnow⟩
  | remiss | exchangeFailed | leave => exact ⟨rfl, hcur, hpc⟩
  | exchanged hjitter => exact ⟨rfl, hcur, refreshTime_le hjitter⟩
  | store =>
    refine ⟨rfl, fun p hp => ?_, trivial⟩
    obtain rfl := Option.some.inj hp
    exact hpc
  | alive halive => exact ⟨rfl, hcur, halive, Int.le_refl _⟩
  | deferRefresh =>
    refine ⟨now_deferRefresh _ _ _, fun p hp => ?_, hpc⟩
    rcases deferRefresh_cases sh _ failedRefreshBackoff with heq | ⟨q, next, hq, -, -, hnext, heq⟩
    · rw [heq] at hp
      exact hcur p hp
    · rw [heq] at hp
      obtain rfl := Option.some.inj hp
      exact Or.inl hnext

/-! ## The refresh lock -/

/-- The call holds `refreshMu`. -/
def Pc.Locks : Pc → Prop
  | .locked | .reread _ | .exchanging _ | .exchanged _ | .failed _ | .deferring _ _ | .leaving _ =>
    True
  | .idle | .called | .read _ | .waiting | .done _ => False

theorem refreshMu_deferRefresh (sh : Shared) (stale : TokenPtr) (d : Int) :
    (deferRefresh sh stale d).refreshMu = sh.refreshMu := by
  rcases deferRefresh_cases sh stale d with heq | ⟨p, next, -, -, -, -, heq⟩ <;> rw [heq]

/-- **A step keeps the lock**: a call has it while it is in the section, and no step of another call
takes it away. -/
theorem Moved.lock_kept (h : Moved sh t pc a sh' pc') (hpc : pc.Locks → sh.refreshMu = some t) :
    (pc'.Locks → sh'.refreshMu = some t) ∧ ∀ t', t' ≠ t → sh.refreshMu = some t' →
      sh'.refreshMu = some t' := by
  cases h with
  | call | read | hit | miss => exact ⟨False.elim, fun _ _ h => h⟩
  | lock hfree => exact ⟨fun _ => rfl, fun t' _ hheld => absurd (hfree.symm.trans hheld) (by simp)⟩
  | reread | rehit | remiss | exchanged | exchangeFailed | store | alive | dead =>
    exact ⟨hpc, fun _ _ h => h⟩
  | deferRefresh =>
    rw [refreshMu_deferRefresh]
    exact ⟨hpc, fun _ _ h => h⟩
  | leave =>
    refine ⟨False.elim, fun t' hne hheld => ?_⟩
    exact absurd (Option.some.inj (hheld.symm.trans (hpc trivial))) hne

/-! ## Pointers -/

/-- The copy of the cached pointer that a call has. -/
def Pc.pointer : Pc → Option TokenPtr
  | .read cur | .reread cur | .exchanging cur | .failed cur => cur
  | .deferring p _ => some p
  | .idle | .called | .waiting | .locked | .exchanged _ | .leaving _ | .done _ => none

/-- **A step makes no pointer but a new one**, which is cached. -/
theorem Moved.pointers (h : Moved sh t pc a sh' pc') :
    (sh'.cur = sh.cur ∧ sh'.nextAddr = sh.nextAddr ∨
        (∃ token, sh'.cur = some { addr := sh.nextAddr, token := token }) ∧
        sh'.nextAddr = sh.nextAddr + 1) ∧
      ∀ p, pc'.pointer = some p → pc.pointer = some p ∨ sh.cur = some p := by
  cases h with
  | call | hit | miss | lock | rehit | exchanged | dead | leave =>
    exact ⟨Or.inl ⟨rfl, rfl⟩, fun p hp => absurd hp (by simp [Pc.pointer])⟩
  | read | reread => exact ⟨Or.inl ⟨rfl, rfl⟩, fun p hp => Or.inr hp⟩
  | remiss | exchangeFailed | alive => exact ⟨Or.inl ⟨rfl, rfl⟩, fun p hp => Or.inl hp⟩
  | store => exact ⟨Or.inr ⟨⟨_, rfl⟩, rfl⟩, fun p hp => absurd hp (by simp [Pc.pointer])⟩
  | deferRefresh =>
    refine ⟨?_, fun p hp => absurd hp (by simp [Pc.pointer])⟩
    rcases deferRefresh_cases sh _ failedRefreshBackoff with heq | ⟨q, next, hq, -, -, hnext, heq⟩
    · rw [heq]
      exact Or.inl ⟨rfl, rfl⟩
    · rw [heq]
      exact Or.inr ⟨⟨_, rfl⟩, rfl⟩

/-- A pointer that is cached or that some call has. -/
def State.Points (s : State) (p : TokenPtr) : Prop :=
  s.shared.cur = some p ∨ ∃ t, (s.pc t).pointer = some p

/-! ## The invariant -/

/-- **What holds after every run.** -/
structure Invariant (s : State) : Prop where
  cur : ∀ p, s.shared.cur = some p → p.token.Safe s.shared.now
  pc : ∀ t, (s.pc t).Safe s.shared.now
  lock : ∀ t, (s.pc t).Locks → s.shared.refreshMu = some t
  addr_lt : ∀ p, s.Points p → p.addr < s.shared.nextAddr
  addr_inj : ∀ p q, s.Points p → s.Points q → p.addr = q.addr → p = q

theorem invariant_start (now : Int) : Invariant (start now) where
  cur p hp := absurd hp (by simp [start])
  pc _ := trivial
  lock _ h := False.elim h
  addr_lt p hp := by
    rcases hp with hp | ⟨t, hp⟩ <;> exact absurd hp (by simp [start, Pc.pointer])
  addr_inj p q hp := by
    rcases hp with hp | ⟨t, hp⟩ <;> exact absurd hp (by simp [start, Pc.pointer])

/-- Invalidation empties the cache, or the token is not in it. -/
theorem invalidateIfCurrent_cases (sh : Shared) (token : String) :
    invalidateIfCurrent sh token = { sh with cur := none } ∨
      invalidateIfCurrent sh token = sh ∧ ∀ p, sh.cur = some p → p.token.accessToken ≠ token := by
  rw [invalidateIfCurrent]
  cases hcur : sh.cur with
  | none => exact Or.inr ⟨rfl, by simp⟩
  | some p =>
    dsimp only
    split_ifs with hkey
    · exact Or.inl rfl
    · exact Or.inr ⟨rfl, fun q hq => Option.some.inj hq ▸ hkey⟩

/-- The pointers after a step of a call. -/
theorem Moved.points {s : State} {sh : Shared} {pc : Pc} (h : Moved s.shared t (s.pc t) a sh pc)
    {p : TokenPtr} (hp : ({ shared := sh, pc := Function.update s.pc t pc } : State).Points p) :
    s.Points p ∨ p.addr = s.shared.nextAddr ∧ sh.cur = some p ∧
    sh.nextAddr = s.shared.nextAddr + 1 := by
  obtain ⟨hcur, hpointer⟩ := h.pointers
  rcases hp with hp | ⟨t', hp⟩
  · rcases hcur with ⟨hsame, -⟩ | ⟨⟨token, hnew⟩, hnext⟩
    · exact Or.inl (Or.inl (hsame.symm.trans hp))
    · refine Or.inr ⟨?_, hp, hnext⟩
      rw [← Option.some.inj (hnew.symm.trans hp)]
  · left
    dsimp only at hp
    by_cases ht : t' = t
    · subst ht
      rw [Function.update_self] at hp
      exact (hpointer p hp).symm.imp_right fun hold => ⟨t', hold⟩
    · rw [Function.update_of_ne ht] at hp
      exact Or.inr ⟨t', hp⟩

/-- **A step of a call.** -/
theorem Invariant.moved {s : State} (h : Invariant s) {sh : Shared} {pc : Pc}
    (hmoved : Moved s.shared t (s.pc t) a sh pc) :
    Invariant { shared := sh, pc := Function.update s.pc t pc } := by
  obtain ⟨hnow, hcur, hpc⟩ := hmoved.safe h.cur (h.pc t)
  obtain ⟨hlock, hothers⟩ := hmoved.lock_kept (h.lock t)
  have hnext : s.shared.nextAddr ≤ sh.nextAddr := by
    rcases hmoved.pointers.1 with ⟨-, heq⟩ | ⟨-, heq⟩ <;> omega
  refine ⟨fun p hp => ?_, fun t' => ?_, fun t' ht' => ?_, fun p hp => ?_, fun p q hp hq haddr => ?_⟩
  · dsimp only at hp ⊢
    rw [hnow]
    exact hcur p hp
  · dsimp only
    rw [hnow]
    by_cases ht : t' = t
    · rw [ht, Function.update_self]
      exact hpc
    · rw [Function.update_of_ne ht]
      exact h.pc t'
  · dsimp only at ht' ⊢
    by_cases ht : t' = t
    · subst ht
      rw [Function.update_self] at ht'
      exact hlock ht'
    · rw [Function.update_of_ne ht] at ht'
      exact hothers t' ht (h.lock t' ht')
  · rcases hmoved.points hp with hold | ⟨hnew, -, hsucc⟩
    · exact Nat.lt_of_lt_of_le (h.addr_lt p hold) hnext
    · dsimp only
      omega
  · -- A new pointer has a new address, and there is only one.
    rcases hmoved.points hp with hold | ⟨hnew, hcurp, -⟩ <;> rcases hmoved.points hq with
      hold' | ⟨hnew', hcurq, -⟩
    · exact h.addr_inj p q hold hold' haddr
    · exact absurd (h.addr_lt p hold) (by omega)
    · exact absurd (h.addr_lt q hold') (by omega)
    · exact Option.some.inj (hcurp.symm.trans hcurq)

/-- **Every step keeps the invariant.** -/
theorem Invariant.step {e : Event} (h : Invariant s) (hstep : step s e = some s') :
    Invariant s' := by
  rcases step_cases hstep with ⟨d, -, rfl⟩ | ⟨token, -, rfl⟩ | ⟨t, a, sh, pc, -, hmoved, rfl⟩
  · have hle : s.shared.now ≤ s.shared.now + d := by omega
    exact ⟨fun p hp => (h.cur p hp).mono hle, fun t => (h.pc t).mono hle, h.lock,
      h.addr_lt, h.addr_inj⟩
  · rcases invalidateIfCurrent_cases s.shared token with heq | ⟨heq, -⟩
    · rw [heq]
      have hpoints : ∀ p, ({ s with shared := { s.shared with cur := none } } : State).Points p →
          s.Points p := by
        rintro p (hp | hp)
        · exact absurd hp (by simp)
        · exact Or.inr hp
      exact ⟨by simp, h.pc, h.lock, fun p hp => h.addr_lt p (hpoints p hp),
        fun p q hp hq => h.addr_inj p q (hpoints p hp) (hpoints q hq)⟩
    · rw [heq]
      exact h
  · exact h.moved hmoved

/-! ## Invalidated keys -/

/-- The cache holds a key. -/
def Shared.Caches (sh : Shared) (key : String) : Prop :=
  ∃ p, sh.cur = some p ∧ p.token.accessToken = key

/-- The call may return a key that it has found, or is about to return it. -/
def Pc.Exposes (pc : Pc) (key : String) : Prop :=
  (∃ p, pc.pointer = some p ∧ p.token.accessToken = key) ∨
    ∃ result, (pc = .leaving result ∨ pc = .done result) ∧ result.key = some key

variable {key : String}

/-- A call without a token exposes no key. -/
theorem not_exposes_of_pointer {pc : Pc} (hp : pc.pointer = none)
    (hr : ∀ r, pc ≠ .leaving r ∧ pc ≠ .done r) : ¬ pc.Exposes key := by
  rintro (⟨p, hp', -⟩ | ⟨r, hr' | hr', -⟩)
  · exact absurd (hp.symm.trans hp') (by simp)
  · exact (hr r).1 hr'
  · exact (hr r).2 hr'

/-- **Where the key in the cache comes from**: it was there, or it is stored. -/
theorem Moved.caches (h : Moved sh t pc a sh' pc') (hkey : sh'.Caches key) :
    sh.Caches key ∨ a = .store key := by
  cases h with
  | store =>
    obtain ⟨p, hp, rfl⟩ := hkey
    obtain rfl := Option.some.inj hp
    exact Or.inr rfl
  | deferRefresh =>
    left
    rcases deferRefresh_cases sh _ failedRefreshBackoff with heq | ⟨q, next, hq, -, -, -, heq⟩
    · rwa [heq] at hkey
    · rw [heq] at hkey
      obtain ⟨p, hp, rfl⟩ := hkey
      obtain rfl := Option.some.inj hp
      exact ⟨q, hq, rfl⟩
  | call | read | hit | miss | lock | reread | rehit | remiss | exchanged | exchangeFailed | alive
  | dead | leave => exact Or.inl hkey

/-- **Where the key of a call comes from**: the call had it, or it was in the cache, or the call
stores it. -/
theorem Moved.exposes (h : Moved sh t pc a sh' pc') (hkey : pc'.Exposes key) :
    pc.Exposes key ∨ sh.Caches key ∨ a = .store key := by
  rcases hkey with ⟨p, hp, hkey⟩ | ⟨r, hr, hkey⟩
  · exact (h.pointers.2 p hp).imp (fun hold => Or.inl ⟨p, hold, hkey⟩) fun hcur =>
      Or.inl ⟨p, hcur, hkey⟩
  · -- A result is the key of the pointer of the call, or that of its exchange.
    cases h with
    | hit hhit | rehit hhit =>
      obtain ⟨p, rfl, rfl, -⟩ := usable_eq_some hhit
      obtain rfl : Result.cached p.token sh.now = r := by simpa using hr
      exact Or.inl (Or.inl ⟨p, rfl, Option.some.inj hkey⟩)
    | @store fresh =>
      obtain rfl : Result.minted fresh = r := by simpa using hr
      exact Or.inr (Or.inr (congrArg _ (Option.some.inj hkey)))
    | dead =>
      obtain rfl : Result.failed = r := by simpa using hr
      exact absurd hkey (by simp [Result.key])
    | @deferRefresh p checked =>
      obtain rfl : Result.kept p.token checked sh.now = r := by simpa using hr
      exact Or.inl (Or.inl ⟨p, rfl, Option.some.inj hkey⟩)
    | @leave result =>
      obtain rfl : result = r := by simpa using hr
      exact Or.inl (Or.inr ⟨result, Or.inl rfl, hkey⟩)
    | call | read | miss | lock | reread | remiss | exchanged | exchangeFailed | alive => simp at hr

/-- **Since a key was invalidated** and not stored again, it is not cached, and no call that started
since can return it. -/
def Forgets (es : List Event) (s : State) : Prop :=
  ∀ key earlier later, es = earlier ++ .invalidateIfCurrent key :: later →
    (∀ t, .act t (.store key) ∉ later) →
    ¬ s.shared.Caches key ∧ ∀ t, .act t .call ∈ later → ¬ (s.pc t).Exposes key

/-- An invalidated key is not in the cache. -/
theorem not_caches_invalidateIfCurrent (sh : Shared) (key : String) :
    ¬ (invalidateIfCurrent sh key).Caches key := by
  rintro ⟨p, hp, hkey⟩
  rcases invalidateIfCurrent_cases sh key with heq | ⟨heq, hother⟩
  · rw [heq] at hp
    exact absurd hp (by simp)
  · rw [heq] at hp
    exact hother p hp hkey

/-- Every step keeps that invalidated keys are forgotten. -/
theorem Forgets.step {es : List Event} {e : Event} (h : Forgets es s) (hstep : step s e = some s') :
    Forgets (es ++ [e]) s' := by
  intro key earlier later heq hstore
  rcases List.eq_nil_or_concat' later with rfl | ⟨later, e', rfl⟩
  · -- The key is invalidated just now.
    obtain ⟨-, hlast⟩ := List.append_inj' heq rfl
    obtain rfl := (List.cons.inj hlast).1
    obtain rfl := Option.some.inj hstep
    exact ⟨not_caches_invalidateIfCurrent s.shared key, by simp⟩
  · rw [← List.cons_append, ← List.append_assoc] at heq
    obtain ⟨rfl, hlast⟩ := List.append_inj' heq rfl
    obtain rfl := (List.cons.inj hlast).1
    obtain ⟨hcache, hcalls⟩ :=
      h key earlier later rfl fun t ht => hstore t (List.mem_append_left _ ht)
    have hlastStore : ∀ t, e ≠ .act t (.store key) := fun t ht => hstore t (by simp [ht])
    rcases step_cases hstep with ⟨d, rfl, rfl⟩ | ⟨token, rfl, rfl⟩ | ⟨t, a, sh, pc,
      rfl, hmoved, rfl⟩
    · exact ⟨hcache, fun t ht => hcalls t (by simpa using ht)⟩
    · refine ⟨fun hkey => ?_, fun t ht => hcalls t (by simpa using ht)⟩
      rcases invalidateIfCurrent_cases s.shared token with heq' | ⟨heq', -⟩
      · rw [heq'] at hkey
        obtain ⟨p, hp, -⟩ := hkey
        exact absurd hp (by simp)
      · rw [heq'] at hkey
        exact hcache hkey
    · have hnot : a ≠ .store key := fun ha => hlastStore t (by rw [ha])
      refine ⟨fun hkey => (hmoved.caches hkey).elim hcache hnot, fun t' ht' hexposes => ?_⟩
      dsimp only at hexposes
      by_cases ht : t' = t
      · subst ht
        rw [Function.update_self] at hexposes
        rcases List.mem_append.mp ht' with hold | hcall
        · rcases hmoved.exposes hexposes with hbefore | hcur | hstored
          · exact hcalls t' hold hbefore
          · exact hcache hcur
          · exact hnot hstored
        · -- The call starts with this step, and has no key yet.
          obtain rfl : Action.call = a := by simpa using hcall
          generalize s.pc t' = pc₀ at hmoved
          cases hmoved
          exact not_exposes_of_pointer rfl (by simp) hexposes
      · rw [Function.update_of_ne ht] at hexposes
        refine hcalls t' ?_ hexposes
        rcases List.mem_append.mp ht' with hold | hcall
        · exact hold
        · exact absurd (Event.act.inj (List.mem_singleton.mp hcall)).1 ht

/-! ## The origin of keys -/

/-- The key is cached, or a call has it. -/
def State.Has (s : State) (key : String) : Prop :=
  s.shared.Caches key ∨ ∃ t, (s.pc t).Exposes key ∨ ∃ fresh, s.pc t = .exchanged fresh ∧
    fresh.accessToken = key

/-- **A step brings no key** that an exchange has not returned. -/
theorem State.has_of_step {e : Event} (hstep : step s e = some s') (hkey : s'.Has key) :
    s.Has key ∨ ∃ t expiresAt jitter, e = .act t (.exchanged key expiresAt jitter) := by
  rcases step_cases hstep with ⟨d, rfl, rfl⟩ | ⟨token, rfl, rfl⟩ | ⟨t, a, sh, pc, rfl, hmoved, rfl⟩
  · exact .inl hkey
  · refine .inl (hkey.imp_left fun hcache => ?_)
    rcases invalidateIfCurrent_cases s.shared token with heq | ⟨heq, -⟩ <;> rw [heq] at hcache
    · exact absurd hcache (by simp [Shared.Caches])
    · exact hcache
  · have hstore (ha : a = .store key) : s.Has key := by
      generalize hpc : s.pc t = pc₀ at hmoved
      subst ha
      cases hmoved
      exact .inr ⟨t, .inr ⟨_, hpc, rfl⟩⟩
    rcases hkey with hcache | ⟨t', hcall⟩
    · exact .inl ((hmoved.caches hcache).elim .inl hstore)
    · dsimp only at hcall
      by_cases ht : t' = t
      · subst ht
        rw [Function.update_self] at hcall
        rcases hcall with hexposes | ⟨fresh, rfl, rfl⟩
        · rcases hmoved.exposes hexposes with hold | hcur | ha
          · exact .inl (.inr ⟨t', .inl hold⟩)
          · exact .inl (.inl hcur)
          · exact .inl (hstore ha)
        · generalize s.pc t' = pc₀ at hmoved
          cases hmoved
          exact .inr ⟨t', _, _, rfl⟩
      · rw [Function.update_of_ne ht] at hcall
        exact .inl (.inr ⟨t', hcall⟩)

/-- **Returned keys are minted**: in every run a key that a call returns is one that an exchange has
returned before. -/
theorem returned_key_minted {now : Int} {es : List Event} {s : State}
    (h : run step (start now) es = some s) {t : Nat} {result : Result}
    (hdone : s.pc t = .done result) (hkey : result.key = some key) :
    ∃ t' expiresAt jitter, .act t' (.exchanged key expiresAt jitter) ∈ es := by
  refine invariant_of_step (I := fun es s => s.Has key →
    ∃ t' expiresAt jitter, .act t' (.exchanged key expiresAt jitter) ∈ es)
    ?_ (fun es e s s' hs hstep hhas => ?_) h (.inr ⟨t, .inl (.inr ⟨result, .inr hdone, hkey⟩)⟩)
  · rintro (⟨p, hp, -⟩ | ⟨t, hexposes | ⟨fresh, hfresh, -⟩⟩)
    · exact absurd hp nofun
    · exact absurd hexposes (not_exposes_of_pointer rfl (by simp [start]))
    · exact absurd hfresh nofun
  · rcases State.has_of_step hstep hhas with hold | ⟨t, expiresAt, jitter, rfl⟩
    · obtain ⟨t, expiresAt, jitter, hmem⟩ := hs hold
      exact ⟨t, expiresAt, jitter, List.mem_append_left _ hmem⟩
    · exact ⟨t, expiresAt, jitter, by simp⟩

/-! ## Main result -/

/-- **The token cache is safe in every run.** A key from the cache was found at a time before its
expiry. A call that starts after a key was invalidated does not return it, unless it is stored again
in between. One exchange runs at a time. And `deferRefresh` leaves the cache alone, or publishes
with a later refresh time the very key that the call had read and that is still cached. -/
theorem tokenCache_safe {now : Int} {es : List Event} {s : State}
    (h : run step (start now) es = some s) :
    (∀ t token found, s.pc t = .done (.cached token found) → found < token.expiresAt) ∧
    (∀ t token checked deferred, s.pc t = .done (.kept token checked deferred) →
      checked < token.expiresAt ∧ checked ≤ deferred) ∧
    (∀ key earlier later t result, es = earlier ++ .invalidateIfCurrent key :: later →
      .act t .call ∈ later →
      s.pc t = .done result → result.key = some key → ∃ t', .act t' (.store key) ∈ later) ∧
    (∀ t t' cur cur', s.pc t = .exchanging cur → s.pc t' = .exchanging cur' → t = t') ∧
    (∀ t p checked s', s.pc t = .deferring p checked → step s (.act t .deferRefresh) = some s' →
      s'.shared.cur = s.shared.cur ∨
        s.shared.cur = some p ∧ ∃ addr next, p.token.refreshAt < next ∧ next ≤ p.token.expiresAt ∧
          s'.shared.cur = some { addr := addr, token := { p.token with refreshAt := next } }) := by
  have hinv : Invariant s :=
    invariant_of_step (I := fun _ s => Invariant s) (invariant_start now) (fun _ _ _ _ hs hstep =>
      hs.step hstep) h
  have hforgets : Forgets es s := by
    refine invariant_of_step (I := Forgets) ?_ (fun _ _ _ _ hs hstep => hs.step hstep) h
    intro key earlier later heq
    exact absurd heq (by simp)
  refine ⟨fun t token found hdone => ?_, fun t token checked deferred hdone => ?_,
    fun key earlier later t result heq hcall hdone hkey => ?_,
    fun t t' cur cur' ht ht' => ?_, fun t p checked s' hpc hstep => ?_⟩
  · have hsafe := hinv.pc t
    rw [hdone] at hsafe
    exact hsafe
  · have hsafe := hinv.pc t
    rw [hdone] at hsafe
    exact hsafe
  · by_contra hnone
    refine (hforgets key earlier later heq fun t' ht' => hnone ⟨t', ht'⟩).2 t hcall ?_
    exact Or.inr ⟨result, Or.inr hdone, hkey⟩
  · have hlock := hinv.lock t (by rw [ht]; trivial)
    have hlock' := hinv.lock t' (by rw [ht']; trivial)
    exact Option.some.inj (hlock.symm.trans hlock')
  · rw [step, hpc] at hstep
    obtain rfl := Option.some.inj hstep
    rcases deferRefresh_cases s.shared p failedRefreshBackoff with heq | ⟨q, next, hq, haddr,
      hlater, hnext, heq⟩
    · exact Or.inl (congrArg Shared.cur heq)
    · right
      have hp : s.Points p := Or.inr ⟨t, by rw [hpc]; rfl⟩
      obtain rfl := hinv.addr_inj q p (Or.inl hq) hp haddr
      exact ⟨hq, s.shared.nextAddr, next, hlater, hnext, congrArg Shared.cur heq⟩

/-- A key is minted at time 0 with an expiry of 100; at time 60 a second call tries to refresh it
and fails. -/
def lateRun : List Event :=
  [.act 0 .call, .act 0 .read, .act 0 .check, .act 0 .lock, .act 0 .reread, .act 0 .recheck,
    .act 0 (.exchanged "k" 100 0),
    .act 0 (.store "k"), .act 0 .leave, .tick 60, .act 1 .call, .act 1 .read, .act 1 .check,
    .act 1 .lock, .act 1 .reread,
    .act 1 .recheck, .act 1 .exchangeFailed, .tick 39, .act 1 .checkExpiry, .tick 2,
    .act 1 .deferRefresh, .act 1 .leave]

/-- The run exists, and what holds of every run holds of it. -/
theorem lateRun_safe :
    ∃ s, run step (start 0) lateRun = some s ∧
      ∀ t token checked deferred, s.pc t = .done (.kept token checked deferred) →
        checked < token.expiresAt ∧ checked ≤ deferred := by
  have hsome : (run step (start 0) lateRun).isSome = true := by decide
  obtain ⟨s, hs⟩ := Option.isSome_iff_exists.mp hsome
  exact ⟨s, hs, (tokenCache_safe hs).2.1⟩

/-- The second call checks the key at time 99, finds `mu` free at time 101, and returns the key that
has expired at 100. -/
theorem lateRun_expired : ∃ s token checked deferred, run step (start 0) lateRun = some s ∧
    s.pc 1 = .done (.kept token checked deferred) ∧ token.expiresAt < deferred := by
  obtain ⟨s, hs, hpc⟩ := Option.map_eq_some_iff.mp
    (show (run step (start 0) lateRun).map (·.pc 1) = some (.done (.kept ⟨"k", 100, 50⟩ 99 101)) by
      decide)
  exact ⟨s, _, _, _, hs, hpc, by decide⟩

/-- The key that the second call keeps was minted by the first one. -/
theorem lateRun_minted :
    ∃ t' expiresAt jitter, .act t' (.exchanged "k" expiresAt jitter) ∈ lateRun := by
  obtain ⟨s, hs, hpc⟩ := Option.map_eq_some_iff.mp
    (show (run step (start 0) lateRun).map (·.pc 1) = some (.done (.kept ⟨"k", 100, 50⟩ 99 101)) by
      decide)
  exact returned_key_minted hs hpc rfl

end Topograph.Lambdai
