import Topograph.Server.TrailingDelayQueue

/-! # No stale result

The store and the timers only ever hold the most recent submission of a hash, whatever is evicted in
between, and an entry only changes when the callback of its own submission finds it in the store. So
a result that `Get` returns was computed for the most recent submission (`queue_never_stale`). The
invariant speaks of the events so far; every event keeps it. -/

namespace Topograph.Server

variable {α β : Type}

/-! ## Submissions of a run -/

/-- The hash and the item of an event that submits. -/
def Event.submitted (hashOf : α → Except String String) : Event α β → Option (String × α)
  | .submit item =>
    match hashOf item with
    | .error _ => none
    | .ok hash => some (hash, item)
  | _ => none

/-- The submissions of a run, in order. -/
def submits (hashOf : α → Except String String) (es : List (Event α β)) : List (String × α) :=
  es.filterMap (·.submitted hashOf)

/-- `n` is the most recent submission of a hash. -/
def IsLatest (subs : List (String × α)) (hash : String) (n : Nat) : Prop :=
  (∃ item, subs[n]? = some (hash, item)) ∧ ∀ m sub, n < m → subs[m]? = some sub → sub.1 ≠ hash

variable {subs : List (String × α)} {hash : String}

theorem IsLatest.unique {m n : Nat} (hm : IsLatest subs hash m) (hn : IsLatest subs hash n) :
    m = n := by
  obtain ⟨⟨item, hitem⟩, hafter⟩ := hm
  obtain ⟨⟨item', hitem'⟩, hafter'⟩ := hn
  rcases Nat.lt_trichotomy m n with hlt | heq | hlt
  · exact absurd rfl (hafter n _ hlt hitem')
  · exact heq
  · exact absurd rfl (hafter' m _ hlt hitem)

variable {n : Nat}

theorem IsLatest.lt (h : IsLatest subs hash n) : n < subs.length := by
  obtain ⟨⟨item, hitem⟩, -⟩ := h
  exact (List.getElem?_eq_some_iff.mp hitem).1

/-- **Another submission** is the most recent one of its hash, and changes nothing for the
others. -/
theorem isLatest_append {hash h : String} {item : α} :
    IsLatest (subs ++ [(hash, item)]) h n ↔ if h = hash then n = subs.length
      else IsLatest subs h n := by
  split_ifs with heq
  · subst heq
    have hlast : IsLatest (subs ++ [(h, item)]) h subs.length := by
      refine ⟨⟨item, List.getElem?_concat_length⟩, fun m sub hm hsub => ?_⟩
      have := (List.getElem?_eq_some_iff.mp hsub).1
      simp at this
      omega
    exact ⟨fun hn => hn.unique hlast, fun hn => hn ▸ hlast⟩
  · constructor
    · rintro ⟨⟨item', hitem'⟩, hafter⟩
      have hlt : n < subs.length := by
        by_contra hge
        have hlen := (List.getElem?_eq_some_iff.mp hitem').1
        simp at hlen
        obtain rfl : n = subs.length := by omega
        rw [List.getElem?_concat_length] at hitem'
        exact heq (congrArg Prod.fst (Option.some.inj hitem')).symm
      refine ⟨⟨item', by rwa [List.getElem?_append_left hlt] at hitem'⟩, fun m sub hm hsub =>
        hafter m sub hm ?_⟩
      rw [List.getElem?_append_left (List.getElem?_eq_some_iff.mp hsub).1, hsub]
    · rintro ⟨⟨item', hitem'⟩, hafter⟩
      have hlt := (List.getElem?_eq_some_iff.mp hitem').1
      refine ⟨⟨item', by rw [List.getElem?_append_left hlt, hitem']⟩, fun m sub hm hsub => ?_⟩
      by_cases hm' : m < subs.length
      · rw [List.getElem?_append_left hm'] at hsub
        exact hafter m sub hm hsub
      · have hlen := (List.getElem?_eq_some_iff.mp hsub).1
        simp at hlen
        obtain rfl : m = subs.length := by omega
        rw [List.getElem?_concat_length] at hsub
        rw [← Option.some.inj hsub]
        exact Ne.symm heq

/-! ## The invariant -/

/-- The callback of a submission is through. -/
def Submission.Finished (sub : Submission α β) : Prop := ∃ result, sub.phase = .done result

/-- What the submissions have been told so far: what is stored in an entry comes from its own
handler. -/
structure Submission.Honest (es : List (Event α β)) (n : Nat) (sub : Submission α β) : Prop where
  entry : sub.entry = acceptedEntry sub.hash ∨
    ∃ result, sub.phase = .done result ∧ sub.entry = finishEntry (acceptedEntry sub.hash) result
  handled : ∀ result, sub.phase = .returned result ∨ sub.phase = .done result →
    .handled n result ∈ es
  published : sub.Finished ↔ .publish n ∈ es

/-- The hashes and items of the submissions. -/
def Queue.requests (q : Queue α β) : List (String × α) :=
  q.submissions.map fun sub => (sub.hash, sub.item)

/-- **What holds after every run.** -/
structure QueueInvariant (hashOf : α → Except String String) (es : List (Event α β))
    (q : Queue α β) : Prop where
  requests : q.requests = submits hashOf es
  honest : ∀ (n : Nat) (sub : Submission α β), q.submissions[n]? = some sub → sub.Honest es n
  publishedLt : ∀ n, .publish n ∈ es → n < q.submissions.length
  consistent : q.store.Consistent
  capacity : 0 < q.store.capacity
  /-- The store holds the most recent submission of a hash, if any. -/
  store : ∀ hash n, q.store.value hash = some n → IsLatest (submits hashOf es) hash n
  /-- The timer of the most recent submission is kept until its callback is through. -/
  timers : ∀ hash n, q.timers.lookup hash = some n ↔ IsLatest (submits hashOf es) hash n ∧
    .publish n ∉ es

variable {hashOf : α → Except String String} {es : List (Event α β)} {q q' : Queue α β}

/-- The invariant holds at the start. -/
theorem queueInvariant_start : QueueInvariant hashOf ([] : List (Event α β)) newQueue where
  requests := rfl
  honest := by simp [newQueue]
  publishedLt := by simp
  consistent := LruCache.consistent_newLRUCache _
  capacity := (by decide : 0 < requestHistorySize)
  store := by simp [newQueue, LruCache.newLRUCache, LruCache.value]
  timers := by simp [newQueue, submits, IsLatest]

theorem Queue.length_requests (q : Queue α β) : q.requests.length = q.submissions.length :=
  List.length_map _

theorem Queue.getElem?_update (q : Queue α β) (n : Nat) (f : Submission α β → Submission α β)
    (m : Nat) :
    (q.update n f).submissions[m]? = (q.submissions[m]?).map fun sub => if n = m then
      f sub else sub :=
  List.getElem?_modify _ _ _ _

variable {f : Submission α β → Submission α β}

/-- A change that keeps the hash and the item keeps the requests. -/
theorem Queue.requests_update (q : Queue α β) (n : Nat)
    (hf : ∀ sub, (f sub).hash = sub.hash ∧ (f sub).item = sub.item) :
    (q.update n f).requests = q.requests := by
  refine List.ext_getElem? fun m => ?_
  rw [Queue.requests, Queue.requests, List.getElem?_map, List.getElem?_map, Queue.getElem?_update,
    Option.map_map]
  congr 1
  funext sub
  rw [Function.comp_apply]
  split_ifs
  · rw [(hf sub).1, (hf sub).2]
  · rfl

theorem submits_append (es : List (Event α β)) (e : Event α β) :
    submits hashOf (es ++ [e]) = submits hashOf es ++ (e.submitted hashOf).toList := by
  rw [submits, List.filterMap_append, ← submits]
  cases h : e.submitted hashOf <;> simp [h]

/-! ## Changes that publish nothing -/

/-- Two runs with the same submissions and publications, of which the second has seen more. -/
structure Extends (hashOf : α → Except String String) (es es' : List (Event α β)) : Prop where
  submits : submits hashOf es' = submits hashOf es
  mem : ∀ e ∈ es, e ∈ es'
  publish : ∀ n, .publish n ∈ es' ↔ .publish n ∈ es

theorem Extends.refl (es : List (Event α β)) : Extends hashOf es es :=
  ⟨rfl, fun _ h => h, fun _ => Iff.rfl⟩

theorem Extends.append {e : Event α β} (hsub : e.submitted hashOf = none)
    (hpub : ∀ n, e ≠ .publish n) : Extends hashOf es (es ++ [e]) where
  submits := by rw [submits_append, hsub, Option.toList_none, List.append_nil]
  mem _ h := List.mem_append_left _ h
  publish n := by
    rw [List.mem_append, List.mem_singleton, or_iff_left fun h => hpub n h.symm]

variable {es' : List (Event α β)} {sub : Submission α β}

/-- Later events keep a submission honest. -/
theorem Submission.Honest.extends (hext : Extends hashOf es es') (h : sub.Honest es n) :
    sub.Honest es' n where
  entry := h.entry
  handled result hresult := hext.mem _ (h.handled result hresult)
  published := h.published.trans (hext.publish n).symm

section

variable (h : QueueInvariant hashOf es q)

include h

/-- **A change of one callback** that does not finish it. -/
theorem QueueInvariant.update (hext : Extends hashOf es es') (n : Nat)
    (hkeep : ∀ sub, (f sub).hash = sub.hash ∧ (f sub).item = sub.item ∧ (f sub).entry = sub.entry)
    (hphase : ∀ sub, q.submissions[n]? = some sub → (∀ result, (f sub).phase = .done result ↔
      sub.phase = .done result) ∧
      ∀ result, (f sub).phase = .returned result → sub.phase = .returned result ∨
        .handled n result ∈ es') :
    QueueInvariant hashOf es' (q.update n f) where
  requests := by
    rw [Queue.requests_update q n fun sub => ⟨(hkeep sub).1, (hkeep sub).2.1⟩,
      h.requests, hext.submits]
  honest m sub hsub := by
    rw [Queue.getElem?_update] at hsub
    obtain ⟨old, hold, rfl⟩ := Option.map_eq_some_iff.mp hsub
    have hhonest := (h.honest m old hold).extends hext
    split_ifs with hm
    · subst hm
      obtain ⟨hash, -, entry⟩ := hkeep old
      obtain ⟨hdone, hreturned⟩ := hphase old hold
      refine ⟨?_, fun result hresult => ?_, ?_⟩
      · rw [hash, entry]
        simpa only [hdone] using hhonest.entry
      · rcases hresult with hresult | hresult
        · exact (hreturned result hresult).elim (fun h => hhonest.handled result (Or.inl h)) id
        · exact hhonest.handled result (Or.inr ((hdone result).mp hresult))
      · rw [← hhonest.published]
        exact exists_congr hdone
    · exact hhonest
  publishedLt m hm := by
    have := h.publishedLt m ((hext.publish m).mp hm)
    rwa [Queue.update, List.length_modify]
  consistent := h.consistent
  capacity := h.capacity
  store := by
    rw [hext.submits]
    exact h.store
  timers hash m := by
    rw [hext.submits, hext.publish]
    exact h.timers hash m

/-- **A change of the store** that forgets values only. -/
theorem QueueInvariant.withStore {store : LruCache String Nat} (hconsistent : store.Consistent)
    (hcapacity : 0 < store.capacity) (hvalue : ∀ hash n, store.value hash = some n →
      q.store.value hash = some n) :
    QueueInvariant hashOf es { q with store := store } where
  requests := h.requests
  honest := h.honest
  publishedLt := h.publishedLt
  consistent := hconsistent
  capacity := hcapacity
  store hash n hn := h.store hash n (hvalue hash n hn)
  timers := h.timers

/-- An event that changes nothing. -/
theorem QueueInvariant.extends (hext : Extends hashOf es es') : QueueInvariant hashOf es' q where
  requests := h.requests.trans hext.submits.symm
  honest n sub hsub := (h.honest n sub hsub).extends hext
  publishedLt n hn := h.publishedLt n ((hext.publish n).mp hn)
  consistent := h.consistent
  capacity := h.capacity
  store := by
    rw [hext.submits]
    exact h.store
  timers hash n := by
    rw [hext.submits, hext.publish]
    exact h.timers hash n

/-- Stopping a timer keeps the invariant. -/
theorem QueueInvariant.stop (n : Nat) : QueueInvariant hashOf es (q.update n .stop) := by
  refine h.update (.refl es) n (fun sub => ?_) fun sub _ => ?_
  · unfold Submission.stop
    split <;> exact ⟨rfl, rfl, rfl⟩
  · unfold Submission.stop
    split
    · rename_i hphase
      simp [hphase]
    · exact ⟨fun _ => Iff.rfl, fun _ => Or.inl⟩

theorem QueueInvariant.stopTimers : QueueInvariant hashOf es q.stopTimers := by
  unfold Queue.stopTimers
  generalize q.timers.entries = entries
  induction entries generalizing q with
  | nil => exact h
  | cons e entries ih => exact ih (h.stop e.2)

/-! ## Submissions and publications -/

/-- The new submission of a hash. -/
theorem QueueInvariant.append {item : α} (hhash : hashOf item = .ok hash) :
    QueueInvariant hashOf (es ++ [.submit item])
      { submissions := q.submissions ++ [{ hash := hash, item := item, entry := acceptedEntry hash,
                                           phase := .armed }]
        timers := q.timers.insert hash q.submissions.length
        store := (q.store.add hash q.submissions.length).1 } := by
  have hsubmits : submits hashOf (es ++ [.submit item]) = submits hashOf es ++ [(hash, item)] := by
    rw [submits_append]
    simp [Event.submitted, hhash]
  have hlen : (submits hashOf es).length = q.submissions.length := by
    rw [← h.requests, Queue.length_requests]
  have hpub : ∀ n, Event.publish n ∈ es ++ [.submit item] ↔ Event.publish n ∈ es := by simp
  refine ⟨?_, fun n sub hsub => ?_, fun n hn => ?_, h.consistent.add _ _,
    by simpa using h.capacity, fun k n hn => ?_, fun k n => ?_⟩
  · rw [hsubmits, ← h.requests]
    simp [Queue.requests]
  · by_cases hn : n < q.submissions.length
    · rw [List.getElem?_append_left hn] at hsub
      have hhonest := h.honest n sub hsub
      exact ⟨hhonest.entry, fun r hr => List.mem_append_left _ (hhonest.handled r hr),
        hhonest.published.trans (hpub n).symm⟩
    · -- The new submission.
      have hlt := (List.getElem?_eq_some_iff.mp hsub).1
      simp at hlt
      obtain rfl : n = q.submissions.length := by omega
      rw [List.getElem?_concat_length] at hsub
      obtain rfl := Option.some.inj hsub
      refine ⟨Or.inl rfl, fun r hr => absurd hr (by simp), ?_⟩
      rw [hpub]
      refine ⟨fun ⟨_, hr⟩ => absurd hr (by simp),
        fun hmem => absurd (h.publishedLt _ hmem) (by omega)⟩
  · have := h.publishedLt n ((hpub n).mp hn)
    simp
    omega
  · rw [hsubmits, isLatest_append]
    split_ifs with hk
    · subst hk
      have hself := h.consistent.value_add_self h.capacity k q.submissions.length
      rw [hlen]
      exact Option.some.inj (hn.symm.trans hself)
    · rcases h.consistent.value_add_ne hk q.submissions.length with heq | hnone
      · exact h.store k n (heq ▸ hn)
      · exact absurd (hnone.symm.trans hn) (by simp)
  · change (q.timers.insert hash q.submissions.length).lookup k = some n ↔ _
    rw [hsubmits, isLatest_append, GoMap.lookup_insert_eq_ite, hpub]
    split_ifs with hk
    · rw [Option.some.injEq, hlen]
      refine ⟨fun heq => ⟨heq.symm, fun hmem => ?_⟩, fun ⟨heq, _⟩ => heq.symm⟩
      exact absurd (h.publishedLt n hmem) (by omega)
    · exact h.timers k n

/-- A submission keeps the invariant. -/
theorem QueueInvariant.submit {item : α} (hhash : hashOf item = .ok hash) :
    QueueInvariant hashOf (es ++ [.submit item]) (q.submit hash item) := by
  unfold Queue.submit
  cases q.timers.lookup hash with
  | none => exact h.append hhash
  | some n => exact (h.stop n).append hhash

end

variable {result : Except HTTPError β}

section

variable (h : QueueInvariant hashOf es q) (hsub : q.submissions[n]? = some sub)
  (hphase : sub.phase = .returned result)

include h hsub hphase

/-- What a publication changes in the submissions and the timers. -/
theorem QueueInvariant.finish (hkeep : ∀ sub, (f sub).hash = sub.hash ∧ (f sub).item = sub.item ∧
      (f sub).phase = .done result)
    (hentry : (f sub).entry = sub.entry ∨ (f sub).entry = finishEntry sub.entry result) :
    QueueInvariant hashOf (es ++ [.publish n])
      { submissions := q.submissions.modify n f
        timers := if q.timers.lookup sub.hash = some n then q.timers.erase sub.hash else q.timers
        store := q.store } := by
  have hhonest := h.honest n sub hsub
  have hsubmits : submits hashOf (es ++ [.publish n]) = submits hashOf es := by
    rw [submits_append]
    simp [Event.submitted]
  have hpub : ∀ m, Event.publish m ∈ es ++ [.publish n] ↔ Event.publish m ∈ es ∨ m = n := by simp
  have haccepted : sub.entry = acceptedEntry sub.hash := by
    rcases hhonest.entry with heq | ⟨r, hr, -⟩
    · exact heq
    · exact absurd (hphase.symm.trans hr) (by simp)
  have hnew : Event.publish n ∉ es := by
    rw [← hhonest.published]
    rintro ⟨r, hr⟩
    exact absurd (hphase.symm.trans hr) (by simp)
  refine ⟨?_, fun m sub' hsub' => ?_, fun m hm => ?_, h.consistent, h.capacity, ?_, fun k m => ?_⟩
  · rw [hsubmits, ← h.requests]
    exact Queue.requests_update q n fun sub => ⟨(hkeep sub).1, (hkeep sub).2.1⟩
  · rw [List.getElem?_modify] at hsub'
    obtain ⟨old, hold, rfl⟩ := Option.map_eq_some_iff.mp hsub'
    split_ifs with hm
    · subst hm
      obtain rfl := Option.some.inj (hsub.symm.trans hold)
      obtain ⟨hash, -, hdone⟩ := hkeep sub
      refine ⟨?_, fun r hr => ?_, ⟨fun _ => (hpub n).mpr (Or.inr rfl), fun _ => ⟨result, hdone⟩⟩⟩
      · rw [hash]
        rcases hentry with hentry | hentry
        · exact Or.inl (hentry.trans haccepted)
        · exact Or.inr ⟨result, hdone, hentry.trans (by rw [haccepted])⟩
      · have hr' : r = result := by
          rcases hr with hr | hr
          · exact absurd (hdone.symm.trans hr) (by simp)
          · exact (Phase.done.inj (hdone.symm.trans hr)).symm
        exact List.mem_append_left _ (hhonest.handled r (Or.inl (hr' ▸ hphase)))
    · have hold' := h.honest m old hold
      refine ⟨hold'.entry, fun r hr => List.mem_append_left _ (hold'.handled r hr),
        hold'.published.trans ?_⟩
      rw [hpub, or_iff_left fun heq => hm heq.symm]
  · rw [List.length_modify]
    rcases (hpub m).mp hm with hm | rfl
    · exact h.publishedLt m hm
    · exact (List.getElem?_eq_some_iff.mp hsub).1
  · rw [hsubmits]
    exact h.store
  · -- The timer of the most recent submission goes when it is the one that is published.
    have hlatest : ∀ {k'}, IsLatest (submits hashOf es) k' n → k' = sub.hash := by
      rintro k' ⟨⟨item, hitem⟩, -⟩
      rw [← h.requests, Queue.requests, List.getElem?_map, hsub] at hitem
      exact (congrArg Prod.fst (Option.some.inj hitem)).symm
    change (if q.timers.lookup sub.hash = some n then q.timers.erase sub.hash else q.timers).lookup
      k = some m ↔ _
    rw [hsubmits, hpub, not_or]
    have htimers := h.timers k m
    split_ifs with htimer
    · have hn := ((h.timers sub.hash n).mp htimer).1
      by_cases hk : k = sub.hash
      · subst hk
        rw [AList.lookup_erase]
        simp only [reduceCtorEq, false_iff, not_and]
        intro hm _
        exact not_not_intro (hm.unique hn)
      · rw [AList.lookup_erase_ne hk, htimers]
        refine and_congr_right fun hm => (and_iff_left ?_).symm
        rintro rfl
        exact hk (hlatest hm)
    · rw [htimers]
      refine and_congr_right fun hm => (and_iff_left ?_).symm
      rintro rfl
      have hk := hlatest hm
      exact htimer (hk ▸ htimers.mpr ⟨hm, hnew⟩)

/-- Publishing a result keeps the invariant. -/
theorem QueueInvariant.publish :
    QueueInvariant hashOf (es ++ [.publish n]) (q.publish n sub result) := by
  have hget := h.consistent.get sub.hash
  have hvalue := q.store.value_get sub.hash
  unfold Queue.publish
  dsimp only
  by_cases hcurrent : (q.store.get sub.hash).1 = some n
  · rw [if_pos hcurrent]
    have hfinish := h.finish hsub hphase (f := fun sub =>
      { sub with entry := finishEntry sub.entry result, phase := .done result })
      (fun sub => ⟨rfl, rfl, rfl⟩) (Or.inr rfl)
    refine hfinish.withStore (hget.add _ _) (by simpa using h.capacity) fun k m hm => ?_
    by_cases hk : k = sub.hash
    · -- The entry was the current one before.
      subst hk
      rw [hget.value_add_self (by simpa using h.capacity)] at hm
      rw [← hm, ← hcurrent, LruCache.fst_get]
    · rcases hget.value_add_ne hk n with heq | hnone
      · rw [← hvalue k, ← heq, hm]
      · exact absurd (hnone.symm.trans hm) (by simp)
  · rw [if_neg hcurrent]
    have hfinish := h.finish hsub hphase (f := fun sub => { sub with phase := .done result })
      (fun sub => ⟨rfl, rfl, rfl⟩)
      (Or.inl rfl)
    refine hfinish.withStore hget (by simpa using h.capacity) fun k m hm => ?_
    rw [← hvalue k, hm]

end

/-! ## Every run -/

/-- **Every event keeps the invariant.** -/
theorem QueueInvariant.step (h : QueueInvariant hashOf es q) {e : Event α β}
    (hstep : Server.step hashOf q e = some q') : QueueInvariant hashOf (es ++ [e]) q' := by
  cases e with
  | submit item =>
    rw [Server.step] at hstep
    cases hhash : hashOf item with
    | error err =>
      rw [hhash] at hstep
      obtain rfl := Option.some.inj hstep
      exact h.extends (.append (by simp [Event.submitted, hhash]) (by simp))
    | ok hash =>
      rw [hhash] at hstep
      obtain rfl := Option.some.inj hstep
      exact h.submit hhash
  | fire n =>
    rw [Server.step] at hstep
    split at hstep
    · rename_i hphase
      obtain rfl := Option.some.inj hstep
      obtain ⟨sub, hsub, harmed⟩ := Option.map_eq_some_iff.mp hphase
      refine h.update (.append rfl (by simp)) n (fun sub => ⟨rfl, rfl, rfl⟩) fun sub' hsub' => ?_
      obtain rfl := Option.some.inj (hsub.symm.trans hsub')
      simp [harmed]
    · exact absurd hstep (by simp)
  | handled n result =>
    rw [Server.step] at hstep
    split at hstep
    · rename_i hphase
      obtain rfl := Option.some.inj hstep
      obtain ⟨sub, hsub, hrunning⟩ := Option.map_eq_some_iff.mp hphase
      refine h.update (.append rfl (by simp)) n (fun sub => ⟨rfl, rfl, rfl⟩) fun sub' hsub' => ?_
      obtain rfl := Option.some.inj (hsub.symm.trans hsub')
      -- The handler's own event stands last.
      refine ⟨by simp [hrunning], fun r hr => Or.inr ?_⟩
      rw [Phase.returned.inj hr]
      exact List.mem_append_cons_self
    · exact absurd hstep (by simp)
  | publish n =>
    rw [Server.step] at hstep
    split at hstep
    · rename_i sub result hsub hphase
      obtain rfl := Option.some.inj hstep
      rw [Queue.phase, hsub] at hphase
      exact h.publish hsub (Option.some.inj hphase)
    · exact absurd hstep (by simp)
  | get hash =>
    obtain rfl := Option.some.inj hstep
    have hext : QueueInvariant hashOf (es ++ [.get hash]) q := h.extends (.append rfl (by simp))
    -- `Get` only moves the entry to the front of the store.
    have hq : (q.get hash).2 = { q with store := (q.store.get hash).2 } := by
      unfold Queue.get
      dsimp only
      split <;> rfl
    rw [hq]
    refine hext.withStore (h.consistent.get hash) (by simpa using h.capacity) fun k n hn => ?_
    rw [← LruCache.value_get q.store hash k, hn]
  | shutdown =>
    obtain rfl := Option.some.inj hstep
    exact h.stopTimers.extends (.append rfl (by simp))

/-- **No stale result.** After every run, a completion that `Get` returns other than "accepted" or
"not found" is the result of the handler for the most recent submission of the hash; and the timers
are those of the most recent submissions whose callbacks are not through. -/
theorem queue_never_stale (hashOf : α → Except String String) (es : List (Event α β))
    (q : Queue α β) (hrun : Runs.run (step hashOf) newQueue es = some q) :
    (∀ hash, (q.get hash).1.status ≠ statusAccepted → (q.get hash).1.status ≠ statusNotFound →
      ∃ n result, IsLatest (submits hashOf es) hash n ∧ .handled n result ∈ es ∧
        (q.get hash).1 = finishEntry (acceptedEntry hash) result) ∧
    ∀ hash n, q.timers.lookup hash = some n ↔ IsLatest (submits hashOf es) hash n ∧
    .publish n ∉ es := by
  have hinv : QueueInvariant hashOf es q :=
    Runs.invariant_of_step queueInvariant_start (fun _ _ _ _ h => h.step) hrun
  refine ⟨fun hash haccepted hfound => ?_, hinv.timers⟩
  unfold Queue.get at haccepted hfound ⊢
  dsimp only at haccepted hfound ⊢
  rw [LruCache.fst_get] at haccepted hfound ⊢
  cases hvalue : q.store.value hash with
  | none =>
    rw [hvalue] at hfound
    exact absurd rfl hfound
  | some n =>
    have hlatest := hinv.store hash n hvalue
    obtain ⟨sub, hsub⟩ : ∃ sub, q.submissions[n]? = some sub := by
      refine ⟨_, List.getElem?_eq_getElem ?_⟩
      rw [← Queue.length_requests, hinv.requests]
      exact hlatest.lt
    have hhash : sub.hash = hash := by
      obtain ⟨⟨item, hitem⟩, -⟩ := hlatest
      rw [← hinv.requests, Queue.requests, List.getElem?_map, hsub] at hitem
      exact congrArg Prod.fst (Option.some.inj hitem)
    rw [hvalue, Option.bind_some, hsub] at haccepted
    rw [Option.bind_some, hsub]
    have hhonest := hinv.honest n sub hsub
    rcases hhonest.entry with hentry | ⟨result, hdone, hentry⟩
    · exact absurd (congrArg Completion.status hentry) haccepted
    · exact ⟨n, result, hlatest, hhonest.handled result (Or.inr hdone), hhash ▸ hentry⟩

/-- The callback of a superseded submission is overtaken by that of the later one, and returns
last. -/
def overtakenRun : List (Event (String × String) String) :=
  [.submit ("h", "old"), .fire 0, .submit ("h", "new"), .fire 1, .handled 1 (.ok "new"), .publish 1,
    .handled 0 (.ok "old"),
    .publish 0]

/-- The result that is returned in the end is that of the later submission. -/
theorem overtakenRun_result :
    ∃ q, Runs.run (step fun item => .ok item.1) newQueue overtakenRun = some q ∧
    (q.get "h").1.status = statusOK ∧
      ∃ n result, IsLatest (submits (fun item => .ok item.1) overtakenRun) "h" n ∧
      .handled n result ∈ overtakenRun ∧
        (q.get "h").1 = finishEntry (acceptedEntry "h") result := by
  have hrun : ((Runs.run (step fun item => .ok item.1) newQueue overtakenRun).map fun q =>
      (q.get "h").1.status) =
      some statusOK := by decide
  obtain ⟨q, hq, hstatus⟩ := Option.map_eq_some_iff.mp hrun
  refine ⟨q, hq, hstatus, (queue_never_stale _ _ q hq).1 "h" ?_ ?_⟩
  · rw [hstatus]
    decide
  · rw [hstatus]
    decide

end Topograph.Server
