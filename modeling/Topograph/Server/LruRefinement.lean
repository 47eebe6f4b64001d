import Topograph.Lib.RecencyList
import Topograph.Server.Lru

/-! # The LRU store is a recency list

After any calls the linked list of the cache, read as keys and values, is the recency list of the
same calls, and the map holds the keys of the list. What is stored, what is evicted and what `Get`
changes is then read off the recency list and off the calls. -/

namespace Topograph.Server

namespace LruCache

universe u v

variable {K : Type u} {V : Type v} [DecidableEq K]

/-- One call of the cache. -/
def step (c : LruCache K V) : Access K V → LruCache K V
  | .add key value => (c.add key value).1
  | .get key => (c.get key).2

/-- The cache after some calls. -/
def run (capacity : Nat) (calls : List (Access K V)) : LruCache K V :=
  calls.foldl step (newLRUCache capacity)

theorem run_concat (capacity : Nat) (calls : List (Access K V)) (call : Access K V) :
    run capacity (calls ++ [call]) = (run capacity calls).step call := by
  rw [run, List.foldl_concat, run]

omit [DecidableEq K] in
/-- The keys and values of the linked list. -/
def contents (items : List (Elem K V)) : List (K × V) :=
  items.map fun item => (item.key, item.value)

/-! ## The keys of the list -/

section Consistent

variable {c : LruCache K V}

variable (h : c.Consistent)

include h

theorem Consistent.ref_eq_iff {item item' : Elem K V} (hitem : item ∈ c.items)
    (hitem' : item' ∈ c.items) : item.ref = item'.ref ↔ item.key = item'.key := by
  constructor
  · exact fun href => congrArg Elem.key (eq_of_ref h.refs hitem hitem' href)
  · intro hkey
    have hlook := (h.indexed item.key item.ref).mpr ⟨item, hitem, rfl, rfl⟩
    exact Option.some.inj (hlook.symm.trans ((h.indexed item.key item'.ref).mpr ⟨item', hitem',
      hkey.symm, rfl⟩))

/-- A key stands in the list once. -/
theorem Consistent.nodup_keys : (c.items.map (·.key)).Nodup := by
  refine h.refs.of_map.map_on fun item hitem item' hitem' hkey => ?_
  exact eq_of_ref h.refs hitem hitem' ((h.ref_eq_iff hitem hitem').mpr hkey)

theorem Consistent.mem_entries (key : K) : key ∈ c.entries ↔ key ∈ c.items.map (·.key) := by
  rw [← AList.lookup_isSome, Option.isSome_iff_exists, List.mem_map]
  constructor
  · rintro ⟨ref, hlook⟩
    obtain ⟨item, hitem, hkey, -⟩ := (h.indexed key ref).mp hlook
    exact ⟨item, hitem, hkey⟩
  · rintro ⟨item, hitem, hkey⟩
    exact ⟨item.ref, (h.indexed key item.ref).mpr ⟨item, hitem, hkey, rfl⟩⟩

theorem Consistent.value_isSome (key : K) : (c.value key).isSome ↔ key ∈ c.entries := by
  rw [← AList.lookup_isSome, value]
  cases hlook : c.entries.lookup key with
  | none => rfl
  | some ref =>
    obtain ⟨item, hitem, -, rfl⟩ := (h.indexed key ref).mp hlook
    simp [h.find? hitem]

variable {item : Elem K V}

/-- Without an element is without its key. -/
theorem Consistent.contents_filter (hitem : item ∈ c.items) :
    contents (c.items.filter (·.ref ≠ item.ref)) = (contents c.items).filter (·.1 ≠ item.key) := by
  rw [contents, contents, List.filter_map]
  refine congrArg _ (List.filter_congr fun other hother => ?_)
  exact decide_eq_decide.mpr (not_congr (h.ref_eq_iff hother hitem))

/-- **Moving an element to the front** brings its key to the front. -/
theorem Consistent.contents_moveToFront (hitem : item ∈ c.items) :
    contents (moveToFront c.items item.ref) = RecencyList.touch
      (contents c.items) item.key item.value := by
  rw [moveToFront, h.find? hitem]
  exact congrArg _ (h.contents_filter hitem)

omit h in
omit [DecidableEq K] in
theorem filter_setValue (items : List (Elem K V)) (ref : Nat) (v : V) :
    (setValue items ref v).filter (·.ref ≠ ref) = items.filter (·.ref ≠ ref) := by
  induction items with
  | nil => rfl
  | cons item items ih =>
    rw [setValue, List.map_cons, ← setValue]
    by_cases href : item.ref = ref
    · simpa [href] using ih
    · simpa [href] using ih

omit h in
omit [DecidableEq K] in
theorem find?_setValue_self {items : List (Elem K V)} {ref : Nat}
    (h : items.find? (·.ref = ref) = some item) (v : V) :
    (setValue items ref v).find? (·.ref = ref) = some { item with value := v } := by
  have href : item.ref = ref := by simpa using List.find?_some h
  rw [setValue, List.find?_map]
  have hsame : ((fun other : Elem K V => decide (other.ref = ref)) ∘
      fun other => if other.ref = ref then { other with value := v } else other) = fun other =>
        decide (other.ref = ref) := by
    funext other
    rw [Function.comp_apply]
    split_ifs <;> rfl
  rw [hsame, h, Option.map_some, if_pos href]

/-- Replacing a value touches its key. -/
theorem Consistent.contents_setValue (hitem : item ∈ c.items) (v : V) :
    contents (moveToFront (setValue c.items item.ref v) item.ref) = RecencyList.touch
      (contents c.items) item.key v := by
  rw [moveToFront, find?_setValue_self (h.find? hitem)]
  simp only [filter_setValue]
  exact congrArg _ (h.contents_filter hitem)

/-- A key that is not stored is no key of the list. -/
theorem Consistent.filter_contents_of_none {key : K} (hnone : c.entries.lookup key = none) :
    (contents c.items).filter (·.1 ≠ key) = contents c.items := by
  refine List.filter_eq_self.mpr fun entry hentry => ?_
  obtain ⟨item, hitem, rfl⟩ := List.mem_map.mp hentry
  refine decide_eq_true fun hkey : item.key = key => ?_
  exact absurd ((h.indexed key item.ref).mpr ⟨item, hitem, hkey, rfl⟩) (by simp [hnone])

theorem Consistent.find?_contents (hitem : item ∈ c.items) :
    (contents c.items).find? (·.1 = item.key) = some (item.key, item.value) := by
  rw [contents, List.find?_map]
  have hcongr : c.items.find? ((fun entry : K × V => decide (entry.1 = item.key)) ∘ fun other =>
      (other.key, other.value)) =
      c.items.find? (·.ref = item.ref) := by
    rw [← List.head?_filter, ← List.head?_filter]
    exact congrArg _ (List.filter_congr fun other hother =>
      decide_eq_decide.mpr (h.ref_eq_iff hother hitem).symm)
  rw [hcongr, h.find? hitem, Option.map_some]

theorem Consistent.find?_contents_of_none {key : K} (hnone : c.entries.lookup key = none) :
    (contents c.items).find? (·.1 = key) = none := by
  rw [← h.filter_contents_of_none hnone]
  refine List.find?_eq_none.mpr fun entry hentry => ?_
  simpa using (List.mem_filter.mp hentry).2

end Consistent

/-! ## The refinement -/

/-- The cache holds what the recency list holds, in its order. -/
structure Refines {capacity : Nat} (c : LruCache K V) (r : RecencyList K V capacity) : Prop where
  consistent : c.Consistent
  capacity : c.capacity = capacity
  contents : LruCache.contents c.items = r.entries

section Refines

variable {capacity : Nat} {c : LruCache K V} {r : RecencyList K V capacity}

theorem Refines.length (h : c.Refines r) : c.items.length = r.entries.length := by
  rw [← h.contents, LruCache.contents, List.length_map]

/-- Lookups agree. -/
theorem Refines.value (h : c.Refines r) (key : K) : c.value key = r.lookup key := by
  rw [LruCache.value, RecencyList.lookup, ← h.contents]
  cases hlook : c.entries.lookup key with
  | none => rw [h.consistent.find?_contents_of_none hlook, Option.bind_none, Option.map_none]
  | some ref =>
    obtain ⟨item, hitem, rfl, rfl⟩ := (h.consistent.indexed key ref).mp hlook
    rw [h.consistent.find?_contents hitem, Option.bind_some, h.consistent.find? hitem,
      Option.map_some, Option.map_some]

/-- **`Get` refines the abstract access.** -/
theorem Refines.get (h : c.Refines r) (key : K) : (c.get key).2.Refines (r.get key) := by
  refine ⟨h.consistent.get key, (capacity_get c key).trans h.capacity, ?_⟩
  cases hlook : c.entries.lookup key with
  | none =>
    have hfind := h.consistent.find?_contents_of_none hlook
    rw [h.contents] at hfind
    rw [RecencyList.entries_get_of_none hfind, ← h.contents, LruCache.get, hlook]
  | some ref =>
    obtain ⟨item, hitem, rfl, rfl⟩ := (h.consistent.indexed key ref).mp hlook
    have hfind := h.consistent.find?_contents hitem
    rw [h.contents] at hfind
    rw [RecencyList.entries_get_of_some hfind, ← h.contents, LruCache.get, hlook]
    exact h.consistent.contents_moveToFront hitem

/-- The contents with a new key, before and after an eviction. -/
theorem Refines.contents_push (h : c.Refines r) {key : K} (hnone : c.entries.lookup key = none)
    (v : V) : LruCache.contents (c.push key v).items = RecencyList.touch r.entries key v := by
  rw [RecencyList.touch, ← h.contents, h.consistent.filter_contents_of_none hnone]
  rfl

/-- The oldest element is the last one. -/
theorem contents_removeOldest (c : LruCache K V) :
    LruCache.contents c.removeOldest.items = (LruCache.contents c.items).dropLast := by
  unfold removeOldest
  cases hlast : c.items.getLast? with
  | none => rw [List.getLast?_eq_none_iff.mp hlast]; rfl
  | some item => exact List.map_dropLast

/-- **`Add` refines the abstract addition.** -/
theorem Refines.add (h : c.Refines r) (key : K) (v : V) :
    (c.add key v).1.Refines (r.add key v) := by
  refine ⟨h.consistent.add key v, (capacity_add c key v).trans h.capacity, ?_⟩
  show LruCache.contents (c.add key v).1.items = (RecencyList.touch r.entries key v).take capacity
  cases hlook : c.entries.lookup key with
  | none =>
    have hlength : (RecencyList.touch r.entries key v).length = c.items.length + 1 := by
      rw [← h.contents_push hlook v, LruCache.contents, List.length_map]
      rfl
    rw [add_eq_of_none hlook, h.capacity]
    split_ifs with hroom
    · rw [h.contents_push hlook v, List.take_of_length_le (by omega)]
    · -- The cache was full, so that one key leaves.
      have hfull : capacity = (RecencyList.touch r.entries key v).length - 1 := by
        have := h.length ▸ r.bounded
        omega
      rw [contents_removeOldest, h.contents_push hlook v, List.dropLast_eq_take, ← hfull]
  | some ref =>
    obtain ⟨item, hitem, rfl, rfl⟩ := (h.consistent.indexed key ref).mp hlook
    have hmem : (item.key, item.value) ∈ r.entries := h.contents ▸ List.mem_map_of_mem hitem
    rw [List.take_of_length_le (RecencyList.length_touch_le hmem v), ← h.contents,
      LruCache.add, hlook]
    exact h.consistent.contents_setValue hitem v

/-- **The cache refines the recency list**, after any calls. -/
theorem refines_run (capacity : Nat) (calls : List (Access K V)) :
    (run capacity calls).Refines (RecencyList.run capacity calls) := by
  induction calls using List.reverseRecOn with
  | nil => exact ⟨consistent_newLRUCache capacity, rfl, rfl⟩
  | append_singleton calls call ih =>
    rw [run_concat, RecencyList.run_concat]
    cases call with
    | add key value => exact ih.add key value
    | get key => exact ih.get key

end Refines

/-! ## What the calls say -/

/-- The call takes the key out of the cache. -/
def Evicts (c : LruCache K V) (call : Access K V) (key : K) : Prop :=
  key ∈ c.entries ∧ key ∉ (c.step call).entries

/-- The value was added last for the key, which was not evicted since. -/
def LastAdded (capacity : Nat) (calls : List (Access K V)) (key : K) (value : V) : Prop :=
  ∃ before after, calls = before ++ .add key value :: after ∧
    (∀ call ∈ after, ∀ other, call ≠ .add key other) ∧
    ∀ mid call rest, after = mid ++ call :: rest →
    ¬ (run capacity (before ++ .add key value :: mid)).Evicts call key

section Calls

variable {c : LruCache K V}

/-- A call that adds no value for a key keeps its value or evicts it. -/
theorem Consistent.value_step (h : c.Consistent) {call : Access K V} {key : K}
    (hcall : ∀ other, call ≠ .add key other) :
    (c.step call).value key = c.value key ∨ (c.step call).value key = none := by
  cases call with
  | add k v => exact h.value_add_ne (fun heq => hcall v (congrArg (Access.add · v) heq.symm)) v
  | get k => exact Or.inl (value_get c k key)

variable {capacity : Nat}

theorem LastAdded.concat {calls : List (Access K V)} {key : K} {value : V} {call : Access K V}
    (h : LastAdded capacity calls key value) (hcall : ∀ other, call ≠ .add key other)
    (hkept : ¬ (run capacity calls).Evicts call key) :
    LastAdded capacity (calls ++ [call]) key value := by
  obtain ⟨before, after, rfl, hadds, hevicts⟩ := h
  refine ⟨before, after ++ [call], by simp, fun other hother => ?_, fun mid other rest heq => ?_⟩
  · rcases List.mem_append.mp hother with hother | hother
    · exact hadds other hother
    · rwa [List.mem_singleton.mp hother]
  · -- The call is the last one, or one of those before.
    rcases List.eq_nil_or_concat rest with rfl | ⟨rest, last, rfl⟩
    · obtain ⟨rfl, hsingle⟩ := List.append_inj' heq rfl
      rwa [← (List.cons.inj hsingle).1]
    · rw [List.concat_eq_append, ← List.cons_append, ← List.append_assoc] at heq
      exact hevicts mid other rest (List.append_inj' heq rfl).1

theorem capacity_run_pos (hcap : 0 < capacity) (calls : List (Access K V)) :
    0 < (run capacity calls).capacity := by
  rwa [(refines_run capacity calls).capacity]

/-- **The value of a key** is the one that was added last, unless the key was evicted since. -/
theorem value_run_iff (hcap : 0 < capacity) (calls : List (Access K V)) (key : K) (value : V) :
    (run capacity calls).value key = some value ↔ LastAdded capacity calls key value := by
  constructor
  · intro hvalue
    induction calls using List.reverseRecOn with
    | nil => exact absurd hvalue (by simp [run, newLRUCache, LruCache.value])
    | append_singleton calls call ih =>
      have hc := (refines_run capacity calls).consistent
      have hc' := (refines_run capacity (calls ++ [call])).consistent
      rw [run_concat] at hvalue hc'
      by_cases hadd : ∃ other, call = .add key other
      · obtain ⟨other, rfl⟩ := hadd
        have hother := hc.value_add_self (capacity_run_pos hcap calls) key other
        obtain rfl : other = value := Option.some.inj (hother.symm.trans hvalue)
        exact ⟨calls, [], rfl, by simp, by simp⟩
      · have hcall : ∀ other, call ≠ .add key other := fun other heq => hadd ⟨other, heq⟩
        have hbefore : (run capacity calls).value key = some value := by
          rcases hc.value_step hcall with hsame | hnone
          · exact hsame ▸ hvalue
          · exact absurd (hnone.symm.trans hvalue) (by simp)
        refine (ih hbefore).concat hcall fun hevicts => hevicts.2 ((hc'.value_isSome key).mp ?_)
        rw [hvalue]
        rfl
  · rintro ⟨before, after, rfl, hadds, hevicts⟩
    induction after using List.reverseRecOn with
    | nil =>
      rw [run_concat]
      exact (refines_run capacity before).consistent.value_add_self (capacity_run_pos hcap before)
        key value
    | append_singleton after call ih =>
      have hvalue := ih (fun other hother => hadds other (List.mem_append_left _ hother))
        fun mid other rest heq => hevicts mid other (rest ++ [call]) (by simp [heq])
      have hkept := hevicts after call [] rfl
      have hc := (refines_run capacity (before ++ .add key value :: after)).consistent
      have hc' := (refines_run capacity ((before ++ .add key value :: after) ++ [call])).consistent
      rw [← List.cons_append, ← List.append_assoc, run_concat]
      rw [run_concat] at hc'
      rcases hc.value_step (hadds call (by simp)) with hsame | hnone
      · exact hsame.trans hvalue
      · refine absurd ⟨(hc.value_isSome key).mp (by rw [hvalue]; rfl), fun hmem => ?_⟩ hkept
        simpa [hnone] using (hc'.value_isSome key).mpr hmem

end Calls

/-! ## Evictions -/

section Evictions

variable {c : LruCache K V}

/-- **A new key in a full cache evicts the last key of the list**, and no other. -/
theorem Consistent.mem_add_of_full (h : c.Consistent) (hcap : 0 < c.capacity) {key : K}
    (hnew : key ∉ c.entries) (hfull : c.items.length = c.capacity) (v : V) :
    (c.add key v).2 = true ∧ ∃ oldest, c.items.getLast? = some oldest ∧
      ∀ k, k ∈ (c.add key v).1.entries ↔ k = key ∨ k ∈ c.entries ∧ k ≠ oldest.key := by
  have hne : c.items ≠ [] := List.length_pos_iff.mp (hfull ▸ hcap)
  have hlast : (c.push key v).items.getLast? = some (c.items.getLast hne) := by
    rw [LruCache.push, List.getLast?_cons, List.getLast?_eq_some_getLast hne]
    rfl
  have hold : (c.items.getLast hne).key ∈ c.entries :=
    (h.mem_entries _).mpr (List.mem_map_of_mem (List.getLast_mem hne))
  rw [add_eq_of_none (AList.lookup_eq_none.mpr hnew), if_neg (by omega)]
  refine ⟨rfl, _, List.getLast?_eq_some_getLast hne, fun k => ?_⟩
  rw [LruCache.removeOldest, hlast]
  show k ∈ (c.entries.insert key c.next).erase _ ↔ _
  rw [AList.mem_erase, AList.mem_insert]
  constructor
  · rintro ⟨hk, rfl | hmem⟩
    · exact Or.inl rfl
    · exact Or.inr ⟨hmem, hk⟩
  · rintro (rfl | ⟨hmem, hk⟩)
    · exact ⟨fun heq => hnew (heq ▸ hold), Or.inl rfl⟩
    · exact ⟨hk, Or.inr hmem⟩

/-- Any other call of `Add` evicts nothing. -/
theorem mem_add_of_room {key : K} (hroom : key ∈ c.entries ∨ c.items.length < c.capacity) (v : V) :
    (c.add key v).2 = false ∧ ∀ k, k ∈ (c.add key v).1.entries ↔ k = key ∨ k ∈ c.entries := by
  cases hlook : c.entries.lookup key with
  | none =>
    have hlt := hroom.resolve_left (AList.lookup_eq_none.mp hlook)
    rw [add_eq_of_none hlook, if_pos hlt]
    exact ⟨rfl, fun k => AList.mem_insert c.entries⟩
  | some ref =>
    have hmem : key ∈ c.entries := AList.lookup_isSome.mp (by rw [hlook]; rfl)
    rw [add, hlook]
    exact ⟨rfl, fun k => ⟨Or.inr, fun hk => hk.elim (· ▸ hmem) id⟩⟩

/-- **`Get` changes the order of the list**, and nothing else. -/
theorem Consistent.get_perm (h : c.Consistent) (key : K) :
    (c.get key).2.items.Perm c.items ∧ (c.get key).2 = { c with items := (c.get key).2.items } := by
  unfold LruCache.get
  cases hlook : c.entries.lookup key with
  | none => exact ⟨List.Perm.refl _, rfl⟩
  | some ref =>
    refine ⟨(List.perm_ext_iff_of_nodup ?_ h.refs.of_map).mpr fun item => mem_moveToFront h.refs,
      rfl⟩
    exact (nodup_moveToFront h.refs ref).of_map

/-- The last key of the list is the one whose last use is the longest ago. -/
theorem usedAfter_oldest {capacity : Nat} {calls : List (Access K V)} {oldest : Elem K V}
    (hlast : (run capacity calls).items.getLast? = some oldest) {key : K}
    (hkey : key ∈ (run capacity calls).entries) (hne : key ≠ oldest.key) :
    UsedAfter calls key oldest.key := by
  have hr := refines_run capacity calls
  obtain ⟨item, hitem, rfl⟩ := List.mem_map.mp ((hr.consistent.mem_entries key).mp hkey)
  have hordered := RecencyList.ordered_run capacity calls
  rw [← hr.contents, ← List.dropLast_append_getLast? oldest hlast] at hordered
  rw [← List.dropLast_append_getLast? oldest hlast] at hitem
  rcases List.mem_append.mp hitem with hitem | hitem
  · rw [contents, List.map_append, RecencyList.Ordered, List.pairwise_append] at hordered
    exact hordered.2.2 _ (List.mem_map_of_mem hitem) _ (List.mem_singleton.mpr rfl)
  · exact absurd (congrArg Elem.key (List.mem_singleton.mp hitem)) hne

end Evictions

/-- **The LRU store is a recency list.** After any calls the linked list is the recency list of the
calls, and the map has its keys; a lookup returns the value that was added last for a key that was
not evicted since; a new key evicts the key of a full cache whose last use is the longest ago, and
no other call evicts a key; `Get` changes the order of the list only. -/
theorem run_recencyList (capacity : Nat) (hcap : 1 ≤ capacity) (calls : List (Access K V)) :
    contents (run capacity calls).items = (RecencyList.run capacity calls).entries ∧
    (∀ key, ((run capacity calls).get key).1 = (RecencyList.run capacity calls).lookup key) ∧
    (∀ key, key ∈ (run capacity calls).entries ↔ key ∈ (run capacity calls).items.map (·.key)) ∧
    ((run capacity calls).items.map (·.key)).Nodup ∧
    (run capacity calls).items.length ≤ capacity ∧
    (∀ key value, ((run capacity calls).get key).1 = some value ↔
      LastAdded capacity calls key value) ∧
    (∀ key value, key ∉ (run capacity calls).entries →
      (run capacity calls).items.length = capacity → ((run capacity calls).add key value).2 = true ∧
      ∃ oldest ∈ (run capacity calls).entries,
        (∀ other ∈ (run capacity calls).entries, other ≠ oldest → UsedAfter calls other oldest) ∧
        ∀ k, k ∈ ((run capacity calls).add key value).1.entries ↔ k = key ∨
          k ∈ (run capacity calls).entries ∧ k ≠ oldest) ∧
    (∀ key value, key ∈ (run capacity calls).entries ∨
      (run capacity calls).items.length < capacity →
      ((run capacity calls).add key value).2 = false ∧
      ∀ k, k ∈ ((run capacity calls).add key value).1.entries ↔ k = key ∨
        k ∈ (run capacity calls).entries) ∧
    ∀ key, ((run capacity calls).get key).2.items.Perm (run capacity calls).items ∧
      ((run capacity calls).get key).2 =
        { run capacity calls with items := ((run capacity calls).get key).2.items } ∧
      ∀ k, (((run capacity calls).get key).2.get k).1 = ((run capacity calls).get k).1 := by
  have hr := refines_run capacity calls
  refine ⟨hr.contents, fun key => (fst_get _ key).trans (hr.value key), hr.consistent.mem_entries,
    hr.consistent.nodup_keys, ?_, fun key value => ?_, fun key value hnew hfull => ?_,
    fun key value hroom => mem_add_of_room (by rwa [hr.capacity]) value, fun key => ?_⟩
  · exact hr.length.trans_le (RecencyList.run capacity calls).bounded
  · rw [fst_get]
    exact value_run_iff hcap calls key value
  · obtain ⟨hflag, oldest, hlast, hmem⟩ :=
      hr.consistent.mem_add_of_full (capacity_run_pos hcap calls) hnew
        (hfull.trans hr.capacity.symm) value
    refine ⟨hflag, oldest.key, ?_, fun other hother hne => usedAfter_oldest hlast hother hne, hmem⟩
    exact (hr.consistent.mem_entries _).mpr (List.mem_map_of_mem (List.mem_of_getLast? hlast))
  · refine ⟨(hr.consistent.get_perm key).1, (hr.consistent.get_perm key).2, fun k => ?_⟩
    rw [fst_get, fst_get, value_get]

/-- Three keys in a cache of two, with a read of the first key in between. -/
theorem run_recencyList_two :
    1 ≤ 2 ∧ contents (run 2 [.add "a" 1, .add "b" 2, .get "a", .add "c" 3]).items =
      (RecencyList.run 2 [.add "a" 1, .add "b" 2, .get "a", .add "c" 3]).entries :=
  ⟨by decide, (run_recencyList 2 (by decide) [.add "a" 1, .add "b" 2, .get "a", .add "c" 3]).1⟩

end LruCache

end Topograph.Server
