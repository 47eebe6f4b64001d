import Topograph.Lib.GoMap

/-! # The LRU store (`pkg/server/lru.go`)

The cache keeps its elements in a linked list, the most recently used one first, and a map from keys
to list elements. An element is a pointer, so it has an identity (`ref`) next to its key and value;
the map holds identities. `Consistent` says that the map and the list agree, and the lemmas below
say what an operation does to the values that are stored. -/

namespace Topograph.Server

universe u v

/-- A list element that holds an `lruEntry`. -/
structure Elem (K : Type u) (V : Type v) where
  ref : Nat
  key : K
  value : V
  deriving DecidableEq, Repr

/-- `lruCache`; `next` is the identity of the next element. -/
structure LruCache (K : Type u) (V : Type v) [DecidableEq K] where
  capacity : Nat
  entries : GoMap K Nat
  items : List (Elem K V)
  next : Nat

namespace LruCache

variable {K : Type u} {V : Type v} [DecidableEq K]

/-- `newLRUCache`, which panics without a positive capacity. -/
def newLRUCache (capacity : Nat) : LruCache K V where
  capacity := capacity
  entries := ∅
  items := []
  next := 0

/-- `list.MoveToFront`. -/
def moveToFront (items : List (Elem K V)) (ref : Nat) : List (Elem K V) :=
  match items.find? (·.ref = ref) with
  | none => items
  | some item => item :: items.filter (·.ref ≠ ref)

/-- The list with another value in one element. -/
def setValue (items : List (Elem K V)) (ref : Nat) (value : V) : List (Elem K V) :=
  items.map fun item => if item.ref = ref then { item with value := value } else item

/-- `removeOldest`. -/
def removeOldest (c : LruCache K V) : LruCache K V :=
  match c.items.getLast? with
  | none => c
  | some item => { c with items := c.items.dropLast, entries := c.entries.erase item.key }

/-- `Add`; the flag says whether an element was evicted. -/
def add (c : LruCache K V) (key : K) (value : V) : LruCache K V × Bool :=
  match c.entries.lookup key with
  | some ref => ({ c with items := moveToFront (setValue c.items ref value) ref }, false)
  | none =>
    let c : LruCache K V :=
      { capacity := c.capacity
        entries := c.entries.insert key c.next
        items := { ref := c.next, key := key, value := value } :: c.items
        next := c.next + 1 }
    if c.items.length ≤ c.capacity then (c, false) else (c.removeOldest, true)

/-- The value that is stored for a key. -/
def value (c : LruCache K V) (key : K) : Option V :=
  (c.entries.lookup key).bind fun ref => (c.items.find? (·.ref = ref)).map (·.value)

/-- `Get`. -/
def get (c : LruCache K V) (key : K) : Option V × LruCache K V :=
  match c.entries.lookup key with
  | none => (none, c)
  | some ref =>
    ((c.items.find? (·.ref = ref)).map (·.value), { c with items := moveToFront c.items ref })

/-! ## The map and the list -/

/-- The map and the list hold the same elements. -/
structure Consistent (c : LruCache K V) : Prop where
  refs : (c.items.map (·.ref)).Nodup
  fresh : ∀ item ∈ c.items, item.ref < c.next
  indexed : ∀ key ref, c.entries.lookup key = some ref ↔ ∃ item ∈ c.items, item.key = key ∧
    item.ref = ref

theorem consistent_newLRUCache (capacity : Nat) :
    (newLRUCache capacity : LruCache K V).Consistent where
  refs := List.nodup_nil
  fresh := by simp [newLRUCache]
  indexed := by simp [newLRUCache]

section Items

omit [DecidableEq K]

variable {items : List (Elem K V)}

theorem eq_of_ref (h : (items.map (·.ref)).Nodup) {item item' : Elem K V} (hitem : item ∈ items)
    (hitem' : item' ∈ items) (heq : item.ref = item'.ref) : item = item' :=
  List.inj_on_of_nodup_map h hitem hitem' heq

theorem find?_filter_ref {ref ref' : Nat} (h : ref' ≠ ref) :
    (items.filter (·.ref ≠ ref)).find? (·.ref = ref') = items.find? (·.ref = ref') := by
  rw [List.find?_filter]
  congr 1
  funext item
  by_cases hitem : item.ref = ref'
  · simp [hitem, h]
  · simp [hitem]

/-- Moving an element does not change what is found. -/
theorem find?_moveToFront (items : List (Elem K V)) (ref ref' : Nat) :
    (moveToFront items ref).find? (·.ref = ref') = items.find? (·.ref = ref') := by
  unfold moveToFront
  cases hfind : items.find? (·.ref = ref) with
  | none => rfl
  | some item =>
    have hitem : item.ref = ref := by simpa using List.find?_some hfind
    rw [List.find?_cons]
    by_cases href : ref = ref'
    · rw [← href, hfind]
      simp [hitem]
    · rw [hitem]
      simp only [href, decide_false]
      exact find?_filter_ref (Ne.symm href)

/-- Moving an element keeps the elements. -/
theorem mem_moveToFront (h : (items.map (·.ref)).Nodup) {ref : Nat} {item : Elem K V} :
    item ∈ moveToFront items ref ↔ item ∈ items := by
  unfold moveToFront
  cases hfind : items.find? (·.ref = ref) with
  | none => exact Iff.rfl
  | some front =>
    have hfront : front.ref = ref := by simpa using List.find?_some hfind
    have hmem : front ∈ items := List.mem_of_find?_eq_some hfind
    rw [List.mem_cons, List.mem_filter]
    constructor
    · rintro (rfl | ⟨hitem, -⟩)
      · exact hmem
      · exact hitem
    · intro hitem
      by_cases href : item.ref = ref
      · exact Or.inl (eq_of_ref h hitem hmem (href.trans hfront.symm))
      · exact Or.inr ⟨hitem, by simpa using href⟩

theorem nodup_moveToFront (h : (items.map (·.ref)).Nodup) (ref : Nat) :
    ((moveToFront items ref).map (·.ref)).Nodup := by
  unfold moveToFront
  cases hfind : items.find? (·.ref = ref) with
  | none => exact h
  | some front =>
    have hfront : front.ref = ref := by simpa using List.find?_some hfind
    rw [List.map_cons, List.nodup_cons]
    refine ⟨fun hmem => ?_, h.sublist (List.filter_sublist.map _)⟩
    obtain ⟨item, hitem, heq⟩ := List.mem_map.mp hmem
    exact absurd (heq.trans hfront) (by simpa using (List.mem_filter.mp hitem).2)

theorem map_ref_setValue (items : List (Elem K V)) (ref : Nat) (value : V) :
    (setValue items ref value).map (·.ref) = items.map (·.ref) := by
  rw [setValue, List.map_map]
  refine List.map_congr_left fun item _ => ?_
  rw [Function.comp_apply]
  split_ifs <;> rfl

theorem exists_mem_setValue {ref ref' : Nat} {value : V} {key : K} :
    (∃ item ∈ setValue items ref value, item.key = key ∧ item.ref = ref') ↔
      ∃ item ∈ items, item.key = key ∧ item.ref = ref' := by
  simp only [setValue, List.mem_map, exists_exists_and_eq_and]
  refine exists_congr fun item => and_congr_right fun _ => ?_
  split_ifs <;> exact Iff.rfl

theorem find?_setValue (ref ref' : Nat) (value : V) :
    ((setValue items ref value).find? (·.ref = ref')).map (·.value) =
      if ref' = ref then (items.find? (·.ref = ref')).map fun _ => value
        else (items.find? (·.ref = ref')).map (·.value) := by
  induction items with
  | nil => simp [setValue]
  | cons item items ih =>
    rw [setValue, List.map_cons, ← setValue, List.find?_cons, List.find?_cons]
    by_cases hitem : item.ref = ref'
    · by_cases href : ref' = ref
      · simp [hitem, href]
      · simp [hitem, href]
    · have hsame : (if item.ref = ref then { item with value := value } else item).ref =
          item.ref := by split_ifs <;> rfl
      rw [hsame]
      simp only [hitem, decide_false]
      exact ih

end Items

/-! ## `Get` -/

variable {c : LruCache K V}

/-- `Get` returns the stored value. -/
theorem fst_get (c : LruCache K V) (key : K) : (c.get key).1 = c.value key := by
  unfold get value
  cases c.entries.lookup key <;> rfl

/-- `Get` keeps the cache consistent. -/
theorem Consistent.get (h : c.Consistent) (key : K) : (c.get key).2.Consistent := by
  unfold LruCache.get
  cases c.entries.lookup key with
  | none => exact h
  | some ref =>
    refine ⟨nodup_moveToFront h.refs ref,
      fun item hitem => h.fresh item ((mem_moveToFront h.refs).mp hitem), fun k r => ?_⟩
    simp only [mem_moveToFront h.refs]
    exact h.indexed k r

/-- **`Get` changes no value.** -/
theorem value_get (c : LruCache K V) (key k : K) : (c.get key).2.value k = c.value k := by
  unfold LruCache.get
  cases c.entries.lookup key with
  | none => rfl
  | some ref => simp only [value, find?_moveToFront]

@[simp] theorem capacity_get (c : LruCache K V) (key : K) :
    (c.get key).2.capacity = c.capacity := by
  unfold LruCache.get
  cases c.entries.lookup key <;> rfl

/-! ## `Add` -/

/-- The cache with a new element in front. -/
def push (c : LruCache K V) (key : K) (value : V) : LruCache K V where
  capacity := c.capacity
  entries := c.entries.insert key c.next
  items := { ref := c.next, key := key, value := value } :: c.items
  next := c.next + 1

/-- A new key is pushed, and the oldest one removed if the cache is full. -/
theorem add_eq_of_none {key : K} (h : c.entries.lookup key = none) (v : V) :
    c.add key v = if c.items.length < c.capacity then (c.push key v, false)
      else ((c.push key v).removeOldest, true) := by
  unfold add
  simp only [h]
  rfl

/-- An element is found under its identity. -/
theorem Consistent.find? (h : c.Consistent) {item : Elem K V} (hitem : item ∈ c.items) :
    c.items.find? (·.ref = item.ref) = some item := by
  obtain ⟨found, hfound⟩ : ∃ found, c.items.find? (·.ref = item.ref) = some found :=
    Option.isSome_iff_exists.mp (List.find?_isSome.mpr ⟨item, hitem, by simp⟩)
  have href : found.ref = item.ref := by simpa using List.find?_some hfound
  rw [hfound, eq_of_ref h.refs (List.mem_of_find?_eq_some hfound) hitem href]

theorem Consistent.push (h : c.Consistent) {key : K} (hnew : c.entries.lookup key = none) (v : V) :
    (c.push key v).Consistent where
  refs := by
    change (c.next :: c.items.map (·.ref)).Nodup
    refine List.nodup_cons.mpr ⟨fun hmem => ?_, h.refs⟩
    obtain ⟨item, hitem, heq⟩ := List.mem_map.mp hmem
    exact absurd (h.fresh item hitem) (by omega)
  fresh := by
    intro item hitem
    rcases List.mem_cons.mp hitem with rfl | hitem
    · exact Nat.lt_succ_self _
    · exact Nat.lt_succ_of_lt (h.fresh item hitem)
  indexed := by
    intro k r
    change (c.entries.insert key c.next).lookup k = some r ↔ ∃ item ∈ (_ :: c.items), _
    rw [GoMap.lookup_insert_eq_ite, List.exists_mem_cons_iff]
    split_ifs with hk
    · subst hk
      have hnone : ¬ ∃ item ∈ c.items, item.key = k ∧ item.ref = r := by
        rw [← h.indexed, hnew]
        simp
      simp [hnone]
    · rw [h.indexed]
      simp [Ne.symm hk]

theorem value_push_self (c : LruCache K V) (key : K) (v : V) :
    (c.push key v).value key = some v := by
  simp [value, push, AList.lookup_insert]

section

variable (h : c.Consistent)

include h

/-- Pushing a key keeps the values of the others. -/
theorem Consistent.value_push {key k : K} (hk : k ≠ key) (v : V) :
    (c.push key v).value k = c.value k := by
  unfold value LruCache.push
  rw [AList.lookup_insert_ne hk]
  cases hlook : c.entries.lookup k with
  | none => rfl
  | some ref =>
    obtain ⟨item, hitem, -, rfl⟩ := (h.indexed k ref).mp hlook
    have hne : c.next ≠ item.ref := (h.fresh item hitem).ne'
    simp [List.find?_cons, hne]

/-- The cache without its last element, which is gone from the map, too. -/
theorem Consistent.removeOldest : c.removeOldest.Consistent := by
  unfold LruCache.removeOldest
  cases hlast : c.items.getLast? with
  | none => exact h
  | some last =>
    have hitems : c.items = c.items.dropLast ++ [last] :=
      (List.dropLast_append_getLast? last hlast).symm
    have hmem : last ∈ c.items := List.mem_of_getLast? hlast
    have hrefs := h.refs
    rw [hitems, List.map_append, List.nodup_append] at hrefs
    refine ⟨hrefs.1, fun item hitem => h.fresh item (List.dropLast_subset _ hitem), fun k r => ?_⟩
    change (c.entries.erase last.key).lookup k = some r ↔ ∃ item ∈ c.items.dropLast, _
    have hother : ∀ item ∈ c.items.dropLast, item.key ≠ last.key := by
      intro item hitem hkey
      have hitem' := List.dropLast_subset _ hitem
      have h1 := (h.indexed item.key item.ref).mpr ⟨item, hitem', rfl, rfl⟩
      have h2 := (h.indexed item.key last.ref).mpr ⟨last, hmem, hkey.symm, rfl⟩
      exact hrefs.2.2 _ (List.mem_map_of_mem hitem) last.ref (by simp)
        (Option.some.inj (h1.symm.trans h2))
    by_cases hk : k = last.key
    · subst hk
      rw [AList.lookup_erase]
      simp only [reduceCtorEq, false_iff]
      rintro ⟨item, hitem, hkey, -⟩
      exact hother item hitem hkey
    · rw [AList.lookup_erase_ne hk, h.indexed]
      refine ⟨?_, fun ⟨item, hitem, hrest⟩ => ⟨item, List.dropLast_subset _ hitem, hrest⟩⟩
      rintro ⟨item, hitem, hkey, href⟩
      rw [hitems] at hitem
      rcases List.mem_append.mp hitem with hitem | hitem
      · exact ⟨item, hitem, hkey, href⟩
      · obtain rfl := List.mem_singleton.mp hitem
        exact absurd hkey.symm hk

/-- **The value of a key after an eviction** is gone if its element was the last, and the same
otherwise. -/
theorem Consistent.value_removeOldest {last : Elem K V} (hlast : c.items.getLast? = some last)
    (k : K) : c.removeOldest.value k = if k = last.key then none else c.value k := by
  have hc := h.removeOldest
  have hrem : c.removeOldest =
      { c with items := c.items.dropLast, entries := c.entries.erase last.key } := by
    rw [LruCache.removeOldest, hlast]
  split_ifs with hk
  · rw [hrem, value, hk, AList.lookup_erase, Option.bind_none]
  · cases hlook : c.entries.lookup k with
    | none =>
      rw [hrem, value, value, hlook]
      simp only [AList.lookup_erase_ne hk, hlook]
      rfl
    | some ref =>
      have hlook' : c.removeOldest.entries.lookup k = some ref := by
        rw [hrem]
        exact (AList.lookup_erase_ne hk).trans hlook
      obtain ⟨item, hitem, -, rfl⟩ := (hc.indexed k ref).mp hlook'
      have hitem' : item ∈ c.items := by
        rw [hrem] at hitem
        exact List.dropLast_subset _ hitem
      rw [value, value, hlook', hlook, Option.bind_some, Option.bind_some, hc.find? hitem,
        h.find? hitem']

/-- `Add` keeps the cache consistent. -/
theorem Consistent.add (key : K) (v : V) : (c.add key v).1.Consistent := by
  cases hlook : c.entries.lookup key with
  | none =>
    rw [add_eq_of_none hlook]
    split_ifs
    · exact h.push hlook v
    · exact (h.push hlook v).removeOldest
  | some ref =>
    unfold LruCache.add
    simp only [hlook]
    have hrefs : ((setValue c.items ref v).map (·.ref)).Nodup := by
      rw [map_ref_setValue]
      exact h.refs
    refine ⟨nodup_moveToFront hrefs ref, fun item hitem => ?_, fun k r => ?_⟩
    · have hitem' := List.mem_map_of_mem (f := (·.ref)) ((mem_moveToFront hrefs).mp hitem)
      rw [map_ref_setValue] at hitem'
      obtain ⟨old, hold, heq⟩ := List.mem_map.mp hitem'
      exact heq ▸ h.fresh old hold
    · simp only [mem_moveToFront hrefs, exists_mem_setValue]
      exact h.indexed k r

/-- **`Add` stores the value.** -/
theorem Consistent.value_add_self (hcap : 0 < c.capacity) (key : K) (v : V) :
    (c.add key v).1.value key = some v := by
  cases hlook : c.entries.lookup key with
  | none =>
    rw [add_eq_of_none hlook]
    split_ifs with hroom
    · exact value_push_self c key v
    · -- The evicted element is an old one, with another key.
      obtain ⟨last, hlast⟩ : ∃ last, c.items.getLast? = some last := by
        refine Option.ne_none_iff_exists'.mp fun hnone => hroom ?_
        rw [List.getLast?_eq_none_iff.mp hnone]
        exact hcap
      have hlast' : (c.push key v).items.getLast? = some last := by
        rw [LruCache.push, List.getLast?_cons, hlast]
        rfl
      have hne : key ≠ last.key := by
        intro heq
        have := (h.indexed last.key last.ref).mpr ⟨last, List.mem_of_getLast? hlast, rfl, rfl⟩
        rw [← heq, hlook] at this
        exact absurd this (by simp)
      rw [(h.push hlook v).value_removeOldest hlast', if_neg hne, value_push_self]
  | some ref =>
    obtain ⟨item, hitem, -, rfl⟩ := (h.indexed key ref).mp hlook
    unfold LruCache.add value
    simp only [hlook, Option.bind_some, find?_moveToFront, find?_setValue, if_true, h.find? hitem,
      Option.map_some]

/-- **`Add` keeps or evicts the other keys.** -/
theorem Consistent.value_add_ne {key k : K} (hk : k ≠ key) (v : V) :
    (c.add key v).1.value k = c.value k ∨ (c.add key v).1.value k = none := by
  cases hlook : c.entries.lookup key with
  | none =>
    rw [add_eq_of_none hlook]
    split_ifs
    · exact Or.inl (h.value_push hk v)
    · obtain ⟨last, hlast⟩ : ∃ last, (c.push key v).items.getLast? = some last :=
        ⟨_, List.getLast?_cons⟩
      rw [(h.push hlook v).value_removeOldest hlast]
      split_ifs
      · exact Or.inr rfl
      · exact Or.inl (h.value_push hk v)
  | some ref =>
    left
    unfold LruCache.add value
    simp only [hlook]
    cases hk' : c.entries.lookup k with
    | none => rfl
    | some ref' =>
      obtain ⟨item, hitem, hkey, rfl⟩ := (h.indexed key ref).mp hlook
      obtain ⟨item', hitem', hkey', rfl⟩ := (h.indexed k ref').mp hk'
      have hne : item'.ref ≠ item.ref := by
        intro heq
        exact hk (hkey'.symm.trans
          ((congrArg Elem.key (eq_of_ref h.refs hitem' hitem heq)).trans hkey))
      simp only [Option.bind_some, find?_moveToFront, find?_setValue, if_neg hne]

end

@[simp] theorem capacity_add (c : LruCache K V) (key : K) (v : V) :
    (c.add key v).1.capacity = c.capacity := by
  cases hlook : c.entries.lookup key with
  | none =>
    rw [add_eq_of_none hlook]
    split_ifs
    · rfl
    · unfold removeOldest
      split <;> rfl
  | some ref =>
    unfold LruCache.add
    simp only [hlook]

end LruCache

end Topograph.Server
