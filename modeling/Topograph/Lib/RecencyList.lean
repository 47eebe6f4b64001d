import Mathlib.Data.List.Induction
import Mathlib.Data.List.Nodup
import Mathlib.Data.List.Pairwise

/-! # Recency lists

What a store of bounded capacity that evicts the least recently used key is for: a list of keys and
values without a key twice, the key that was used last in front. `UsedAfter` reads the order of the
list off the calls that were made, without a list or a clock. -/

namespace Topograph

universe u v

/-- A call of a store. -/
inductive Access (K : Type u) (V : Type v) where
  | add (key : K) (value : V)
  | get (key : K)
  deriving DecidableEq, Repr

/-- The key that a call uses. -/
def Access.key {K : Type u} {V : Type v} : Access K V → K
  | .add key _ => key
  | .get key => key

section UsedAfter

variable {K : Type u} {V : Type v} {calls : List (Access K V)} {k k' : K} {call : Access K V}

/-- There is a use of `k` since which `k'` was not used. -/
def UsedAfter (calls : List (Access K V)) (k k' : K) : Prop :=
  ∃ before call after, calls = before ++ call :: after ∧ call.key = k ∧
    ∀ other ∈ call :: after, other.key ≠ k'

theorem UsedAfter.concat (h : UsedAfter calls k k') (hcall : call.key ≠ k') :
    UsedAfter (calls ++ [call]) k k' := by
  obtain ⟨before, use, after, rfl, hkey, hnot⟩ := h
  refine ⟨before, use, after ++ [call], by simp, hkey, fun other hother => ?_⟩
  rw [← List.cons_append] at hother
  rcases List.mem_append.mp hother with hother | hother
  · exact hnot other hother
  · rwa [List.mem_singleton.mp hother]

theorem usedAfter_concat_self (calls : List (Access K V)) (hcall : call.key ≠ k') :
    UsedAfter (calls ++ [call]) call.key k' :=
  ⟨calls, call, [], rfl, rfl, by simpa using hcall⟩

end UsedAfter

/-- **A recency list**: no key twice, and no more keys than the capacity. -/
structure RecencyList (K : Type u) (V : Type v) (capacity : Nat) where
  entries : List (K × V)
  nodup : (entries.map (·.1)).Nodup
  bounded : entries.length ≤ capacity

namespace RecencyList

variable {K : Type u} {V : Type v} {capacity : Nat} [DecidableEq K]

/-- The entries with one key in front. -/
def touch (entries : List (K × V)) (key : K) (value : V) : List (K × V) :=
  (key, value) :: entries.filter (·.1 ≠ key)

variable {entries : List (K × V)}

/-- Touching a key keeps keys different. -/
theorem nodup_touch (h : (entries.map (·.1)).Nodup) (key : K) (value : V) :
    ((touch entries key value).map (·.1)).Nodup := by
  rw [touch, List.map_cons, List.nodup_cons]
  refine ⟨fun hmem => ?_, h.sublist (List.filter_sublist.map _)⟩
  obtain ⟨entry, hentry, heq⟩ := List.mem_map.mp hmem
  exact absurd heq (by simpa using (List.mem_filter.mp hentry).2)

omit [DecidableEq K] in
/-- The empty list. -/
def empty (K : Type u) (V : Type v) (capacity : Nat) : RecencyList K V capacity where
  entries := []
  nodup := List.nodup_nil
  bounded := Nat.zero_le _

/-- The value of a key. -/
def lookup (r : RecencyList K V capacity) (key : K) : Option V :=
  (r.entries.find? (·.1 = key)).map (·.2)

/-- A key with its value comes in front; the last key leaves when there are too many. -/
def add (r : RecencyList K V capacity) (key : K) (value : V) : RecencyList K V capacity where
  entries := (touch r.entries key value).take capacity
  nodup := (nodup_touch r.nodup key value).sublist ((List.take_sublist _ _).map _)
  bounded := List.length_take_le _ _

variable {r : RecencyList K V capacity}

theorem length_touch_le {entry : K × V} (h : entry ∈ r.entries) (value : V) :
    (touch r.entries entry.1 value).length ≤ capacity := by
  have hlt : (r.entries.filter (·.1 ≠ entry.1)).length < r.entries.length :=
    List.length_filter_lt_length_iff_exists.mpr ⟨entry, h, by simp⟩
  exact Nat.le_trans hlt r.bounded

/-- A key that is read comes in front. -/
def get (r : RecencyList K V capacity) (key : K) : RecencyList K V capacity :=
  match hfind : r.entries.find? (·.1 = key) with
  | none => r
  | some entry =>
    { entries := touch r.entries entry.1 entry.2
      nodup := nodup_touch r.nodup _ _
      bounded := length_touch_le (List.mem_of_find?_eq_some hfind) _ }

/-- One call. -/
def step (r : RecencyList K V capacity) : Access K V → RecencyList K V capacity
  | .add key value => r.add key value
  | .get key => r.get key

/-- The list after some calls. -/
def run (capacity : Nat) (calls : List (Access K V)) : RecencyList K V capacity :=
  calls.foldl step (empty K V capacity)

theorem run_concat (calls : List (Access K V)) (call : Access K V) :
    (run capacity (calls ++ [call])) = (run capacity calls).step call := by
  rw [run, List.foldl_concat, run]

theorem entries_get_of_none {key : K} (h : r.entries.find? (·.1 = key) = none) : r.get key = r := by
  unfold get
  split
  · rfl
  · exact absurd (h.symm.trans ‹_›) (by simp)

theorem entries_get_of_some {key : K} {entry : K × V}
    (h : r.entries.find? (·.1 = key) = some entry) :
    (r.get key).entries = touch r.entries entry.1 entry.2 := by
  unfold get
  split
  · exact absurd (h.symm.trans ‹_›) (by simp)
  · obtain rfl := Option.some.inj (h.symm.trans ‹_›)
    rfl

/-- The keys come in the order of their last uses. -/
def Ordered (calls : List (Access K V)) (entries : List (K × V)) : Prop :=
  entries.Pairwise fun entry entry' => UsedAfter calls entry.1 entry'.1

variable {calls : List (Access K V)}

/-- The touched key is the most recent one. -/
theorem Ordered.touch (h : Ordered calls entries) {call : Access K V} {key : K}
    (hkey : call.key = key) (value : V) :
    Ordered (calls ++ [call]) (RecencyList.touch entries key value) := by
  have hother : ∀ entry ∈ entries.filter (·.1 ≠ key), call.key ≠ entry.1 := by
    intro entry hentry
    have hne : entry.1 ≠ key := by simpa using (List.mem_filter.mp hentry).2
    rw [hkey]
    exact hne.symm
  refine List.pairwise_cons.mpr ⟨fun entry hentry => hkey ▸ usedAfter_concat_self calls
    (hother entry hentry), ?_⟩
  exact (List.Pairwise.filter _ h).imp_of_mem fun _ hentry' hused => hused.concat (hother _ hentry')

/-- One call keeps the order. A key that is read and not there is no key of the list. -/
theorem Ordered.step (h : Ordered calls r.entries) (call : Access K V) :
    Ordered (calls ++ [call]) (r.step call).entries := by
  cases call with
  | add key value => exact (h.touch rfl value).sublist (List.take_sublist _ _)
  | get key =>
    show Ordered _ (r.get key).entries
    cases hfind : r.entries.find? (·.1 = key) with
    | none =>
      rw [entries_get_of_none hfind]
      refine List.Pairwise.imp_of_mem (fun _ hentry' hused => hused.concat fun heq => ?_) h
      have hnot := List.find?_eq_none.mp hfind _ hentry'
      exact hnot (decide_eq_true (heq.symm : _ = key))
    | some entry =>
      have hkey : entry.1 = key := by simpa using List.find?_some hfind
      rw [entries_get_of_some hfind]
      exact h.touch (show (Access.get key).key = entry.1 from hkey.symm) _

/-- **The list is in the order of the last uses**, after any calls. -/
theorem ordered_run (capacity : Nat) (calls : List (Access K V)) :
    Ordered calls (run capacity calls).entries := by
  induction calls using List.reverseRecOn with
  | nil => exact List.Pairwise.nil
  | append_singleton calls call ih =>
    rw [run_concat]
    exact ih.step call

end RecencyList

end Topograph
