import Mathlib.Data.Finset.Lattice.Lemmas

/-! # Searches with a frontier

A graph search that marks an element when it puts it on its frontier, so that nothing is put there
twice. `Search` is the invariant: what is marked is what is done and what is on the frontier, and a
successor of a done element is marked. The order in which elements are taken does not matter. A
search whose frontier is empty has done exactly the elements reachable from its start
(`Search.mem_done_iff`). -/

namespace Topograph

universe u

variable {α : Type u}

/-- Reachable from a start. -/
def ReachableFrom (start : α → Prop) (next : α → α → Prop) (x : α) : Prop :=
  ∃ s, start s ∧ Relation.ReflTransGen next s x

theorem ReachableFrom.tail {start : α → Prop} {next : α → α → Prop} {x y : α}
    (h : ReachableFrom start next x) (hxy : next x y) : ReachableFrom start next y := by
  obtain ⟨s, hs, hpath⟩ := h
  exact ⟨s, hs, hpath.tail hxy⟩

/-! ## Putting elements on the frontier -/

section Push

variable [DecidableEq α]

/-- Mark an element and put it on the frontier, unless it is marked. -/
def push (st : Finset α × List α) (x : α) : Finset α × List α :=
  if x ∈ st.1 then st else (insert x st.1, st.2 ++ [x])

/-- **Putting a list on the frontier** appends those of its elements that were not marked, each
once. -/
theorem exists_foldl_push (l : List α) (marked : Finset α) (frontier : List α) :
    ∃ new : List α, l.foldl push (marked, frontier) = (marked ∪ new.toFinset, frontier ++ new) ∧
    new.Nodup ∧
      ∀ x, x ∈ new ↔ x ∈ l ∧ x ∉ marked := by
  induction l generalizing marked frontier with
  | nil => exact ⟨[], by simp, List.nodup_nil, by simp⟩
  | cons x l ih =>
    by_cases hx : x ∈ marked
    · obtain ⟨new, hfold, hnodup, hmem⟩ := ih marked frontier
      refine ⟨new, by rw [List.foldl_cons, push, if_pos hx, hfold], hnodup, fun y => ?_⟩
      rw [hmem, List.mem_cons]
      refine and_congr_left fun hy => (or_iff_right ?_).symm
      rintro rfl
      exact hy hx
    · obtain ⟨new, hfold, hnodup, hmem⟩ := ih (insert x marked) (frontier ++ [x])
      have hfresh : x ∉ new := fun h => ((hmem x).mp h).2 (Finset.mem_insert_self x marked)
      refine ⟨x :: new, ?_, List.nodup_cons.mpr ⟨hfresh, hnodup⟩, fun y => ?_⟩
      · rw [List.foldl_cons, push, if_neg hx, hfold, List.toFinset_cons, Finset.insert_union_comm,
          List.append_assoc,
          List.singleton_append]
      · rw [List.mem_cons, hmem, Finset.mem_insert, List.mem_cons]
        by_cases hyx : y = x
        · simp [hyx, hx]
        · simp [hyx]

end Push

/-! ## The invariant -/

/-- What holds between two steps of a search. -/
structure Search (start : α → Prop) (next : α → α → Prop) (marked : Finset α)
    (done frontier : List α) : Prop where
  nodup : (done ++ frontier).Nodup
  mem_marked : ∀ x, x ∈ marked ↔ x ∈ done ++ frontier
  started : ∀ x, start x → x ∈ done ++ frontier
  closed : ∀ x ∈ done, ∀ y, next x y → y ∈ done ++ frontier
  reachable : ∀ x ∈ done ++ frontier, ReachableFrom start next x

namespace Search

variable {start : α → Prop} {next : α → α → Prop} {marked : Finset α} {done frontier : List α}

/-- The search has marked the seeds. -/
theorem init {seeds : List α} (hnodup : seeds.Nodup) (hstart : ∀ x, start x ↔ x ∈ seeds)
    (hmarked : ∀ x, x ∈ marked ↔ x ∈ seeds) : Search start next marked [] seeds where
  nodup := hnodup
  mem_marked := hmarked
  started := fun x hx => (hstart x).mp hx
  closed := by simp
  reachable := fun x hx => ⟨x, (hstart x).mpr hx, Relation.ReflTransGen.refl⟩

/-- The order of the frontier does not matter. -/
theorem perm (h : Search start next marked done frontier) {frontier' : List α}
    (hperm : frontier.Perm frontier') : Search start next marked done frontier' := by
  have hall : (done ++ frontier).Perm (done ++ frontier') := hperm.append_left done
  refine ⟨hall.nodup_iff.mp h.nodup, fun x => ?_, fun x hx => ?_, fun x hx y hxy => ?_,
    fun x hx => ?_⟩
  · rw [h.mem_marked, hall.mem_iff]
  · exact hall.mem_iff.mp (h.started x hx)
  · exact hall.mem_iff.mp (h.closed x hx y hxy)
  · exact h.reachable x (hall.mem_iff.mpr hx)

/-- **One element is done** when its successors have been put on the frontier. -/
theorem visit [DecidableEq α] {x : α} {pending succ : List α}
    (h : Search start next marked done (x :: (pending ++ frontier)))
    (hsucc : ∀ y, y ∈ succ ↔ next x y) :
    Search start next (succ.foldl push (marked, frontier)).1 (done ++ [x])
      (pending ++ (succ.foldl push (marked, frontier)).2) := by
  obtain ⟨new, hfold, hnodup, hmem⟩ := exists_foldl_push succ marked frontier
  rw [hfold]
  dsimp only
  have hlist : done ++ [x] ++ (pending ++ (frontier ++ new)) = done ++ x :: (pending ++ frontier) ++
      new := by simp
  refine ⟨?_, fun y => ?_, fun y hy => ?_, fun y hy z hyz => ?_, fun y hy => ?_⟩
  · rw [hlist]
    refine List.nodup_append'.mpr ⟨h.nodup, hnodup, fun y hy hnew => ?_⟩
    exact ((hmem y).mp hnew).2 ((h.mem_marked y).mpr hy)
  · rw [hlist, Finset.mem_union, h.mem_marked, List.mem_toFinset, List.mem_append (t := new)]
  · rw [hlist]
    exact List.mem_append_left new (h.started y hy)
  · rw [hlist]
    rcases List.mem_append.mp hy with hdone | hlast
    · exact List.mem_append_left new (h.closed y hdone z hyz)
    · -- A successor of the element itself is marked already, or new.
      obtain rfl := List.mem_singleton.mp hlast
      by_cases hz : z ∈ marked
      · exact List.mem_append_left new ((h.mem_marked z).mp hz)
      · exact List.mem_append_right _ ((hmem z).mpr ⟨(hsucc z).mpr hyz, hz⟩)
  · rw [hlist] at hy
    rcases List.mem_append.mp hy with hold | hnew
    · exact h.reachable y hold
    · exact (h.reachable x (by simp)).tail ((hsucc y).mp ((hmem y).mp hnew).1)

/-- **A finished search** has done what is reachable. -/
theorem mem_done_iff (h : Search start next marked done []) {x : α} :
    x ∈ done ↔ ReachableFrom start next x := by
  constructor
  · intro hx
    exact h.reachable x (List.mem_append_left [] hx)
  · rintro ⟨s, hs, hpath⟩
    induction hpath with
    | refl => simpa using h.started s hs
    | tail _ hxy ih => simpa using h.closed _ ih _ hxy

end Search

end Topograph
