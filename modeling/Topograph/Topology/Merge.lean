import Topograph.Topology.ToGraph
import Topograph.Lib.Loops

/-! # Merging vertices

`mergeVertices` never changes an ID or an existing link; it only copies links (`Merged`). When the
links to be reached are known beforehand (`MergePlan`), it stays within them and brings every link
of its source over (`mergeVertices_spec`). -/

namespace Topograph.Topology

/-- The child of a vertex under a key. -/
def Heap.child (heap : Heap) (v : Ref) (key : String) : Option Ref := (heap v).vertices.lookup key

namespace Heap

variable (heap : Heap)

/-- A link changes one child. -/
theorem child_link (v v' : Ref) (key key' : String) (w : Ref) :
    (heap.link v key w).child v' key' = if v' = v ∧ key' = key then some w
      else heap.child v' key' := by
  rw [child, link]
  by_cases hv : v' = v
  · subst hv
    rw [Function.update_self, GoMap.lookup_insert_eq_ite]
    by_cases hkey : key' = key
    · rw [if_pos hkey, if_pos ⟨rfl, hkey⟩]
    · rw [if_neg hkey, if_neg fun h => hkey h.2, child]
  · rw [Function.update_of_ne hv, if_neg fun h => hv h.1, child]

theorem id_link (v v' : Ref) (key : String) (w : Ref) :
    ((heap.link v key w) v').id = (heap v').id := by
  rw [link]
  by_cases hv : v' = v
  · rw [hv, Function.update_self]
  · rw [Function.update_of_ne hv]

theorem name_link (v v' : Ref) (key : String) (w : Ref) :
    ((heap.link v key w) v').name = (heap v').name := by
  rw [link]
  by_cases hv : v' = v
  · rw [hv, Function.update_self]
  · rw [Function.update_of_ne hv]

theorem vertices_takeName (dst src v : Ref) :
    ((heap.takeName dst src) v).vertices = (heap v).vertices := by
  rw [takeName]
  split_ifs
  · by_cases hv : v = dst
    · rw [hv, Function.update_self]
    · rw [Function.update_of_ne hv]
  · rfl

theorem child_takeName (dst src v : Ref) (key : String) :
    (heap.takeName dst src).child v key = heap.child v key := by
  rw [child, vertices_takeName, child]

theorem id_takeName (dst src v : Ref) : ((heap.takeName dst src) v).id = (heap v).id := by
  rw [takeName]
  split_ifs
  · by_cases hv : v = dst
    · rw [hv, Function.update_self]
    · rw [Function.update_of_ne hv]
  · rfl

theorem takeName_of_ne {dst src v : Ref} (hv : v ≠ dst) : (heap.takeName dst src) v = heap v := by
  rw [takeName]
  split_ifs
  · rw [Function.update_of_ne hv]
  · rfl

theorem name_takeName {dst src v : Ref} (hname : (heap v).name ≠ "") :
    ((heap.takeName dst src) v).name = (heap v).name := by
  by_cases hv : v = dst
  · subst hv
    rw [takeName, if_neg hname]
  · rw [takeName_of_ne heap hv]

end Heap

/-! ## What every merge keeps -/

/-- How a merge changes a heap: IDs, names and links stay, and a new link is the copy of another. -/
structure Merged (h h' : Heap) : Prop where
  id : ∀ r, (h' r).id = (h r).id
  name : ∀ r, (h r).name ≠ "" → (h' r).name = (h r).name
  keeps : ∀ r key w, h.child r key = some w → h'.child r key = some w
  copied : ∀ r key w, h'.child r key = some w → ∃ r', h.child r' key = some w

theorem Merged.refl (h : Heap) : Merged h h :=
  ⟨fun _ => rfl, fun _ _ => rfl, fun _ _ _ hw => hw, fun r _ _ hw => ⟨r, hw⟩⟩

/-- Merging can be done in steps. -/
theorem Merged.trans {h h' h'' : Heap} (h₁ : Merged h h') (h₂ : Merged h' h'') : Merged h h'' where
  id r := (h₂.id r).trans (h₁.id r)
  name r hr := by
    have hr' := h₁.name r hr
    rw [h₂.name r (hr' ▸ hr), hr']
  keeps r key w hw := h₂.keeps r key w (h₁.keeps r key w hw)
  copied r key w hw := by
    obtain ⟨r', hr'⟩ := h₂.copied r key w hw
    exact h₁.copied r' key w hr'

theorem merged_takeName (h : Heap) (dst src : Ref) : Merged h (h.takeName dst src) where
  id r := h.id_takeName dst src r
  name r hr := h.name_takeName hr
  keeps r key w hw := by rwa [h.child_takeName]
  copied r key w hw := ⟨r, by rwa [h.child_takeName] at hw⟩

variable {key : String}

/-- Linking a child of the source merges. -/
theorem merged_link {h : Heap} {dst src child : Ref} (hsrc : h.child src key = some child)
    (hdst : h.child dst key = none) : Merged h (h.link dst key child) where
  id r := h.id_link dst r key child
  name r _ := h.name_link dst r key child
  keeps r key' w hw := by
    rw [h.child_link, if_neg, hw]
    rintro ⟨rfl, rfl⟩
    exact absurd (hdst.symm.trans hw) (by simp)
  copied r key' w hw := by
    rw [h.child_link] at hw
    split_ifs at hw with heq
    · obtain rfl := Option.some.inj hw
      exact ⟨src, heq.2 ▸ hsrc⟩
    · exact ⟨r, hw⟩

/-- The body of the loop of `mergeVertices`. -/
def mergeKey (order : RangeOrder) (fuel : Nat) (dst src : Ref) (heap : Heap) (key : String) :
    Option Heap :=
  match heap.child src key with
  | none => some heap
  | some child =>
    match heap.child dst key with
    | some existing => mergeVertices order fuel heap existing child
    | none => some (heap.link dst key child)

theorem mergeVertices_succ (order : RangeOrder) (fuel : Nat) (heap : Heap) (dst src : Ref) :
    mergeVertices order (fuel + 1) heap dst src =
      if dst = src then some heap
      else (order.keys (heap.takeName dst src) dst src).foldlM (mergeKey order fuel dst src)
        (heap.takeName dst src) := rfl

variable {order : RangeOrder} {h h' : Heap} {fuel : Nat}

/-- The outcomes of one turn of the loop. -/
theorem mergeKey_cases {dst src : Ref} (hstep : mergeKey order fuel dst src h key = some h') :
    (h.child src key = none ∧ h' = h) ∨ ∃ child, h.child src key = some child ∧
      ((∃ existing, h.child dst key = some existing ∧
          mergeVertices order fuel h existing child = some h') ∨
        h.child dst key = none ∧ h' = h.link dst key child) := by
  rw [mergeKey] at hstep
  split at hstep
  · rename_i hsrc
    exact Or.inl ⟨hsrc, (Option.some.inj hstep).symm⟩
  · rename_i child hsrc
    refine Or.inr ⟨child, hsrc, ?_⟩
    split at hstep
    · rename_i existing hdst
      exact Or.inl ⟨existing, hdst, hstep⟩
    · rename_i hdst
      exact Or.inr ⟨hdst, (Option.some.inj hstep).symm⟩

/-- **What every merge keeps.** -/
theorem merged_mergeVertices {dst src : Ref}
    (hmerge : mergeVertices order fuel h dst src = some h') : Merged h h' := by
  induction fuel generalizing h h' dst src with
  | zero => exact absurd hmerge (by simp [mergeVertices])
  | succ fuel ih =>
    rw [mergeVertices_succ] at hmerge
    split_ifs at hmerge with heq
    · obtain rfl := Option.some.inj hmerge
      exact .refl h
    · refine (merged_takeName h dst src).trans ?_
      -- Induction on the keys that are left.
      generalize order.keys (h.takeName dst src) dst src = keys at hmerge
      generalize h.takeName dst src = g at hmerge
      induction keys generalizing g with
      | nil =>
        obtain rfl := Option.some.inj hmerge
        exact .refl g
      | cons key keys ihk =>
        rw [List.foldlM_cons] at hmerge
        obtain ⟨g', hstep, hrest⟩ := Option.bind_eq_some_iff.mp hmerge
        refine Merged.trans ?_ (ihk g' hrest)
        rcases mergeKey_cases hstep with ⟨-, rfl⟩ | ⟨child, hsrc, ⟨existing, -, hm⟩ | ⟨hdst, rfl⟩⟩
        · exact .refl _
        · exact ih hm
        · exact merged_link hsrc hdst

/-! ## Merges with a known goal -/

section Plan

variable {T : Ref → String → Ref → Prop} {S : Ref → Ref → Prop}

/-- The links of the heap are among the links `T`. -/
def Heap.Within (h : Heap) (T : Ref → String → Ref → Prop) : Prop :=
  ∀ r key w, h.child r key = some w → T r key w

/-- `S` relates each vertex that is merged into with the vertex it is merged from, `T` are the links
to be reached. The sources are complete already, the children of a pair are equal or a pair again,
and what is missing in a target is the child of the source. -/
structure MergePlan (h : Heap) (T : Ref → String → Ref → Prop) (S : Ref → Ref → Prop) : Prop where
  functional : ∀ r key w w', T r key w → T r key w' → w = w'
  source : ∀ d s, S d s → ∀ key w, T s key w → h.child s key = some w
  pair : ∀ d s, S d s → ∀ key child, T s key child → ∃ e, T d key e ∧ (e = child ∨ S e child)
  fresh : ∀ d s, S d s → ∀ key child, T s key child → h.child d key = none → T d key child

/-- A plan survives what a merge does. -/
theorem MergePlan.merged (hplan : MergePlan h T S) (hm : Merged h h') : MergePlan h' T S where
  functional := hplan.functional
  source d s hds key w hw := hm.keeps _ _ _ (hplan.source d s hds key w hw)
  pair := hplan.pair
  fresh d s hds key child hchild hnone := by
    refine hplan.fresh d s hds key child hchild ?_
    cases hd : h.child d key with
    | none => rfl
    | some w => exact absurd (hnone.symm.trans (hm.keeps _ _ _ hd)) (by simp)

/-- Everything below `s` has been brought to `d`. -/
def Covered (T : Ref → String → Ref → Prop) (h : Heap) : Nat → Ref → Ref → Prop
  | 0, d, s => d = s
  | n + 1, d, s =>
    d = s ∨ ∀ key child, T s key child → ∃ e, h.child d key = some e ∧ Covered T h n e child

theorem Covered.refl (h : Heap) (n : Nat) (d : Ref) : Covered T h n d d := by
  cases n with
  | zero => rfl
  | succ n => exact Or.inl rfl

variable {d s : Ref} {n : Nat}

/-- What is covered stays covered. -/
theorem Covered.merged (hm : Merged h h') (hc : Covered T h n d s) : Covered T h' n d s := by
  induction n generalizing d s with
  | zero => exact hc
  | succ n ih =>
    rcases hc with rfl | hc
    · exact Or.inl rfl
    · refine Or.inr fun key child hchild => ?_
      obtain ⟨e, he, hcov⟩ := hc key child hchild
      exact ⟨e, hm.keeps _ _ _ he, ih hcov⟩

/-- What a planned merge leaves: the links stay within the goal, the source is brought over, and
vertices that are no target are not touched. -/
structure MergeResult (T : Ref → String → Ref → Prop) (S : Ref → Ref → Prop) (n : Nat) (d s : Ref)
    (h h' : Heap) : Prop where
  within : h'.Within T
  covered : Covered T h' n d s
  frame : ∀ r, (∀ s', ¬ S r s') → h' r = h r

/-- What holds after the keys `done`. -/
structure MergeLoop (T : Ref → String → Ref → Prop) (S : Ref → Ref → Prop) (n : Nat) (d s : Ref)
    (done : List String) (h g : Heap) : Prop where
  merged : Merged h g
  within : g.Within T
  frame : ∀ r, (∀ s', ¬ S r s') → g r = h r
  covered : ∀ key ∈ done, ∀ child, T s key child → ∃ e, g.child d key = some e ∧
  Covered T g n e child

/-- One key. -/
theorem MergeLoop.step (ih : ∀ {h h' : Heap} {d s : Ref}, h.Within T → MergePlan h T S → S d s →
      mergeVertices order n h d s = some h' → MergeResult T S n d s h h')
    {done : List String} {h g g' : Heap} (hplan : MergePlan h T S) (hds : S d s)
    (hloop : MergeLoop T S n d s done h g) (hstep : mergeKey order n d s g key = some g') :
    MergeLoop T S n d s (done ++ [key]) h g' := by
  have hplan' := hplan.merged hloop.merged
  -- It is enough to know the new heap and what became of this key.
  suffices hkey : Merged g g' ∧ g'.Within T ∧ (∀ r, (∀ s', ¬ S r s') → g' r = g r) ∧
      ∀ child, T s key child → ∃ e, g'.child d key = some e ∧ Covered T g' n e child by
    obtain ⟨hm, hwithin, hframe, hcov⟩ := hkey
    refine ⟨hloop.merged.trans hm, hwithin, fun r hr => (hframe r hr).trans (hloop.frame r hr), ?_⟩
    intro key' hkey' child hchild
    rcases List.mem_append.mp hkey' with hkey' | hkey'
    · obtain ⟨e, he, hc⟩ := hloop.covered key' hkey' child hchild
      exact ⟨e, hm.keeps _ _ _ he, hc.merged hm⟩
    · rw [List.mem_singleton.mp hkey'] at hchild ⊢
      exact hcov child hchild
  rcases mergeKey_cases hstep with ⟨hsrc, rfl⟩ | ⟨child, hsrc, ⟨existing, hdst, hm⟩ | ⟨hdst, rfl⟩⟩
  · refine ⟨.refl _, hloop.within, fun _ _ => rfl, fun child hchild => ?_⟩
    exact absurd (hsrc.symm.trans (hplan'.source d s hds key child hchild)) (by simp)
  · have hchild := hloop.within _ _ _ hsrc
    obtain ⟨e, he, hpair⟩ := hplan'.pair d s hds key child hchild
    obtain rfl := hplan'.functional _ _ _ _ (hloop.within _ _ _ hdst) he
    have hmerged := merged_mergeVertices hm
    have hcov : ∀ child', T s key child' → child' = child :=
      fun child' hchild' => hplan'.functional _ _ _ _ hchild' hchild
    rcases hpair with rfl | hpair
    · -- The children are the same vertex.
      cases n with
      | zero => exact absurd hm (by simp [mergeVertices])
      | succ n =>
        rw [mergeVertices_succ, if_pos rfl] at hm
        obtain rfl := Option.some.inj hm
        refine ⟨.refl _, hloop.within, fun _ _ => rfl, fun child' hchild' => ?_⟩
        rw [hcov child' hchild']
        exact ⟨existing, hdst, .refl _ _ _⟩
    · have hres := ih hloop.within hplan' hpair hm
      refine ⟨hmerged, hres.within, hres.frame, fun child' hchild' => ?_⟩
      rw [hcov child' hchild']
      exact ⟨existing, hmerged.keeps _ _ _ hdst, hres.covered⟩
  · have hchild := hloop.within _ _ _ hsrc
    have hnew := hplan'.fresh d s hds key child hchild hdst
    refine ⟨merged_link hsrc hdst, ?_, ?_, ?_⟩
    · intro r key' w hw
      rw [g.child_link] at hw
      split_ifs at hw with heq
      · obtain ⟨rfl, rfl⟩ := heq
        obtain rfl := Option.some.inj hw
        exact hnew
      · exact hloop.within r key' w hw
    · intro r hr
      have hne : r ≠ d := fun hrd => hr s (hrd ▸ hds)
      exact Function.update_of_ne hne _ _
    · intro child' hchild'
      obtain rfl := hplan'.functional _ _ _ _ hchild' hchild
      refine ⟨child', ?_, .refl _ _ _⟩
      rw [g.child_link, if_pos ⟨rfl, rfl⟩]

/-- The loop starts with the name taken over. -/
theorem mergeLoop_start {h : Heap} (hwithin : h.Within T) (hds : S d s) :
    MergeLoop T S n d s [] h (h.takeName d s) where
  merged := merged_takeName h d s
  within r key w hw := hwithin r key w (by rwa [h.child_takeName] at hw)
  frame r hr := h.takeName_of_ne fun hrd => hr s (hrd ▸ hds)
  covered := by simp

/-- **What a planned merge does.** -/
theorem mergeVertices_spec (hwithin : h.Within T) (hplan : MergePlan h T S) (hds : S d s)
    (hmerge : mergeVertices order fuel h d s = some h') :
    MergeResult T S fuel d s h h' := by
  induction fuel generalizing h h' d s with
  | zero => exact absurd hmerge (by simp [mergeVertices])
  | succ fuel ih =>
    rw [mergeVertices_succ] at hmerge
    split_ifs at hmerge with heq
    · obtain rfl := Option.some.inj hmerge
      exact ⟨hwithin, Or.inl heq, fun _ _ => rfl⟩
    · have hloop := Loops.foldlM_some (I := fun done => MergeLoop T S fuel d s done h)
        (mergeLoop_start hwithin hds)
        (fun _ _ _ _ _ _ hloop hstep => hloop.step ih hplan hds hstep) hmerge
      refine ⟨hloop.within, Or.inr fun key child hchild => ?_, hloop.frame⟩
      refine hloop.covered key ?_ child hchild
      -- Every link of the source has its turn.
      apply order.covers
      rw [h.vertices_takeName]
      exact GoMap.mem_iff_lookup.mpr ⟨child, hplan.source d s hds key child hchild⟩

/-- **A planned merge returns** when the sources get smaller from level to level. -/
theorem exists_mergeVertices {rank : Ref → Nat} (hrank : ∀ d s, S d s → ∀ key child, T s key child →
      rank child < rank s) {h : Heap}
    (hwithin : h.Within T) (hplan : MergePlan h T S) (hds : S d s) (hfuel : rank s < fuel) :
    ∃ h', mergeVertices order fuel h d s = some h' := by
  induction fuel generalizing h d s with
  | zero => exact absurd hfuel (Nat.not_lt_zero _)
  | succ fuel ih =>
    rw [mergeVertices_succ]
    split_ifs with heq
    · exact ⟨h, rfl⟩
    · obtain ⟨g, hg, -⟩ :=
        Loops.exists_foldlM (f := mergeKey order fuel d s) (I := fun done =>
          MergeLoop T S fuel d s done h)
        (l := order.keys (h.takeName d s) d s) (mergeLoop_start hwithin hds)
        fun done key rest g _ hloop => by
          have hplan' := hplan.merged hloop.merged
          obtain ⟨g', hstep⟩ : ∃ g', mergeKey order fuel d s g key = some g' := by
            rw [mergeKey]
            split
            · exact ⟨g, rfl⟩
            · rename_i child hsrc
              split
              · rename_i existing hdst
                have hchild := hloop.within _ _ _ hsrc
                have hlt := hrank d s hds key child hchild
                obtain ⟨e, he, hpair⟩ := hplan'.pair d s hds key child hchild
                obtain rfl := hplan'.functional _ _ _ _ (hloop.within _ _ _ hdst) he
                rcases hpair with rfl | hpair
                · -- Merging a vertex with itself needs one turn.
                  obtain ⟨n, rfl⟩ : ∃ n, fuel = n + 1 := ⟨fuel - 1, by omega⟩
                  exact ⟨g, by rw [mergeVertices_succ, if_pos rfl]⟩
                · exact ih hloop.within hplan' hpair (by omega)
              · exact ⟨_, rfl⟩
          exact ⟨g', hstep, hloop.step (fun hw hp hs hm => mergeVertices_spec hw hp hs hm)
            hplan hds hstep⟩
      exact ⟨g, hg⟩

end Plan

end Topograph.Topology
