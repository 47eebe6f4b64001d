import Mathlib.Data.List.Dedup
import Topograph.Lib.Loops
import Topograph.Topology.Merger

/-! # Merging keeps the leaves

Fabric discovery builds its vertices level by level: a vertex of level `i + 1` has children on level
`i` only (`Leveled`). The merger then finds the levels again as its tiers, and every vertex of a
tier is represented by a kept vertex with the same leaves (`Reps`, `Tiers.reps_merge`). So merging
keeps the leaves of the forest (`mergedTop_leaves`), if no leaf shares its ID with a vertex of the
level above; such a leaf is lost (`ne_of_hasLeaf_mergedTop`). -/

namespace Topograph.Topology

/-! ## Tiers -/

/-- What `traverse` makes of a layer: the tiers from the lowest up. -/
inductive Tiers : List VTree → List (List VTree) → Prop
  | leaf {layer : List VTree} (h : ∃ v ∈ layer, v.vertices = []) : Tiers layer [layer]
  | step {layer : List VTree} {tiers : List (List VTree)} (h : ∀ v ∈ layer, v.vertices ≠ [])
      (hnext : Tiers (nextLayer layer) tiers) : Tiers layer (tiers ++ [layer])

variable {tiers : List (List VTree)} {fuel : Nat}

/-- The traversal collects the tiers. -/
theorem tiers_of_traverse {layer : List VTree} (h : traverse fuel layer = some tiers) :
    Tiers layer tiers := by
  induction fuel generalizing layer tiers with
  | zero => exact absurd h (by simp [traverse])
  | succ fuel ih =>
    rw [traverse] at h
    split_ifs at h with hleaf
    · obtain rfl := Option.some.inj h
      exact .leaf (by simpa using hleaf)
    · obtain ⟨tiers, hnext, rfl⟩ := Option.map_eq_some_iff.mp h
      exact .step (by simpa using hleaf) (ih hnext)

/-- With enough fuel the traversal comes to an end. -/
theorem Tiers.exists_traverse {layer : List VTree} (h : Tiers layer tiers) :
    ∃ fuel, traverse fuel layer = some tiers := by
  induction h with
  | leaf h => exact ⟨1, by rw [traverse, if_pos (by simpa using h)]⟩
  | step h _ ih =>
    obtain ⟨fuel, hfuel⟩ := ih
    exact ⟨fuel + 1, by rw [traverse, if_neg (by simpa using h), hfuel, Option.map_some]⟩

theorem Tiers.ne_nil {layer : List VTree} (h : Tiers layer tiers) : tiers ≠ [] := by
  cases h <;> simp

/-- A layer has one list of tiers. -/
theorem Tiers.unique {layer : List VTree} {tiers tiers' : List (List VTree)} (h : Tiers layer tiers)
    (h' : Tiers layer tiers') : tiers = tiers' := by
  induction h generalizing tiers' with
  | leaf hleaf =>
    obtain ⟨v, hv, hnil⟩ := hleaf
    cases h' with
    | leaf _ => rfl
    | step hsw _ => exact absurd hnil (hsw v hv)
  | step hsw _ ih =>
    cases h' with
    | leaf hleaf =>
      obtain ⟨v, hv, hnil⟩ := hleaf
      exact absurd hnil (hsw v hv)
    | step _ hnext => rw [ih hnext]

/-- The result does not depend on the fuel. -/
theorem mergedTop_unique {fuel fuel' : Nat} {top : List VTree} {merged merged' : List MVertex}
    (h : mergedTop fuel top = some merged) (h' : mergedTop fuel' top = some merged') :
    merged = merged' := by
  rw [mergedTop, newMerger] at h h'
  split_ifs at h h' with hnil
  · exact Option.some.inj (h.symm.trans h')
  · obtain ⟨m, hm, rfl⟩ := Option.map_eq_some_iff.mp h
    obtain ⟨m', hm', rfl⟩ := Option.map_eq_some_iff.mp h'
    obtain ⟨tiers, htiers, rfl⟩ := Option.map_eq_some_iff.mp hm
    obtain ⟨tiers', htiers', rfl⟩ := Option.map_eq_some_iff.mp hm'
    rw [(tiers_of_traverse htiers).unique (tiers_of_traverse htiers')]

/-- Below an empty layer the walk does not end. -/
theorem Tiers.layer_ne_nil {layer : List VTree} (h : Tiers layer tiers) : layer ≠ [] := by
  induction h with
  | leaf h =>
    obtain ⟨v, hv, -⟩ := h
    exact List.ne_nil_of_mem hv
  | step _ _ ih =>
    rintro rfl
    exact ih rfl

variable {v : VTree} {vertices : List (String × VTree)} {visited : List String}

theorem mem_unvisited (h : v ∈ unvisited visited vertices) :
    ∃ id, (id, v) ∈ vertices ∧ id ∉ visited := by
  induction vertices generalizing visited with
  | nil => exact absurd h List.not_mem_nil
  | cons e vertices ih =>
    rw [unvisited] at h
    split_ifs at h with hid
    · obtain ⟨id, hmem, hnot⟩ := ih h
      exact ⟨id, List.mem_cons_of_mem _ hmem, hnot⟩
    · rcases List.mem_cons.mp h with rfl | h
      · exact ⟨e.1, List.mem_cons_self, hid⟩
      · obtain ⟨id, hmem, hnot⟩ := ih h
        exact ⟨id, List.mem_cons_of_mem _ hmem, fun hv => hnot (List.mem_cons_of_mem _ hv)⟩

theorem exists_mem_unvisited {id : String} (h : (id, v) ∈ vertices) (hid : id ∉ visited) :
    ∃ w, (id, w) ∈ vertices ∧ w ∈ unvisited visited vertices := by
  induction vertices generalizing visited with
  | nil => exact absurd h List.not_mem_nil
  | cons e vertices ih =>
    obtain ⟨id', v'⟩ := e
    rw [unvisited]
    by_cases heq : id = id'
    · subst heq
      rw [if_neg hid]
      exact ⟨v', List.mem_cons_self, List.mem_cons_self⟩
    · have hmem : (id, v) ∈ vertices :=
        (List.mem_cons.mp h).resolve_left fun h => heq (Prod.mk.inj h).1
      split_ifs with hv
      · obtain ⟨w, hw, hun⟩ := ih hmem hid
        exact ⟨w, List.mem_cons_of_mem _ hw, hun⟩
      · obtain ⟨w, hw, hun⟩ := ih hmem (by simp [heq, hid] : id ∉ id' :: visited)
        exact ⟨w, List.mem_cons_of_mem _ hw, List.mem_cons_of_mem _ hun⟩

theorem nodup_unvisited (hid : ∀ e ∈ vertices, e.2.id = e.1) :
    ((unvisited visited vertices).map (·.id)).Nodup := by
  induction vertices generalizing visited with
  | nil => exact List.nodup_nil
  | cons e vertices ih =>
    obtain ⟨he, hid⟩ := List.forall_mem_cons.mp hid
    rw [unvisited]
    split_ifs
    · exact ih hid
    · refine List.nodup_cons.mpr ⟨fun hmem => ?_, ih hid⟩
      obtain ⟨v, hv, heq⟩ := List.mem_map.mp hmem
      obtain ⟨key, hkey, hnot⟩ := mem_unvisited hv
      exact hnot (List.mem_cons.mpr (Or.inl ((hid _ hkey).symm.trans (heq.trans he))))

variable {e : String × VTree}

theorem mem_children {layer : List VTree} :
    e ∈ layer.flatMap sortedChildren ↔ ∃ v ∈ layer, e ∈ v.vertices := by
  simp only [List.mem_flatMap, sortedChildren, List.mem_insertionSort]

/-! ## Levels -/

/-- The vertices of a graph by level and ID: a childless vertex on level 0, children one level down,
and the switches of different levels with different IDs. -/
structure Leveled (lev : Nat → String → Option VTree) : Prop where
  id : ∀ {i s t}, lev i s = some t → t.id = s
  leaf : ∀ {s t}, lev 0 s = some t → t.vertices = []
  switch : ∀ {i s t}, lev (i + 1) s = some t → t.vertices ≠ []
  child : ∀ {i s t key u}, lev (i + 1) s = some t → (key, u) ∈ t.vertices → lev i key = some u
  apart : ∀ {i j s}, 0 < i → i < j → (lev i s).isSome → lev j s = none

/-- The vertices of a layer are all on one level. -/
def OnLevel (lev : Nat → String → Option VTree) (i : Nat) (layer : List VTree) : Prop :=
  ∀ v ∈ layer, lev i v.id = some v

/-- The vertices of a map that are stored under their IDs. -/
theorem onLevel_values {lev : Nat → String → Option VTree} (hlev : Leveled lev) {i : Nat}
    {m : GoMap String VTree} (hm : ∀ s, lev i s = m.lookup s) :
    OnLevel lev i m.values ∧ (m.values.map (·.id)).Nodup := by
  have hid : ∀ s t, m.lookup s = some t → t.id = s := fun s t h => hlev.id ((hm s).trans h)
  constructor
  · intro v hv
    obtain ⟨key, hkey⟩ := GoMap.mem_values.mp hv
    have hlook := GoMap.lookup_eq_some_iff.mpr hkey
    rwa [hid key v hlook, hm]
  · have hkeys : m.values.map (·.id) = m.keys := by
      rw [GoMap.values, List.map_map, AList.keys, List.keys]
      exact List.map_congr_left fun e he => hid e.1 e.2 (GoMap.lookup_eq_some_iff.mpr he)
    rw [hkeys]
    exact m.nodupKeys

section Levels

variable {lev : Nat → String → Option VTree} {i : Nat} {layer : List VTree}

/-- The next layer is on the level below. -/
theorem OnLevel.nextLayer (hlev : Leveled lev) (h : OnLevel lev (i + 1) layer) :
    OnLevel lev i (nextLayer layer) := by
  intro v hv
  obtain ⟨id, hmem, -⟩ := mem_unvisited hv
  obtain ⟨w, hw, hchild⟩ := mem_children.mp hmem
  have hlook := hlev.child (h w hw) hchild
  rwa [hlev.id hlook]

/-- Keys of the level below are not in the layer, if the two levels have no ID in common. -/
theorem OnLevel.key_notMem (h : OnLevel lev (i + 1) layer)
    (hapart : ∀ s, (lev i s).isSome → lev (i + 1) s = none) {key : String}
    (hkey : (lev i key).isSome) : key ∉ layer.map (·.id) := by
  intro hmem
  obtain ⟨v, hv, rfl⟩ := List.mem_map.mp hmem
  exact absurd ((h v hv).symm.trans (hapart _ hkey)) (by simp)

/-- Then the next layer has all children. -/
theorem OnLevel.mem_nextLayer (hlev : Leveled lev) (h : OnLevel lev (i + 1) layer)
    (hapart : ∀ s, (lev i s).isSome → lev (i + 1) s = none) (hv : v ∈ layer) (he : e ∈ v.vertices) :
    e.2 ∈ Topology.nextLayer layer := by
  have hlook := hlev.child (h v hv) he
  have hkey : e.1 ∉ layer.map (·.id) := h.key_notMem hapart (by rw [hlook]; rfl)
  obtain ⟨w, hw, hmem⟩ := exists_mem_unvisited (mem_children.mpr ⟨v, hv, he⟩) hkey
  obtain ⟨v', hv', hchild⟩ := mem_children.mp hw
  rwa [Option.some.inj (hlook.symm.trans (hlev.child (h v' hv') hchild))]

/-- Neighbouring levels have no ID in common, if the two lowest have none. -/
theorem Leveled.apart_succ (hlev : Leveled lev) (hfresh : ∀ s, (lev 0 s).isSome → lev 1 s = none)
    (i : Nat) (s : String) (h : (lev i s).isSome) : lev (i + 1) s = none := by
  cases i with
  | zero => exact hfresh s h
  | succ i => exact hlev.apart (Nat.succ_pos i) (Nat.lt_succ_self _) h

/-- A layer that the walk ends at is on level 0, and one that it goes on from is not. -/
theorem OnLevel.level_cases (hlev : Leveled lev) (h : OnLevel lev i layer) (hv : v ∈ layer) :
    (v.vertices = [] ∧ i = 0) ∨ (v.vertices ≠ [] ∧ ∃ j, i = j + 1) := by
  cases i with
  | zero => exact Or.inl ⟨hlev.leaf (h v hv), rfl⟩
  | succ j => exact Or.inr ⟨hlev.switch (h v hv), j, rfl⟩

/-- The vertices of the next layer have different IDs. -/
theorem OnLevel.nodup_nextLayer (hlev : Leveled lev) (h : OnLevel lev (i + 1) layer) :
    ((Topology.nextLayer layer).map (·.id)).Nodup := by
  have hid : ∀ e ∈ layer.flatMap sortedChildren, e.2.id = e.1 := by
    intro e he
    obtain ⟨w, hw, hchild⟩ := mem_children.mp he
    exact hlev.id (hlev.child (h w hw) hchild)
  exact nodup_unvisited hid

end Levels

/-! ## One layer -/

/-- The vertex that is made for `v`. -/
def Kept.merged (kept : Kept) (v : VTree) : MVertex :=
  .node v.name v.id ((kept.signature v).map fun id => (id, (kept.nodes.lookup id).getD .nil))

/-- A layer above `lower`: its vertices have children in `lower`, which are represented there, and
IDs of their own. -/
structure LayerInput (kept : Kept) (lower layer : List VTree) : Prop where
  nodup : (layer.map (·.id)).Nodup
  fresh : ∀ v ∈ layer, v.id ∉ lower.map (·.id) ∧ v.id ∉ kept.refs
  child : ∀ v ∈ layer, ∀ e ∈ v.vertices, e.1 ∈ lower.map (·.id)
  rep : ∀ id ∈ lower.map (·.id), kept.ref id ∈ lower.map (·.id)

/-- What `mergeLayer` keeps, after the vertices `done`: nothing changes below, and every vertex is
represented by the kept vertex with its signature. -/
structure LayerInvariant (kept : Kept) (lower done : List VTree) (st : LayerState) : Prop where
  ref : ∀ id ∈ lower.map (·.id), st.kept.ref id = kept.ref id
  node : ∀ id ∈ lower.map (·.id), st.kept.nodes.lookup id = kept.nodes.lookup id
  rep : ∀ v ∈ done, (kept.signature v, st.kept.ref v.id) ∈ st.filters
  filter : ∀ f ∈ st.filters, ∃ v ∈ done, f = (kept.signature v, v.id) ∧ st.kept.ref v.id = v.id ∧
    st.kept.nodes.lookup v.id = some (kept.merged v) ∧ kept.merged v ∈ st.result
  result : ∀ w ∈ st.result, ∃ v ∈ done, w = kept.merged v
  refs : ∀ id ∈ st.kept.refs, id ∈ kept.refs ∨ id ∈ done.map (·.id)

section Layer

variable {kept : Kept} {lower layer done : List VTree} {st : LayerState}

/-- The signature: what the children are represented by. -/
theorem mem_signature {x : String} : x ∈ kept.signature v ↔ ∃ e ∈ v.vertices, kept.ref e.1 = x := by
  rw [Kept.signature, List.mem_insertionSort, List.mem_dedup, List.mem_map]

section

variable (h : LayerInvariant kept lower done st) (hin : LayerInput kept lower layer)
  (hv : v ∈ layer)

include h hin hv

/-- The signature of a vertex of the layer does not change. -/
theorem LayerInvariant.signature_eq : st.kept.signature v = kept.signature v := by
  have hrefs : v.vertices.map (fun e => st.kept.ref e.1) = v.vertices.map fun e => kept.ref e.1 :=
    List.map_congr_left fun e he => h.ref e.1 (hin.child v hv e he)
  rw [Kept.signature, Kept.signature, hrefs]

theorem LayerInvariant.merged_eq : st.kept.merged v = kept.merged v := by
  rw [Kept.merged, Kept.merged, h.signature_eq hin hv]
  congr 1
  refine List.map_congr_left fun x hx => ?_
  obtain ⟨e, he, rfl⟩ := mem_signature.mp hx
  rw [h.node _ (hin.rep _ (hin.child v hv e he))]

end

theorem ref_insert (kept : Kept) (x id : String) (w : MVertex) :
    Kept.ref { kept with refs := kept.refs.insert x w } id = if id = x then w.id
      else kept.ref id := by
  rw [Kept.ref, GoMap.lookup_insert_eq_ite]
  split_ifs <;> rfl

/-- **One vertex** of the layer. -/
theorem LayerInvariant.mergeVertex (h : LayerInvariant kept lower done st)
    (hin : LayerInput kept lower layer) (hv : v ∈ layer) (hnew : v.id ∉ done.map (·.id)) :
    LayerInvariant kept lower (done ++ [v]) (mergeVertex st v) := by
  obtain ⟨hlow, href⟩ := hin.fresh v hv
  have hne : ∀ id ∈ lower.map (·.id), id ≠ v.id := fun id hid heq => hlow (heq ▸ hid)
  have hdone : ∀ u ∈ done, u.id ≠ v.id := fun u hu heq => hnew (heq ▸ List.mem_map_of_mem hu)
  rw [Topology.mergeVertex, h.signature_eq hin hv]
  cases hfind : st.filters.find? fun f => f.1 = kept.signature v with
  | some f =>
    -- An earlier vertex stands for this one.
    have hf := List.mem_of_find?_eq_some hfind
    have hsig : f.1 = kept.signature v := by simpa using List.find?_some hfind
    obtain ⟨u, hu, rfl, hrefu, hnode, hres⟩ := h.filter f hf
    simp only [hnode, Option.getD_some]
    refine ⟨fun id hid => ?_, h.node, fun u' hu' => ?_, fun f' hf' => ?_, fun w hw => ?_,
      fun id hid => ?_⟩
    · rw [ref_insert, if_neg (hne id hid), h.ref id hid]
    · rw [ref_insert]
      rcases List.mem_append.mp hu' with hu' | hu'
      · rw [if_neg (hdone u' hu')]
        exact h.rep u' hu'
      · obtain rfl := List.mem_singleton.mp hu'
        rw [if_pos rfl, ← hsig]
        exact hf
    · obtain ⟨u', hu', rfl, hrefu', hrest⟩ := h.filter f' hf'
      refine ⟨u', List.mem_append_left _ hu', rfl, ?_, hrest⟩
      rw [ref_insert, if_neg (hdone u' hu'), hrefu']
    · obtain ⟨u', hu', rfl⟩ := h.result w hw
      exact ⟨u', List.mem_append_left _ hu', rfl⟩
    · rw [List.map_append, List.mem_append]
      rcases (AList.mem_insert _).mp hid with rfl | hid
      · exact Or.inr (Or.inr (by simp))
      · exact (h.refs id hid).imp_right Or.inl
  | none =>
    have hmerged := h.merged_eq hin hv
    rw [Kept.merged, h.signature_eq hin hv] at hmerged
    simp only [hmerged]
    -- Nothing stands for the vertex but itself.
    have hself : st.kept.ref v.id = v.id := by
      have hnone : st.kept.refs.lookup v.id = none :=
        AList.lookup_eq_none.mpr fun hmem => (h.refs _ hmem).elim href hnew
      rw [Kept.ref, hnone]
      rfl
    have hrefEq : ∀ id, Kept.ref { st.kept with nodes := st.kept.nodes.insert v.id (kept.merged v) }
        id =
        st.kept.ref id := fun _ => rfl
    refine ⟨h.ref, fun id hid => ?_, fun u' hu' => ?_, fun f' hf' => ?_, fun w hw => ?_,
      fun id hid => ?_⟩
    · rw [AList.lookup_insert_ne (hne id hid), h.node id hid]
    · rcases List.mem_append.mp hu' with hu' | hu'
      · exact List.mem_append_left _ (h.rep u' hu')
      · obtain rfl := List.mem_singleton.mp hu'
        rw [hrefEq, hself]
        exact List.mem_append_cons_self
    · rcases List.mem_append.mp hf' with hf' | hf'
      · obtain ⟨u', hu', rfl, hrefu', hnode', hres'⟩ := h.filter f' hf'
        refine ⟨u', List.mem_append_left _ hu', rfl, hrefu', ?_, List.mem_append_left _ hres'⟩
        rw [AList.lookup_insert_ne (hdone u' hu'), hnode']
      · obtain rfl := List.mem_singleton.mp hf'
        exact ⟨v, List.mem_append_cons_self, rfl, hself, AList.lookup_insert _,
          List.mem_append_cons_self⟩
    · rcases List.mem_append.mp hw with hw | hw
      · obtain ⟨u', hu', rfl⟩ := h.result w hw
        exact ⟨u', List.mem_append_left _ hu', rfl⟩
      · obtain rfl := List.mem_singleton.mp hw
        exact ⟨v, List.mem_append_cons_self, rfl⟩
    · refine (h.refs id hid).imp_right fun hmem => ?_
      rw [List.map_append]
      exact List.mem_append_left _ hmem

/-- **A whole layer**, vertex by vertex. -/
theorem LayerInput.mergeLayer (hin : LayerInput kept lower layer) :
    LayerInvariant kept lower layer (mergeLayer kept layer) := by
  refine Loops.foldl_rule (I := LayerInvariant kept lower)
    ⟨fun _ _ => rfl, fun _ _ => rfl, by simp, by simp, by simp, fun _ h => Or.inl h⟩
    fun done v rest st heq h => ?_
  have hnodup := hin.nodup
  rw [← heq, List.map_append, List.nodup_append] at hnodup
  have hnew : v.id ∉ done.map (·.id) := fun hmem => hnodup.2.2 _ hmem _ List.mem_cons_self rfl
  exact h.mergeVertex hin (heq ▸ List.mem_append_cons_self) hnew

end Layer

/-! ## All tiers -/

/-- Every vertex of a layer is represented by a kept vertex of the layer with the same leaves. -/
structure Reps (lev : Nat → String → Option VTree) (i : Nat) (layer : List VTree) (kept : Kept) :
    Prop where
  rep : ∀ v ∈ layer, ∃ u ∈ layer, kept.ref v.id = u.id ∧
    ∃ w, kept.nodes.lookup u.id = some w ∧ ∀ n, w.HasLeaf n ↔ v.HasLeaf n
  refs : ∀ id ∈ kept.refs, ∃ j, 0 < j ∧ j ≤ i ∧ (lev j id).isSome

/-- The leaves of a switch are those of its children. -/
theorem VTree.hasLeaf_iff {n : String} (hv : v.vertices ≠ []) :
    v.HasLeaf n ↔ ∃ e ∈ v.vertices, e.2.HasLeaf n := by
  obtain ⟨name, id, vertices⟩ := v
  constructor
  · intro h
    cases h with
    | leaf => exact absurd rfl hv
    | child hmem h => exact ⟨_, hmem, h⟩
  · rintro ⟨e, he, h⟩
    exact .child he h

/-- A childless vertex is its only leaf. -/
theorem VTree.hasLeaf_childless {n : String} (hv : v.vertices = []) : v.HasLeaf n ↔ n = v.id := by
  obtain ⟨name, id, vertices⟩ := v
  obtain rfl : vertices = [] := hv
  constructor
  · intro h
    cases h with
    | leaf => rfl
    | child hmem _ => exact absurd hmem List.not_mem_nil
  · rintro rfl
    exact .leaf name

variable {n name id : String}

@[simp] theorem VTree.hasLeaf_nil : (VTree.node name id []).HasLeaf n ↔ n = id :=
  VTree.hasLeaf_childless rfl

@[simp] theorem VTree.hasLeaf_cons :
    (VTree.node name id (e :: vertices)).HasLeaf n ↔ ∃ e' ∈ e :: vertices, e'.2.HasLeaf n :=
  VTree.hasLeaf_iff (List.cons_ne_nil e vertices)

@[simp] theorem MVertex.hasLeaf_nil : (MVertex.node name id []).HasLeaf n ↔ n = id := by
  constructor
  · intro h
    cases h with
    | leaf => rfl
    | child hmem _ => exact absurd hmem List.not_mem_nil
  · rintro rfl
    exact .leaf name

@[simp] theorem MVertex.hasLeaf_cons {e : String × MVertex} {vertices : List (String × MVertex)} :
    (MVertex.node name id (e :: vertices)).HasLeaf n ↔ ∃ e' ∈ e :: vertices, e'.2.HasLeaf n := by
  constructor
  · intro h
    cases h with
    | child hmem h => exact ⟨_, hmem, h⟩
  · rintro ⟨e', he', h⟩
    exact .child he' h

/-- The leaves of a made vertex are those of the vertices in its signature. -/
theorem hasLeaf_merged {kept : Kept} {n : String} (hv : v.vertices ≠ []) :
    (kept.merged v).HasLeaf n ↔ ∃ x ∈ kept.signature v, ∃ w, kept.nodes.lookup x = some w ∧
    w.HasLeaf n := by
  constructor
  · intro h
    generalize hm : kept.merged v = m at h
    cases h with
    | leaf name =>
      obtain ⟨e, he⟩ := List.exists_mem_of_ne_nil _ hv
      have hnil := List.map_eq_nil_iff.mp (MVertex.node.inj hm).2.2
      exact absurd (mem_signature.mpr ⟨e, he, rfl⟩) (by rw [hnil]; exact List.not_mem_nil)
    | child hmem h =>
      rw [← (MVertex.node.inj hm).2.2] at hmem
      obtain ⟨x, hx, heq⟩ := List.mem_map.mp hmem
      obtain ⟨-, rfl⟩ := Prod.mk.inj heq
      cases hlook : kept.nodes.lookup x with
      | none =>
        rw [hlook] at h
        cases h
      | some w =>
        rw [hlook] at h
        exact ⟨x, hx, w, hlook, h⟩
  · rintro ⟨x, hx, w, hlook, h⟩
    have hmem : (x, w) ∈ (kept.signature v).map fun id => (id, (kept.nodes.lookup id).getD .nil) :=
      List.mem_map.mpr ⟨x, hx, by rw [hlook]; rfl⟩
    exact .child hmem h

section Merge

variable {lev : Nat → String → Option VTree} {i : Nat} {lower layer : List VTree} {kept : Kept}

section

variable (hlev : Leveled lev)

include hlev

/-- A layer over a represented one can be merged. -/
theorem Reps.layerInput (h : Reps lev i lower kept) (hlayer : OnLevel lev (i + 1) layer)
    (hnodup : (layer.map (·.id)).Nodup) (hchild : ∀ v ∈ layer, ∀ e ∈ v.vertices, e.2 ∈ lower)
    (hfresh : ∀ v ∈ layer, v.id ∉ lower.map (·.id)) : LayerInput kept lower layer where
  nodup := hnodup
  fresh v hv := by
    refine ⟨hfresh v hv, fun hmem => ?_⟩
    obtain ⟨j, hj, hji, hsome⟩ := h.refs _ hmem
    exact absurd ((hlayer v hv).symm.trans (hlev.apart hj (Nat.lt_succ_of_le hji) hsome)) (by simp)
  child v hv e he := by
    rw [← hlev.id (hlev.child (hlayer v hv) he)]
    exact List.mem_map_of_mem (hchild v hv e he)
  rep id hid := by
    obtain ⟨v, hv, rfl⟩ := List.mem_map.mp hid
    obtain ⟨u, hu, href, -⟩ := h.rep v hv
    rw [href]
    exact List.mem_map_of_mem hu

/-- A layer above the layer that the walk goes on with. -/
theorem Reps.layerInput_nextLayer (hapart : ∀ s, (lev i s).isSome → lev (i + 1) s = none)
    (h : Reps lev i (nextLayer layer) kept) (hlayer : OnLevel lev (i + 1) layer)
    (hnodup : (layer.map (·.id)).Nodup) : LayerInput kept (nextLayer layer) layer := by
  refine h.layerInput hlev hlayer hnodup
    (fun v hv e he => hlayer.mem_nextLayer hlev hapart hv he) fun v hv hmem => ?_
  obtain ⟨u, hu, heq⟩ := List.mem_map.mp hmem
  refine hlayer.key_notMem hapart (by rw [hlayer.nextLayer hlev u hu]; rfl : (lev i u.id).isSome) ?_
  rw [heq]
  exact List.mem_map_of_mem hv

section

variable (h : Reps lev i lower kept) (hlayer : OnLevel lev (i + 1) layer)
  (hchild : ∀ v ∈ layer, ∀ e ∈ v.vertices, e.2 ∈ lower)

include h hlayer hchild

/-- A made vertex has the leaves of the vertex it was made for. -/
theorem Reps.hasLeaf_merged (hv : v ∈ layer) (n : String) :
    (kept.merged v).HasLeaf n ↔ v.HasLeaf n := by
  have hne := hlev.switch (hlayer v hv)
  have hrep : ∀ e ∈ v.vertices, ∃ w, kept.nodes.lookup (kept.ref e.1) = some w ∧
      (w.HasLeaf n ↔ e.2.HasLeaf n) := by
    intro e he
    obtain ⟨u, -, href, w, hw, hleaf⟩ := h.rep e.2 (hchild v hv e he)
    rw [hlev.id (hlev.child (hlayer v hv) he)] at href
    exact ⟨w, by rw [href, hw], hleaf n⟩
  rw [Topology.hasLeaf_merged hne, VTree.hasLeaf_iff hne]
  constructor
  · rintro ⟨x, hx, w, hw, hleaf⟩
    obtain ⟨e, he, rfl⟩ := mem_signature.mp hx
    obtain ⟨w', hw', hiff⟩ := hrep e he
    obtain rfl := Option.some.inj (hw.symm.trans hw')
    exact ⟨e, he, hiff.mp hleaf⟩
  · rintro ⟨e, he, hleaf⟩
    obtain ⟨w, hw, hiff⟩ := hrep e he
    exact ⟨_, mem_signature.mpr ⟨e, he, rfl⟩, w, hw, hiff.mpr hleaf⟩

/-- The vertex that stands for `v` after its tier is merged has the signature of `v`, and its
leaves. -/
theorem Reps.exists_stands (hin : LayerInput kept lower layer) (hv : v ∈ layer) :
    ∃ u ∈ layer, (mergeLayer kept layer).kept.ref v.id = u.id ∧
    kept.signature u = kept.signature v ∧
      (mergeLayer kept layer).kept.nodes.lookup u.id = some (kept.merged u) ∧
      kept.merged u ∈ (mergeLayer kept layer).result ∧ ∀ n, (kept.merged u).HasLeaf n ↔
        v.HasLeaf n := by
  have hinv := hin.mergeLayer
  obtain ⟨u, hu, heq, -, hnode, hres⟩ := hinv.filter _ (hinv.rep v hv)
  obtain ⟨hsig, href⟩ := Prod.mk.inj heq
  refine ⟨u, hu, href, hsig.symm, hnode, hres, fun n => ?_⟩
  rw [← h.hasLeaf_merged hlev hlayer hchild hv n,
    Topology.hasLeaf_merged (hlev.switch (hlayer u hu)),
    Topology.hasLeaf_merged (hlev.switch (hlayer v hv)), hsig]

/-- **One tier**: its vertices are represented, and the kept ones have the same leaves together. -/
theorem Reps.mergeLayer (hin : LayerInput kept lower layer) :
    Reps lev (i + 1) layer (mergeLayer kept layer).kept ∧
      ∀ n, (∃ w ∈ (mergeLayer kept layer).result, w.HasLeaf n) ↔ ∃ v ∈ layer, v.HasLeaf n := by
  have hinv := hin.mergeLayer
  have hstands := fun v hv => h.exists_stands hlev hlayer hchild hin (v := v) hv
  refine ⟨⟨fun v hv => ?_, fun id hid => ?_⟩, fun n => ?_⟩
  · obtain ⟨u, hu, href, -, hnode, -, hiff⟩ := hstands v hv
    exact ⟨u, hu, href, _, hnode, hiff⟩
  · rcases hinv.refs id hid with hid | hid
    · obtain ⟨j, hj, hji, hsome⟩ := h.refs id hid
      exact ⟨j, hj, Nat.le_succ_of_le hji, hsome⟩
    · obtain ⟨v, hv, rfl⟩ := List.mem_map.mp hid
      exact ⟨i + 1, Nat.succ_pos i, le_rfl, by rw [hlayer v hv]; rfl⟩
  · constructor
    · rintro ⟨w, hw, hn⟩
      obtain ⟨v, hv, rfl⟩ := hinv.result w hw
      exact ⟨v, hv, (h.hasLeaf_merged hlev hlayer hchild hv n).mp hn⟩
    · rintro ⟨v, hv, hn⟩
      obtain ⟨u, -, -, -, -, hres, hiff⟩ := hstands v hv
      exact ⟨_, hres, (hiff n).mpr hn⟩

end

/-- The childless vertices of level 0 by ID. -/
theorem lookup_leafNodes (hlayer : OnLevel lev 0 layer) (hv : v ∈ layer) :
    (leafNodes layer).lookup v.id = some (.ofVTree v) := by
  refine (GoMap.lookup_foldl_insert_iff VTree.id fun u hu u' hu' heq => ?_).mpr
    (Or.inl ⟨v, List.mem_filter.mpr ⟨hv, by simp [hlev.leaf (hlayer v hv)]⟩, rfl, rfl⟩)
  have hlook := hlayer u (List.mem_of_mem_filter hu)
  rw [heq, hlayer u' (List.mem_of_mem_filter hu')] at hlook
  rw [Option.some.inj hlook]

end

theorem hasLeaf_ofVTree (hv : v.vertices = []) (n : String) :
    (MVertex.ofVTree v).HasLeaf n ↔ v.HasLeaf n := by
  obtain ⟨name, id, vertices⟩ := v
  obtain rfl : vertices = [] := hv
  constructor
  · intro h
    cases h with
    | leaf => exact .leaf name
    | child hmem _ => exact absurd hmem List.not_mem_nil
  · intro h
    cases h with
    | leaf => exact .leaf name
    | child hmem _ => exact absurd hmem List.not_mem_nil

/-- Merging goes tier by tier. -/
theorem merge_append (hne : tiers ≠ []) (layer : List VTree) (nodes : GoMap String MVertex) :
    Merger.merge { tiers := tiers ++ [layer], nodes := nodes } =
      mergeTier (Merger.merge { tiers := tiers, nodes := nodes }) layer := by
  cases tiers with
  | nil => exact absurd rfl hne
  | cons bottom upper => simp [Merger.merge]

theorem headD_append (hne : tiers ≠ []) (layer : List VTree) :
    (tiers ++ [layer]).headD [] = tiers.headD [] := by
  cases tiers with
  | nil => exact absurd rfl hne
  | cons bottom upper => rfl

/-- **All tiers**, by induction on the walk. -/
theorem Tiers.reps_merge (hlev : Leveled lev) (hfresh : ∀ s, (lev 0 s).isSome → lev 1 s = none)
    (htiers : Tiers layer tiers) (hlayer : OnLevel lev i layer)
    (hnodup : (layer.map (·.id)).Nodup) :
    Reps lev i layer (Merger.merge { tiers := tiers, nodes := leafNodes (tiers.headD []) }).1 ∧
      ∀ n, (∃ w ∈ topTier (Merger.merge { tiers := tiers, nodes := leafNodes (tiers.headD []) }).2,
        w.HasLeaf n) ↔
        ∃ v ∈ layer, v.HasLeaf n := by
  induction htiers generalizing i with
  | @leaf layer hleaf =>
    obtain ⟨v₀, hv₀, hnil⟩ := hleaf
    obtain ⟨-, rfl⟩ := (hlayer.level_cases hlev hv₀).resolve_right fun h => h.1 hnil
    have hleaves : ∀ v ∈ layer, ∀ n, (MVertex.ofVTree v).HasLeaf n ↔ v.HasLeaf n :=
      fun v hv => hasLeaf_ofVTree (hlev.leaf (hlayer v hv))
    refine ⟨⟨fun v hv => ⟨v, hv, rfl, _, lookup_leafNodes hlev hlayer hv, hleaves v hv⟩,
      fun id hid => ?_⟩, fun n => ?_⟩
    · exact absurd hid (AList.notMem_empty id)
    · show (∃ w ∈ layer.map MVertex.ofVTree, w.HasLeaf n) ↔ _
      simp only [List.mem_map, exists_exists_and_eq_and]
      exact exists_congr fun v => and_congr_right fun hv => hleaves v hv n
  | @step layer tiers hsw hnext ih =>
    obtain ⟨v₀, hv₀⟩ := List.exists_mem_of_ne_nil _ (Tiers.step hsw hnext).layer_ne_nil
    obtain ⟨-, j, rfl⟩ := (hlayer.level_cases hlev hv₀).resolve_left fun h => hsw v₀ hv₀ h.1
    have hapart := hlev.apart_succ hfresh j
    have hlow : OnLevel lev j (nextLayer layer) := hlayer.nextLayer hlev
    have hchild : ∀ v ∈ layer, ∀ e ∈ v.vertices, e.2 ∈ nextLayer layer :=
      fun v hv e he => hlayer.mem_nextLayer hlev hapart hv he
    obtain ⟨hreps, -⟩ := ih hlow (hlayer.nodup_nextLayer hlev)
    have hin := hreps.layerInput_nextLayer hlev hapart hlayer hnodup
    rw [headD_append hnext.ne_nil, merge_append hnext.ne_nil, mergeTier, topTier,
      List.getLast?_concat, Option.getD_some]
    exact hreps.mergeLayer hlev hlayer hchild hin

/-- A layer above nothing but levels has tiers. -/
theorem OnLevel.exists_tiers (hlev : Leveled lev) (hfresh : ∀ s, (lev 0 s).isSome → lev 1 s = none)
    (hlayer : OnLevel lev i layer) (hne : layer ≠ []) : ∃ tiers, Tiers layer tiers := by
  induction i generalizing layer with
  | zero =>
    obtain ⟨v, hv⟩ := List.exists_mem_of_ne_nil _ hne
    exact ⟨_, .leaf ⟨v, hv, hlev.leaf (hlayer v hv)⟩⟩
  | succ i ih =>
    obtain ⟨v, hv⟩ := List.exists_mem_of_ne_nil _ hne
    obtain ⟨e, he⟩ := List.exists_mem_of_ne_nil _ (hlev.switch (hlayer v hv))
    have hmem := hlayer.mem_nextLayer hlev (hlev.apart_succ hfresh i) hv he
    obtain ⟨tiers, htiers⟩ := ih (hlayer.nextLayer hlev) (List.ne_nil_of_mem hmem)
    exact ⟨_, .step (fun v hv => hlev.switch (hlayer v hv)) htiers⟩

end Merge

/-! ## The forest under its top -/

theorem VTree.Below.exists_child {t v : VTree} (h : VTree.Below t v) :
    ∃ e ∈ v.vertices, t = e.2 ∨ VTree.Below t e.2 := by
  cases h with
  | child h => exact ⟨_, h, Or.inl rfl⟩
  | step h hb => exact ⟨_, h, Or.inr hb⟩

theorem VTree.Below.trans_child {t v : VTree} (h : VTree.Below t v) (he : e ∈ t.vertices) :
    VTree.Below e.2 v := by
  induction h with
  | child h => exact .step h (.child he)
  | step h _ ih => exact .step h ih

/-- `Under top t`: the vertex `t` is one of `top` or below one of them. -/
def Under (top : List VTree) (t : VTree) : Prop := ∃ v ∈ top, t = v ∨ VTree.Below t v

variable {t : VTree}

theorem Under.child {top : List VTree} (h : Under top t) (he : e ∈ t.vertices) : Under top e.2 := by
  obtain ⟨v, hv, rfl | hb⟩ := h
  · exact ⟨t, hv, Or.inr (.child he)⟩
  · exact ⟨v, hv, Or.inr (hb.trans_child he)⟩

/-- Leaves are the childless vertices of the forest. -/
theorem hasLeaf_iff_under {top : List VTree} {n : String} :
    (∃ v ∈ top, v.HasLeaf n) ↔ ∃ t, Under top t ∧ t.vertices = [] ∧ t.id = n := by
  constructor
  · rintro ⟨v, hv, h⟩
    have hwalk : ∃ t, (t = v ∨ VTree.Below t v) ∧ t.vertices = [] ∧ t.id = n := by
      clear hv
      induction h with
      | leaf name => exact ⟨_, Or.inl rfl, rfl, rfl⟩
      | child hmem _ ih =>
        obtain ⟨t, rfl | hb, hnil, hid⟩ := ih
        · exact ⟨t, Or.inr (.child hmem), hnil, hid⟩
        · exact ⟨t, Or.inr (.step hmem hb), hnil, hid⟩
    obtain ⟨t, ht, hnil, hid⟩ := hwalk
    exact ⟨t, ⟨v, hv, ht⟩, hnil, hid⟩
  · rintro ⟨t, ⟨v, hv, ht⟩, hnil, rfl⟩
    refine ⟨v, hv, ?_⟩
    have hleaf : t.HasLeaf t.id := (VTree.hasLeaf_childless hnil).mpr rfl
    rcases ht with rfl | hb
    · exact hleaf
    · clear hv
      induction hb with
      | @child v key h =>
        obtain ⟨name, id, vertices⟩ := v
        exact .child h hleaf
      | @step w v key h _ ih =>
        obtain ⟨name, id, vertices⟩ := v
        exact .child h ih

/-- A leaf of a leveled forest hangs below a switch of level 1. -/
theorem VTree.Below.exists_parent {lev : Nat → String → Option VTree} (hlev : Leveled lev) {i : Nat}
    {t v : VTree} (h : VTree.Below t v) (hv : lev (i + 1) v.id = some v) (hnil : t.vertices = []) :
    ∃ s u key, lev 1 s = some u ∧ (u = v ∨ VTree.Below u v) ∧ (key, t) ∈ u.vertices := by
  induction i generalizing v with
  | zero =>
    obtain ⟨e, he, rfl | hb⟩ := h.exists_child
    · exact ⟨v.id, v, e.1, hv, Or.inl rfl, he⟩
    · obtain ⟨e', he', -⟩ := hb.exists_child
      exact absurd he' (by rw [hlev.leaf (hlev.child hv he)]; exact List.not_mem_nil)
  | succ i ih =>
    obtain ⟨e, he, hb⟩ := h.exists_child
    have hlook := hlev.child hv he
    have hb : VTree.Below t e.2 := by
      refine hb.resolve_left ?_
      rintro rfl
      exact hlev.switch hlook hnil
    obtain ⟨s, u, key, hu, hunder, hmem⟩ := ih hb (by rwa [hlev.id hlook])
    refine ⟨s, u, key, hu, Or.inr ?_, hmem⟩
    rcases hunder with rfl | hunder
    · exact .child he
    · exact .step he hunder

section Forest

variable {lev : Nat → String → Option VTree} {i : Nat} {top : List VTree}

open Classical in
/-- The levels of the forest under `top` alone. -/
noncomputable def levelsUnder (lev : Nat → String → Option VTree) (top : List VTree) (i : Nat)
    (s : String) : Option VTree :=
  (lev i s).filter fun t => Under top t

theorem levelsUnder_eq_some {s : String} :
    levelsUnder lev top i s = some t ↔ lev i s = some t ∧ Under top t := by
  simp [levelsUnder, Option.filter_eq_some_iff]

/-- What is under the top is leveled. -/
theorem Leveled.under (hlev : Leveled lev) (top : List VTree) : Leveled (levelsUnder lev top) where
  id h := hlev.id (levelsUnder_eq_some.mp h).1
  leaf h := hlev.leaf (levelsUnder_eq_some.mp h).1
  switch h := hlev.switch (levelsUnder_eq_some.mp h).1
  child h he := by
    obtain ⟨ht, hunder⟩ := levelsUnder_eq_some.mp h
    exact levelsUnder_eq_some.mpr ⟨hlev.child ht he, hunder.child he⟩
  apart hi hij h := by
    obtain ⟨t, ht⟩ := Option.isSome_iff_exists.mp h
    rw [levelsUnder, hlev.apart hi hij (by rw [(levelsUnder_eq_some.mp ht).1]; rfl)]
    rfl

theorem OnLevel.under (h : OnLevel lev i top) : OnLevel (levelsUnder lev top) i top :=
  fun v hv => levelsUnder_eq_some.mpr ⟨h v hv, v, hv, Or.inl rfl⟩

/-- The vertices kept from a layer have different IDs. -/
theorem mergeLayer_ids (kept : Kept) (layer : List VTree) :
    ((mergeLayer kept layer).result.map (·.id)).Sublist (layer.map (·.id)) := by
  refine Loops.foldl_rule (I := fun done (st : LayerState) => (st.result.map MVertex.id).Sublist
    (done.map VTree.id)) .slnil
    fun done v _ st _ h => ?_
  rw [List.map_append, mergeVertex]
  cases st.filters.find? fun f => f.1 = st.kept.signature v with
  | some f => exact h.trans (List.sublist_append_left _ _)
  | none =>
    rw [List.map_append]
    exact h.append (.refl _)

theorem Tiers.ids_topTier {layer : List VTree} (htiers : Tiers layer tiers)
    (nodes : GoMap String MVertex) :
    ((topTier (Merger.merge { tiers := tiers, nodes := nodes }).2).map (·.id)).Sublist
      (layer.map (·.id)) := by
  cases htiers with
  | leaf _ =>
    have hid : MVertex.id ∘ MVertex.ofVTree = VTree.id := funext fun ⟨_, _, _⟩ => rfl
    show ((layer.map MVertex.ofVTree).map MVertex.id).Sublist _
    rw [List.map_map, hid]
  | step _ hnext =>
    rw [merge_append hnext.ne_nil, mergeTier, topTier, List.getLast?_concat, Option.getD_some]
    exact mergeLayer_ids _ layer

/-- The merged vertices have different IDs. -/
theorem mergedTop_ids {merged : List MVertex} (h : mergedTop fuel top = some merged)
    (hnodup : (top.map (·.id)).Nodup) : (merged.map (·.id)).Nodup := by
  rw [mergedTop, newMerger] at h
  split_ifs at h with hnil
  · obtain rfl := Option.some.inj h
    exact List.nodup_nil
  · obtain ⟨m, hm, rfl⟩ := Option.map_eq_some_iff.mp h
    obtain ⟨tiers, htiers, rfl⟩ := Option.map_eq_some_iff.mp hm
    refine ((tiers_of_traverse htiers).ids_topTier _).nodup ?_
    exact ((List.perm_insertionSort _ top).map _).nodup_iff.mpr hnodup

/-- **Merging keeps the leaves** of a leveled forest in which no leaf has the ID of a switch right
above the leaves. -/
theorem mergedTop_leaves (hlev : Leveled lev) (htop : OnLevel lev i top)
    (hnodup : (top.map (·.id)).Nodup)
    (hfresh : ∀ s t, (∃ v ∈ top, v.HasLeaf s) → lev 1 s = some t → ¬ Under top t) :
    ∃ fuel merged, mergedTop fuel top = some merged ∧
      ∀ n, (∃ w ∈ merged, w.HasLeaf n) ↔ ∃ v ∈ top, v.HasLeaf n := by
  by_cases hnil : top = []
  · subst hnil
    exact ⟨0, [], rfl, by simp⟩
  · have hfresh' : ∀ s, (levelsUnder lev top 0 s).isSome → levelsUnder lev top 1 s = none := by
      intro s hs
      obtain ⟨u, hu⟩ := Option.isSome_iff_exists.mp hs
      obtain ⟨hu, hunder⟩ := levelsUnder_eq_some.mp hu
      refine Option.eq_none_iff_forall_ne_some.mpr fun t ht => ?_
      obtain ⟨ht, hunder'⟩ := levelsUnder_eq_some.mp ht
      exact hfresh s t (hasLeaf_iff_under.mpr ⟨u, hunder, hlev.leaf hu, hlev.id hu⟩) ht hunder'
    have hperm := List.perm_insertionSort (fun a b : VTree => a.id ≤ b.id) top
    have hsorted : OnLevel (levelsUnder lev top) i (top.insertionSort fun a b => a.id ≤ b.id) :=
      fun v hv => htop.under v (hperm.mem_iff.mp hv)
    obtain ⟨tiers, htiers⟩ := hsorted.exists_tiers (hlev.under top) hfresh' fun h =>
      hnil (by rw [h] at hperm; exact hperm.symm.eq_nil)
    obtain ⟨fuel, hfuel⟩ := htiers.exists_traverse
    refine ⟨fuel, _, by rw [mergedTop, newMerger, if_neg hnil, hfuel]; rfl, fun n => ?_⟩
    refine ((htiers.reps_merge (hlev.under top) hfresh' hsorted
      ((hperm.map _).nodup_iff.mpr hnodup)).2 n).trans ?_
    exact exists_congr fun v => and_congr_left fun _ => hperm.mem_iff

end Forest

/-! ## Lost leaves -/

section Lost

variable {ids : List String} {layer : List VTree}

/-- All leaves of the kept vertices have an ID in `ids`. -/
def Kept.LeafIDs (kept : Kept) (ids : List String) : Prop :=
  ∀ x w, kept.nodes.lookup x = some w → ∀ n, w.HasLeaf n → n ∈ ids

theorem Kept.LeafIDs.mergeVertex {st : LayerState} (h : st.kept.LeafIDs ids) (hv : v.vertices ≠ [])
    (hres : ∀ w ∈ st.result, ∀ n, w.HasLeaf n → n ∈ ids) :
    (mergeVertex st v).kept.LeafIDs ids ∧ ∀ w ∈ (mergeVertex st v).result, ∀ n, w.HasLeaf n →
      n ∈ ids := by
  rw [Topology.mergeVertex]
  cases st.filters.find? fun f => f.1 = st.kept.signature v with
  | some f => exact ⟨h, hres⟩
  | none =>
    have hmerged : ∀ n, (st.kept.merged v).HasLeaf n → n ∈ ids := by
      intro n hn
      obtain ⟨x, -, w, hw, hleaf⟩ := (hasLeaf_merged hv).mp hn
      exact h x w hw n hleaf
    refine ⟨fun x w hw => ?_, fun w hw => ?_⟩
    · rw [GoMap.lookup_insert_eq_ite] at hw
      split_ifs at hw
      · rw [← Option.some.inj hw]
        exact hmerged
      · exact h x w hw
    · rcases List.mem_append.mp hw with hw | hw
      · exact hres w hw
      · obtain rfl := List.mem_singleton.mp hw
        exact hmerged

/-- Merging a layer adds no leaves. -/
theorem Kept.LeafIDs.mergeLayer {kept : Kept} (h : kept.LeafIDs ids)
    (hsw : ∀ v ∈ layer, v.vertices ≠ []) :
    (mergeLayer kept layer).kept.LeafIDs ids ∧ ∀ w ∈ (mergeLayer kept layer).result, ∀ n,
      w.HasLeaf n → n ∈ ids :=
  List.foldlRecOn layer Topology.mergeVertex
    (motive := fun st : LayerState => st.kept.LeafIDs ids ∧ ∀ w ∈ st.result, ∀ n, w.HasLeaf n →
      n ∈ ids) ⟨h, by simp⟩
    fun _ hst v hv => hst.1.mergeVertex (hsw v hv) hst.2

/-- Leaf vertices of a tier have its IDs. -/
theorem leafIDs_leafNodes (layer : List VTree) :
    Kept.LeafIDs { nodes := leafNodes layer, refs := ∅ } (layer.map (·.id)) := by
  intro x w hw n hn
  obtain ⟨v, hv, -, rfl⟩ | ⟨-, habs⟩ := GoMap.exists_of_lookup_foldl_insert hw
  · obtain ⟨hmem, hempty⟩ := List.mem_filter.mp hv
    have hnil : v.vertices = [] := by simpa using hempty
    rw [hasLeaf_ofVTree hnil, VTree.hasLeaf_childless hnil] at hn
    rw [hn]
    exact List.mem_map_of_mem hmem
  · exact absurd habs (by simp)

/-- **Leaves come from the lowest tier.** -/
theorem Tiers.leafIDs_merge (htiers : Tiers layer tiers) :
    (Merger.merge { tiers := tiers, nodes := leafNodes (tiers.headD []) }).1.LeafIDs
      ((tiers.headD []).map (·.id)) ∧
      ((∀ v ∈ layer, v.vertices ≠ []) →
        ∀ w ∈ topTier (Merger.merge { tiers := tiers, nodes := leafNodes (tiers.headD []) }).2,
        ∀ n, w.HasLeaf n →
          n ∈ (tiers.headD []).map (·.id)) := by
  induction htiers with
  | @leaf layer hleaf =>
    obtain ⟨v, hv, hnil⟩ := hleaf
    exact ⟨leafIDs_leafNodes layer, fun hsw => absurd hnil (hsw v hv)⟩
  | @step layer tiers hsw hnext ih =>
    rw [headD_append hnext.ne_nil, merge_append hnext.ne_nil, mergeTier, topTier,
      List.getLast?_concat, Option.getD_some]
    obtain ⟨hk, hres⟩ := ih.1.mergeLayer hsw
    exact ⟨hk, fun _ => hres⟩

variable {lev : Nat → String → Option VTree}

/-- The lowest tier has no ID of the vertices right above it, wherever the walk started. -/
theorem Tiers.notMem_ids {i : Nat} (hlev : Leveled lev) (htiers : Tiers layer tiers)
    (hlayer : OnLevel lev (i + 1) layer) {s : String} (ht : lev 1 s = some t)
    (hbelow : Under layer t) : s ∉ (tiers.headD []).map (·.id) := by
  have hsw : ∀ v ∈ layer, v.vertices ≠ [] := fun v hv => hlev.switch (hlayer v hv)
  induction htiers generalizing i with
  | leaf h =>
    obtain ⟨v, hv, hnil⟩ := h
    exact absurd hnil (hsw v hv)
  | @step layer tiers _ hnext ih =>
    have hlow : OnLevel lev i (nextLayer layer) := hlayer.nextLayer hlev
    obtain ⟨v, hv, hbelow⟩ := hbelow
    rw [headD_append hnext.ne_nil]
    cases i with
    | zero =>
      -- The next layer is the lowest tier, and `t` is one of the vertices above it.
      obtain rfl : t = v := by
        refine hbelow.resolve_right fun hb => ?_
        obtain ⟨e, he, hb⟩ := hb.exists_child
        have hnil := hlev.leaf (hlev.child (hlayer v hv) he)
        rcases hb with rfl | hb
        · exact hlev.switch ht hnil
        · obtain ⟨e', he', -⟩ := hb.exists_child
          exact absurd he' (by rw [hnil]; exact List.not_mem_nil)
      obtain ⟨u₀, hu₀⟩ := List.exists_mem_of_ne_nil _ hnext.layer_ne_nil
      cases hnext with
      | step hsw' _ => exact absurd (hlev.leaf (hlow u₀ hu₀)) (hsw' u₀ hu₀)
      | leaf _ =>
        intro hmem
        obtain ⟨u, hu, heq⟩ := List.mem_map.mp hmem
        obtain ⟨key, hkey, hnot⟩ := mem_unvisited hu
        obtain ⟨w, hw, hchild⟩ := mem_children.mp hkey
        rw [hlev.id (hlev.child (hlayer w hw) hchild)] at heq
        exact hnot (List.mem_map.mpr ⟨t, hv, by rw [heq, hlev.id ht]⟩)
    | succ j =>
      have hne : t ≠ v := by
        rintro rfl
        have hnone := hlev.apart (Nat.zero_lt_one)
          (by omega : 1 < j + 1 + 1) (by rw [ht]; rfl : (lev 1 s).isSome)
        have hsome := hlayer t hv
        rw [hlev.id ht, hnone] at hsome
        exact absurd hsome (by simp)
      obtain ⟨e, he, hb⟩ := (hbelow.resolve_left hne).exists_child
      have hapart : ∀ s, (lev (j + 1) s).isSome → lev (j + 1 + 1) s = none :=
        fun s hs => hlev.apart (Nat.succ_pos j) (Nat.lt_succ_self _) hs
      exact ih hlow ⟨e.2, hlayer.mem_nextLayer hlev hapart hv he, hb⟩ fun v hv =>
        hlev.switch (hlow v hv)

/-- **A leaf with the ID of a switch right above the leaves is lost.** -/
theorem ne_of_hasLeaf_mergedTop {i : Nat} (hlev : Leveled lev) {top : List VTree}
    {merged : List MVertex} (h : mergedTop fuel top = some merged) (htop : OnLevel lev (i + 1) top)
    {n : String} (hn : ∃ w ∈ merged, w.HasLeaf n) {s : String} (ht : lev 1 s = some t)
    (hbelow : Under top t) : n ≠ s := by
  obtain ⟨v, hv, hb⟩ := hbelow
  rw [mergedTop, newMerger, if_neg (List.ne_nil_of_mem hv)] at h
  obtain ⟨m, hm, rfl⟩ := Option.map_eq_some_iff.mp h
  obtain ⟨tiers, htiers, rfl⟩ := Option.map_eq_some_iff.mp hm
  have htiers := tiers_of_traverse htiers
  have hperm := List.perm_insertionSort (fun a b : VTree => a.id ≤ b.id) top
  have hsorted : OnLevel lev (i + 1) (top.insertionSort fun a b => a.id ≤ b.id) :=
    fun v hv => htop v (hperm.mem_iff.mp hv)
  obtain ⟨w, hw, hleaf⟩ := hn
  have hmem := htiers.leafIDs_merge.2 (fun v hv => hlev.switch (hsorted v hv)) w hw n hleaf
  rintro rfl
  exact htiers.notMem_ids hlev hsorted ht ⟨v, hperm.mem_iff.mpr hv, hb⟩ hmem

end Lost

end Topograph.Topology
