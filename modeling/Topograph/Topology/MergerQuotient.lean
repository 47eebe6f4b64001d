import Topograph.Lib.KeySort
import Topograph.Topology.MergerSpec

/-! # The merger as a quotient

On a graph whose vertices have one level each (`LayeredGraph`), the tiers of the merger are the
levels (`Tiers.mem_iff`), and `Merge` keeps one vertex for each class of vertices whose children
have the same representatives (`TierQuotient`, `Tiers.isQuotient`). The survivors of a tier above
the lowest have different child sets; those of the lowest tier are all its vertices, which have no
children.

Neither the order of the top vertices nor the order in which the children of a vertex are listed
matters (`Reordered`, `merge_reordered`). -/

namespace Topograph.Topology

namespace MVertex

/-- The name behind a pointer. -/
def name : MVertex → String
  | nil => ""
  | node name _ _ => name

/-- The keys of the children behind a pointer. -/
def childIDs : MVertex → List String
  | nil => []
  | node _ _ vertices => vertices.map (·.1)

/-- Neither the vertex nor anything below it is a nil pointer. -/
inductive NoNil : MVertex → Prop
  | node {name id : String} {vertices : List (String × MVertex)} (h : ∀ e ∈ vertices, NoNil e.2) :
      NoNil (.node name id vertices)

/-- The two have different child sets. -/
def ChildrenDiffer (w w' : MVertex) : Prop := ¬ ∀ id, id ∈ w.childIDs ↔ id ∈ w'.childIDs

end MVertex

/-- A graph of vertices by level and ID in which an ID is on one level only. -/
structure LayeredGraph (lev : Nat → String → Option VTree) : Prop extends Leveled lev where
  unique : ∀ {i j s}, i < j → (lev i s).isSome → lev j s = none

section Layers

variable {lev : Nat → String → Option VTree} {i j : Nat} {layer : List VTree}

/-- An ID stands on one level. -/
theorem LayeredGraph.level_unique (hlev : LayeredGraph lev) {s : String} {t t' : VTree}
    (h : lev i s = some t) (h' : lev j s = some t') : i = j := by
  rcases lt_trichotomy i j with hlt | heq | hgt
  · exact absurd (h'.symm.trans (hlev.unique hlt (by rw [h]; rfl))) (by simp)
  · exact heq
  · exact absurd (h.symm.trans (hlev.unique hgt (by rw [h']; rfl))) (by simp)

theorem LayeredGraph.fresh (hlev : LayeredGraph lev) (i : Nat) (s : String) (h : (lev i s).isSome) :
    lev (i + 1) s = none :=
  hlev.unique (Nat.lt_succ_self i) h

/-- An ID of another level is not in a layer. -/
theorem LayeredGraph.notMem_layer (hlev : LayeredGraph lev) (hlayer : OnLevel lev i layer)
    {s : String} {t : VTree} (h : lev j s = some t) (hne : j ≠ i) : s ∉ layer.map (·.id) := by
  intro hmem
  obtain ⟨v, hv, rfl⟩ := List.mem_map.mp hmem
  exact hne (hlev.level_unique h (hlayer v hv))

/-- What is below a vertex is on a lower level. -/
theorem VTree.Below.exists_level (hlev : Leveled lev) {t v : VTree} (hb : VTree.Below t v)
    (hv : lev i v.id = some v) : ∃ k < i, lev k t.id = some t := by
  induction hb generalizing i with
  | child h =>
    cases i with
    | zero => exact absurd h (by rw [hlev.leaf hv]; exact List.not_mem_nil)
    | succ i =>
      have hlook := hlev.child hv h
      exact ⟨i, Nat.lt_succ_self i, by rwa [hlev.id hlook]⟩
  | step h _ ih =>
    cases i with
    | zero => exact absurd h (by rw [hlev.leaf hv]; exact List.not_mem_nil)
    | succ i =>
      have hlook := hlev.child hv h
      obtain ⟨k, hk, ht⟩ := ih (by rwa [hlev.id hlook])
      exact ⟨k, Nat.lt_succ_of_lt hk, ht⟩

/-- The forest under a layer is the layer and the forest under the next one. -/
theorem under_iff_nextLayer (hlev : LayeredGraph lev) (hlayer : OnLevel lev (i + 1) layer)
    {t : VTree} : Under layer t ↔ t ∈ layer ∨ Under (nextLayer layer) t := by
  constructor
  · rintro ⟨v, hv, rfl | hb⟩
    · exact Or.inl hv
    · obtain ⟨e, he, hb⟩ := hb.exists_child
      exact Or.inr ⟨e.2, hlayer.mem_nextLayer hlev.toLeveled (hlev.fresh i) hv he, hb⟩
  · rintro (ht | ⟨u, hu, hb⟩)
    · exact ⟨t, ht, Or.inl rfl⟩
    · obtain ⟨id, hmem, -⟩ := mem_unvisited hu
      obtain ⟨v, hv, hchild⟩ := mem_children.mp hmem
      refine ⟨v, hv, Or.inr ?_⟩
      rcases hb with rfl | hb
      · exact .child hchild
      · exact .step hchild hb

/-- The tiers with one more on top. -/
theorem getElem?_concat_eq_some {α : Type} {tiers : List α} {layer tier : α} {k : Nat} :
    (tiers ++ [layer])[k]? = some tier ↔ tiers[k]? = some tier ∨
      (k = tiers.length ∧ layer = tier) := by
  rcases lt_trichotomy k tiers.length with hlt | rfl | hgt
  · simp [List.getElem?_append_left hlt, hlt.ne]
  · simp
  · have hnone : (tiers ++ [layer])[k]? = none :=
      List.getElem?_eq_none (by simpa using Nat.succ_le_of_lt hgt)
    simp [hnone, List.getElem?_eq_none hgt.le, hgt.ne']

/-- **The tiers are the levels** of the forest under the layer, each vertex once. -/
theorem Tiers.mem_iff (hlev : LayeredGraph lev) {tiers : List (List VTree)}
    (htiers : Tiers layer tiers) (hlayer : OnLevel lev i layer)
    (hnodup : (layer.map (·.id)).Nodup) :
    tiers.length = i + 1 ∧ (∀ tier ∈ tiers, (tier.map (·.id)).Nodup) ∧
      ∀ k t, (∃ tier, tiers[k]? = some tier ∧ t ∈ tier) ↔ Under layer t ∧ lev k t.id = some t := by
  induction htiers generalizing i with
  | @leaf layer hleaf =>
    obtain ⟨v₀, hv₀, hnil⟩ := hleaf
    obtain ⟨-, rfl⟩ := (hlayer.level_cases hlev.toLeveled hv₀).resolve_right fun h => h.1 hnil
    have hunder : ∀ t, Under layer t ↔ t ∈ layer := by
      refine fun t => ⟨?_, fun ht => ⟨t, ht, Or.inl rfl⟩⟩
      rintro ⟨v, hv, rfl | hb⟩
      · exact hv
      · obtain ⟨k, hk, -⟩ := hb.exists_level hlev.toLeveled (hlayer v hv)
        exact absurd hk (Nat.not_lt_zero k)
    refine ⟨rfl, by simpa using hnodup, fun k t => ?_⟩
    rw [hunder]
    constructor
    · rintro ⟨tier, htier, ht⟩
      obtain ⟨rfl, rfl⟩ : k = 0 ∧ layer = tier := by simpa [List.getElem?_singleton] using htier
      exact ⟨ht, hlayer t ht⟩
    · rintro ⟨ht, hk⟩
      obtain rfl := hlev.level_unique hk (hlayer t ht)
      exact ⟨layer, rfl, ht⟩
  | @step layer tiers hsw hnext ih =>
    obtain ⟨v₀, hv₀⟩ := List.exists_mem_of_ne_nil _ (Tiers.step hsw hnext).layer_ne_nil
    obtain ⟨-, j, rfl⟩ :=
      (hlayer.level_cases hlev.toLeveled hv₀).resolve_left fun h => hsw v₀ hv₀ h.1
    obtain ⟨hlength, hnodups, hmem⟩ :=
      ih (hlayer.nextLayer hlev.toLeveled) (hlayer.nodup_nextLayer hlev.toLeveled)
    refine ⟨by rw [List.length_append, hlength]; rfl, ?_, fun k t => ?_⟩
    · exact List.forall_mem_append.mpr ⟨hnodups, by simpa using hnodup⟩
    · simp only [getElem?_concat_eq_some, under_iff_nextLayer hlev hlayer, hlength]
      constructor
      · rintro ⟨tier, htier | ⟨rfl, rfl⟩, ht⟩
        · obtain ⟨hunder, hk⟩ := (hmem k t).mp ⟨tier, htier, ht⟩
          exact ⟨Or.inr hunder, hk⟩
        · exact ⟨Or.inl ht, hlayer t ht⟩
      · rintro ⟨ht | hunder, hk⟩
        · exact ⟨layer, Or.inr ⟨hlev.level_unique hk (hlayer t ht), rfl⟩, ht⟩
        · obtain ⟨tier, htier, ht⟩ := (hmem k t).mpr ⟨hunder, hk⟩
          exact ⟨tier, Or.inl htier, ht⟩

end Layers

/-! ## Survivors of a layer -/

/-- What a layer keeps apart: a filter for each survivor, with its child set as a sorted list, and
no list twice. -/
structure LayerState.Distinct (st : LayerState) : Prop where
  filters : st.filters = st.result.map fun w => (w.childIDs, w.id)
  nodup : (st.filters.map (·.1)).Nodup
  sorted : ∀ f ∈ st.filters, f.1.Pairwise (· < ·)

theorem Kept.pairwise_signature (kept : Kept) (v : VTree) :
    (kept.signature v).Pairwise (· < ·) := by
  have hle : (kept.signature v).Pairwise (· ≤ ·) := List.pairwise_insertionSort _ _
  have hne : (kept.signature v).Nodup :=
    (List.perm_insertionSort _ _).nodup_iff.mpr (List.nodup_dedup _)
  exact hle.imp₂ (fun _ _ => lt_of_le_of_ne) hne

/-- A kept vertex has its signature as the IDs of its children. -/
theorem Kept.childIDs_merged (kept : Kept) (v : VTree) :
    (kept.merged v).childIDs = kept.signature v := by
  rw [Kept.merged, MVertex.childIDs, List.map_map]
  exact List.map_id _

theorem LayerState.Distinct.mergeVertex {st : LayerState} (h : st.Distinct) (v : VTree) :
    (mergeVertex st v).Distinct := by
  rw [Topology.mergeVertex]
  cases hfind : st.filters.find? fun f => f.1 = st.kept.signature v with
  | some f => exact ⟨h.filters, h.nodup, h.sorted⟩
  | none =>
    refine ⟨?_, ?_, ?_⟩
    · have hmerged := st.kept.childIDs_merged v
      rw [Kept.merged] at hmerged
      simp only [List.map_append, List.map_cons, List.map_nil, hmerged, MVertex.id_node, h.filters]
    · -- No filter has this signature yet.
      rw [List.map_append, List.nodup_append]
      refine ⟨h.nodup, List.nodup_singleton _, ?_⟩
      rintro _ hx _ hy rfl
      obtain ⟨f, hf, heq⟩ := List.mem_map.mp hx
      have hne := List.find?_eq_none.mp hfind f hf
      exact hne (by simpa using heq.trans (List.mem_singleton.mp hy))
    · rw [List.forall_mem_append]
      exact ⟨h.sorted, by simpa using st.kept.pairwise_signature v⟩

/-- The kept vertices of a layer have different signatures. -/
theorem mergeLayer_distinct (kept : Kept) (layer : List VTree) : (mergeLayer kept layer).Distinct :=
  List.foldlRecOn layer mergeVertex (motive := LayerState.Distinct) ⟨rfl, List.nodup_nil,
    by simp⟩ fun _ h v _ => h.mergeVertex v

/-- **Survivors have different child sets.** -/
theorem pairwise_mergeLayer (kept : Kept) (layer : List VTree) :
    (mergeLayer kept layer).result.Pairwise MVertex.ChildrenDiffer := by
  have h := mergeLayer_distinct kept layer
  have hsorted : ∀ w ∈ (mergeLayer kept layer).result, w.childIDs.Pairwise (· < ·) := by
    intro w hw
    exact h.sorted (w.childIDs,
      w.id) (by rw [h.filters]; exact List.mem_map_of_mem (f := fun w => (w.childIDs, w.id)) hw)
  have hne : (mergeLayer kept layer).result.Pairwise fun w w' => w.childIDs ≠ w'.childIDs := by
    have hnodup := h.nodup
    rw [h.filters, List.map_map] at hnodup
    exact List.pairwise_map.mp hnodup
  refine hne.imp_of_mem fun {w w'} hw hw' hlist hset => hlist ?_
  have hw := hsorted w hw
  have hw' := hsorted w' hw'
  have hperm := (List.perm_ext_iff_of_nodup (hw.imp fun h => h.ne) (hw'.imp fun h => h.ne)).mpr hset
  exact hperm.eq_of_pairwise (fun _ _ _ _ h h' => absurd h (not_lt_of_gt h')) hw hw'

/-- Nothing stands for a vertex that is not in the layer but what stood for it. -/
theorem ref_mergeLayer (kept : Kept) {layer : List VTree} {id : String}
    (hid : id ∉ layer.map (·.id)) : (mergeLayer kept layer).kept.ref id = kept.ref id := by
  refine List.foldlRecOn layer mergeVertex (motive := fun st : LayerState => st.kept.ref id =
    kept.ref id) rfl fun st h v hv => ?_
  have hne : id ≠ v.id := fun heq => hid (heq ▸ List.mem_map_of_mem hv)
  rw [mergeVertex]
  cases st.filters.find? fun f => f.1 = st.kept.signature v with
  | some f => exact (ref_insert _ _ _ _).trans ((if_neg hne).trans h)
  | none => exact h

/-! ## The quotient -/

/-- **The survivors of a tier.** `rep` sends each vertex to the one survivor that represents it:
with the representatives of its children as children, and with its leaves. A survivor is a vertex of
the tier under its own name and ID, and represents itself. -/
structure TierQuotient (rep : String → String) (tier : List VTree) (merged : List MVertex) :
    Prop where
  own : ∀ w ∈ merged, ∃ v ∈ tier, w.id = v.id ∧ w.name = v.name ∧ rep v.id = v.id
  represented : ∀ v ∈ tier, ∃! w, w ∈ merged ∧ w.id = rep v.id
  children : ∀ v ∈ tier, ∀ w ∈ merged, w.id = rep v.id → ∀ id, id ∈ w.childIDs ↔
    ∃ e ∈ v.vertices, rep e.1 = id
  leaves : ∀ v ∈ tier, ∀ w ∈ merged, w.id = rep v.id → ∀ n, w.HasLeaf n ↔ v.HasLeaf n
  noNil : ∀ w ∈ merged, w.NoNil

/-- **The merged tiers**, all of them. -/
structure Merger.IsQuotient (m : Merger) : Prop where
  length : m.merge.2.length = m.tiers.length
  tier : ∀ {k : Nat} {tier merged}, m.tiers[k]? = some tier → m.merge.2[k]? = some merged →
    TierQuotient m.merge.1.ref tier merged
  apart : ∀ {k : Nat} {merged}, m.merge.2[k + 1]? = some merged →
    merged.Pairwise MVertex.ChildrenDiffer

theorem TierQuotient.congr {rep rep' : String → String} {tier : List VTree} {merged : List MVertex}
    (h : TierQuotient rep tier merged) (hid : ∀ v ∈ tier, rep' v.id = rep v.id)
    (hchild : ∀ v ∈ tier, ∀ e ∈ v.vertices, rep' e.1 = rep e.1) :
    TierQuotient rep' tier merged where
  own w hw := by
    obtain ⟨v, hv, hwid, hname, hrep⟩ := h.own w hw
    exact ⟨v, hv, hwid, hname, by rw [hid v hv, hrep]⟩
  represented v hv := by
    rw [hid v hv]
    exact h.represented v hv
  children v hv w hw heq id := by
    rw [h.children v hv w hw (by rw [heq, hid v hv])]
    exact exists_congr fun e => and_congr_right fun he => by rw [hchild v hv e he]
  leaves v hv w hw heq := h.leaves v hv w hw (by rw [heq, hid v hv])
  noNil := h.noNil

section Quotient

variable {lev : Nat → String → Option VTree} {i : Nat} {layer : List VTree} {kept : Kept}

/-- The lowest tier stays as it is. -/
theorem tierQuotient_leaves (hlev : Leveled lev) (hlayer : OnLevel lev 0 layer)
    (hnodup : (layer.map (·.id)).Nodup) :
    TierQuotient (fun id => id) layer (layer.map .ofVTree) := by
  have hleaf : ∀ v ∈ layer, v = .node v.name v.id [] := by
    intro v hv
    have hnil := hlev.leaf (hlayer v hv)
    obtain ⟨name, id, vertices⟩ := v
    obtain rfl : vertices = [] := hnil
    rfl
  have hmade : ∀ v ∈ layer, MVertex.ofVTree v = .node v.name v.id [] := by
    intro v hv
    rw [hleaf v hv]
    rfl
  have hunique : ∀ v ∈ layer, ∀ w ∈ layer.map MVertex.ofVTree, w.id = v.id →
      w = MVertex.ofVTree v := by
    intro v hv w hw heq
    obtain ⟨u, hu, rfl⟩ := List.mem_map.mp hw
    rw [hmade u hu] at heq
    rw [List.inj_on_of_nodup_map hnodup hu hv heq]
  refine ⟨fun w hw => ?_, fun v hv => ?_, fun v hv w hw heq id => ?_, fun v hv w hw heq n => ?_,
    fun w hw => ?_⟩
  · obtain ⟨v, hv, rfl⟩ := List.mem_map.mp hw
    refine ⟨v, hv, ?_, ?_, rfl⟩ <;> rw [hmade v hv] <;> rfl
  · exact ⟨.ofVTree v, ⟨List.mem_map_of_mem hv, by rw [hmade v hv]; rfl⟩,
      fun w hw => hunique v hv w hw.1 hw.2⟩
  · rw [hunique v hv w hw heq, hmade v hv, hlev.leaf (hlayer v hv)]
    simp [MVertex.childIDs]
  · rw [hunique v hv w hw heq]
    exact hasLeaf_ofVTree (hlev.leaf (hlayer v hv)) n
  · obtain ⟨v, hv, rfl⟩ := List.mem_map.mp hw
    rw [hmade v hv]
    exact .node (by simp)

/-- **One tier** above a tier whose vertices are represented by nothing nil. -/
theorem tierQuotient_of_reps (hlev : LayeredGraph lev) (h : Reps lev i (nextLayer layer) kept)
    (hlayer : OnLevel lev (i + 1) layer) (hnodup : (layer.map (·.id)).Nodup)
    (hlink : ∀ v ∈ nextLayer layer, ∃ w, kept.nodes.lookup (kept.ref v.id) = some w ∧ w.NoNil) :
    TierQuotient (mergeLayer kept layer).kept.ref layer (mergeLayer kept layer).result := by
  have hchild : ∀ v ∈ layer, ∀ e ∈ v.vertices, e.2 ∈ nextLayer layer :=
    fun v hv e he => hlayer.mem_nextLayer hlev.toLeveled (hlev.fresh i) hv he
  have hin := h.layerInput_nextLayer hlev.toLeveled (hlev.fresh i) hlayer hnodup
  have hinv := hin.mergeLayer
  have hids := (mergeLayer_ids kept layer).nodup hnodup
  -- The survivor that represents a vertex, with what is known of it.
  have hstands := fun v hv => h.exists_stands hlev.toLeveled hlayer hchild hin (v := v) hv
  have hrepresents : ∀ v ∈ layer, ∀ w ∈ (mergeLayer kept layer).result,
      w.id = (mergeLayer kept layer).kept.ref v.id →
      w.childIDs = kept.signature v ∧ ∀ n, w.HasLeaf n ↔ v.HasLeaf n := by
    intro v hv w hw heq
    obtain ⟨u, -, href, hsig, -, hres, hleaf⟩ := hstands v hv
    obtain rfl := List.inj_on_of_nodup_map hids hw hres (heq.trans href)
    exact ⟨(kept.childIDs_merged u).trans hsig, hleaf⟩
  refine ⟨fun w hw => ?_, fun v hv => ?_, fun v hv w hw heq id => ?_, fun v hv w hw heq =>
    (hrepresents v hv w hw heq).2,
    fun w hw => ?_⟩
  · have hfilter : (w.childIDs, w.id) ∈ (mergeLayer kept layer).filters := by
      rw [(mergeLayer_distinct kept layer).filters]
      exact List.mem_map_of_mem (f := fun w => (w.childIDs, w.id)) hw
    obtain ⟨u, hu, heq, href, -, hres⟩ := hinv.filter _ hfilter
    obtain rfl := List.inj_on_of_nodup_map hids hw hres (Prod.mk.inj heq).2
    exact ⟨u, hu, rfl, rfl, href⟩
  · obtain ⟨u, -, href, -, -, hres, -⟩ := hstands v hv
    exact ⟨_, ⟨hres, href.symm⟩, fun w hw => List.inj_on_of_nodup_map hids hw.1 hres
      (hw.2.trans href)⟩
  · rw [(hrepresents v hv w hw heq).1, mem_signature]
    refine exists_congr fun e => and_congr_right fun he => ?_
    rw [hinv.ref e.1 (hin.child v hv e he)]
  · obtain ⟨v, hv, rfl⟩ := hinv.result w hw
    refine .node fun e he => ?_
    obtain ⟨x, hx, rfl⟩ := List.mem_map.mp he
    obtain ⟨e', he', rfl⟩ := mem_signature.mp hx
    obtain ⟨w, hw, hnil⟩ := hlink e'.2 (hchild v hv e' he')
    rw [hlev.id (hlev.child (hlayer v hv) he')] at hw
    rw [hw]
    exact hnil

/-- **All tiers**, by induction on the walk: a merged tier does not change what represents the tiers
below it. -/
theorem Tiers.isQuotient (hlev : LayeredGraph lev) {tiers : List (List VTree)}
    (htiers : Tiers layer tiers) (hlayer : OnLevel lev i layer)
    (hnodup : (layer.map (·.id)).Nodup) :
    Merger.IsQuotient { tiers := tiers, nodes := leafNodes (tiers.headD []) } ∧
      ∀ v ∈ layer, ∃ w, (Merger.merge
        { tiers := tiers, nodes := leafNodes (tiers.headD []) }).1.nodes.lookup
        ((Merger.merge { tiers := tiers, nodes := leafNodes (tiers.headD []) }).1.ref v.id) =
        some w ∧ w.NoNil := by
  induction htiers generalizing i with
  | @leaf layer hleaf =>
    obtain ⟨v₀, hv₀, hnil⟩ := hleaf
    obtain ⟨-, rfl⟩ := (hlayer.level_cases hlev.toLeveled hv₀).resolve_right fun h => h.1 hnil
    have hquotient := tierQuotient_leaves hlev.toLeveled hlayer hnodup
    refine ⟨⟨rfl, ?_, ?_⟩, fun v hv => ?_⟩
    · intro k tier merged htier hmerged
      obtain ⟨rfl, rfl⟩ : k = 0 ∧ layer = tier := by simpa [List.getElem?_singleton] using htier
      obtain rfl : layer.map MVertex.ofVTree = merged := Option.some.inj hmerged
      exact hquotient
    · intro k merged hmerged
      exact absurd hmerged (by simp [Merger.merge])
    · exact ⟨_, lookup_leafNodes hlev.toLeveled hlayer hv,
        hquotient.noNil _ (List.mem_map_of_mem hv)⟩
  | @step layer tiers hsw hnext ih =>
    obtain ⟨v₀, hv₀⟩ := List.exists_mem_of_ne_nil _ (Tiers.step hsw hnext).layer_ne_nil
    obtain ⟨-, j, rfl⟩ :=
      (hlayer.level_cases hlev.toLeveled hv₀).resolve_left fun h => hsw v₀ hv₀ h.1
    have hlow := hlayer.nextLayer hlev.toLeveled
    have hlownodup := hlayer.nodup_nextLayer hlev.toLeveled
    obtain ⟨hlength, -, hmem⟩ := hnext.mem_iff hlev hlow hlownodup
    obtain ⟨hreps, -⟩ := hnext.reps_merge hlev.toLeveled (hlev.fresh 0) hlow hlownodup
    obtain ⟨hquotient, hlink⟩ := ih hlow hlownodup
    -- The tiers below are a quotient by induction; what is left is the top tier.
    have htop := tierQuotient_of_reps hlev hreps hlayer hnodup hlink
    have hlengths := hquotient.length
    rw [headD_append hnext.ne_nil]
    generalize leafNodes (tiers.headD []) = nodes at *
    have hmerge := merge_append hnext.ne_nil layer nodes
    refine ⟨⟨?_, ?_, ?_⟩, fun v hv => ?_⟩
    · rw [hmerge, mergeTier, List.length_append, List.length_append, hlengths]
      rfl
    · intro k tier merged htier hmerged
      rw [hmerge] at hmerged ⊢
      rcases getElem?_concat_eq_some.mp hmerged with hmerged | ⟨rfl, rfl⟩
      · rcases getElem?_concat_eq_some.mp htier with htier | ⟨rfl, rfl⟩
        · have hk : k < j + 1 := hlength ▸ (List.getElem?_eq_some_iff.mp htier).1
          have hlevel : ∀ v ∈ tier, lev k v.id = some v :=
            fun v hv => ((hmem k v).mp ⟨tier, htier, hv⟩).2
          -- Merging the top tier gives no new references to IDs of lower levels.
          refine (hquotient.tier htier hmerged).congr (fun v hv => ?_) fun v hv e he => ?_
          · exact ref_mergeLayer _ (hlev.notMem_layer hlayer (hlevel v hv) hk.ne)
          · cases k with
            | zero => exact absurd he (by rw [hlev.leaf (hlevel v hv)]; exact List.not_mem_nil)
            | succ k =>
              exact ref_mergeLayer _
                (hlev.notMem_layer hlayer (hlev.child (hlevel v hv) he) (by omega))
        · exact absurd hmerged (by rw [List.getElem?_eq_none hlengths.le]; simp)
      · rw [hlengths, List.getElem?_concat_length] at htier
        obtain rfl := Option.some.inj htier
        exact htop
    · intro k merged hmerged
      rw [hmerge] at hmerged
      rcases getElem?_concat_eq_some.mp hmerged with hmerged | ⟨-, rfl⟩
      · exact hquotient.apart hmerged
      · exact pairwise_mergeLayer _ _
    · rw [hmerge]
      have hin := hreps.layerInput_nextLayer hlev.toLeveled (hlev.fresh j) hlayer hnodup
      obtain ⟨u, -, href, -, hnode, hres, -⟩ := hreps.exists_stands hlev.toLeveled hlayer
        (fun v hv e he => hlayer.mem_nextLayer hlev.toLeveled (hlev.fresh j) hv he) hin hv
      exact ⟨_, by rw [mergeTier, href, hnode], htop.noNil _ hres⟩

end Quotient

/-! ## The order of the input -/

/-- The same vertex with its children, and what is below them, listed in another order. -/
inductive VTree.Reordered : VTree → VTree → Prop
  | node {name id : String} {vertices children vertices' : List (String × VTree)}
      (hkeys : vertices.map (·.1) = children.map (·.1))
      (hsub : List.Forall₂ (fun e e' => Reordered e.2 e'.2) vertices children)
      (hperm : children.Perm vertices') :
      Reordered (.node name id vertices) (.node name id vertices')

section Reordered

variable {v v' : VTree}

section

variable (h : v.Reordered v')

include h

theorem VTree.Reordered.name_eq : v'.name = v.name := by
  cases h
  rfl

theorem VTree.Reordered.id_eq : v'.id = v.id := by
  cases h
  rfl

theorem VTree.Reordered.keys_perm : (v.vertices.map (·.1)).Perm (v'.vertices.map (·.1)) := by
  cases h with
  | node hkeys _ hperm =>
    rw [VTree.vertices_node, VTree.vertices_node, hkeys]
    exact hperm.map _

/-- A child of the one under its key is a child of the other. -/
theorem VTree.Reordered.exists_child {e' : String × VTree} (he' : e' ∈ v'.vertices) :
    ∃ e ∈ v.vertices, e.1 = e'.1 ∧ e.2.Reordered e'.2 := by
  cases h with
  | @node _ _ vertices children _ hkeys hsub hperm =>
    obtain ⟨i, hi, rfl⟩ := List.getElem_of_mem (hperm.mem_iff.mpr he')
    have hi' : i < vertices.length := hsub.length_eq ▸ hi
    refine ⟨vertices[i], List.getElem_mem hi', ?_, hsub.get hi' hi⟩
    have hget := congrArg (fun keys => keys[i]?) hkeys
    simp only [List.getElem?_map, List.getElem?_eq_getElem hi, List.getElem?_eq_getElem hi',
      Option.map_some] at hget
    exact Option.some.inj hget

theorem VTree.Reordered.vertices_eq_nil : v'.vertices = [] ↔ v.vertices = [] := by
  have hlength := h.keys_perm.length_eq
  rw [List.length_map, List.length_map] at hlength
  rw [← List.length_eq_zero_iff, ← List.length_eq_zero_iff, hlength]

end

end Reordered

section Order

variable {lev : Nat → String → Option VTree} {i : Nat} {layer layer' : List VTree}

/-- Sorting undoes a reordering. -/
theorem VTree.Reordered.sortedChildren {v v' : VTree} (h : v.Reordered v') (hlev : Leveled lev)
    (hv : lev (i + 1) v.id = some v) :
    List.Forall₂ (fun e e' => e.1 = e'.1 ∧ e.2.Reordered e'.2) (sortedChildren v)
      (Topology.sortedChildren v') := by
  refine KeySort.forall₂_insertionSort h.keys_perm fun e he e' he' heq => ⟨heq, ?_⟩
  obtain ⟨u, hu, hkey, hsub⟩ := h.exists_child he'
  -- The level has one vertex under the key.
  have hlook := hlev.child hv he
  rw [heq, ← hkey, hlev.child hv hu] at hlook
  rwa [← Option.some.inj hlook]

theorem forall₂_unvisited {vertices vertices' : List (String × VTree)} {visited : List String}
    (h : List.Forall₂ (fun e e' => e.1 = e'.1 ∧ e.2.Reordered e'.2) vertices vertices') :
    List.Forall₂ VTree.Reordered (unvisited visited vertices) (unvisited visited vertices') := by
  induction h generalizing visited with
  | nil => exact .nil
  | @cons e e' _ _ he _ ih =>
    rw [unvisited, unvisited, ← he.1]
    split_ifs
    · exact ih
    · exact .cons he.2 ih

theorem map_id_of_reordered (h : List.Forall₂ VTree.Reordered layer layer') :
    layer'.map (·.id) = layer.map (·.id) := by
  induction h with
  | nil => rfl
  | cons hv _ ih => rw [List.map_cons, List.map_cons, hv.id_eq, ih]

/-- Reordered layers have reordered layers below. -/
theorem forall₂_nextLayer (hlev : Leveled lev) (hlayer : OnLevel lev (i + 1) layer)
    (h : List.Forall₂ VTree.Reordered layer layer') :
    List.Forall₂ VTree.Reordered (nextLayer layer) (nextLayer layer') := by
  rw [nextLayer, nextLayer, map_id_of_reordered h]
  refine forall₂_unvisited ?_
  induction h with
  | nil => exact .nil
  | @cons v _ _ _ hv _ ih =>
    rw [List.flatMap_cons, List.flatMap_cons]
    exact List.rel_append (hv.sortedChildren hlev (hlayer v List.mem_cons_self)) (ih fun u hu =>
      hlayer u (List.mem_cons_of_mem v hu))

theorem exists_childless_iff (h : List.Forall₂ VTree.Reordered layer layer') :
    (∃ v ∈ layer', v.vertices.isEmpty) ↔ ∃ v ∈ layer, v.vertices.isEmpty := by
  induction h with
  | nil => rfl
  | cons hv _ ih =>
    simp only [List.exists_mem_cons_iff, List.isEmpty_iff, hv.vertices_eq_nil] at ih ⊢
    rw [ih]

/-- The walks of two orders meet the same vertices in the same order. -/
theorem exists_traverse_reordered (hlev : Leveled lev) (hlayer : OnLevel lev i layer)
    (h : List.Forall₂ VTree.Reordered layer layer') {fuel : Nat} {tiers : List (List VTree)}
    (htiers : traverse fuel layer = some tiers) :
    ∃ tiers', traverse fuel layer' = some tiers' ∧
    List.Forall₂ (List.Forall₂ VTree.Reordered) tiers tiers' := by
  induction fuel generalizing i layer layer' tiers with
  | zero => exact absurd htiers (by simp [traverse])
  | succ fuel ih =>
    rw [traverse] at htiers ⊢
    simp only [exists_childless_iff h]
    split_ifs at htiers ⊢ with hleaf
    · obtain rfl := Option.some.inj htiers
      exact ⟨_, rfl, .cons h .nil⟩
    · obtain ⟨lower, hlower, rfl⟩ := Option.map_eq_some_iff.mp htiers
      have hswitch : ∃ j, OnLevel lev (j + 1) layer := by
        cases i with
        | zero => exact ⟨0, fun v hv => absurd ⟨v, hv, by rw [hlev.leaf (hlayer v hv)]; rfl⟩ hleaf⟩
        | succ j => exact ⟨j, hlayer⟩
      obtain ⟨j, hlayer⟩ := hswitch
      obtain ⟨lower', hlower', hsub⟩ :=
        ih (hlayer.nextLayer hlev) (forall₂_nextLayer hlev hlayer h) hlower
      exact ⟨lower' ++ [layer'], by rw [hlower']; rfl, List.rel_append hsub (.cons h .nil)⟩

theorem signature_reordered (kept : Kept) {v v' : VTree} (h : v.Reordered v') :
    kept.signature v' = kept.signature v := by
  have hmem : ∀ x, x ∈ kept.signature v' ↔ x ∈ kept.signature v := by
    intro x
    have hkeys : ∀ u : VTree, x ∈ kept.signature u ↔
        ∃ key ∈ u.vertices.map (·.1), kept.ref key = x := by
      intro u
      simp [mem_signature]
    rw [hkeys, hkeys]
    exact exists_congr fun key => and_congr_left fun _ => h.keys_perm.mem_iff.symm
  have hsorted := kept.pairwise_signature v
  have hsorted' := kept.pairwise_signature v'
  have hperm := (List.perm_ext_iff_of_nodup (hsorted'.imp fun h => h.ne) (hsorted.imp fun h =>
    h.ne)).mpr hmem
  exact hperm.eq_of_pairwise (fun _ _ _ _ h h' => absurd h (not_lt_of_gt h')) hsorted' hsorted

/-- Merging a layer does not depend on the order of children. -/
theorem mergeLayer_reordered (kept : Kept) (h : List.Forall₂ VTree.Reordered layer layer') :
    mergeLayer kept layer' = mergeLayer kept layer := by
  have hrun : ∀ st : LayerState, layer'.foldl mergeVertex st = layer.foldl mergeVertex st := by
    induction h with
    | nil => exact fun _ => rfl
    | @cons v v' _ _ hv _ ih =>
      intro st
      have hvertex : mergeVertex st v' = mergeVertex st v := by
        rw [mergeVertex, mergeVertex, signature_reordered st.kept hv, hv.id_eq, hv.name_eq]
      rw [List.foldl_cons, List.foldl_cons, hvertex, ih]
  exact hrun _

/-- A tier without children has no other order. -/
theorem eq_of_reordered_leaves (hleaf : ∀ v ∈ layer, v.vertices = [])
    (h : List.Forall₂ VTree.Reordered layer layer') : layer' = layer := by
  induction h with
  | nil => rfl
  | @cons v v' _ _ hv _ ih =>
    obtain ⟨hnil, hleaf⟩ := List.forall_mem_cons.mp hleaf
    rw [ih hleaf]
    have hnil' := hv.vertices_eq_nil.mpr hnil
    have hname := hv.name_eq
    have hid := hv.id_eq
    obtain ⟨name, id, vertices⟩ := v
    obtain ⟨name', id', vertices'⟩ := v'
    obtain rfl : vertices = [] := hnil
    obtain rfl : vertices' = [] := hnil'
    obtain rfl : name' = name := hname
    obtain rfl : id' = id := hid
    rfl

/-- **Merging sees no order.** -/
theorem merge_reordered {tiers tiers' : List (List VTree)}
    (hleaf : ∀ v ∈ tiers.headD [], v.vertices = [])
    (h : List.Forall₂ (List.Forall₂ VTree.Reordered) tiers tiers') :
    Merger.merge { tiers := tiers', nodes := leafNodes (tiers'.headD []) } =
      Merger.merge { tiers := tiers, nodes := leafNodes (tiers.headD []) } := by
  cases h with
  | nil => rfl
  | @cons bottom bottom' upper upper' hbottom hupper =>
    obtain rfl : bottom' = bottom := eq_of_reordered_leaves hleaf hbottom
    have hrun : ∀ st, upper'.foldl mergeTier st = upper.foldl mergeTier st := by
      clear hleaf
      induction hupper with
      | nil => exact fun _ => rfl
      | cons hlayer _ ih =>
        intro st
        rw [List.foldl_cons, List.foldl_cons, ih, mergeTier, mergeTier,
          mergeLayer_reordered st.1 hlayer]
    exact hrun _

/-- The same top vertices in another order, each with its children in another order. -/
def ReorderedTop (top top' : List VTree) : Prop :=
  ∃ mid, List.Forall₂ VTree.Reordered top mid ∧ mid.Perm top'

theorem forall₂_sorted {top top' : List VTree} (h : ReorderedTop top top')
    (hnodup : (top.map (·.id)).Nodup) :
    List.Forall₂ VTree.Reordered (top.insertionSort fun a b => a.id ≤ b.id)
      (top'.insertionSort fun a b => a.id ≤ b.id) := by
  obtain ⟨mid, hsub, hperm⟩ := h
  refine KeySort.forall₂_insertionSort ?_ fun v hv v' hv' heq => ?_
  · rw [← map_id_of_reordered hsub]
    exact hperm.map _
  · obtain ⟨k, hk, rfl⟩ := List.getElem_of_mem (hperm.mem_iff.mpr hv')
    have hk' : k < top.length := hsub.length_eq ▸ hk
    have hsame : top[k].Reordered mid[k] := hsub.get hk' hk
    rwa [List.inj_on_of_nodup_map hnodup hv (List.getElem_mem hk') (heq.trans hsame.id_eq)]

end Order

/-! ## Main results -/

/-- **The merger computes a quotient that keeps the leaves.** On a layered graph the tiers are the
levels of the forest under the top vertices, and `Merge` leaves one survivor for each class of
vertices that have the same representatives as children: nothing nil, child sets apart in every tier
above the lowest, each vertex represented by exactly one survivor, which has its leaves and its own
ID. Other orders of the top vertices and of the children give the same result. -/
theorem merge_isQuotient {lev : Nat → String → Option VTree} (hlev : LayeredGraph lev) {i : Nat}
    {top : List VTree} (htop : OnLevel lev i top) (hnodup : (top.map (·.id)).Nodup) :
    ∃ fuel m, newMerger fuel top = some m ∧ m.IsQuotient ∧
    (∀ tier ∈ m.tiers, (tier.map (·.id)).Nodup) ∧
      (∀ k t, (∃ tier, m.tiers[k]? = some tier ∧ t ∈ tier) ↔ Under top t ∧ lev k t.id = some t) ∧
      ∀ top', ReorderedTop top top' → ∃ m', newMerger fuel top' = some m' ∧ m'.merge = m.merge := by
  by_cases hnil : top = []
  · subst hnil
    refine ⟨0, { tiers := [], nodes := ∅ }, rfl, ⟨rfl, by simp, by simp [Merger.merge]⟩,
      by simp, by simp [Under], fun top' h => ?_⟩
    obtain ⟨mid, hsub, hperm⟩ := h
    cases hsub
    rw [← hperm.nil_eq]
    exact ⟨_, rfl, rfl⟩
  · have hperm := List.perm_insertionSort (fun a b : VTree => a.id ≤ b.id) top
    have hsorted : OnLevel lev i (top.insertionSort fun a b => a.id ≤ b.id) :=
      fun v hv => htop v (hperm.mem_iff.mp hv)
    have hsortedNodup := (hperm.map VTree.id).nodup_iff.mpr hnodup
    obtain ⟨tiers, htiers⟩ := hsorted.exists_tiers hlev.toLeveled (hlev.fresh 0) fun h =>
      hnil (by rw [h] at hperm; exact hperm.symm.eq_nil)
    obtain ⟨fuel, hfuel⟩ := htiers.exists_traverse
    obtain ⟨-, hnodups, hmem⟩ := htiers.mem_iff hlev hsorted hsortedNodup
    refine ⟨fuel, _, by
      rw [newMerger, if_neg hnil, hfuel]; rfl, (htiers.isQuotient hlev hsorted hsortedNodup).1,
      hnodups,
      fun k t => ?_, fun top' h => ?_⟩
    · rw [hmem, Under, Under]
      simp only [hperm.mem_iff]
    · obtain ⟨tiers', hfuel', hsub⟩ :=
        exists_traverse_reordered hlev.toLeveled hsorted (forall₂_sorted h hnodup) hfuel
      have hnil' : top' ≠ [] := by
        rintro rfl
        obtain ⟨mid, hsub, hperm⟩ := h
        obtain rfl := hperm.eq_nil
        cases hsub
        exact hnil rfl
      refine ⟨_, by rw [newMerger, if_neg hnil', hfuel']; rfl,
        merge_reordered (fun v hv => ?_) hsub⟩
      obtain ⟨bottom, upper, rfl⟩ := List.exists_cons_of_ne_nil htiers.ne_nil
      exact hlev.leaf ((hmem 0 v).mp ⟨bottom, rfl, hv⟩).2

/-- Two switches above the same two leaves. -/
def twinSwitch (id : String) : VTree :=
  .node id id [("a", .node "a" "a" []), ("b", .node "b" "b" [])]

/-- Two switches with the same two leaves. -/
def twinLevels : Nat → String → Option VTree
  | 0, s => if s = "a" ∨ s = "b" then some (.node s s []) else none
  | 1, s => if s = "s" ∨ s = "t" then some (twinSwitch s) else none
  | _, _ => none

theorem twinLevels_layered : LayeredGraph twinLevels where
  id {i s t} h := by
    match i with
    | 0 | 1 =>
      rw [twinLevels] at h
      split_ifs at h
      obtain rfl := Option.some.inj h
      rfl
    | i + 2 => exact absurd h (by simp [twinLevels])
  leaf {s t} h := by
    rw [twinLevels] at h
    split_ifs at h
    obtain rfl := Option.some.inj h
    rfl
  switch {i s t} h := by
    match i with
    | 0 =>
      rw [twinLevels] at h
      split_ifs at h
      obtain rfl := Option.some.inj h
      exact List.cons_ne_nil _ _
    | i + 1 => exact absurd h (by simp [twinLevels])
  child {i s t key u} h hchild := by
    match i with
    | 0 =>
      rw [twinLevels] at h
      split_ifs at h
      obtain rfl := Option.some.inj h
      simp only [twinSwitch, VTree.vertices_node, List.mem_cons, Prod.mk.injEq, List.not_mem_nil,
        or_false] at hchild
      rcases hchild with ⟨rfl, rfl⟩ | ⟨rfl, rfl⟩ <;> simp [twinLevels]
    | i + 1 => exact absurd h (by simp [twinLevels])
  apart {i j s} hi hij h := by
    match i, j with
    | 1, j + 2 => rfl
    | i + 2, _ => exact absurd h (by simp [twinLevels])
  unique {i j s} hij h := by
    match i, j with
    | 0, 1 =>
      simp only [twinLevels] at h ⊢
      split_ifs at h with hs
      · rcases hs with rfl | rfl <;> simp
      · exact absurd h (by simp)
    | 0, j + 2 | 1, j + 2 => rfl
    | i + 2, _ => exact absurd h (by simp [twinLevels])

/-- One of the twins survives. -/
theorem twins_isQuotient :
    LayeredGraph twinLevels ∧ ∃ fuel m, newMerger fuel [twinSwitch "t", twinSwitch "s"] = some m ∧
    m.IsQuotient :=
  ⟨twinLevels_layered, by
    have htop : OnLevel twinLevels 1 [twinSwitch "t", twinSwitch "s"] := by
      simp [OnLevel, twinLevels, twinSwitch]
    obtain ⟨fuel, m, hm, hquotient, -⟩ :=
      merge_isQuotient twinLevels_layered htop (by simp [twinSwitch])
    exact ⟨fuel, m, hm, hquotient⟩⟩

/-- The survivors of the lowest tier all have the empty child set. -/
theorem twins_leaves_same_children :
    LayeredGraph twinLevels ∧ OnLevel twinLevels 1 [twinSwitch "t", twinSwitch "s"] ∧
      ∃ m, newMerger 2 [twinSwitch "t", twinSwitch "s"] = some m ∧
        ¬ ∀ merged ∈ m.merge.2, merged.Pairwise MVertex.ChildrenDiffer := by
  refine ⟨twinLevels_layered, by simp [OnLevel, twinLevels, twinSwitch], _, rfl, fun h => ?_⟩
  have hbottom := h [.node "a" "a" [], .node "b" "b" []] (List.mem_of_getElem? (i := 0) rfl)
  exact (List.pairwise_cons.mp hbottom).1 _ List.mem_cons_self fun _ => Iff.rfl

end Topograph.Topology
