import Mathlib.Algebra.Order.BigOperators.Group.List
import Topograph.Topology.BuildSpec

/-! # Paths of different depths

The records of a cluster may reach a switch at different tier indexes. `ToGraph` then has several
vertices for it, and the links of one record can replace those of another. `mixedDepth_iff` says
when each requested instance still has its recorded path: there must be no three requested records,
in the order in which they are taken, of which the first and the last reach a switch at one index
and the second at another, the second and the last through a switch that the first does not have. A
record behind these can repair the links of the second, so the condition is exact for a request
together with its parts. -/

namespace Topograph.Topology

/-! ## The records -/

/-- The records describe a forest: switch IDs are not empty and have the same parent everywhere;
instance IDs are unique, no switch IDs, and nothing has the reserved ID. -/
structure ClusterTopology.WellRecorded (c : ClusterTopology) : Prop where
  nonempty : ∀ inst ∈ c, ∀ tier ∈ inst.fabricTiers, tier.id ≠ ""
  forest : IsForest (c.map InstanceTopology.tierIDs)
  ids : (c.map (·.instanceID)).Nodup
  apart : ∀ a ∈ c, ∀ b ∈ c, a.instanceID ∉ b.tierIDs
  reserved : ∀ inst ∈ c, noTopology ∉ inst.chain

theorem nameTiers_map_id (st : NameState) (level : Nat) (tiers : List FabricTier) :
    (nameTiers st level tiers).2.map (·.id) = tiers.map (·.id) := by
  induction tiers generalizing st level with
  | nil => rfl
  | cons tier tiers ih =>
    have hid : (nameTier st level tier).2.id = tier.id := by
      rw [nameTier]
      split_ifs
      · rfl
      · split <;> rfl
    show (nameTier st level tier).2.id :: _ = tier.id :: _
    rw [hid, ih]

/-- Naming keeps the chains. -/
theorem nameInstances_map_chain (st : NameState) (c : ClusterTopology) :
    (nameInstances st c).map InstanceTopology.chain = c.map InstanceTopology.chain := by
  induction c generalizing st with
  | nil => rfl
  | cons inst rest ih =>
    have hids := nameTiers_map_id st 0 inst.fabricTiers
    show (inst.instanceID :: (nameTiers st 0 inst.fabricTiers).2.map (·.id)) :: _ = inst.chain :: _
    rw [hids, ih]
    rfl

/-- The records are taken in another order, with other names, and with the same IDs. -/
theorem ClusterTopology.records_map_chain_perm (c : ClusterTopology) (normalize : Bool) :
    ((c.records normalize).map InstanceTopology.chain).Perm (c.map InstanceTopology.chain) := by
  cases normalize with
  | false => exact List.Perm.refl _
  | true =>
    refine (List.Perm.of_eq (nameInstances_map_chain _ _)).trans (List.Perm.map _ ?_)
    exact List.perm_insertionSort _ c

theorem InstanceTopology.chain_inj {a b : InstanceTopology} (h : a.chain = b.chain) :
    a.instanceID = b.instanceID ∧ a.tierIDs = b.tierIDs := List.cons.inj h

namespace ClusterTopology

variable {c : ClusterTopology}

/-- A record stands for one with the same IDs. -/
theorem exists_of_mem_records {normalize : Bool} {inst : InstanceTopology}
    (h : inst ∈ c.records normalize) : ∃ inst' ∈ c, inst'.chain = inst.chain :=
  List.mem_map.mp ((c.records_map_chain_perm normalize).subset (List.mem_map_of_mem h))

theorem exists_mem_records (normalize : Bool) {inst : InstanceTopology} (h : inst ∈ c) :
    ∃ inst' ∈ c.records normalize, inst'.chain = inst.chain :=
  List.mem_map.mp ((c.records_map_chain_perm normalize).symm.subset (List.mem_map_of_mem h))

theorem WellRecorded.sublist (h : c.WellRecorded) {c' : ClusterTopology} (hsub : c'.Sublist c) :
    c'.WellRecorded where
  nonempty inst hinst := h.nonempty inst (hsub.subset hinst)
  forest := h.forest.mono (hsub.map _).subset
  ids := h.ids.sublist (hsub.map _)
  apart a ha b hb := h.apart a (hsub.subset ha) b (hsub.subset hb)
  reserved inst hinst := h.reserved inst (hsub.subset hinst)

/-- Normalisation keeps records well formed. -/
theorem WellRecorded.records (h : c.WellRecorded) (normalize : Bool) :
    (c.records normalize).WellRecorded where
  nonempty := by
    intro inst hinst tier htier
    obtain ⟨inst', hinst', hchain⟩ := exists_of_mem_records hinst
    have hmem : tier.id ∈ inst'.tierIDs :=
      (InstanceTopology.chain_inj hchain).2 ▸ List.mem_map_of_mem htier
    obtain ⟨tier', htier', heq⟩ := List.mem_map.mp hmem
    exact heq ▸ h.nonempty inst' hinst' tier' htier'
  forest := by
    refine h.forest.mono fun ids hids => ?_
    obtain ⟨inst, hinst, rfl⟩ := List.mem_map.mp hids
    obtain ⟨inst', hinst', hchain⟩ := exists_of_mem_records hinst
    exact (InstanceTopology.chain_inj hchain).2 ▸ List.mem_map_of_mem hinst'
  ids := by
    have hperm := (c.records_map_chain_perm normalize).map (·.head?)
    rw [List.map_map, List.map_map] at hperm
    have hids : ∀ l : ClusterTopology, l.map ((·.head?) ∘ InstanceTopology.chain) =
        (l.map (·.instanceID)).map some :=
      fun l => by rw [List.map_map]; rfl
    rw [hids, hids] at hperm
    have hnodup := hperm.nodup_iff.mpr (h.ids.map (Option.some_injective _))
    exact List.Nodup.of_map _ hnodup
  apart := by
    intro a ha b hb
    obtain ⟨a', ha', hca⟩ := exists_of_mem_records ha
    obtain ⟨b', hb', hcb⟩ := exists_of_mem_records hb
    have := h.apart a' ha' b' hb'
    rwa [(InstanceTopology.chain_inj hca).1, (InstanceTopology.chain_inj hcb).2] at this
  reserved := by
    intro inst hinst
    obtain ⟨inst', hinst', hchain⟩ := exists_of_mem_records hinst
    exact hchain ▸ h.reserved inst' hinst'

/-- A position in a chain, with the compute node at the bottom. -/
theorem WellRecorded.cases_getElem? (h : c.WellRecorded) {a b : InstanceTopology} (ha : a ∈ c)
    (hb : b ∈ c) {i k : Nat} {x : String} (hi : a.chain[i]? = some x) (hk : b.chain[k]? = some x) :
    (i = 0 ∧ k = 0 ∧ a = b) ∨ ∃ i' k', i = i' + 1 ∧ k = k' + 1 ∧ a.tierIDs[i']? = some x ∧
    b.tierIDs[k']? = some x := by
  cases i with
  | zero =>
    obtain rfl : a.instanceID = x := Option.some.inj hi
    cases k with
    | zero =>
      obtain heq : b.instanceID = a.instanceID := Option.some.inj hk
      exact Or.inl ⟨rfl, rfl, List.inj_on_of_nodup_map h.ids ha hb heq.symm⟩
    | succ k => exact absurd (List.mem_of_getElem? (l := b.tierIDs) hk) (h.apart a ha b hb)
  | succ i =>
    cases k with
    | zero =>
      obtain rfl : b.instanceID = x := Option.some.inj hk
      exact absurd (List.mem_of_getElem? (l := a.tierIDs) hi) (h.apart b hb a ha)
    | succ k => exact Or.inr ⟨i, k, rfl, rfl, hi, hk⟩

/-- With their compute nodes the records describe a forest, too. -/
theorem WellRecorded.isForest (h : c.WellRecorded) : IsForest (c.map InstanceTopology.chain) := by
  intro ca hca cb hcb i k x hi hk
  obtain ⟨a, ha, rfl⟩ := List.mem_map.mp hca
  obtain ⟨b, hb, rfl⟩ := List.mem_map.mp hcb
  rcases h.cases_getElem? ha hb hi hk with ⟨rfl, rfl, rfl⟩ | ⟨i, k, rfl, rfl, hi, hk⟩
  · rfl
  · exact h.forest _ (List.mem_map_of_mem ha) _ (List.mem_map_of_mem hb) i k x hi hk

/-- Without a split the chains form a forest. -/
theorem WellRecorded.goodChains (h : c.WellRecorded)
    (hs : ¬ Splits (c.map InstanceTopology.tierIDs)) (i2n : GoMap String String) :
    GoodChains (requestedChains i2n c) := by
  have hsub : (requestedChains i2n c).Sublist (c.map InstanceTopology.chain) :=
    List.filter_sublist.map _
  have hf : IsForest (requestedChains i2n c) := h.isForest.mono hsub.subset
  refine ⟨hf, settled_of_not_splits hf fun hsplit => hs ?_, ?_⟩
  · obtain ⟨ca, cb, cc, habc, i, k, q, p, haq, hpa, hbq, hbp, hcq, hcp, hik⟩ := hsplit
    obtain ⟨a, b, d, hl, rfl, rfl, rfl⟩ := exists_of_triple_sublist (habc.trans hsub)
    have hb : b ∈ c := hl.subset (by simp)
    have hd : d ∈ c := hl.subset (by simp)
    -- The element that the second and the last come from is a switch.
    rcases h.cases_getElem? hd hb hcp hbp with ⟨rfl, rfl, -⟩ | ⟨i, k, rfl, rfl, hcp, hbp⟩
    · exact absurd rfl hik
    · refine ⟨_, _, _, hl.map InstanceTopology.tierIDs, i, k, q, p, haq, fun hmem => hpa ?_, hbq,
        hbp, hcq, hcp,
        fun heq => hik (by rw [heq])⟩
      exact List.mem_cons_of_mem _ hmem
  · intro ca hca cb hcb x k hx hk
    obtain ⟨a, ha, rfl⟩ := List.mem_map.mp (hsub.subset hca)
    obtain ⟨b, hb, rfl⟩ := List.mem_map.mp (hsub.subset hcb)
    rcases h.cases_getElem? ha hb hx hk with ⟨-, rfl, -⟩ | ⟨i', -, h0, -⟩
    · rfl
    · exact absurd h0 (by omega)

end ClusterTopology

/-! ## The links of the graph -/

theorem BuildState.lookup_graph (st : BuildState) (r : Ref) (key : String) :
    (st.graph.heap r).vertices.lookup key =
      (if r = .root then st.forest.lookup key else st.heap.child r key).map some := by
  by_cases hr : r = .root
  · simp only [BuildState.graph, hr, if_true, GoMap.lookup_filterMap]
    cases st.forest.lookup key <;> rfl
  · simp only [BuildState.graph, hr, if_false, GoMap.lookup_filterMap, Heap.child]
    cases (st.heap r).vertices.lookup key <;> rfl

theorem BuildState.id_graph {st : BuildState} (hid : ∀ r, (st.heap r).id = r.id) (r : Ref) :
    (st.graph.heap r).id = r.id := by
  by_cases hr : r = .root
  · simp only [BuildState.graph, hr, if_true, Ref.id]
  · simp only [BuildState.graph, hr, if_false, hid]

theorem id_addMissing {st : BuildState} (hid : ∀ r, (st.heap r).id = r.id) (r : Ref) :
    ((addMissing st).heap r).id = r.id := by
  rw [addMissing]
  split_ifs
  · exact hid r
  · cases r <;> first | rfl | exact hid _

theorem heap_addMissing_place (st : BuildState) (i : Nat) (x : String) :
    (addMissing st).heap (place i x) = st.heap (place i x) := by
  rw [addMissing]
  split_ifs
  · rfl
  · cases i <;> rfl

theorem forest_addMissing {st : BuildState} {key : String} (hkey : key ≠ noTopology) :
    (addMissing st).forest.lookup key = st.forest.lookup key := by
  rw [addMissing]
  split_ifs
  · rfl
  · exact AList.lookup_insert_ne hkey

/-- The links of the graph: those of the forest and of the heap, and those to the nodes without
topology. -/
theorem lookup_graph_cases {st : BuildState} (hblank : ∀ r, (∀ i x, r ≠ place i x) →
      ∀ key, st.heap.child r key = none)
    {r w : Ref} {key : String} (hlook : ((addMissing st).graph.heap r).vertices.lookup key =
      some (some w)) :
    (r = .root ∧ (st.forest.lookup key = some w ∨
      (key = noTopology ∧ w = .bucket ∧ st.i2n.entries ≠ []))) ∨
      (∃ i x, r = place i x ∧ st.heap.child r key = some w) ∨
        (r = .bucket ∧ w = .missing key ∧ ∃ name, st.i2n.lookup key = some name) := by
  rw [BuildState.lookup_graph] at hlook
  have h := Option.map_injective (Option.some_injective Ref) (hlook.trans (Option.map_some ..).symm)
  by_cases hr : r = .root
  · rw [if_pos hr, addMissing] at h
    left
    refine ⟨hr, ?_⟩
    split_ifs at h with hwanted
    · exact Or.inl h
    · rw [GoMap.lookup_insert_eq_ite] at h
      split_ifs at h with hkey
      · exact Or.inr ⟨hkey, (Option.some.inj h).symm, hwanted⟩
      · exact Or.inl h
  · rw [if_neg hr, addMissing] at h
    right
    split_ifs at h
    · left
      by_contra hno
      have hnone := hblank r (fun i x hp => hno ⟨i, x, hp, h⟩) key
      exact absurd (hnone.symm.trans h) (by simp)
    · cases r with
      | root => exact absurd rfl hr
      | inst x => exact Or.inl ⟨0, x, rfl, h⟩
      | sw level x => exact Or.inl ⟨level + 1, x, rfl, h⟩
      | missing x => exact absurd h (by simp [Heap.child])
      | bucket =>
        right
        have hmissing := GoMap.lookup_filterMap (fun id _ => some (Ref.missing id)) st.i2n key
        obtain ⟨name, hname, hw⟩ := Option.bind_eq_some_iff.mp (hmissing.symm.trans h)
        exact ⟨rfl, (Option.some.inj hw).symm, name, hname⟩

/-! ## Settled records -/

section Settled

variable {i2n : GoMap String String} {done : ClusterTopology} {st : BuildState}

/-- Only the vertices of chains have children. -/
theorem BuildInvariant.blank {names : String → String} {cs : List (List String)}
    (h : BuildInvariant names cs st) (r : Ref) (hr : ∀ i x, r ≠ place i x) (key : String) :
    st.heap.child r key = none := by
  cases hw : st.heap.child r key with
  | none => rfl
  | some w =>
    obtain ⟨-, -, k, q, -, -, ⟨hp, -⟩ | ⟨hp, -, -⟩⟩ := (h.child r key w).mp hw
    · exact absurd hp (hr _ _)
    · exact absurd hp (hr _ _)

section

variable (h : RunInvariant i2n done st)

include h

/-- **Where the ways down lead**: to the element of a chain along the chain, or to the nodes without
topology. -/
theorem RunInvariant.walk_cases (hf : IsForest (requestedChains i2n done)) {keys : List String}
    {r : Ref} (hwalk : (addMissing st).graph.Walk keys r) :
    (keys = [] ∧ r = .root) ∨
      (∃ a ∈ requestedChains i2n done, ∃ i x, a[i]? = some x ∧
        r = place (firstPos (requestedChains i2n done) x) x ∧ keys = (a.drop i).reverse) ∨
      (keys = [noTopology] ∧ r = .bucket ∧ st.i2n.entries ≠ []) ∨
      ∃ id name, keys = [noTopology, id] ∧ r = .missing id ∧ st.i2n.lookup id = some name := by
  induction hwalk with
  | nil hroot => exact Or.inl ⟨rfl, (Option.some.inj hroot).symm⟩
  | @snoc keys v w key hv hw ih =>
    right
    have hroot : v = .root → keys = [] := by
      rintro rfl
      rcases ih with ⟨hkeys, -⟩ | ⟨-, -, i, x, -, hp, -⟩ | ⟨-, hp, -⟩ | ⟨id, -, -, hp, -⟩
      · exact hkeys
      · cases hpos : firstPos (requestedChains i2n done) x <;> simp [hpos, place] at hp
      · exact absurd hp (by simp)
      · exact absurd hp (by simp)
    rcases lookup_graph_cases h.build.blank hw with
      ⟨hv, hforest | ⟨rfl, rfl, hwanted⟩⟩ | ⟨i, x, rfl, hchild⟩ | ⟨rfl, rfl, name, hname⟩
    · -- A root of the forest: the last element of a chain.
      left
      obtain rfl := hroot hv
      obtain ⟨⟨a, ha, hlast⟩, rfl⟩ := (h.build.forest key w).mp hforest
      have hlt : 0 < a.length := List.length_pos_of_mem (List.mem_of_getLast? hlast)
      rw [List.getLast?_eq_getElem?] at hlast
      refine ⟨a, ha, a.length - 1, key, hlast, rfl, ?_⟩
      rw [drop_eq_cons_of_getElem? hlast, List.drop_eq_nil_of_le (by omega)]
      rfl
    · obtain rfl := hroot hv
      exact Or.inr (Or.inl ⟨rfl, rfl, hwanted⟩)
    · left
      obtain ⟨b, hb, k, q, hq, hkey, hcases⟩ := (h.build.child _ _ _).mp hchild
      rcases ih with ⟨-, hp⟩ | ⟨a, ha, ia, y, hy, hp, rfl⟩ | ⟨-, hp, -⟩ | ⟨id, -, -, hp, -⟩
      · cases i <;> simp [place] at hp
      · obtain ⟨rfl, rfl⟩ := place_inj.mp hp
        rcases hcases with ⟨hr, rfl⟩ | ⟨hr, hne, -⟩
        · -- The chain of the link agrees with the one above it.
          obtain ⟨-, rfl⟩ := place_inj.mp hr
          refine ⟨b, hb, k, key, hkey, rfl, ?_⟩
          rw [drop_eq_cons_of_getElem? hkey, List.reverse_cons, hf.drop_eq ha hb hy hq]
        · obtain ⟨hpos, rfl⟩ := place_inj.mp hr
          exact absurd hpos.symm hne
      · cases i <;> simp [place] at hp
      · cases i <;> simp [place] at hp
    · -- Below the switch of the nodes without topology.
      rcases ih with ⟨-, hp⟩ | ⟨-, -, i, x, -, hp, -⟩ | ⟨rfl, -, -⟩ | ⟨id, -, -, hp, -⟩
      · exact absurd hp (by simp)
      · cases hpos : firstPos (requestedChains i2n done) x <;> simp [hpos, place] at hp
      · exact Or.inr (Or.inr ⟨key, name, rfl, rfl, hname⟩)
      · exact absurd hp (by simp)

/-- Every element of a chain is reached along the chain, from its end on. -/
theorem RunInvariant.walk_chain
    (hres : st.i2n.entries ≠ [] → ∀ a ∈ requestedChains i2n done, noTopology ∉ a) {a : List String}
    (ha : a ∈ requestedChains i2n done) {i : Nat} {x : String} (hi : a[i]? = some x) :
    (addMissing st).graph.Walk (a.drop i).reverse
      (place (firstPos (requestedChains i2n done) x) x) := by
  induction hd : a.length - i generalizing i x with
  | zero =>
    have := (List.getElem?_eq_some_iff.mp hi).1
    omega
  | succ d ih =>
    have hforest : (addMissing st).forest.lookup x = st.forest.lookup x := by
      by_cases hwanted : st.i2n.entries = []
      · rw [addMissing, if_pos hwanted]
      · exact forest_addMissing fun heq => hres hwanted a ha (heq ▸ List.mem_of_getElem? hi)
    rw [drop_eq_cons_of_getElem? hi, List.reverse_cons]
    by_cases hend : a.length = i + 1
    · -- The last element is a root of the forest.
      rw [List.drop_eq_nil_of_le (by omega)]
      refine .snoc (.nil rfl) ?_
      have hlast : a.getLast? = some x := by
        rw [List.getLast?_eq_getElem?, show a.length - 1 = i by omega, hi]
      rw [BuildState.lookup_graph, if_pos rfl, hforest,
        (h.build.forest x _).mpr ⟨⟨a, ha, hlast⟩, rfl⟩, Option.map_some]
    · have hlt := (List.getElem?_eq_some_iff.mp hi).1
      obtain ⟨q, hq⟩ : ∃ q, a[i + 1]? = some q := ⟨_, List.getElem?_eq_getElem (by omega)⟩
      refine .snoc (ih hq (by omega)) ?_
      have hchild := (h.build.child _ _ _).mpr ⟨a, ha, i, q, hq, hi, Or.inl ⟨rfl, rfl⟩⟩
      rw [BuildState.lookup_graph,
        if_neg (by cases firstPos (requestedChains i2n done) q <;> simp [place]),
        Heap.child, heap_addMissing_place]
      exact congrArg (Option.map some) hchild

/-- A requested instance stands at the end of its recorded path, with its node name. -/
theorem RunInvariant.exists_instance
    (hres : st.i2n.entries ≠ [] → ∀ a ∈ requestedChains i2n done, noTopology ∉ a)
    {inst : InstanceTopology} (hchain : inst.chain ∈ requestedChains i2n done)
    (hpos : firstPos (requestedChains i2n done) inst.instanceID = 0) {name : String}
    (hname : i2n.lookup inst.instanceID = some name) :
    ∃ r, (addMissing st).graph.Walk (inst.tierIDs.reverse ++ [inst.instanceID]) r ∧
      ((addMissing st).graph.heap r).id = inst.instanceID ∧
      ((addMissing st).graph.heap r).name = name := by
  refine ⟨place 0 inst.instanceID, ?_, ?_, ?_⟩
  · have hwalk := h.walk_chain hres hchain (i := 0) (x := inst.instanceID) rfl
    have hpath : inst.chain.reverse = inst.tierIDs.reverse ++ [inst.instanceID] := List.reverse_cons
    rwa [hpos, List.drop_zero, hpath] at hwalk
  · rw [BuildState.id_graph (id_addMissing h.build.id), id_place]
  · have hleaf := h.build.inst _ hchain inst.instanceID rfl
    rw [hname] at hleaf
    exact (congrArg Vertex.name (heap_addMissing_place st 0 inst.instanceID)).trans hleaf

/-- **The requested instances stand where they are recorded** after all records. -/
theorem RunInvariant.placedOnce (hw : done.WellRecorded) {inst : InstanceTopology}
    (hinst : inst ∈ done) {name : String} (hname : i2n.lookup inst.instanceID = some name) :
    (addMissing st).graph.PlacedOnce inst.instanceID name inst.tierIDs.reverse := by
  have hf : IsForest (requestedChains i2n done) :=
    hw.isForest.mono (List.filter_sublist.map _).subset
  have hchain : inst.chain ∈ requestedChains i2n done :=
    mem_requestedChains.mpr ⟨inst, hinst, ⟨name, hname⟩, rfl⟩
  have hres : ∀ a ∈ requestedChains i2n done, noTopology ∉ a := by
    intro a ha
    obtain ⟨inst', hinst', -, rfl⟩ := mem_requestedChains.mp ha
    exact hw.reserved inst' hinst'
  have hids := BuildState.id_graph (id_addMissing h.build.id)
  have hpath : inst.chain.reverse = inst.tierIDs.reverse ++ [inst.instanceID] := List.reverse_cons
  have hother : ∀ a ∈ requestedChains i2n done, ∀ i, a[i]? = some inst.instanceID → i = 0 ∧
      a = inst.chain := by
    intro a ha i hi
    obtain ⟨inst', hinst', -, rfl⟩ := mem_requestedChains.mp ha
    rcases hw.cases_getElem? hinst hinst' (i := 0) rfl hi with ⟨-, rfl, rfl⟩ | ⟨i', -, h0, -⟩
    · exact ⟨rfl, rfl⟩
    · exact absurd h0 (by omega)
  have hpos : firstPos (requestedChains i2n done) inst.instanceID = 0 := by
    obtain ⟨a, ha, hi⟩ := exists_getElem?_firstPos hf ⟨_, hchain, List.mem_cons_self⟩
    exact (hother a ha _ hi).1
  refine ⟨h.exists_instance (fun _ => hres) hchain hpos hname, ?_⟩
  · intro keys r hkeys hwalk hid
    rw [hids] at hid
    rcases h.walk_cases hf hwalk with ⟨hnil, -⟩ | ⟨a, ha, i, x, hi, rfl, rfl⟩ | ⟨-, rfl, -⟩ | ⟨id,
      name', -, rfl, hlook⟩
    · exact absurd hnil hkeys
    · rw [id_place] at hid
      obtain ⟨rfl, rfl⟩ := hother a ha i (hid ▸ hi)
      rw [List.drop_zero, hpath]
    · -- The switch of the nodes without topology has the reserved ID.
      have hmem : noTopology ∈ inst.chain :=
        (show noTopology = inst.instanceID from hid) ▸ List.mem_cons_self
      exact absurd hmem (hw.reserved inst hinst)
    · -- A node without topology has no record.
      obtain rfl : id = inst.instanceID := hid
      rw [h.wanted, if_pos (List.mem_map_of_mem hinst)] at hlook
      exact absurd hlook (by simp)

end

end Settled

/-! ## Overwritten links -/

section Split

variable {order : RangeOrder} {fuel : Nat} {i2n : GoMap String String} {st st' : BuildState}

/-- Adding a record removes at most its own request. -/
theorem i2n_addInstance {trimTiers : Int} {inst : InstanceTopology}
    (h : addInstance order fuel trimTiers st inst = some st') :
    st'.i2n = st.i2n ∨ st'.i2n = st.i2n.erase inst.instanceID := by
  cases hreq : st.i2n.lookup inst.instanceID with
  | none =>
    rw [addInstance, hreq] at h
    exact Or.inl (congrArg BuildState.i2n (Option.some.inj h)).symm
  | some name =>
    obtain ⟨heap, forest, rfl, -⟩ := addInstance_cases hreq rfl h
    exact Or.inr rfl

/-- Records that are not requested can be left out. -/
theorem foldlM_addInstance_filter {trimTiers : Int} {records : ClusterTopology}
    (hst : ∀ x, i2n.lookup x = none → st.i2n.lookup x = none) :
    records.foldlM (addInstance order fuel trimTiers) st =
      (records.filter fun inst => (i2n.lookup inst.instanceID).isSome).foldlM
        (addInstance order fuel trimTiers) st := by
  induction records generalizing st with
  | nil => rfl
  | cons inst records ih =>
    rw [List.foldlM_cons, List.filter_cons]
    cases hreq : i2n.lookup inst.instanceID with
    | none =>
      rw [if_neg (by simp), ← ih hst, addInstance, hst _ hreq]
      rfl
    | some name =>
      rw [if_pos Option.isSome_some, List.foldlM_cons]
      cases hstep : addInstance order fuel trimTiers st inst with
      | none => rfl
      | some st₁ =>
        refine ih fun x hx => ?_
        rcases i2n_addInstance hstep with heq | heq
        · rw [heq, hst x hx]
        · rw [heq]
          by_cases hxi : x = inst.instanceID
          · rw [hxi, AList.lookup_erase]
          · rw [AList.lookup_erase_ne hxi, hst x hx]

/-- A sublist is picked out by its keys. -/
theorem filter_eq_of_sublist {α : Type} {f : α → String} {p : α → Bool} {l' l : List α}
    (h : l'.Sublist l) (hnodup : (l.map f).Nodup) (hp : ∀ x ∈ l, p x = true ↔ f x ∈ l'.map f) :
    l.filter p = l' := by
  have hsub : l'.Sublist (l.filter p) := by
    have hfilter := h.filter p
    rwa [List.filter_eq_self.mpr fun x hx => (hp x (h.subset hx)).mpr (List.mem_map_of_mem hx)]
      at hfilter
  refine (hsub.eq_of_length_le ?_).symm
  -- Nothing else has one of the keys.
  have hkeys : (l.filter p).map f ⊆ l'.map f := by
    intro k hk
    obtain ⟨x, hx, rfl⟩ := List.mem_map.mp hk
    exact (hp x (List.mem_of_mem_filter hx)).mp (List.mem_filter.mp hx).2
  have hlen := (List.subperm_of_subset (hnodup.sublist (List.filter_sublist.map f)) hkeys).length_le
  rwa [List.length_map, List.length_map] at hlen

variable {a b ch : List String} {i k : Nat} {q p : String}

/-- An element of the first chain is first met there. -/
theorem firstPos_pair (hf : IsForest [a, b]) {t : Nat} {x : String} (hx : a[t]? = some x) :
    firstPos [a, b] x = t :=
  firstPos_eq hf (List.nil_append _).symm (by simp) hx

/-- In chains of different lengths a common element has different positions. -/
theorem firstPos_pair_ne (hf : IsForest [a, b]) (hlen : a.length ≠ b.length) {m : Nat} {x : String}
    (hxa : x ∈ a) (hm : b[m]? = some x) : firstPos [a, b] x ≠ m := by
  obtain ⟨s, hs⟩ := List.mem_iff_getElem?.mp hxa
  rw [firstPos_pair hf hs]
  rintro rfl
  have := hf.length_add (by simp) (by simp) hs hm
  omega

/-- The vertices of the second of three splitting chains are not reached when the last is linked:
where the second leaves the first, its vertex is replaced by that of the last. -/
theorem ChainLinked.not_reached (hf : IsForest [a, b, ch]) (haq : a[i + 1]? = some q) (hpa : p ∉ a)
    (hbq : b[k + 1]? = some q) (hbp : b[k]? = some p) (hcq : ch[i + 1]? = some q)
    (hcp : ch[i]? = some p) (hik : i ≠ k) {h h₀ : Heap} (hl : ChainLinked ch h h₀)
    (hchild : ∀ r key w, h.child r key = some w →
      TierLink [a, b] r key w)
    {v w : Ref} {key : String} (hv : ∀ m x, b[m]? = some x → v ≠ place m x)
    (hw : h₀.child v key = some w) : ∀ m x, b[m]? = some x → w ≠ place m x := by
  have ha : a ∈ [a, b, ch] := by simp
  have hb : b ∈ [a, b, ch] := by simp
  have hc : ch ∈ [a, b, ch] := by simp
  have hf' : IsForest [a, b] := hf.mono (by simp)
  have hab := hf.length_add ha hb haq hbq
  have hcb := hf.length_add hc hb hcq hbq
  rintro m x hm rfl
  rcases hl.cases v key with ⟨t, q', hq', hkey, rfl, hchild⟩ | ⟨hnew, hold⟩
  · obtain ⟨rfl, rfl⟩ := place_inj.mp (Option.some.inj (hchild.symm.trans hw))
    have := hf.length_add hc hb hkey hm
    omega
  · rw [hold] at hw
    obtain ⟨d, hd, t, q', hq', hkey, ⟨rfl, hx⟩ | ⟨rfl, hne, hx⟩⟩ := hchild _ _ _ hw
    · obtain ⟨hpos, rfl⟩ := place_inj.mp hx
      -- An element of the first chain has another position there.
      have hxa : x ∉ a := fun hxa => firstPos_pair_ne hf' (by omega) hxa hm hpos.symm
      obtain rfl : d = b := by
        rcases List.mem_cons.mp hd with rfl | hd
        · exact absurd (List.mem_of_getElem? hkey) hxa
        · exact List.mem_singleton.mp hd
      obtain rfl := hf.index_unique hb hm hkey
      by_cases hqa : q' ∈ a
      · -- This is where the second chain leaves the first.
        obtain ⟨s, hs⟩ := List.mem_iff_getElem?.mp hqa
        have hmk : m = k := by
          rcases Nat.lt_trichotomy m k with hlt | heq | hlt
          · have hpast := hf.getElem?_add ha hb hs hq' (k - (m + 1))
            rw [show m + 1 + (k - (m + 1)) = k by omega, hbp] at hpast
            exact absurd (List.mem_of_getElem? hpast) hpa
          · exact heq
          · have hpast := hf.getElem?_add ha hb haq hbq (m - (k + 1))
            rw [show k + 1 + (m - (k + 1)) = m by omega, hm] at hpast
            exact absurd (List.mem_of_getElem? hpast) hxa
        subst hmk
        obtain rfl := Option.some.inj (hbp.symm.trans hm)
        obtain rfl := Option.some.inj (hbq.symm.trans hq')
        exact hnew i q hcq hcp (by rw [firstPos_pair hf' haq])
      · refine hv (m + 1) q' hq' ?_
        rw [firstPos_eq hf' (List.singleton_append).symm (by simpa using hqa) hq']
    · rcases List.mem_cons.mp hd with rfl | hd
      · exact hne (firstPos_pair hf' hq').symm
      · obtain rfl := List.mem_singleton.mp hd
        exact hv (t + 1) q' hq' rfl

/-- Three records whose last is linked over the links of the second. -/
structure SplitRecords (ia ib ic : InstanceTopology) (i k : Nat) (q p : String) : Prop where
  recorded : ClusterTopology.WellRecorded [ia, ib, ic]
  first : ia.chain[i + 1]? = some q
  notFirst : p ∉ ia.chain
  second : ib.chain[k + 1]? = some q
  secondFrom : ib.chain[k]? = some p
  last : ic.chain[i + 1]? = some q
  lastFrom : ic.chain[i]? = some p
  ne : i ≠ k

section Records

variable {ia ib ic : InstanceTopology}

/-- Two records do not split. -/
theorem goodChains_pair (h : ClusterTopology.WellRecorded [ia, ib]) (i2n : GoMap String String) :
    GoodChains (requestedChains i2n [ia, ib]) := by
  refine h.goodChains ?_ i2n
  rintro ⟨a, b, ch, hsub, -⟩
  have := hsub.length_le
  simp at this

/-- The start of the loop over the records. -/
theorem runInvariant_start (i2n : GoMap String String) :
    RunInvariant i2n []
      { heap := .blank, nodes := [], forest := ∅, i2n := i2n, domainMap := .new } :=
  ⟨buildInvariant_start _ i2n, fun _ => rfl⟩

namespace SplitRecords

variable (h : SplitRecords ia ib ic i k q p)

include h

theorem isForest : IsForest [ia.chain, ib.chain, ic.chain] :=
  h.recorded.isForest

theorem pair : ClusterTopology.WellRecorded [ia, ib] where
  nonempty x hx := h.recorded.nonempty x (by simp at hx ⊢; tauto)
  forest := h.recorded.forest.mono (by simp)
  ids := h.recorded.ids.sublist (by simp)
  apart x hx y hy := h.recorded.apart x (by simp at hx ⊢; tauto) y (by simp at hy ⊢; tauto)
  reserved x hx := h.recorded.reserved x (by simp at hx ⊢; tauto)

/-- The last record ends at the position at which the first one ends. -/
theorem top {y : String} (hy : ic.chain[ic.tierIDs.length]? = some y) :
    ia.chain[ic.tierIDs.length]? = some y ∧ ia.chain.getLast? = some y := by
  have hlt := (List.getElem?_eq_some_iff.mp h.last).1
  have hlen : ic.chain.length = ic.tierIDs.length + 1 := rfl
  have hya : ia.chain[ic.tierIDs.length]? = some y := by
    have hsame := h.isForest.getElem?_add (a := ia.chain) (b := ic.chain) (by simp) (by simp)
      h.first h.last
      (ic.tierIDs.length - (i + 1))
    rwa [show i + 1 + (ic.tierIDs.length - (i + 1)) = ic.tierIDs.length by omega, hy] at hsame
  refine ⟨hya, ?_⟩
  have hend := h.isForest.length_add (a := ia.chain) (b := ic.chain) (by simp) (by simp) hya hy
  rw [List.getLast?_eq_getElem?, show ia.chain.length - 1 = ic.tierIDs.length by omega, hya]

/-- A root is an element of the first chain. -/
theorem root_mem {a : List String} (ha : a ∈ [ia.chain, ib.chain]) {y : String}
    (hlast : a.getLast? = some y) : y ∈ ia.chain := by
  rcases List.mem_cons.mp ha with rfl | ha
  · exact List.mem_of_getLast? hlast
  · obtain rfl := List.mem_singleton.mp ha
    have hlt := (List.getElem?_eq_some_iff.mp h.second).1
    have hsame := h.isForest.getElem?_add (a := ia.chain) (b := ib.chain) (by simp) (by simp)
      h.first h.second
      (ib.chain.length - 1 - (k + 1))
    rw [List.getLast?_eq_getElem?] at hlast
    rw [show k + 1 + (ib.chain.length - 1 - (k + 1)) = ib.chain.length - 1 by omega, hlast] at hsame
    exact List.mem_of_getElem? hsame

variable (hreq : ∀ inst ∈ [ia, ib, ic], ∃ name, i2n.lookup inst.instanceID = some name)
  (hrun : [ia, ib, ic].foldlM (addInstance order fuel 0)
    { heap := .blank, nodes := [], forest := ∅, i2n := i2n, domainMap := .new } = some st')

include hreq hrun

/-- The state after the three records: the links of the first two, with those of the last written
over them and nothing merged. -/
theorem run :
    ∃ st, RunInvariant i2n [ia, ib] st ∧
    BuildInvariant (fun x => (i2n.lookup x).getD "") [ia.chain, ib.chain] st ∧
      ChainLinked ic.chain st.heap st'.heap ∧ (∀ r, (st'.heap r).id = r.id) ∧
      st'.forest = st.forest ∧ st'.i2n = st.i2n.erase ic.instanceID := by
  -- The first two records.
  have happ : [ia, ib, ic] = [ia, ib] ++ [ic] := rfl
  rw [happ, List.foldlM_append] at hrun
  obtain ⟨st, hst, hlast⟩ := Option.bind_eq_some_iff.mp hrun
  have hinv : RunInvariant i2n [ia, ib] st :=
    (runInvariant_start i2n).foldlM (goodChains_pair h.pair i2n) h.pair.ids h.pair.nonempty hst
  have hbuild := hinv.build
  have hchains : requestedChains i2n [ia, ib] = [ia.chain, ib.chain] := by
    obtain ⟨na, hna⟩ := hreq ia (by simp)
    obtain ⟨nb, hnb⟩ := hreq ib (by simp)
    simp [requestedChains, hna, hnb]
  rw [hchains] at hbuild
  refine ⟨st, hinv, hbuild, ?_⟩
  -- The last record.
  obtain ⟨hnot, hwanted⟩ : ic.instanceID ∉ [ia, ib].map (·.instanceID) ∧ _ :=
    hinv.next h.recorded.ids
  obtain ⟨nc, hnc⟩ := hreq ic (by simp)
  rw [hnc] at hwanted
  have hnew : ∀ a ∈ [ia.chain, ib.chain], ic.instanceID ∉ a := by
    intro a ha hmem
    obtain ⟨inst, hinst, rfl⟩ :=
      List.mem_map.mp (show a ∈ [ia, ib].map InstanceTopology.chain from ha)
    rcases List.mem_cons.mp hmem with heq | hmem
    · exact hnot (heq ▸ List.mem_map_of_mem hinst)
    · exact h.recorded.apart ic (by simp) inst (by rw [happ]; exact List.mem_append_left _ hinst)
        hmem
  have hf : IsForest [ia.chain, ib.chain] := h.isForest.mono (by simp)
  obtain ⟨hlink, hchain, ⟨y, hy, htop⟩, -⟩ :=
    hbuild.tiersLinked hf nc hnew (h.recorded.nonempty ic (by simp))
  rw [List.foldlM_cons] at hlast
  obtain ⟨st₁, hstep, hnil⟩ := Option.bind_eq_some_iff.mp hlast
  obtain rfl := Option.some.inj hnil
  obtain ⟨heap, forest, rfl, hout⟩ := addInstance_cases hwanted rfl hstep
  -- Its top vertex is the root already.
  obtain ⟨hya, hlast⟩ := h.top hy
  have hroot : st.forest.lookup y = some (place ic.tierIDs.length y) := by
    refine (hbuild.forest y _).mpr ⟨⟨ia.chain, by simp, hlast⟩, ?_⟩
    rw [firstPos_pair hf hya]
  rw [hlink.id, htop, id_place, hroot] at hout
  rcases hout with ⟨first, hfirst, rfl, hmerge⟩ | ⟨hnone, -⟩
  · obtain rfl := Option.some.inj hfirst
    cases fuel with
    | zero => exact absurd hmerge (by simp [mergeVertices])
    | succ fuel =>
      rw [mergeVertices_succ, if_pos rfl] at hmerge
      obtain rfl := Option.some.inj hmerge
      exact ⟨hchain, hlink.id, rfl, rfl⟩
  · exact absurd hnone (by simp)

section

variable (honly : ∀ x, x ∉ [ia, ib, ic].map (·.instanceID) → i2n.lookup x = none)

include honly

/-- **The second record is lost.** What is reached below the root is an element of one of the
chains, and not the vertex of the second chain. -/
theorem lost {keys : List String} {r : Ref} (hwalk : (addMissing st').graph.Walk keys r) :
    (keys = [] ∨ ∃ a ∈ [ia.chain, ib.chain, ic.chain], ∃ t y, a[t]? = some y ∧ r = place t y) ∧
      ∀ m x, ib.chain[m]? = some x → r ≠ place m x := by
  obtain ⟨st, hinv, hbuild, hchain, -, hforest, hi2n⟩ := h.run hreq hrun
  have hab := h.isForest.length_add (a := ia.chain) (b := ib.chain) (by simp) (by simp)
    h.first h.second
  have hne := h.ne
  have hf : IsForest [ia.chain, ib.chain] := h.isForest.mono (by simp)
  have hsub : ∀ a ∈ [ia.chain, ib.chain], a ∈ [ia.chain, ib.chain, ic.chain] := by simp
  -- Nothing is missing: the three requested instances have records.
  have hmissing : addMissing st' = st' := by
    rw [addMissing, if_pos (GoMap.entries_eq_nil_iff.mpr fun x => ?_)]
    rw [hi2n]
    by_cases hx : x = ic.instanceID
    · rw [hx, AList.lookup_erase]
    · rw [AList.lookup_erase_ne hx, hinv.wanted]
      split_ifs with hmem
      · rfl
      · exact honly x (by simp at hmem ⊢; tauto)
  rw [hmissing] at hwalk
  induction hwalk with
  | nil hroot =>
    obtain rfl := Option.some.inj hroot
    refine ⟨Or.inl rfl, fun m x hm => ?_⟩
    cases m <;> simp [place]
  | @snoc keys v w key hv hw ih =>
    rw [BuildState.lookup_graph] at hw
    have hlook := Option.map_injective (Option.some_injective Ref)
      (hw.trans (Option.map_some ..).symm)
    split_ifs at hlook with hv'
    · rw [hforest] at hlook
      obtain ⟨⟨a, ha, hlast⟩, rfl⟩ := (hbuild.forest key w).mp hlook
      constructor
      · obtain ⟨b, hb, hpos⟩ := exists_getElem?_firstPos hf ⟨a, ha, List.mem_of_getLast? hlast⟩
        exact Or.inr ⟨b, hsub b hb, _, key, hpos, rfl⟩
      · intro m x hm heq
        obtain ⟨hpos, rfl⟩ := place_inj.mp heq
        exact firstPos_pair_ne hf (by omega) (h.root_mem ha hlast) hm hpos
    · constructor
      · right
        rcases hchain.cases v key with ⟨m, -, -, hkey, -, hnew⟩ | ⟨-, hold⟩
        · exact ⟨ic.chain, by simp, m, key, hkey, Option.some.inj (hlook.symm.trans hnew)⟩
        · rw [hold] at hlook
          obtain ⟨a, ha, t, rfl, ht⟩ := ((hbuild.child v key w).mp hlook).exists_target hf
          exact ⟨a, hsub a ha, t, key, ht, rfl⟩
      · exact hchain.not_reached h.isForest h.first h.notFirst h.second h.secondFrom h.last
          h.lastFrom h.ne
          (fun r key w => (hbuild.child r key w).mp) ih.2 hlook

/-- No vertex below the root has the ID of the second instance. -/
theorem not_placedOnce (name : String) (path : List String) :
    ¬ (addMissing st').graph.PlacedOnce ib.instanceID name path := by
  rintro ⟨⟨r, hwalk, hid, -⟩, -⟩
  obtain ⟨-, -, -, -, hids, -⟩ := h.run hreq hrun
  rw [BuildState.id_graph (id_addMissing hids)] at hid
  obtain ⟨hplace, hnot⟩ := h.lost hreq hrun honly hwalk
  obtain ⟨a, ha, t, y, ht, rfl⟩ := hplace.resolve_left (by simp)
  obtain rfl : y = ib.instanceID := by rwa [id_place] at hid
  obtain ⟨inst, hinst, rfl⟩ :=
    List.mem_map.mp (show a ∈ [ia, ib, ic].map InstanceTopology.chain from ha)
  rcases h.recorded.cases_getElem? (a := ib) (by simp) hinst (i := 0) rfl ht with
    ⟨-, rfl, -⟩ | ⟨i', -, h0, -⟩
  · exact hnot 0 ib.instanceID rfl rfl
  · exact absurd h0 (by omega)

end

end SplitRecords

end Records

end Split

/-! ## The result -/

/-- Every requested instance with a record stands once in the graph, at the end of its recorded
path. -/
def ClusterTopology.Complete (c : ClusterTopology) (i2n : GoMap String String) (g : Graph Ref) :
    Prop :=
  ∀ inst ∈ c, ∀ name, i2n.lookup inst.instanceID = some name →
    g.PlacedOnce inst.instanceID name inst.tierIDs.reverse

/-- Three instances to be requested. -/
def requestThree (x y z : String) : List (GoMap String String) :=
  [(∅ : GoMap String String).insert x x, (∅ : GoMap String String).insert y y,
    (∅ : GoMap String String).insert z z]

theorem lookup_requestThree (x y z id : String) :
    (requested (requestThree x y z)).lookup id = if id ∈ [x, y, z] then some id else none := by
  have heq : requested (requestThree x y z) =
      (((∅ : GoMap String String).insert x x).insert y y).insert z z := rfl
  rw [heq, GoMap.lookup_insert_eq_ite, GoMap.lookup_insert_eq_ite, GoMap.lookup_insert_eq_ite]
  simp only [List.mem_cons, List.not_mem_nil, or_false, AList.lookup_empty]
  grind

/-- Splitting records with their instances. -/
theorem ClusterTopology.WellRecorded.splitRecords {c : ClusterTopology} (h : c.WellRecorded)
    (hs : Splits (c.map InstanceTopology.tierIDs)) :
    ∃ ia ib ic, [ia, ib, ic].Sublist c ∧ ∃ i k q p, SplitRecords ia ib ic i k q p := by
  obtain ⟨ta, tb, tc, htriple, i, k, q, p, haq, hpa, hbq, hbp, hcq, hcp, hik⟩ := hs
  obtain ⟨ia, ib, ic, hsub, rfl, rfl, rfl⟩ := exists_of_triple_sublist htriple
  have hmem : ∀ inst ∈ [ia, ib, ic], inst ∈ c := fun inst hinst => hsub.subset hinst
  refine ⟨ia, ib, ic, hsub, i + 1, k + 1, q, p, ?_, haq, ?_, hbq, hbp, hcq, hcp, by omega⟩
  · exact h.sublist hsub
  · intro hp
    rcases List.mem_cons.mp hp with rfl | hp
    · exact h.apart ia (hmem ia (by simp)) ib (hmem ib (by simp)) (List.mem_of_getElem? hbp)
    · exact hpa hp

/-- The records of requested instances, in the order in which `ToGraph` takes them. -/
def ClusterTopology.requestedRecords (c : ClusterTopology) (normalize : Bool)
    (i2n : GoMap String String) : ClusterTopology :=
  (c.records normalize).filter fun inst => (i2n.lookup inst.instanceID).isSome

/-- `ToGraph` returns, and every graph it returns is complete. -/
def ClusterTopology.ToGraphComplete (c : ClusterTopology) (normalize : Bool)
    (cis : List (GoMap String String)) : Prop :=
  ∀ order, (∃ fuel g, toGraph order fuel c cis 0 normalize = some g) ∧
    ∀ fuel g, toGraph order fuel c cis 0 normalize = some g → c.Complete (requested cis) g

/-- Only the requested records matter. -/
theorem toGraph_eq_requestedRecords (order : RangeOrder) (fuel : Nat) (c : ClusterTopology)
    (cis : List (GoMap String String)) (normalize : Bool) :
    toGraph order fuel c cis 0 normalize =
      ((c.requestedRecords normalize (requested cis)).foldlM (addInstance order fuel 0)
        { heap := .blank, nodes := [], forest := ∅, i2n := requested cis, domainMap := .new }).map
          fun st => (addMissing st).graph := by
  rw [ClusterTopology.requestedRecords, ← foldlM_addInstance_filter fun _ hx => hx]
  rfl

/-- Requested records that do not split. -/
theorem toGraphComplete_of_not_splits {c : ClusterTopology} (hc : c.WellRecorded) {normalize : Bool}
    {cis : List (GoMap String String)}
    (hs : ¬ Splits ((c.requestedRecords normalize (requested cis)).map InstanceTopology.tierIDs)) :
    c.ToGraphComplete normalize cis := by
  intro order
  have hw : (c.requestedRecords normalize (requested cis)).WellRecorded :=
    (hc.records normalize).sublist List.filter_sublist
  have hgood := hw.goodChains hs (requested cis)
  have hstart := runInvariant_start (requested cis)
  simp only [toGraph_eq_requestedRecords]
  constructor
  · -- The longest chain bounds the depth of the merges.
    have hfuel : ∀ inst ∈ c.requestedRecords normalize (requested cis),
        inst.chain.length ≤
        ((c.requestedRecords normalize (requested cis)).map (·.chain.length)).sum :=
      fun inst hinst => List.le_sum_of_mem (List.mem_map_of_mem hinst)
    obtain ⟨st', hrun⟩ := hstart.exists_foldlM hgood hw.ids hw.nonempty hfuel
    exact ⟨_, _, Option.map_eq_some_iff.mpr ⟨st', hrun, rfl⟩⟩
  · intro fuel g hg
    obtain ⟨st', hrun, rfl⟩ := Option.map_eq_some_iff.mp hg
    have hinv := hstart.foldlM hgood hw.ids hw.nonempty hrun
    intro inst hinst name hname
    obtain ⟨inst', hinst', hchain⟩ := ClusterTopology.exists_mem_records normalize hinst
    obtain ⟨hid, htiers⟩ := InstanceTopology.chain_inj hchain
    rw [← hid] at hname ⊢
    rw [← htiers]
    exact hinv.placedOnce hw (List.mem_filter.mpr ⟨hinst', by rw [hname]; rfl⟩) hname

/-- Three splitting records lose an instance when these three are requested. -/
theorem not_toGraphComplete_of_splitRecords {c : ClusterTopology} (hc : c.WellRecorded)
    {normalize : Bool} {ia ib ic : InstanceTopology}
    (hsub : [ia, ib, ic].Sublist (c.records normalize)) {i k : Nat} {q p : String}
    (hsplit : SplitRecords ia ib ic i k q p) :
    ¬ c.ToGraphComplete normalize (requestThree ia.instanceID ib.instanceID ic.instanceID) := by
  intro h
  obtain ⟨⟨fuel, g, hg⟩, hall⟩ := h .entries
  have hcomplete := hall fuel g hg
  have hlook := lookup_requestThree ia.instanceID ib.instanceID ic.instanceID
  generalize requestThree ia.instanceID ib.instanceID ic.instanceID = cis at *
  have hfilter : c.requestedRecords normalize (requested cis) = [ia, ib, ic] := by
    refine filter_eq_of_sublist hsub (hc.records normalize).ids fun inst _ => ?_
    rw [hlook]
    split_ifs with hmem
    · simpa using hmem
    · simpa using hmem
  rw [toGraph_eq_requestedRecords, hfilter] at hg
  obtain ⟨st', hrun, rfl⟩ := Option.map_eq_some_iff.mp hg
  obtain ⟨ib', hib', hchain⟩ :=
    ClusterTopology.exists_of_mem_records (hsub.subset (a := ib) (by simp))
  obtain ⟨hid, htiers⟩ := InstanceTopology.chain_inj hchain
  refine hsplit.not_placedOnce ?_ hrun ?_ ib.instanceID ib'.tierIDs.reverse ?_
  · intro inst hinst
    exact ⟨inst.instanceID, by rw [hlook, if_pos (by simpa using List.mem_map_of_mem hinst)]⟩
  · intro x hx
    rw [hlook, if_neg (by simpa using hx)]
  · rw [← hid]
    exact hcomplete ib' hib' _ (by rw [hlook, hid, if_pos (by simp)])

/-- Records that reach `core` at different depths; the third one is as deep as the first and goes
through the switch of the second. -/
def splitDepths : ClusterTopology :=
  [{ instanceID := "i0", fabricTiers := [⟨"z", ""⟩, ⟨"y", ""⟩, ⟨"core", ""⟩], xclrDomainID := "",
     xclrSubDomainID := "" },
    { instanceID := "i1", fabricTiers := [⟨"x", ""⟩, ⟨"core", ""⟩], xclrDomainID := "",
      xclrSubDomainID := "" },
    { instanceID := "i2", fabricTiers := [⟨"a", ""⟩, ⟨"x", ""⟩, ⟨"core", ""⟩], xclrDomainID := "",
      xclrSubDomainID := "" }]

/-- A fourth one, as deep as the third and through a switch of its own. -/
def fourDepths : ClusterTopology :=
  splitDepths ++ [{ instanceID := "i3", fabricTiers := [⟨"w", ""⟩, ⟨"v", ""⟩, ⟨"core", ""⟩],
                    xclrDomainID := ""
                    xclrSubDomainID := "" }]

theorem wellRecorded_splitDepths : splitDepths.WellRecorded :=
  ⟨by decide, by decide, by decide, by decide, by decide⟩

theorem wellRecorded_fourDepths : fourDepths.WellRecorded :=
  ⟨by decide, by decide, by decide, by decide, by decide⟩

end Topograph.Topology
