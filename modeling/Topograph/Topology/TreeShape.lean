import Topograph.Topology.MixedDepth

/-! # When `ToGraph` builds a tree

For records whose chains are good, the graph has one way to every ID (`TreeRecords.isTreeOf`): the
instances stand where they are recorded, every leaf is a requested instance, and everything else is
a recorded switch or the switch of the nodes without topology. A second record of an instance is
passed over. Whatever the records are, every vertex stands below its own ID (`keyed_toGraph`). -/

namespace Topograph.Topology

variable {order : RangeOrder} {fuel : Nat}

/-! ## Repeated records -/

/-- The first record of every instance. -/
def firstRecords : ClusterTopology → ClusterTopology
  | [] => []
  | inst :: rest => inst :: (firstRecords rest).filter (·.instanceID ≠ inst.instanceID)

/-- Only records are dropped. -/
theorem firstRecords_sublist (c : ClusterTopology) : (firstRecords c).Sublist c := by
  induction c with
  | nil => exact .slnil
  | cons inst rest ih => exact (List.filter_sublist.trans ih).cons_cons inst

theorem nodup_firstRecords (c : ClusterTopology) : ((firstRecords c).map (·.instanceID)).Nodup := by
  induction c with
  | nil => exact List.nodup_nil
  | cons inst rest ih =>
    rw [firstRecords, List.map_cons, List.nodup_cons]
    refine ⟨fun hmem => ?_, ih.sublist (List.filter_sublist.map _)⟩
    obtain ⟨inst', hinst', heq⟩ := List.mem_map.mp hmem
    exact absurd heq (by simpa using (List.mem_filter.mp hinst').2)

theorem mem_map_firstRecords (c : ClusterTopology) (id : String) :
    id ∈ (firstRecords c).map (·.instanceID) ↔ id ∈ c.map (·.instanceID) := by
  induction c with
  | nil => exact Iff.rfl
  | cons inst rest ih =>
    rw [firstRecords, List.map_cons, List.map_cons, List.mem_cons, List.mem_cons, ← ih]
    constructor
    · rintro (h | h)
      · exact Or.inl h
      · exact Or.inr ((List.filter_sublist.map _).subset h)
    · rintro (h | h)
      · exact Or.inl h
      · by_cases hid : id = inst.instanceID
        · exact Or.inl hid
        · obtain ⟨inst', hinst', rfl⟩ := List.mem_map.mp h
          exact Or.inr (List.mem_map.mpr ⟨inst', List.mem_filter.mpr ⟨hinst', by simpa using hid⟩,
            rfl⟩)

/-- **A later record of an instance is passed over**: the instance is no longer wanted. -/
theorem foldlM_firstRecords (trimTiers : Int) (c : ClusterTopology) (st : BuildState) :
    c.foldlM (addInstance order fuel trimTiers) st = (firstRecords c).foldlM
      (addInstance order fuel trimTiers) st := by
  induction c generalizing st with
  | nil => rfl
  | cons inst rest ih =>
    rw [firstRecords, List.foldlM_cons, List.foldlM_cons]
    cases hstep : addInstance order fuel trimTiers st inst with
    | none => rfl
    | some st₁ =>
      change rest.foldlM _ st₁ = List.foldlM _ st₁ _
      rw [ih st₁]
      have hgone : st₁.i2n.lookup inst.instanceID = none := by
        cases hreq : st.i2n.lookup inst.instanceID with
        | none =>
          rcases i2n_addInstance hstep with heq | heq
          · rw [heq, hreq]
          · rw [heq, AList.lookup_erase]
        | some name =>
          obtain ⟨heap, forest, rfl, -⟩ := addInstance_cases hreq rfl hstep
          exact AList.lookup_erase _ _
      have hfilter : ∀ l : ClusterTopology, l.foldlM (addInstance order fuel trimTiers) st₁ =
          (l.filter fun inst => (st₁.i2n.lookup inst.instanceID).isSome).foldlM
          (addInstance order fuel trimTiers) st₁ :=
        fun l => foldlM_addInstance_filter fun _ hx => hx
      rw [hfilter (firstRecords rest),
        hfilter ((firstRecords rest).filter (·.instanceID ≠ inst.instanceID)),
        List.filter_filter]
      congr 1
      refine List.filter_congr fun inst' _ => ?_
      by_cases hid : inst'.instanceID = inst.instanceID
      · rw [hid, hgone]
        rfl
      · simp [hid]

/-- Later records of an instance do not count. -/
theorem toGraph_firstRecords (c : ClusterTopology) (cis : List (GoMap String String))
    (trimTiers : Int) :
    toGraph order fuel c cis trimTiers false = toGraph order fuel
      (firstRecords c) cis trimTiers false := by
  rw [toGraph, toGraph, ClusterTopology.records, ClusterTopology.records, if_neg (by simp),
    if_neg (by simp),
    foldlM_firstRecords]

variable {inst : InstanceTopology}

theorem mem_firstRecords {c : ClusterTopology} :
    inst ∈ firstRecords c ↔ c.find? (·.instanceID = inst.instanceID) = some inst := by
  induction c with
  | nil => simp [firstRecords]
  | cons inst' rest ih =>
    rw [firstRecords, List.mem_cons, List.mem_filter, ih, List.find?_cons]
    by_cases hid : inst'.instanceID = inst.instanceID
    · simp [hid, eq_comm]
    · have hne : inst ≠ inst' := by
        rintro rfl
        exact hid rfl
      simp [hid, Ne.symm hid, hne]

/-! ## One way to every ID -/

section Ways

variable {i2n : GoMap String String} {done : ClusterTopology} {st : BuildState}

/-- Nodes without topology have IDs of their own. -/
def MissingApart (cs : List (List String)) (i2n : GoMap String String) : Prop :=
  ∀ id ∈ i2n, id ≠ "" ∧ id ≠ noTopology ∧ ∀ a ∈ cs, id ∉ a ∧ noTopology ∉ a

/-- The way to an ID, by what the ID belongs to. -/
inductive WayTo (cs : List (List String)) (i2n : GoMap String String) : List String → String → Prop
  | root {x : String} (hx : x = "") : WayTo cs i2n [] x
  | chain {a : List String} {i : Nat} {x : String} (ha : a ∈ cs) (hi : a[i]? = some x) :
      WayTo cs i2n (a.drop i).reverse x
  | bucket {id x : String} (hid : id ∈ i2n) (hx : x = noTopology) : WayTo cs i2n [noTopology] x
  | missing {id : String} (hid : id ∈ i2n) : WayTo cs i2n [noTopology, id] id

/-- There is one way to each vertex. -/
theorem WayTo.unique {cs : List (List String)} (hf : IsForest cs) (hne : ∀ a ∈ cs, "" ∉ a)
    (hmissing : MissingApart cs i2n) {keys keys' : List String} {x : String}
    (h : WayTo cs i2n keys x) (h' : WayTo cs i2n keys' x) :
    keys = keys' := by
  cases h with
  | root hx =>
    cases h' with
    | root => rfl
    | chain ha hi => exact absurd (hx ▸ List.mem_of_getElem? hi) (hne _ ha)
    | bucket _ hx' => exact absurd (hx.symm.trans hx') (by decide)
    | missing hid => exact absurd hx (hmissing _ hid).1
  | chain ha hi =>
    have hmem := List.mem_of_getElem? hi
    cases h' with
    | root hx => exact absurd (hx ▸ hmem) (hne _ ha)
    | chain hb hk => rw [hf.drop_eq ha hb hi hk]
    | bucket hid hx => exact absurd (hx ▸ hmem) ((hmissing _ hid).2.2 _ ha).2
    | missing hid => exact absurd hmem ((hmissing _ hid).2.2 _ ha).1
  | bucket hid hx =>
    cases h' with
    | root hx' => exact absurd (hx'.symm.trans hx) (by decide)
    | chain ha hi => exact absurd (hx ▸ List.mem_of_getElem? hi) ((hmissing _ hid).2.2 _ ha).2
    | bucket => rfl
    | missing hid' => exact absurd hx (hmissing _ hid').2.1
  | missing hid =>
    cases h' with
    | root hx => exact absurd hx (hmissing _ hid).1
    | chain ha hi => exact absurd (List.mem_of_getElem? hi) ((hmissing _ hid).2.2 _ ha).1
    | bucket _ hx => exact absurd hx (hmissing _ hid).2.1
    | missing => rfl

section

variable (h : RunInvariant i2n done st) (hf : IsForest (requestedChains i2n done))

include h hf

/-- Every walk in the built graph is a way along the chains. -/
theorem RunInvariant.wayTo {keys : List String} {r : Ref}
    (hwalk : (addMissing st).graph.Walk keys r) :
    WayTo (requestedChains i2n done) st.i2n keys r.id := by
  rcases h.walk_cases hf hwalk with ⟨rfl, rfl⟩ | ⟨a, ha, i, x, hi, rfl, rfl⟩ | ⟨rfl, rfl,
    hwanted⟩ | ⟨id, name, rfl, rfl, hlook⟩
  · exact .root rfl
  · rw [id_place]
    exact .chain ha hi
  · obtain ⟨e, he⟩ := List.exists_mem_of_ne_nil _ hwanted
    exact .bucket (GoMap.mem_iff_lookup.mpr ⟨e.2, GoMap.lookup_eq_some_iff.mpr he⟩) rfl
  · exact .missing (GoMap.mem_iff_lookup.mpr ⟨name, hlook⟩)

/-- **The graph is a tree.** -/
theorem RunInvariant.treeShaped
    (hne : ∀ a ∈ requestedChains i2n done, "" ∉ a)
    (hmissing : MissingApart (requestedChains i2n done) st.i2n) :
    (addMissing st).graph.TreeShaped where
  noNil keys v key _ := by
    rw [BuildState.lookup_graph]
    simp
  keyed keys v key w _ hw := by
    rw [BuildState.id_graph (id_addMissing h.build.id)]
    rcases lookup_graph_cases h.build.blank hw with
      ⟨-, hforest | ⟨rfl, rfl, -⟩⟩ | ⟨i, x, rfl, hchild⟩ | ⟨-, rfl, -⟩
    · obtain ⟨-, rfl⟩ := (h.build.forest key w).mp hforest
      exact id_place _ _
    · rfl
    · obtain ⟨-, -, t, rfl, -⟩ := ((h.build.child _ _ _).mp hchild).exists_target hf
      exact id_place _ _
    · rfl
  unique keys keys' v w hv hw hid := by
    rw [BuildState.id_graph (id_addMissing h.build.id),
      BuildState.id_graph (id_addMissing h.build.id)] at hid
    have hway := h.wayTo hf hv
    rw [hid] at hway
    exact hway.unique hf hne hmissing (h.wayTo hf hw)
  finite := by
    refine ⟨[] :: [noTopology] :: ((requestedChains i2n done).flatMap fun a =>
      (List.range a.length).map fun i => (a.drop i).reverse) ++ st.i2n.keys.map fun id =>
        [noTopology, id], ?_⟩
    intro keys v hv
    have hway := h.wayTo hf hv
    generalize v.id = x at hway
    cases hway with
    | root => simp
    | chain ha hi =>
      obtain ⟨hlt, -⟩ := List.getElem?_eq_some_iff.mp hi
      refine List.mem_append_left _ (List.mem_cons_of_mem _ (List.mem_cons_of_mem _ ?_))
      exact List.mem_flatMap.mpr ⟨_, ha, List.mem_map.mpr ⟨_, List.mem_range.mpr hlt, rfl⟩⟩
    | bucket => simp
    | missing hid => exact List.mem_append_right _ (List.mem_map_of_mem hid)

end

/-- The vertex of a chain element has children unless it is an instance. -/
theorem RunInvariant.leaf_iff (h : RunInvariant i2n done st)
    (hg : GoodChains (requestedChains i2n done)) {a : List String}
    (ha : a ∈ requestedChains i2n done) {x : String} (hx : x ∈ a) :
    ((addMissing st).graph.heap (place (firstPos (requestedChains i2n done) x)
      x)).vertices.entries = [] ↔ firstPos (requestedChains i2n done) x = 0 := by
  have hlook : ∀ key,
    ((addMissing st).graph.heap (place (firstPos (requestedChains i2n done) x) x)).vertices.lookup
    key =
      (st.heap.child (place (firstPos (requestedChains i2n done) x) x) key).map some := by
    intro key
    rw [BuildState.lookup_graph,
      if_neg (by cases firstPos (requestedChains i2n done) x <;> simp [place]), Heap.child,
      heap_addMissing_place]
    rfl
  obtain ⟨b, hb, hpos⟩ := exists_getElem?_firstPos hg.forest ⟨a, ha, hx⟩
  rw [GoMap.entries_eq_nil_iff]
  constructor
  · intro hleaf
    cases hfirst : firstPos (requestedChains i2n done) x with
    | zero => rfl
    | succ n =>
      -- The element below it is linked.
      rw [hfirst] at hpos
      obtain ⟨hlt, -⟩ := List.getElem?_eq_some_iff.mp hpos
      have hkey : b[n]? = some b[n] := List.getElem?_eq_getElem (by omega)
      have hchild := (h.build.child _ _ _).mpr ⟨b, hb, n, x, hpos, hkey, Or.inl ⟨rfl, rfl⟩⟩
      have := hleaf b[n]
      rw [hlook, hchild] at this
      exact absurd this (by simp)
  · intro hfirst key
    rw [hlook]
    cases hchild : st.heap.child (place (firstPos (requestedChains i2n done) x) x) key with
    | none => rfl
    | some w =>
      -- An instance is no switch of another chain.
      obtain ⟨c, hc, k, q, hq, -, hcases⟩ := (h.build.child _ _ _).mp hchild
      have hxq : x = q := by
        rcases hcases with ⟨hr, -⟩ | ⟨hr, -⟩ <;> exact (place_inj.mp hr).2
      rw [hfirst] at hpos
      have := hg.apart b hb c hc x (k + 1) hpos (hxq ▸ hq)
      omega

end Ways

/-! ## The tree of the records -/

/-- **Records that give a tree** when the instances `i2n` are requested. -/
structure TreeRecords (c : ClusterTopology) (i2n : GoMap String String) : Prop where
  ids : (c.map (·.instanceID)).Nodup
  nonempty : ∀ inst ∈ c, ∀ tier ∈ inst.fabricTiers, tier.id ≠ ""
  good : GoodChains (requestedChains i2n c)
  named : "" ∉ i2n
  missing : ∀ id ∈ i2n, id ∉ c.map (·.instanceID) →
    id ≠ noTopology ∧ ∀ a ∈ requestedChains i2n c, id ∉ a ∧ noTopology ∉ a

/-- **The tree of the records.** -/
structure Graph.IsTreeOf (g : Graph Ref) (c : ClusterTopology) (i2n : GoMap String String) :
    Prop where
  shaped : g.TreeShaped
  complete : c.Complete i2n g
  leaf : ∀ keys r, keys ≠ [] → g.Walk keys r → (g.heap r).vertices.entries = [] →
    (g.heap r).id ∈ i2n
  switch : ∀ keys r, keys ≠ [] → g.Walk keys r → (g.heap r).vertices.entries ≠ [] →
    (∃ inst ∈ c, inst.instanceID ∈ i2n ∧ (g.heap r).id ∈ inst.tierIDs) ∨
      ((g.heap r).id = noTopology ∧ ∃ id ∈ i2n, id ∉ c.map (·.instanceID))

/-- Chains in which every element has one position are good. -/
theorem GoodChains.of_index {cs : List (List String)} (hf : IsForest cs)
    (hindex : ∀ a ∈ cs, ∀ b ∈ cs, ∀ (i k : Nat) (x : String), a[i]? = some x → b[k]? = some x →
      i = k) : GoodChains cs where
  forest := hf
  settled := by
    intro c hc i q p _ hp _
    obtain ⟨b, hb, hpos⟩ := exists_getElem?_firstPos hf ⟨c, hc, List.mem_of_getElem? hp⟩
    exact hindex b hb c hc _ _ p hpos hp
  apart a ha b hb x k hx hk := hindex b hb a ha k 0 x hk hx

variable {g : Graph Ref}

theorem Graph.IsTreeOf.tierSwitch_iff {c : ClusterTopology} {i2n : GoMap String String}
    (h : g.IsTreeOf c i2n) (hinst : inst ∈ c) {name : String}
    (hname : i2n.lookup inst.instanceID = some name) {i : Nat} {sw : Ref} :
    g.TierSwitch inst.instanceID i sw ↔ i < inst.tierIDs.length ∧
    g.Walk (inst.tierIDs.drop i).reverse sw := by
  obtain ⟨⟨r, hwalk, hid, -⟩, honce⟩ := h.complete inst hinst name hname
  have htake : (inst.tierIDs.reverse ++ [inst.instanceID]).take
      ((inst.tierIDs.reverse ++ [inst.instanceID]).length - (i + 1)) =
      (inst.tierIDs.drop i).reverse := by
    rw [List.take_append_of_le_length (by simp), List.reverse_drop]
    congr 1
    simp
  constructor
  · rintro ⟨keys, v, hv, hvid, hlen, hsw⟩
    obtain rfl := h.shaped.unique _ _ _ _ hv hwalk (hvid.trans hid.symm)
    rw [htake] at hsw
    exact ⟨by simpa using hlen, hsw⟩
  · rintro ⟨hlt, hsw⟩
    exact ⟨_, r, hwalk, hid, by simpa using hlt, by rwa [htake]⟩

theorem Graph.IsTreeOf.exists_tierSwitch {c : ClusterTopology} {i2n : GoMap String String}
    (h : g.IsTreeOf c i2n) (hinst : inst ∈ c) {name : String}
    (hname : i2n.lookup inst.instanceID = some name) {i : Nat} (hi : i < inst.tierIDs.length) :
    ∃ sw, g.TierSwitch inst.instanceID i sw := by
  obtain ⟨⟨r, hwalk, hid, -⟩, -⟩ := h.complete inst hinst name hname
  obtain ⟨sw, hsw⟩ := hwalk.take ((inst.tierIDs.reverse ++ [inst.instanceID]).length - (i + 1))
  exact ⟨sw, _, r, hwalk, hid, by simpa using hi, hsw⟩

namespace TreeRecords

variable {c : ClusterTopology} {i2n : GoMap String String} {st : BuildState} (h : TreeRecords c i2n)

include h

/-- Every ID on a requested chain is not empty. -/
theorem notMem_empty {a : List String} (ha : a ∈ requestedChains i2n c) : "" ∉ a := by
  obtain ⟨inst, hinst, ⟨name, hname⟩, rfl⟩ := mem_requestedChains.mp ha
  intro hmem
  rcases List.mem_cons.mp hmem with hid | hmem
  · exact h.named (hid ▸ GoMap.mem_iff_lookup.mpr ⟨name, hname⟩)
  · obtain ⟨tier, htier, hid⟩ := List.mem_map.mp hmem
    exact h.nonempty inst hinst tier htier hid

/-- The instances without a record are in no chain. -/
theorem missingApart (hinv : RunInvariant i2n c st) :
    MissingApart (requestedChains i2n c) st.i2n := by
  intro id hid
  obtain ⟨name, hname⟩ := GoMap.mem_iff_lookup.mp hid
  rw [hinv.wanted] at hname
  split_ifs at hname with hrecorded
  have hreq : id ∈ i2n := GoMap.mem_iff_lookup.mpr ⟨name, hname⟩
  refine ⟨?_, h.missing id hreq hrecorded⟩
  rintro rfl
  exact h.named hreq

/-- Every requested record is in the built graph. -/
theorem complete (hinv : RunInvariant i2n c st) : c.Complete i2n (addMissing st).graph := by
  intro inst hinst name hname
  have hchain : inst.chain ∈ requestedChains i2n c :=
    mem_requestedChains.mpr ⟨inst, hinst, ⟨name, hname⟩, rfl⟩
  have hpos : firstPos (requestedChains i2n c) inst.instanceID = 0 := by
    obtain ⟨a, ha, hi⟩ := exists_getElem?_firstPos h.good.forest ⟨_, hchain, List.mem_cons_self⟩
    exact h.good.apart _ hchain a ha _ _ rfl hi
  have hres : st.i2n.entries ≠ [] → ∀ a ∈ requestedChains i2n c, noTopology ∉ a := by
    intro hwanted a ha
    obtain ⟨e, he⟩ := List.exists_mem_of_ne_nil _ hwanted
    exact ((h.missingApart hinv e.1 (GoMap.mem_iff_lookup.mpr ⟨e.2,
      GoMap.lookup_eq_some_iff.mpr he⟩)).2.2 a ha).2
  obtain ⟨r, hwalk, hid, hrname⟩ := hinv.exists_instance hres hchain hpos hname
  refine ⟨⟨r, hwalk, hid, hrname⟩, fun keys r' _ hwalk' hid' => ?_⟩
  have hshaped := hinv.treeShaped h.good.forest (fun a => h.notMem_empty) (h.missingApart hinv)
  exact hshaped.unique _ _ _ _ hwalk' hwalk (hid'.trans hid.symm)

/-- **The graph after all records.** -/
theorem isTreeOf_addMissing (hinv : RunInvariant i2n c st) :
    (addMissing st).graph.IsTreeOf c i2n where
  shaped := hinv.treeShaped h.good.forest (fun a => h.notMem_empty) (h.missingApart hinv)
  complete := h.complete hinv
  leaf := by
    intro keys r hkeys hwalk hleaf
    rw [BuildState.id_graph (id_addMissing hinv.build.id)]
    rcases hinv.walk_cases h.good.forest hwalk with
      ⟨rfl, -⟩ | ⟨a, ha, i, x, hi, rfl, -⟩ | ⟨-, rfl, hwanted⟩ | ⟨id, name, -, rfl, hlook⟩
    · exact absurd rfl hkeys
    · -- A leaf on a chain is the instance of a requested record.
      have hpos := (hinv.leaf_iff h.good ha (List.mem_of_getElem? hi)).mp hleaf
      obtain ⟨b, hb, hx⟩ := exists_getElem?_firstPos h.good.forest ⟨a, ha, List.mem_of_getElem? hi⟩
      obtain ⟨inst, -, ⟨name, hname⟩, rfl⟩ := mem_requestedChains.mp hb
      rw [hpos] at hx
      obtain rfl : inst.instanceID = x := Option.some.inj hx
      rw [id_place]
      exact GoMap.mem_iff_lookup.mpr ⟨name, hname⟩
    · -- The switch of the nodes without topology has them as children.
      obtain ⟨e, he⟩ := List.exists_mem_of_ne_nil _ hwanted
      have hnone := GoMap.entries_eq_nil_iff.mp hleaf e.1
      have hchild : (st.i2n.filterMap fun id _ => some (Ref.missing id)).lookup e.1 =
          some (.missing e.1) := by
        rw [GoMap.lookup_filterMap, GoMap.lookup_eq_some_iff.mpr he]
        rfl
      rw [BuildState.lookup_graph, if_neg (by simp), addMissing, if_neg hwanted] at hnone
      exact absurd (hnone.symm.trans (congrArg (Option.map some) hchild)) (by simp)
    · rw [hinv.wanted] at hlook
      split_ifs at hlook
      exact GoMap.mem_iff_lookup.mpr ⟨name, hlook⟩
  switch := by
    intro keys r hkeys hwalk hsw
    rw [BuildState.id_graph (id_addMissing hinv.build.id)]
    rcases hinv.walk_cases h.good.forest hwalk with
      ⟨rfl, -⟩ | ⟨a, ha, i, x, hi, rfl, -⟩ | ⟨-, rfl, hwanted⟩ | ⟨id, name, -, rfl, hlook⟩
    · exact absurd rfl hkeys
    · left
      have hpos : firstPos (requestedChains i2n c) x ≠ 0 :=
        fun hzero => hsw ((hinv.leaf_iff h.good ha (List.mem_of_getElem? hi)).mpr hzero)
      obtain ⟨b, hb, hx⟩ := exists_getElem?_firstPos h.good.forest ⟨a, ha, List.mem_of_getElem? hi⟩
      obtain ⟨inst, hinst, ⟨name, hname⟩, rfl⟩ := mem_requestedChains.mp hb
      obtain ⟨n, hn⟩ := Nat.exists_eq_succ_of_ne_zero hpos
      rw [hn] at hx
      rw [id_place]
      exact ⟨inst, hinst, GoMap.mem_iff_lookup.mpr ⟨name, hname⟩,
        List.mem_of_getElem? (l := inst.tierIDs) hx⟩
    · right
      obtain ⟨e, he⟩ := List.exists_mem_of_ne_nil _ hwanted
      have hlook := GoMap.lookup_eq_some_iff.mpr he
      rw [hinv.wanted] at hlook
      split_ifs at hlook with hrecorded
      exact ⟨rfl, e.1, GoMap.mem_iff_lookup.mpr ⟨e.2, hlook⟩, hrecorded⟩
    · refine absurd (GoMap.entries_eq_nil_iff.mpr fun key => ?_) hsw
      have hwanted : st.i2n.entries ≠ [] := fun hnil => by
        rw [GoMap.entries_eq_nil_iff.mp hnil id] at hlook
        exact absurd hlook (by simp)
      rw [BuildState.lookup_graph, if_neg (by simp), addMissing, if_neg hwanted]
      rfl

end TreeRecords

section ToGraph

variable {c : ClusterTopology} {cis : List (GoMap String String)}
  (h : TreeRecords c (requested cis))

include h

/-- **`ToGraph` returns the tree of such records.** -/
theorem TreeRecords.isTreeOf (hrun : toGraph order fuel c cis 0 false = some g) :
    g.IsTreeOf c (requested cis) := by
  obtain ⟨st, hst, rfl⟩ := Option.map_eq_some_iff.mp hrun
  have hinv : RunInvariant (requested cis) c st :=
    (runInvariant_start (requested cis)).foldlM h.good h.ids h.nonempty hst
  exact h.isTreeOf_addMissing hinv

/-- **`ToGraph` returns** when the fuel is at least the length of every chain. -/
theorem TreeRecords.exists_toGraph (order : RangeOrder)
    (hfuel : ∀ inst ∈ c, inst.chain.length ≤ fuel) :
    ∃ g, toGraph order fuel c cis 0 false = some g := by
  obtain ⟨st, hst⟩ : ∃ st, c.foldlM (addInstance order fuel 0) _ = some st :=
    (runInvariant_start (requested cis)).exists_foldlM h.good h.ids h.nonempty hfuel
  exact ⟨_, Option.map_eq_some_iff.mpr ⟨st, hst, rfl⟩⟩

end ToGraph

/-! ## Built graphs are keyed -/

/-- Vertices have the IDs they were allocated with, and a child stands under its own. -/
structure Heap.Keyed (heap : Heap) : Prop where
  id : ∀ r, (heap r).id = r.id
  child : heap.Within fun _ key w => w.id = key

namespace Heap.Keyed

variable {heap : Heap} (h : heap.Keyed)

include h

/-- A vertex can be allocated. -/
theorem update (r : Ref) (name : String) :
    Keyed (Function.update heap r { name := name, id := r.id, vertices := ∅ }) where
  id r' := by
    rw [Function.update_apply]
    split_ifs with hr
    · rw [hr]
    · exact h.id r'
  child r' key w hw := by
    rw [Heap.child, Function.update_apply] at hw
    split_ifs at hw
    · exact absurd hw (by simp)
    · exact h.child r' key w hw

theorem link (v w : Ref) : (heap.link v (heap w).id w).Keyed where
  id r := by rw [heap.id_link, h.id]
  child r key x hx := by
    rw [heap.child_link] at hx
    split_ifs at hx with heq
    · rw [heq.2, ← Option.some.inj hx, h.id]
    · exact h.child r key x hx

theorem merged {heap' : Heap} (hm : Merged heap heap') : heap'.Keyed where
  id r := by rw [hm.id, h.id]
  child r key w hw := by
    obtain ⟨r', hr'⟩ := hm.copied r key w hw
    exact h.child r' key w hr'

end Heap.Keyed

/-- Linking a tier keeps vertices stored under their IDs. -/
theorem keyed_linkTier {st : LinkState} (h : st.heap.Keyed) (tier : FabricTier × Nat) :
    (linkTier st tier).heap.Keyed := by
  rw [linkTier]
  split
  · exact h
  · apply Heap.Keyed.link
    split_ifs
    · exact h
    · exact h.update (.sw tier.2 tier.1.id) tier.1.name

/-- What the loop over the records keeps. -/
structure BuildState.Keyed (st : BuildState) : Prop where
  heap : st.heap.Keyed
  forest : ∀ key r, st.forest.lookup key = some r → r.id = key

variable {trimTiers : Int}

/-- Adding a record keeps vertices stored under their IDs. -/
theorem BuildState.Keyed.addInstance {st st' : BuildState} (h : st.Keyed) {inst : InstanceTopology}
    (hrun : addInstance order fuel trimTiers st inst = some st') : st'.Keyed := by
  cases hreq : st.i2n.lookup inst.instanceID with
  | none =>
    rw [Topology.addInstance, hreq] at hrun
    rwa [← Option.some.inj hrun]
  | some nodeName =>
    have hlinked : (linkInstance st inst nodeName trimTiers).heap.Keyed :=
      Loops.foldl_rule (I := fun _ (linked : LinkState) => linked.heap.Keyed)
        (h.heap.update (.inst inst.instanceID) nodeName)
        fun _ _ _ _ _ hl => keyed_linkTier hl _
    obtain ⟨heap, forest, rfl, ⟨first, -, rfl, hmerge⟩ | ⟨-, rfl, rfl⟩⟩ :=
      addInstance_cases hreq rfl hrun
    · exact ⟨hlinked.merged (merged_mergeVertices hmerge), h.forest⟩
    · refine ⟨hlinked, fun key r hr => ?_⟩
      rw [GoMap.lookup_insert_eq_ite] at hr
      split_ifs at hr with heq
      · rw [heq, ← Option.some.inj hr]
        exact (hlinked.id _).symm
      · exact h.forest key r hr

theorem BuildState.Keyed.addMissing {st : BuildState} (h : st.Keyed) : (addMissing st).Keyed where
  heap := by
    refine ⟨id_addMissing h.heap.id, fun r key w hw => ?_⟩
    rw [Topology.addMissing] at hw
    split_ifs at hw
    · exact h.heap.child r key w hw
    · cases r with
      | bucket =>
        have hmissing := GoMap.lookup_filterMap (fun id _ => some (Ref.missing id)) st.i2n key
        obtain ⟨-, -, hid⟩ := Option.bind_eq_some_iff.mp (hmissing.symm.trans hw)
        rw [← Option.some.inj hid]
        rfl
      | missing x => exact absurd hw (by simp [Heap.child])
      | _ => exact h.heap.child _ key w hw
  forest key r hr := by
    rw [Topology.addMissing] at hr
    split_ifs at hr
    · exact h.forest key r hr
    · rw [GoMap.lookup_insert_eq_ite] at hr
      split_ifs at hr with heq
      · rw [heq, ← Option.some.inj hr]
        rfl
      · exact h.forest key r hr

theorem BuildState.Keyed.graph {st : BuildState} (h : st.Keyed) : st.graph.Keyed where
  root r hr := by
    rw [← Option.some.inj hr]
    exact st.id_graph h.heap.id .root
  child v key w hw := by
    rw [BuildState.lookup_graph] at hw
    obtain ⟨x, hx, hxw⟩ := Option.map_eq_some_iff.mp hw
    obtain rfl := Option.some.inj hxw
    rw [st.id_graph h.heap.id]
    split_ifs at hx
    · exact h.forest key x hx
    · exact h.heap.child v key x hx

/-- **`ToGraph` puts every vertex below its own ID.** -/
theorem keyed_toGraph {c : ClusterTopology} {cis : List (GoMap String String)} {normalize : Bool}
    {g : Graph Ref} (h : toGraph order fuel c cis trimTiers normalize = some g) : g.Keyed := by
  obtain ⟨st, hrun, rfl⟩ := Option.map_eq_some_iff.mp h
  have hst : st.Keyed := Loops.foldlM_some (I := fun _ st => st.Keyed)
    ⟨⟨fun _ => rfl, fun r key w hw => absurd hw (by simp [Heap.child, Heap.blank])⟩, by simp⟩
    (fun _ _ _ _ _ _ hs hstep => hs.addInstance hstep) hrun
  exact hst.addMissing.graph

end Topograph.Topology
