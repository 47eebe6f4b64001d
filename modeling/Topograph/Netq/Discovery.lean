import Topograph.Lib.Layering
import Topograph.Netq.ParseNetq
import Topograph.Topology.MergerSpec

/-! # Which hosts NetQ discovery keeps

The layers of `parseNetq` are distances from the requested hosts (`mem_roundsAt`), and only the last
layer is put below the root. A host is kept exactly when it climbs to a switch of that layer by as
many links as the layer is far (`keepsHosts_iff`): a switch that some host reaches directly is
placed on the first layer, also for hosts that only reach it through lower switches. -/

namespace Topograph.Netq

open Topograph.Topology
open Topograph.Layering (Ascent Distance)

section Response

variable (inputNodes : GoMap String Bool) (resp : NetqResponse)

/-! ## The nodes and links of a response -/

/-- A requested host: a node of tier -1. -/
def RequestedHost (h : String) : Prop :=
  ∃ c ∈ resp.nodes.flatten, c.id = h ∧ c.tier = -1 ∧ inputNodes.lookup c.name = some true

/-- A switch: a node of another tier. -/
def IsSwitch (s : String) : Prop := ∃ c ∈ resp.nodes.flatten, c.id = s ∧ c.tier ≠ -1

/-- A link from `low` up to `high`. -/
def LinkUp (low high : String) : Prop :=
  ∃ link ∈ resp.links, linkEnds (splitNodes inputNodes resp).tierMap link = some (low, high)

/-- A link from `c` up to the switch `s`. -/
def Up (c s : String) : Prop := LinkUp inputNodes resp c s ∧ IsSwitch resp s

variable {inputNodes resp}

/-- The vertex of a requested host. -/
def hostVertex (inputNodes : GoMap String Bool) (c : CNode) : Option VTree :=
  if c.tier = -1 ∧ (inputNodes.lookup c.name).getD false then some (.node c.name c.id []) else none

/-- The vertex of a switch. -/
def switchVertex (c : CNode) : Option VTree :=
  if c.tier = -1 then none else some (.node c.name c.id [])

theorem foldl_addNode (l : List CNode) (st : Nodes) :
    (l.foldl (addNode inputNodes) st).layer =
        l.foldl (fun m c => (hostVertex inputNodes c).elim m (m.insert c.id)) st.layer ∧
      (l.foldl (addNode inputNodes) st).nodeMap =
        l.foldl (fun m c => (switchVertex c).elim m (m.insert c.id)) st.nodeMap := by
  induction l generalizing st with
  | nil => exact ⟨rfl, rfl⟩
  | cons c l ih =>
    have hlayer : (addNode inputNodes st c).layer = (hostVertex inputNodes c).elim st.layer
        (st.layer.insert c.id) := by
      rw [addNode, hostVertex]
      split_ifs <;> rfl
    have hnode : (addNode inputNodes st c).nodeMap = (switchVertex c).elim st.nodeMap
        (st.nodeMap.insert c.id) := by
      rw [addNode, switchVertex]
      split_ifs <;> rfl
    rw [List.foldl_cons, List.foldl_cons, List.foldl_cons, ← hlayer, ← hnode]
    exact ih _

section Unique

variable (hunique : (resp.nodes.flatten.map (·.id)).Nodup)

variable {h : String}

include hunique

/-- The hosts of the first layer. -/
theorem lookup_layer {t : VTree} : (splitNodes inputNodes resp).layer.lookup h = some t ↔
    ∃ c ∈ resp.nodes.flatten, c.id = h ∧ hostVertex inputNodes c = some t := by
  rw [splitNodes, (foldl_addNode _ _).1]
  exact GoMap.lookup_foldl_insert_empty _ hunique

/-- The switches of the response. -/
theorem lookup_nodeMap {s : String} {t : VTree} :
    (splitNodes inputNodes resp).nodeMap.lookup s = some t ↔
    ∃ c ∈ resp.nodes.flatten, c.id = s ∧ switchVertex c = some t := by
  rw [splitNodes, (foldl_addNode _ _).2]
  exact GoMap.lookup_foldl_insert_empty _ hunique

/-- The first layer has the requested hosts. -/
theorem mem_layer : h ∈ (splitNodes inputNodes resp).layer ↔ RequestedHost inputNodes resp h := by
  rw [GoMap.mem_iff_lookup]
  constructor
  · rintro ⟨t, ht⟩
    obtain ⟨c, hc, hid, hv⟩ := (lookup_layer hunique).mp ht
    rw [hostVertex] at hv
    split_ifs at hv with hhost
    refine ⟨c, hc, hid, hhost.1, ?_⟩
    cases hlook : inputNodes.lookup c.name with
    | none => simp [hlook] at hhost
    | some b => simpa [hlook] using hhost.2
  · rintro ⟨c, hc, hid, htier, hlook⟩
    exact ⟨_, (lookup_layer hunique).mpr ⟨c, hc, hid, if_pos ⟨htier, by simp [hlook]⟩⟩⟩

/-- The map of nodes has the switches. -/
theorem mem_nodeMap {s : String} : s ∈ (splitNodes inputNodes resp).nodeMap ↔ IsSwitch resp s := by
  rw [GoMap.mem_iff_lookup]
  constructor
  · rintro ⟨t, ht⟩
    obtain ⟨c, hc, hid, hv⟩ := (lookup_nodeMap hunique).mp ht
    rw [switchVertex] at hv
    split_ifs at hv with hhost
    exact ⟨c, hc, hid, hhost⟩
  · rintro ⟨c, hc, hid, htier⟩
    exact ⟨_, (lookup_nodeMap hunique).mpr ⟨c, hc, hid, if_neg htier⟩⟩

/-- A host is not a switch. -/
theorem not_isSwitch (hh : RequestedHost inputNodes resp h) : ¬ IsSwitch resp h := by
  obtain ⟨c, hc, hid, htier, -⟩ := hh
  rintro ⟨c', hc', hid', htier'⟩
  obtain rfl := List.inj_on_of_nodup_map hunique hc hc' (hid.trans hid'.symm)
  exact htier' htier

end Unique

/-- The map of links has the upper ends of the links. -/
theorem mem_upLinks {low high : String} :
    high ∈ ((upLinks (splitNodes inputNodes resp).tierMap resp).lookup low).getD ∅ ↔
      LinkUp inputNodes resp low high := by
  have hfold : ∀ (links : List String) (linksUp : GoMap String (GoMap String Bool)),
      high ∈ ((links.foldl (addLink (splitNodes inputNodes resp).tierMap) linksUp).lookup low).getD
      ∅ ↔
        (∃ link ∈ links, linkEnds (splitNodes inputNodes resp).tierMap link = some (low, high)) ∨
          high ∈ (linksUp.lookup low).getD ∅ := by
    intro links
    induction links with
    | nil => simp
    | cons link links ih =>
      intro linksUp
      have hstep : high ∈
          ((addLink (splitNodes inputNodes resp).tierMap linksUp link).lookup low).getD ∅ ↔
          linkEnds (splitNodes inputNodes resp).tierMap link = some (low, high) ∨
            high ∈ (linksUp.lookup low).getD ∅ := by
        rw [addLink]
        cases hends : linkEnds (splitNodes inputNodes resp).tierMap link with
        | none => simp
        | some ends =>
          obtain ⟨low', high'⟩ := ends
          simp only [GoMap.lookup_insert_eq_ite, Option.some.injEq, Prod.mk.injEq]
          by_cases hlow : low = low'
          · subst hlow
            rw [if_pos rfl, Option.getD_some, AList.mem_insert, eq_comm]
            simp
          · have hne : low' ≠ low := fun h => hlow h.symm
            simp [hlow, hne]
      rw [List.foldl_cons, ih, hstep]
      simp only [List.mem_cons, exists_eq_or_imp]
      rw [or_assoc]
      exact or_left_comm
  rw [upLinks, hfold, LinkUp]
  simp

end Response

/-! ## One round -/

/-- What a round has done after some links of the layer: the switches they lead to are taken, with
the lower ends below them. -/
structure RoundInvariant (nodeMap : GoMap String VTree) (done : List ((String × VTree) × String))
    (st : Round) : Prop where
  mem : ∀ s, s ∈ st.nextLayer ↔ s ∈ nodeMap ∧ ∃ e, (e, s) ∈ done
  rest : ∀ s, st.nodeMap.lookup s = if s ∈ st.nextLayer then none else nodeMap.lookup s
  child : ∀ s t, st.nextLayer.lookup s = some t → t.id = s ∧ ∀ e, e ∈ t.vertices ↔ (e, s) ∈ done

variable {e : String × VTree}

/-- Setting a child replaces the one with its ID. -/
theorem mem_setVertex {v w : VTree} {id : String} :
    e ∈ (setVertex v id w).vertices ↔ (e ∈ v.vertices ∧ e.1 ≠ id) ∨ e = (id, w) := by
  simp [setVertex]

section Round

variable {nodeMap : GoMap String VTree} {done : List ((String × VTree) × String)} {st : Round}
  {link : (String × VTree) × String}

theorem mem_concat {s : String} :
    (e, s) ∈ done ++ [link] ↔ (e, s) ∈ done ∨ (e = link.1 ∧ s = link.2) := by
  rw [List.mem_append, List.mem_singleton, Prod.ext_iff]

section Attach

variable (h : RoundInvariant nodeMap done st)

include h

/-- What is below the other switches stays. -/
theorem RoundInvariant.child_of_ne {s : String} {t : VTree} (hs : s ≠ link.2)
    (ht : st.nextLayer.lookup s = some t) :
    t.id = s ∧ ∀ e, e ∈ t.vertices ↔ (e, s) ∈ done ++ [link] := by
  obtain ⟨hid, hv⟩ := h.child s t ht
  refine ⟨hid, fun e => ?_⟩
  rw [hv, mem_concat]
  exact ⟨Or.inl, fun he => he.resolve_right fun he => hs he.2⟩

/-- A link to a switch that has been taken before. -/
theorem RoundInvariant.attach_taken {v : VTree} (hnext : st.nextLayer.lookup link.2 = some v)
    (hsame : ∀ l ∈ done, l.2 = link.2 → l.1.1 = link.1.1 → l = link) :
    RoundInvariant nodeMap (done ++ [link])
      { st with nextLayer := st.nextLayer.insert link.2 (setVertex v link.1.1 link.1.2) } := by
  have hmem : link.2 ∈ st.nextLayer := GoMap.mem_iff_lookup.mpr ⟨v, hnext⟩
  have hin : ∀ s, s ∈ st.nextLayer.insert link.2 (setVertex v link.1.1 link.1.2) ↔
      s ∈ st.nextLayer := by
    intro s
    rw [AList.mem_insert]
    exact ⟨fun hs => hs.elim (fun heq => heq ▸ hmem) id, Or.inr⟩
  refine ⟨fun s => ?_, fun s => ?_, fun s t ht => ?_⟩
  · rw [hin, h.mem]
    refine and_congr_right fun hs => ⟨fun ⟨e, he⟩ => ⟨e, mem_concat.mpr (Or.inl he)⟩,
      fun ⟨e, he⟩ => ?_⟩
    rcases mem_concat.mp he with he | ⟨-, rfl⟩
    · exact ⟨e, he⟩
    · exact ((h.mem _).mp hmem).2
  · rw [h.rest]
    exact if_congr (hin s).symm rfl rfl
  · rw [GoMap.lookup_insert_eq_ite] at ht
    split_ifs at ht with hs
    · obtain rfl := Option.some.inj ht
      obtain ⟨hid, hv⟩ := h.child _ _ hnext
      refine ⟨hid.trans hs.symm, fun e => ?_⟩
      rw [mem_setVertex, mem_concat, hv, hs]
      constructor
      · exact fun he => he.imp (fun he => he.1) fun he => ⟨he, rfl⟩
      · rintro (he | ⟨he, -⟩)
        · by_cases hkey : e.1 = link.1.1
          · exact Or.inr (congrArg Prod.fst (hsame _ he rfl hkey))
          · exact Or.inl ⟨he, hkey⟩
        · exact Or.inr he
    · exact h.child_of_ne hs ht

/-- A link to no switch that is left. -/
theorem RoundInvariant.attach_unknown (hnot : link.2 ∉ st.nextLayer) (hno : link.2 ∉ nodeMap) :
    RoundInvariant nodeMap (done ++ [link]) st := by
  refine ⟨fun s => ?_, h.rest, fun s t ht => ?_⟩
  · rw [h.mem]
    refine and_congr_right fun hs => exists_congr fun e => ?_
    rw [mem_concat]
    exact ⟨Or.inl, fun he => he.resolve_right fun he => hno (he.2 ▸ hs)⟩
  · exact h.child_of_ne (fun hs => hnot (hs ▸ GoMap.mem_iff_lookup.mpr ⟨t, ht⟩)) ht

/-- The first link to a switch. -/
theorem RoundInvariant.attach_first {v : VTree} (hnot : link.2 ∉ st.nextLayer)
    (hlook : nodeMap.lookup link.2 = some v) (hid : v.id = link.2) :
    RoundInvariant nodeMap (done ++ [link])
      { nodeMap := st.nodeMap.erase link.2
        nextLayer := st.nextLayer.insert link.2 (setVertex (.node v.name v.id []) link.1.1
          link.1.2) } := by
  have hin : link.2 ∈ nodeMap := GoMap.mem_iff_lookup.mpr ⟨v, hlook⟩
  refine ⟨fun s => ?_, fun s => ?_, fun s t ht => ?_⟩
  · rw [AList.mem_insert, h.mem]
    constructor
    · rintro (rfl | ⟨hs, e, he⟩)
      · exact ⟨hin, link.1, mem_concat.mpr (Or.inr ⟨rfl, rfl⟩)⟩
      · exact ⟨hs, e, mem_concat.mpr (Or.inl he)⟩
    · rintro ⟨hs, e, he⟩
      rcases mem_concat.mp he with he | ⟨-, rfl⟩
      · exact Or.inr ⟨hs, e, he⟩
      · exact Or.inl rfl
  · by_cases hs : s = link.2
    · subst hs
      rw [AList.lookup_erase, if_pos ((AList.mem_insert _).mpr (Or.inl rfl))]
    · rw [AList.lookup_erase_ne hs, h.rest]
      refine if_congr ?_ rfl rfl
      rw [AList.mem_insert]
      exact ⟨Or.inr, fun hm => hm.resolve_left hs⟩
  · rw [GoMap.lookup_insert_eq_ite] at ht
    split_ifs at ht with hs
    · obtain rfl := Option.some.inj ht
      refine ⟨hid.trans hs.symm, fun e => ?_⟩
      rw [mem_setVertex, mem_concat, hs]
      constructor
      · rintro (⟨he, -⟩ | he)
        · exact absurd he List.not_mem_nil
        · exact Or.inr ⟨he, rfl⟩
      · rintro (he | ⟨he, -⟩)
        · exact absurd ((h.mem _).mpr ⟨hin, e, he⟩) hnot
        · exact Or.inr he
    · exact h.child_of_ne hs ht

/-- **One link.** -/
theorem RoundInvariant.attach (hid : ∀ s v, nodeMap.lookup s = some v → v.id = s)
    (hsame : ∀ l ∈ done, l.2 = link.2 → l.1.1 = link.1.1 → l = link) :
    RoundInvariant nodeMap (done ++ [link]) (attach st link) := by
  rw [Netq.attach]
  cases hnext : st.nextLayer.lookup link.2 with
  | some v => exact h.attach_taken hnext hsame
  | none =>
    have hnot : link.2 ∉ st.nextLayer := AList.lookup_eq_none.mp hnext
    have hrest : st.nodeMap.lookup link.2 = nodeMap.lookup link.2 := by rw [h.rest, if_neg hnot]
    cases hnode : st.nodeMap.lookup link.2 with
    | none => exact h.attach_unknown hnot (AList.lookup_eq_none.mp (hrest.symm.trans hnode))
    | some v =>
      have hlook : nodeMap.lookup link.2 = some v := hrest.symm.trans hnode
      exact h.attach_first hnot hlook (hid _ _ hlook)

end Attach

end Round

section Rounds

variable {linksUp : GoMap String (GoMap String Bool)} {nodeMap layer : GoMap String VTree}

/-- The links that lead up from a layer. -/
theorem mem_layerLinks {s : String} :
    (e, s) ∈ layerLinks linksUp layer ↔ layer.lookup e.1 = some e.2 ∧
    s ∈ (linksUp.lookup e.1).getD ∅ := by
  rw [layerLinks, List.mem_flatMap]
  constructor
  · rintro ⟨e', he', hmem⟩
    obtain ⟨high, hhigh, heq⟩ := List.mem_map.mp hmem
    obtain ⟨rfl, rfl⟩ := Prod.mk.inj heq
    exact ⟨GoMap.lookup_eq_some_iff.mpr he', AList.mem_keys.mpr hhigh⟩
  · rintro ⟨hlook, hs⟩
    exact ⟨⟨e.1, e.2⟩, GoMap.lookup_eq_some_iff.mp hlook,
      List.mem_map.mpr ⟨s, AList.mem_keys.mp hs, rfl⟩⟩

/-- **One round**, by induction on the links of the layer. -/
theorem roundInvariant_nextRound (hid : ∀ s v, nodeMap.lookup s = some v → v.id = s) :
    RoundInvariant nodeMap (layerLinks linksUp layer) (nextRound linksUp nodeMap layer) := by
  refine Loops.foldl_rule ⟨by simp, fun s => (if_neg (AList.notMem_empty s)).symm, by simp⟩ ?_
  intro done link rest st heq h
  refine h.attach hid fun l hl hs hkey => ?_
  -- A layer has one vertex for each key.
  have hlayer : ∀ l ∈ layerLinks linksUp layer, layer.lookup l.1.1 = some l.1.2 :=
    fun l hl => (mem_layerLinks.mp hl).1
  have h1 := hlayer l (heq ▸ List.mem_append_left _ hl)
  have h2 := hlayer link (heq ▸ List.mem_append_cons_self)
  rw [hkey, h2] at h1
  exact Prod.ext (Prod.ext hkey (Option.some.inj h1).symm) hs

end Rounds

/-! ## Layers and distances -/

/-- The switches that are left and the layer after `k` rounds. -/
def roundsAt (inputNodes : GoMap String Bool) (resp : NetqResponse) :
    Nat → GoMap String VTree × GoMap String VTree
  | 0 => ((splitNodes inputNodes resp).nodeMap, (splitNodes inputNodes resp).layer)
  | k + 1 =>
    let st := nextRound (upLinks (splitNodes inputNodes resp).tierMap resp)
      (roundsAt inputNodes resp k).1
      (roundsAt inputNodes resp k).2
    (st.nodeMap, st.nextLayer)

section Layers

variable {inputNodes : GoMap String Bool} {resp : NetqResponse}
  (hunique : (resp.nodes.flatten.map (·.id)).Nodup)

include hunique

/-- The vertices that are left have the IDs of their switches. -/
theorem id_roundsAt (k : Nat) (s : String) (v : VTree)
    (h : (roundsAt inputNodes resp k).1.lookup s = some v) : v.id = s := by
  induction k generalizing s v with
  | zero =>
    obtain ⟨c, -, rfl, hv⟩ := (lookup_nodeMap hunique).mp h
    rw [switchVertex] at hv
    split_ifs at hv
    rw [← Option.some.inj hv, VTree.id_node]
  | succ k ih =>
    rw [roundsAt, (roundInvariant_nextRound ih).rest] at h
    split_ifs at h
    exact ih s v h

/-- What a round does. -/
theorem roundInvariant_roundsAt (k : Nat) : RoundInvariant (roundsAt inputNodes resp k).1
    (layerLinks (upLinks (splitNodes inputNodes resp).tierMap resp) (roundsAt inputNodes resp k).2)
    { nodeMap := (roundsAt inputNodes resp (k + 1)).1,
      nextLayer := (roundsAt inputNodes resp (k + 1)).2 } :=
  roundInvariant_nextRound (id_roundsAt hunique k)

/-- The switches that are left are those on no layer so far. -/
theorem mem_left (k : Nat) (s : String) :
    s ∈ (roundsAt inputNodes resp k).1 ↔ IsSwitch resp s ∧
    ∀ j ≤ k, s ∉ (roundsAt inputNodes resp j).2 := by
  induction k with
  | zero =>
    rw [roundsAt, mem_nodeMap hunique]
    refine ⟨fun hs => ⟨hs, fun j hj hmem => ?_⟩, fun hs => hs.1⟩
    obtain rfl := Nat.le_zero.mp hj
    exact not_isSwitch hunique ((mem_layer hunique).mp hmem) hs
  | succ k ih =>
    have hround : RoundInvariant (roundsAt inputNodes resp k).1 _ _ :=
      roundInvariant_roundsAt hunique k
    have hrest : s ∈ (roundsAt inputNodes resp (k + 1)).1 ↔
        s ∈ (roundsAt inputNodes resp k).1 ∧ s ∉ (roundsAt inputNodes resp (k + 1)).2 := by
      have hlook := hround.rest s
      rw [GoMap.mem_iff_lookup, GoMap.mem_iff_lookup, hlook]
      split_ifs with hmem
      · simp [hmem]
      · simp [hmem]
    rw [hrest, ih]
    constructor
    · rintro ⟨⟨hs, hleft⟩, hnext⟩
      refine ⟨hs, fun j hj => ?_⟩
      rcases Nat.lt_or_ge j (k + 1) with hlt | hge
      · exact hleft j (by omega)
      · rwa [show j = k + 1 by omega]
    · rintro ⟨hs, hleft⟩
      exact ⟨⟨hs, fun j hj => hleft j (by omega)⟩, hleft (k + 1) le_rfl⟩

/-- **A layer is a distance** from the requested hosts. -/
theorem mem_roundsAt (k : Nat) (s : String) :
    s ∈ (roundsAt inputNodes resp k).2 ↔
      Distance (RequestedHost inputNodes resp) (Up inputNodes resp) k s := by
  have hsucc : ∀ k s, s ∈ (roundsAt inputNodes resp (k + 1)).2 ↔
      (∀ j ≤ k, s ∉ (roundsAt inputNodes resp j).2) ∧
        ∃ c, Up inputNodes resp c s ∧ c ∈ (roundsAt inputNodes resp k).2 := by
    intro k s
    have hround : RoundInvariant (roundsAt inputNodes resp k).1 _ _ :=
      roundInvariant_roundsAt hunique k
    have hmem := hround.mem s
    rw [mem_left hunique] at hmem
    refine hmem.trans ⟨?_, ?_⟩
    · rintro ⟨⟨hs, hleft⟩, e, he⟩
      obtain ⟨hlook, hup⟩ := mem_layerLinks.mp he
      exact ⟨hleft, e.1, ⟨mem_upLinks.mp hup, hs⟩, GoMap.mem_iff_lookup.mpr ⟨e.2, hlook⟩⟩
    · rintro ⟨hleft, c, ⟨hup, hs⟩, hc⟩
      obtain ⟨w, hw⟩ := GoMap.mem_iff_lookup.mp hc
      exact ⟨⟨hs, hleft⟩, (c, w), mem_layerLinks.mpr ⟨hw, mem_upLinks.mpr hup⟩⟩
  exact Layering.level_iff_distance (fun k s => s ∈ (roundsAt inputNodes resp k).2)
    (fun s => mem_layer hunique) hsucc k s

/-- The children of a vertex are the vertices of the layer below that have a link up to it. -/
theorem mem_vertices {k : Nat} {s : String} {t : VTree}
    (h : (roundsAt inputNodes resp (k + 1)).2.lookup s = some t) (e : String × VTree) :
    e ∈ t.vertices ↔ Up inputNodes resp e.1 s ∧
    (roundsAt inputNodes resp k).2.lookup e.1 = some e.2 := by
  have hround : RoundInvariant (roundsAt inputNodes resp k).1 _ _ :=
    roundInvariant_roundsAt hunique k
  have hs : IsSwitch resp s :=
    ((mem_left hunique k s).mp ((hround.mem s).mp (GoMap.mem_iff_lookup.mpr ⟨t, h⟩)).1).1
  rw [(hround.child s t h).2 e, mem_layerLinks, mem_upLinks]
  exact ⟨fun ⟨hlook, hup⟩ => ⟨⟨hup, hs⟩, hlook⟩, fun ⟨hup, hlook⟩ => ⟨hlook, hup.1⟩⟩

/-- **The forest is leveled.** -/
theorem leveled_netq : Leveled fun k s => (roundsAt inputNodes resp k).2.lookup s where
  id {k s t} h := by
    cases k with
    | zero =>
      obtain ⟨c, -, rfl, hv⟩ := (lookup_layer hunique).mp h
      rw [hostVertex] at hv
      split_ifs at hv
      rw [← Option.some.inj hv, VTree.id_node]
    | succ k =>
      have hround : RoundInvariant (roundsAt inputNodes resp k).1 _ _ :=
        roundInvariant_roundsAt hunique k
      exact (hround.child s t h).1
  leaf {s t} h := by
    obtain ⟨c, -, -, hv⟩ := (lookup_layer hunique).mp h
    rw [hostVertex] at hv
    split_ifs at hv
    rw [← Option.some.inj hv, VTree.vertices_node]
  switch {k s t} h := by
    have hround : RoundInvariant (roundsAt inputNodes resp k).1 _ _ :=
      roundInvariant_roundsAt hunique k
    obtain ⟨-, e, he⟩ := (hround.mem s).mp (GoMap.mem_iff_lookup.mpr ⟨t, h⟩)
    exact List.ne_nil_of_mem (((hround.child s t h).2 e).mpr he)
  child h he := ((mem_vertices hunique h _).mp he).2
  apart {i j s} _ hij h := by
    have hdist := (mem_roundsAt hunique i s).mp (AList.lookup_isSome.mp h)
    refine AList.lookup_eq_none.mpr fun hmem => ?_
    have := hdist.unique ((mem_roundsAt hunique j s).mp hmem)
    omega

/-! ## The last layer -/

omit hunique in
/-- The loop stops at some round: every round up to it found a layer, and either the next one finds
none or the fuel is spent. -/
theorem topLayer_eq_roundsAt (fuel k : Nat) :
    ∃ j ≤ fuel, topLayer (upLinks (splitNodes inputNodes resp).tierMap resp) fuel
      (roundsAt inputNodes resp k).1
        (roundsAt inputNodes resp k).2 = (roundsAt inputNodes resp (k + j)).2 ∧
      (∀ i < j, (roundsAt inputNodes resp (k + i)).1.entries.length ≠
        (roundsAt inputNodes resp (k + i + 1)).1.entries.length) ∧
      (j < fuel → (roundsAt inputNodes resp (k + j)).1.entries.length =
        (roundsAt inputNodes resp (k + j + 1)).1.entries.length) :=
  Layering.exists_lastRound
    (fun fuel k => topLayer (upLinks (splitNodes inputNodes resp).tierMap resp) fuel
      (roundsAt inputNodes resp k).1
      (roundsAt inputNodes resp k).2)
    (fun k => (roundsAt inputNodes resp k).1.entries.length =
      (roundsAt inputNodes resp (k + 1)).1.entries.length)
    (fun _ _ hlast => if_pos hlast) (fun _ _ hnext => if_neg hnext) fuel k

/-- A round takes no switch exactly when its layer is empty. -/
theorem length_left_iff (k : Nat) : (roundsAt inputNodes resp k).1.entries.length =
    (roundsAt inputNodes resp (k + 1)).1.entries.length ↔
      ∀ s, s ∉ (roundsAt inputNodes resp (k + 1)).2 := by
  have hround : RoundInvariant (roundsAt inputNodes resp k).1 _ _ :=
    roundInvariant_roundsAt hunique k
  have hsub : ∀ s, s ∈ (roundsAt inputNodes resp (k + 1)).1 →
      s ∈ (roundsAt inputNodes resp k).1 := by
    intro s hs
    rw [mem_left hunique] at hs ⊢
    exact ⟨hs.1, fun j hj => hs.2 j (by omega)⟩
  constructor
  · intro hlen s hs
    have hleft := GoMap.mem_of_length_eq hsub hlen.symm ((hround.mem s).mp hs).1
    exact ((mem_left hunique (k + 1) s).mp hleft).2 (k + 1) le_rfl hs
  · intro hempty
    refine GoMap.length_eq_of_mem_iff fun s => ⟨fun hs => ?_, hsub s⟩
    rw [mem_left hunique] at hs ⊢
    refine ⟨hs.1, fun j hj => ?_⟩
    rcases Nat.lt_or_ge j (k + 1) with hlt | hge
    · exact hs.2 j (by omega)
    · rw [show j = k + 1 by omega]
      exact hempty s

/-- **The loop ends with the farthest layer.** -/
theorem netqLayer_eq_roundsAt : ∃ k, netqLayer inputNodes resp = (roundsAt inputNodes resp k).2 ∧
    (∀ m t, Distance (RequestedHost inputNodes resp) (Up inputNodes resp) m t → m ≤ k) ∧
    (k = 0 ∨ ∃ t, Distance (RequestedHost inputNodes resp) (Up inputNodes resp) k t) := by
  obtain ⟨j, hj, heq, hne, hlast⟩ :=
    topLayer_eq_roundsAt (splitNodes inputNodes resp).nodeMap.entries.length 0
  simp only [Nat.zero_add] at heq hne hlast
  refine ⟨j, heq, fun m t hd => ?_, ?_⟩
  · -- A layer past the last one would need more switches than there are.
    by_contra hmj
    obtain ⟨u, hu⟩ := hd.exists_below (j + 1) (by omega)
    have hall : ∀ i t, 1 ≤ i → Distance (RequestedHost inputNodes resp) (Up inputNodes resp) i t →
        t ∈ (splitNodes inputNodes resp).nodeMap.keys := by
      intro i t hi ht
      obtain ⟨i, rfl⟩ := Nat.exists_eq_succ_of_ne_zero (Nat.ne_of_gt hi)
      obtain ⟨c, hup, -⟩ := ht.exists_pred
      exact AList.mem_keys.mp ((mem_nodeMap hunique).mpr hup.2)
    have hlen := hu.le_length hall
    rw [GoMap.length_keys] at hlen
    exact (length_left_iff hunique j).mp (hlast (by omega)) u
      ((mem_roundsAt hunique (j + 1) u).mpr hu)
  · cases j with
    | zero => exact Or.inl rfl
    | succ j =>
      have hnot := (length_left_iff hunique j).not.mp (hne j (Nat.lt_succ_self j))
      push Not at hnot
      obtain ⟨s, hs⟩ := hnot
      exact Or.inr ⟨s, (mem_roundsAt hunique (j + 1) s).mp hs⟩

/-! ## The hosts of the forest -/

/-- A vertex on the chain of a host has the host as a leaf. -/
theorem exists_hasLeaf {n : Nat} {h r : String} (hasc : Ascent (Up inputNodes resp) n h r)
    (hh : Distance (RequestedHost inputNodes resp) (Up inputNodes resp) 0 h)
    (hr : Distance (RequestedHost inputNodes resp) (Up inputNodes resp) n r) :
    ∃ t, (roundsAt inputNodes resp n).2.lookup r = some t ∧ t.HasLeaf h := by
  have hlev : Leveled fun k s => (roundsAt inputNodes resp k).2.lookup s := leveled_netq hunique
  induction hasc with
  | refl =>
    obtain ⟨t, ht⟩ := GoMap.mem_iff_lookup.mp ((mem_roundsAt hunique 0 _).mpr hh)
    exact ⟨t, ht, (VTree.hasLeaf_childless (hlev.leaf ht)).mpr (hlev.id ht).symm⟩
  | @step n h c r hc hup ih =>
    have hr' : Distance (RequestedHost inputNodes resp) (Up inputNodes resp) (0 + (n + 1)) r := by
      rwa [Nat.zero_add]
    have hdist := hc.distance_pred hup hh hr'
    rw [Nat.zero_add] at hdist
    obtain ⟨tc, htc, hleaf⟩ := ih hh hdist
    obtain ⟨t, ht⟩ := GoMap.mem_iff_lookup.mp ((mem_roundsAt hunique (n + 1) r).mpr hr)
    exact ⟨t, ht, (VTree.hasLeaf_iff (hlev.switch ht)).mpr ⟨(c, tc),
      (mem_vertices hunique ht _).mpr ⟨hup, htc⟩, hleaf⟩⟩

/-- A leaf is a host that climbs to the vertex. -/
theorem ascent_of_hasLeaf {k : Nat} {r h : String} {t : VTree}
    (ht : (roundsAt inputNodes resp k).2.lookup r = some t) (hleaf : t.HasLeaf h) :
    Distance (RequestedHost inputNodes resp) (Up inputNodes resp) 0 h ∧
    Ascent (Up inputNodes resp) k h r := by
  have hlev : Leveled fun k s => (roundsAt inputNodes resp k).2.lookup s := leveled_netq hunique
  induction k generalizing r t with
  | zero =>
    rw [VTree.hasLeaf_childless (hlev.leaf ht), hlev.id ht] at hleaf
    subst hleaf
    exact ⟨(mem_roundsAt hunique 0 h).mp (GoMap.mem_iff_lookup.mpr ⟨t, ht⟩), .refl h⟩
  | succ k ih =>
    obtain ⟨e, he, hleaf⟩ := (VTree.hasLeaf_iff (hlev.switch ht)).mp hleaf
    obtain ⟨hup, hlook⟩ := (mem_vertices hunique ht e).mp he
    obtain ⟨hh, hasc⟩ := ih hlook hleaf
    exact ⟨hh, .step hasc hup⟩

/-- The hosts below the last layer. -/
theorem hasLeaf_iff_ascent (k : Nat) (h : String) :
    (∃ v ∈ (roundsAt inputNodes resp k).2.values, v.HasLeaf h) ↔ RequestedHost inputNodes resp h ∧
      ∃ r, Ascent (Up inputNodes resp) k h r ∧
        Distance (RequestedHost inputNodes resp) (Up inputNodes resp) k r := by
  constructor
  · rintro ⟨v, hv, hleaf⟩
    obtain ⟨r, hr⟩ := GoMap.mem_values.mp hv
    have hlook := GoMap.lookup_eq_some_iff.mpr hr
    obtain ⟨hh, hasc⟩ := ascent_of_hasLeaf hunique hlook hleaf
    exact ⟨Layering.distance_zero.mp hh, r, hasc,
      (mem_roundsAt hunique k r).mp (GoMap.mem_iff_lookup.mpr ⟨v, hlook⟩)⟩
  · rintro ⟨hh, r, hasc, hr⟩
    obtain ⟨t, ht, hleaf⟩ := exists_hasLeaf hunique hasc (Layering.distance_zero.mpr hh) hr
    exact ⟨t, GoMap.mem_values.mpr ⟨r, GoMap.lookup_eq_some_iff.mp ht⟩, hleaf⟩

/-- Merging the last layer keeps its hosts. -/
theorem exists_mergedTop (k : Nat) : ∃ fuel merged,
    mergedTop fuel (roundsAt inputNodes resp k).2.values = some merged ∧ (merged.map (·.id)).Nodup ∧
      ∀ n, (∃ w ∈ merged, w.HasLeaf n) ↔ ∃ v ∈ (roundsAt inputNodes resp k).2.values,
        v.HasLeaf n := by
  have hlev : Leveled fun k s => (roundsAt inputNodes resp k).2.lookup s := leveled_netq hunique
  obtain ⟨htop, hnodup⟩ : OnLevel (fun k s => (roundsAt inputNodes resp k).2.lookup s) k _ ∧ _ :=
    onLevel_values hlev fun _ => rfl
  obtain ⟨fuel, merged, hrun, hiff⟩ := mergedTop_leaves hlev htop hnodup fun s t hleaf ht _ => by
    -- A host is at distance 0, a switch of the first layer is not.
    have hhost : Distance _ (Up inputNodes resp) 0 s :=
      Layering.distance_zero.mpr ((hasLeaf_iff_ascent hunique k s).mp hleaf).1
    exact absurd (hhost.unique ((mem_roundsAt hunique 1 s).mp (GoMap.mem_iff_lookup.mpr ⟨t, ht⟩)))
      (by decide)
  exact ⟨fuel, merged, hrun, mergedTop_ids hrun hnodup, hiff⟩

end Layers

/-! ## The hosts that are kept -/

/-- A host with a link to a switch, in either direction. -/
def LinkedToSwitch (resp : NetqResponse) (h : String) : Prop :=
  ∃ s, IsSwitch resp s ∧ ∃ link ∈ resp.links,
    splitLink [] link.toList = [h, s] ∨ splitLink [] link.toList = [s, h]

/-- The vertices below the root that a host is a leaf of, after `parseNetq`. -/
def KeptBy (inputNodes : GoMap String Bool) (resp : NetqResponse) (treeRoot : GoMap String MVertex)
    (h : String) : Prop :=
  ∃ fuel vertices, parseNetq fuel treeRoot [resp] inputNodes = some (.ok vertices) ∧
    ∃ v ∈ vertices.values, v.HasLeaf h

/-- **A host is kept** exactly when it climbs to the last layer. -/
theorem keptBy_iff {inputNodes : GoMap String Bool} {resp : NetqResponse}
    (hunique : (resp.nodes.flatten.map (·.id)).Nodup) {h : String}
    (hh : RequestedHost inputNodes resp h) :
    (∀ treeRoot, KeptBy inputNodes resp treeRoot h) ↔
      ∃ k r, Ascent (Up inputNodes resp) k h r ∧
        Distance (RequestedHost inputNodes resp) (Up inputNodes resp) k r ∧
        ∀ m t, Distance (RequestedHost inputNodes resp) (Up inputNodes resp) m t → m ≤ k := by
  obtain ⟨K, hlayer, hmax, htop⟩ : ∃ K, netqLayer inputNodes resp = _ ∧ _ ∧ _ :=
    netqLayer_eq_roundsAt hunique
  obtain ⟨fuel, merged, hrun, hnodup, hiff⟩ :
      ∃ fuel merged, mergedTop fuel (roundsAt inputNodes resp K).2.values =
    some merged ∧ _ := exists_mergedTop hunique K
  rw [← hlayer] at hrun
  constructor
  · intro hkept
    obtain ⟨fuel', vertices, hparse, v, hv, hleaf⟩ := hkept ∅
    obtain ⟨merged', hrun', hvertices⟩ := Option.map_eq_some_iff.mp hparse
    obtain rfl := mergedTop_unique hrun hrun'
    obtain rfl := Except.ok.inj hvertices
    obtain ⟨key, hkey⟩ := GoMap.mem_values.mp hv
    obtain ⟨w, hw, -, hwv⟩ :=
      (GoMap.lookup_foldl_insert_empty some hnodup).mp (GoMap.lookup_eq_some_iff.mpr hkey)
    obtain rfl := Option.some.inj hwv
    obtain ⟨-, r, hasc, hr⟩ := (hasLeaf_iff_ascent hunique K h).mp ((hiff h).mp ⟨w, hw, hleaf⟩)
    exact ⟨K, r, hasc, hr, hmax⟩
  · rintro ⟨k, r, hasc, hr, hfar⟩ treeRoot
    obtain rfl : k = K := by
      have h1 := hmax _ _ hr
      rcases htop with rfl | ⟨t, ht⟩
      · omega
      · have h2 := hfar _ _ ht
        omega
    obtain ⟨w, hw, hleaf⟩ := (hiff h).mpr ((hasLeaf_iff_ascent hunique k h).mpr ⟨hh, r, hasc, hr⟩)
    refine ⟨fuel, _, by
      rw [parseNetq, hrun]; rfl, w, GoMap.mem_values.mpr ⟨w.id, GoMap.lookup_eq_some_iff.mp ?_⟩,
      hleaf⟩
    exact GoMap.lookup_foldl_insert_of_mem some hnodup treeRoot hw rfl

/-- **NetQ discovery loses no host** exactly when every requested host with a link to a switch
climbs to a farthest switch by as many links as that is far from the nearest requested host. -/
theorem keepsHosts_iff (inputNodes : GoMap String Bool) (resp : NetqResponse)
    (hunique : (resp.nodes.flatten.map (·.id)).Nodup) :
    (∀ h, RequestedHost inputNodes resp h → LinkedToSwitch resp h →
      ∀ treeRoot, KeptBy inputNodes resp treeRoot h) ↔
      ∀ h, RequestedHost inputNodes resp h → LinkedToSwitch resp h →
        ∃ k r, Ascent (Up inputNodes resp) k h r ∧
          Distance (RequestedHost inputNodes resp) (Up inputNodes resp) k r ∧
          ∀ m t, Distance (RequestedHost inputNodes resp) (Up inputNodes resp) m t → m ≤ k :=
  forall₂_congr fun _ hh => forall_congr' fun _ => keptBy_iff hunique hh

/-! ### Two hosts under one spine -/

/-- Two leaf switches below a spine, with one host each. -/
def spineResponse : NetqResponse where
  nodes := [[⟨"h1", "n1", -1⟩, ⟨"h2", "n2", -1⟩], [⟨"L1", "leaf1", 0⟩, ⟨"L2", "leaf2", 0⟩,
    ⟨"S", "spine", 1⟩]]
  links := ["h1-*-L1", "h2-*-L2", "L1-*-S", "S-*-L2"]

/-- Both hosts are requested. -/
def bothNodes : GoMap String Bool := (AList.singleton "n1" true).insert "n2" true

theorem keepsHosts_spine : (spineResponse.nodes.flatten.map (·.id)).Nodup ∧
    ∀ h, RequestedHost bothNodes spineResponse h → LinkedToSwitch spineResponse h →
      ∀ treeRoot, KeptBy bothNodes spineResponse treeRoot h := by
  have hunique : (spineResponse.nodes.flatten.map (·.id)).Nodup := by decide
  have hup : ∀ c s, (∃ link ∈ spineResponse.links,
      linkEnds (splitNodes bothNodes spineResponse).tierMap link = some (c, s)) →
      (∃ n ∈ spineResponse.nodes.flatten, n.id = s ∧ n.tier ≠ -1) →
      Up bothNodes spineResponse c s := fun _ _ => And.intro
  have hspine : Distance (RequestedHost bothNodes spineResponse) (Up bothNodes spineResponse) 2
      "S" :=
    (mem_roundsAt hunique 2 "S").mp (by decide)
  have hfar : ∀ m t, Distance (RequestedHost bothNodes spineResponse) (Up bothNodes spineResponse) m
      t → m ≤ 2 := by
    intro m t hd
    by_contra hm
    -- The third layer is empty.
    obtain ⟨u, hu⟩ := hd.exists_below 3 (by omega)
    have hmem := AList.mem_keys.mp ((mem_roundsAt hunique 3 u).mpr hu)
    have hnil : (roundsAt bothNodes spineResponse 3).2.keys = [] := by decide
    rw [hnil] at hmem
    exact absurd hmem List.not_mem_nil
  refine ⟨hunique, (keepsHosts_iff bothNodes spineResponse hunique).mpr fun h hh _ => ?_⟩
  have hkeys : (splitNodes bothNodes spineResponse).layer.keys = ["h2", "h1"] := by decide
  have hmem := AList.mem_keys.mp ((mem_layer hunique).mpr hh)
  rw [hkeys] at hmem
  rcases List.mem_pair.mp hmem with rfl | rfl
  · exact ⟨2, "S", .step (.step (.refl _) (hup "h2" "L2" (by decide) (by decide)))
      (hup "L2" "S" (by decide) (by decide)),
      hspine, hfar⟩
  · exact ⟨2, "S", .step (.step (.refl _) (hup "h1" "L1" (by decide) (by decide)))
      (hup "L1" "S" (by decide) (by decide)),
      hspine, hfar⟩

/-! ### Branches of different heights -/

/-- A leaf switch on its own, and another one below a spine. -/
def unevenResponse : NetqResponse where
  nodes := [[⟨"h1", "n1", -1⟩, ⟨"h2", "n2", -1⟩], [⟨"L1", "leaf1", 0⟩, ⟨"L2", "leaf2", 0⟩,
    ⟨"S", "spine", 1⟩]]
  links := ["h1-*-L1", "h2-*-L2", "L2-*-S"]

/-- The host of the shorter branch is linked to its switch, and lost. -/
theorem uneven_host_lost : (unevenResponse.nodes.flatten.map (·.id)).Nodup ∧
    RequestedHost bothNodes unevenResponse "h1" ∧ LinkedToSwitch unevenResponse "h1" ∧
      ¬ KeptBy bothNodes unevenResponse ∅ "h1" := by
  have hrun : mergedTop 3 (netqLayer bothNodes unevenResponse).values =
      some [.node "spine" "S" [("L2", .node "leaf2" "L2" [("h2", .node "n2" "h2" [])])]] := rfl
  refine ⟨by decide, ⟨⟨"h1", "n1", -1⟩, by decide, rfl, rfl, by decide⟩,
    ⟨"L1", ⟨⟨"L1", "leaf1", 0⟩, by decide, rfl, by decide⟩, "h1-*-L1", by decide, by decide⟩, ?_⟩
  rintro ⟨fuel, vertices, hparse, v, hv, hleaf⟩
  obtain ⟨merged, hmerged, hvertices⟩ := Option.map_eq_some_iff.mp hparse
  obtain rfl := mergedTop_unique hrun hmerged
  obtain rfl := Except.ok.inj hvertices
  obtain rfl : v = .node "spine" "S" [("L2", .node "leaf2" "L2" [("h2", .node "n2" "h2" [])])] :=
    List.mem_singleton.mp hv
  simp at hleaf

end Topograph.Netq
