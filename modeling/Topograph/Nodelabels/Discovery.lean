import Topograph.Nodelabels.SwitchIDs
import Topograph.Topology.TreeShape
import Topograph.Translate.Acceptance

/-! # The tree of the labels

The provider reports the requested instances whose nodes are usable (`reports`), each with the
switches of its label values. All records have the same depth and a switch ID determines the values
from its tier up, so `ToGraph` builds a tree (`reportsTree`): it is accepted by `initTree`, holds
every reported instance once, and two instances share a switch exactly when their values agree from
its tier up. -/

namespace Topograph.Nodelabels

open Topograph.Topology Topograph.Translate

/-! ## Reports -/

/-- A reported instance, with its node name and label values. -/
structure Report where
  id : String
  name : String
  values : List String
  deriving DecidableEq, Repr

/-- What a node reports, if it is usable. -/
def reportOf (isValidLabelValue : String → List String) (params : Params)
    (requested : GoMap String String) (node : Node) : Option Report :=
  if isSkipped params requested node then none
  else
    match labelValues isValidLabelValue node params.topologyLabels with
    | .error _ => none
    | .ok values =>
      some { id := node.instanceID, name := (requested.lookup node.instanceID).getD "",
             values := values }

/-- The reports of a list of nodes. -/
def reports (isValidLabelValue : String → List String) (params : Params)
    (requested : GoMap String String) (nodes : List Node) : List Report :=
  nodes.filterMap (reportOf isValidLabelValue params requested)

/-- The report of the first listed node of its instance. -/
def IsFirst (rs : List Report) (r : Report) : Prop := rs.find? (·.id = r.id) = some r

/-- What is assumed of `validation.IsValidLabelValue`: a valid value has no separator. -/
def RejectsSeparators (isValidLabelValue : String → List String) : Prop :=
  ∀ value, isValidLabelValue value = [] → Unseparated value

/-- A usable report: its instance is requested, and there is a valid value for every label. -/
structure Report.Usable (params : Params) (requested : GoMap String String) (r : Report) :
    Prop where
  wanted : requested.lookup r.id = some r.name
  named : r.id ≠ ""
  length : r.values.length = params.topologyLabels.length
  valid : ∀ v ∈ r.values, Unseparated v

variable {isValidLabelValue : String → List String} {node : Node}

/-- Accepted labels are valid, one for each key. -/
theorem labelValues_eq_ok {keys values : List String}
    (h : labelValues isValidLabelValue node keys = .ok values) :
    values.length = keys.length ∧ ∀ v ∈ values, isValidLabelValue v = [] := by
  induction keys generalizing values with
  | nil =>
    obtain rfl := Except.ok.inj h
    simp
  | cons key keys ih =>
    simp only [labelValues] at h
    split_ifs at h with hbad
    push Not at hbad
    cases hrest : labelValues isValidLabelValue node keys with
    | error err =>
      rw [hrest] at h
      exact absurd h (by simp)
    | ok rest =>
      rw [hrest] at h
      obtain rfl := Except.ok.inj h
      obtain ⟨hlen, hvalid⟩ := ih hrest
      refine ⟨by rw [List.length_cons, List.length_cons, hlen], ?_⟩
      rintro v hv
      rcases List.mem_cons.mp hv with rfl | hv
      · exact hbad.2
      · exact hvalid v hv

theorem Node.instanceID_ne_empty (node : Node) : node.instanceID ≠ "" := by
  unfold Node.instanceID
  dsimp only
  split_ifs with h
  · exact node.named
  · exact h

variable {r : Report}

/-- A report is that of a requested instance, with the values of all labels. -/
theorem reportOf_eq_some {params : Params} {requested : GoMap String String}
    (h : reportOf isValidLabelValue params requested node = some r) :
    requested.lookup r.id = some r.name ∧ r.id = node.instanceID ∧
      labelValues isValidLabelValue node params.topologyLabels = .ok r.values := by
  unfold reportOf at h
  split_ifs at h with hskip
  cases hvalues : labelValues isValidLabelValue node params.topologyLabels with
  | error err =>
    rw [hvalues] at h
    exact absurd h (by simp)
  | ok values =>
    rw [hvalues] at h
    obtain rfl := Option.some.inj h
    refine ⟨?_, rfl, rfl⟩
    cases hreq : requested.lookup node.instanceID with
    | none => exact absurd (by simp [isSkipped, hreq]) hskip
    | some name => rfl

/-- A report has values that can be told apart in a path. -/
theorem usable_of_reportOf (hlabels : RejectsSeparators isValidLabelValue) {params : Params}
    {requested : GoMap String String}
    (h : reportOf isValidLabelValue params requested node = some r) :
    r.Usable params requested := by
  obtain ⟨hwanted, hid, hvalues⟩ := reportOf_eq_some h
  obtain ⟨hlen, hvalid⟩ := labelValues_eq_ok hvalues
  exact ⟨hwanted, hid ▸ node.instanceID_ne_empty, hlen, fun v hv => hlabels v (hvalid v hv)⟩

variable {nodes : List Node}

theorem usable_of_mem_reports (hlabels : RejectsSeparators isValidLabelValue) {params : Params}
    {requested : GoMap String String} (h : r ∈ reports isValidLabelValue params requested nodes) :
    r.Usable params requested := by
  obtain ⟨node, -, hnode⟩ := List.mem_filterMap.mp h
  exact usable_of_reportOf hlabels hnode

/-! ## Records -/

section Records

variable {sum256 : String → Vector UInt8 32} {fuel : Nat} {params : Params}
  {requested : GoMap String String}

/-- The record of a report. -/
def recordOf (sum256 : String → Vector UInt8 32) (fuel : Nat) (requested : GoMap String String)
    (r : Report) : Option InstanceTopology :=
  (switchTiers sum256 fuel requested r.values).map fun tiers =>
    { instanceID := r.id, fabricTiers := tiers, xclrDomainID := "", xclrSubDomainID := "" }

variable {inst : InstanceTopology}

/-- The record has the ID of the node. -/
theorem id_recordOf (h : recordOf sum256 fuel requested r = some inst) :
    inst.instanceID = r.id := by
  obtain ⟨tiers, -, rfl⟩ := Option.map_eq_some_iff.mp h
  rfl

variable {tiers : List FabricTier}

theorem length_switchTiers {values : List String}
    (h : switchTiers sum256 fuel requested values = some tiers) : tiers.length = values.length := by
  induction values generalizing tiers with
  | nil =>
    obtain rfl := Option.some.inj h
    rfl
  | cons value values ih =>
    rw [switchTiers] at h
    split at h
    · rename_i id rest hid hrest
      obtain rfl := Option.some.inj h
      rw [List.length_cons, List.length_cons, ih hrest]
    · exact absurd h (by simp)

/-- **The tiers**: the switch of tier `i` is named by the values from `i` on. -/
theorem getElem?_switchTiers {values : List String}
    (h : switchTiers sum256 fuel requested values = some tiers) (i : Nat) :
    (tiers.map (·.id))[i]? = if i < values.length then switchID sum256 fuel
      (values.drop i) requested else none := by
  induction values generalizing tiers i with
  | nil =>
    obtain rfl := Option.some.inj h
    simp
  | cons value values ih =>
    rw [switchTiers] at h
    cases hid : switchID sum256 fuel (value :: values) requested with
    | none =>
      rw [hid] at h
      exact absurd h (by simp)
    | some id =>
      cases hrest : switchTiers sum256 fuel requested values with
      | none =>
        rw [hid, hrest] at h
        exact absurd h (by simp)
      | some rest =>
        rw [hid, hrest] at h
        obtain rfl := Option.some.inj h
        cases i with
        | zero => simp [hid]
        | succ i =>
          rw [List.map_cons, List.getElem?_cons_succ, ih hrest i, List.drop_succ_cons,
            List.length_cons]
          simp only [Nat.add_lt_add_iff_right]

/-- The switch of a tier has the ID of the path above it. -/
theorem getElem?_tierIDs (h : recordOf sum256 fuel requested r = some inst) (i : Nat) :
    inst.tierIDs[i]? = if i < r.values.length then switchID sum256 fuel (r.values.drop i) requested
      else none := by
  obtain ⟨tiers, htiers, rfl⟩ := Option.map_eq_some_iff.mp h
  exact getElem?_switchTiers htiers i

/-- **One node** is passed over, or its record is added and its instance is eligible. -/
theorem addNode_eq_ok {st st' : ScanState}
    (h : addNode isValidLabelValue sum256 fuel params requested st node = some (.ok st')) :
    (reportOf isValidLabelValue params requested node = none ∧ st' = st) ∨
      ∃ r inst, reportOf isValidLabelValue params requested node = some r ∧
      recordOf sum256 fuel requested r = some inst ∧
        st' = { topo := st.topo ++ [inst], eligible := st.eligible.insert r.id r.name } := by
  unfold addNode at h
  unfold reportOf
  split_ifs at h ⊢ with hskip
  · exact Or.inl ⟨rfl, (Except.ok.inj (Option.some.inj h)).symm⟩
  · cases hvalues : labelValues isValidLabelValue node params.topologyLabels with
    | error err =>
      rw [hvalues] at h
      obtain ⟨key, value⟩ := err
      cases hmissing : params.onMissingLabel with
      | fail =>
        simp only [hmissing] at h
        exact absurd h (by simp)
      | skip =>
        simp only [hmissing] at h
        exact Or.inl ⟨rfl, (Except.ok.inj (Option.some.inj h)).symm⟩
    | ok values =>
      rw [hvalues] at h
      obtain ⟨tiers, htiers, hst⟩ := Option.map_eq_some_iff.mp h
      obtain rfl := Except.ok.inj hst
      exact Or.inr ⟨_, _, rfl, Option.map_eq_some_iff.mpr ⟨tiers, htiers, rfl⟩, rfl⟩

/-- **All nodes**: the records are those of the reports, and their instances are eligible. -/
theorem scanNodes_eq_ok {st st' : ScanState}
    (h : scanNodes isValidLabelValue sum256 fuel params requested nodes st = some (.ok st')) :
    ∃ insts, st'.topo = st.topo ++ insts ∧
      (reports isValidLabelValue params requested nodes).map (recordOf sum256 fuel requested) =
        insts.map some ∧
      ∀ id, st'.eligible.lookup id =
        if id ∈ (reports isValidLabelValue params requested nodes).map (·.id) then
          requested.lookup id else st.eligible.lookup id := by
  induction nodes generalizing st with
  | nil =>
    obtain rfl := Except.ok.inj (Option.some.inj h)
    exact ⟨[], by simp, rfl, fun id => by simp [reports]⟩
  | cons node nodes ih =>
    rw [scanNodes] at h
    cases hnode : addNode isValidLabelValue sum256 fuel params requested st node with
    | none =>
      rw [hnode] at h
      exact absurd h (by simp)
    | some res =>
      cases res with
      | error err =>
        rw [hnode] at h
        exact absurd h (by simp)
      | ok st₁ =>
        rw [hnode] at h
        obtain ⟨insts, htopo, hrecords, heligible⟩ := ih h
        rcases addNode_eq_ok hnode with ⟨hreport, rfl⟩ | ⟨r, inst, hreport, hrecord, rfl⟩
        · have hreports : reports isValidLabelValue params requested (node :: nodes) =
              reports isValidLabelValue params requested nodes :=
            List.filterMap_cons_none hreport
          rw [hreports]
          exact ⟨insts, htopo, hrecords, heligible⟩
        · have hreports : reports isValidLabelValue params requested (node :: nodes) =
              r :: reports isValidLabelValue params requested nodes :=
            List.filterMap_cons_some hreport
          rw [hreports]
          refine ⟨inst :: insts, by rw [htopo, List.append_assoc]; rfl,
            by rw [List.map_cons, hrecord, hrecords]; rfl, ?_⟩
          intro id
          rw [heligible, List.map_cons]
          by_cases hlater : id ∈ (reports isValidLabelValue params requested nodes).map (·.id)
          · rw [if_pos hlater, if_pos (List.mem_cons_of_mem _ hlater)]
          · rw [if_neg hlater, GoMap.lookup_insert_eq_ite]
            by_cases hid : id = r.id
            · rw [if_pos hid, if_pos (List.mem_cons.mpr (Or.inl hid)), hid,
                (reportOf_eq_some hreport).1]
            · rw [if_neg hid, if_neg (by simp [hid, hlater])]

variable {insts : ClusterTopology}

/-- The first record of an instance is that of its first report. -/
theorem find?_records {rs : List Report}
    (h : rs.map (recordOf sum256 fuel requested) = insts.map some) (id : String) :
    insts.find? (·.instanceID = id) = (rs.find? (·.id = id)).bind
      (recordOf sum256 fuel requested) := by
  induction rs generalizing insts with
  | nil =>
    obtain rfl : insts = [] := by simpa using h.symm
    rfl
  | cons r rs ih =>
    cases insts with
    | nil => exact absurd h (by simp)
    | cons inst insts =>
      rw [List.map_cons, List.map_cons, List.cons.injEq] at h
      rw [List.find?_cons, List.find?_cons, id_recordOf h.1]
      by_cases hid : r.id = id
      · simp [hid, h.1]
      · simp only [hid, decide_false]
        exact ih h.2

/-- Every record comes from a report. -/
theorem exists_report_of_mem {rs : List Report}
    (h : rs.map (recordOf sum256 fuel requested) = insts.map some) (hinst : inst ∈ insts) :
    ∃ r ∈ rs, recordOf sum256 fuel requested r = some inst :=
  List.mem_map.mp (h ▸ List.mem_map_of_mem hinst)

end Records

/-! ## The chains -/

/-- The values that name the switches of the reports. -/
def switchPaths (rs : List Report) : Set (List String) := {p | p ≠ [] ∧ ∃ r ∈ rs, p <:+ r.values}

section Chains

variable {sum256 : String → Vector UInt8 32} {fuel : Nat} {params : Params}
  {requested : GoMap String String} {rs : List Report}

theorem drop_mem_switchPaths (hr : r ∈ rs) {j : Nat} (hj : j < r.values.length) :
    r.values.drop j ∈ switchPaths rs :=
  ⟨by simpa using hj, r, hr, List.drop_suffix j r.values⟩

variable (husable : ∀ r ∈ rs, r.Usable params requested)
  (hinj : Set.InjOn (truncatedDigest sum256) (hashedStrings sum256 requested (switchPaths rs)))

include husable in
theorem valid_of_mem_switchPaths {p : List String} (hp : p ∈ switchPaths rs) :
    p ≠ [] ∧ ∀ v ∈ p, Unseparated v := by
  obtain ⟨hne, r, hr, hsuffix⟩ := hp
  exact ⟨hne, fun v hv => (husable r hr).valid v (hsuffix.subset hv)⟩

include husable hinj

/-- **Where two chains meet**: at the same instance, or at a tier from which on the values agree. -/
theorem chain_cases {r r' : Report} (hr : r ∈ rs) (hr' : r' ∈ rs) {a b : InstanceTopology}
    (ha : recordOf sum256 fuel requested r = some a)
    (hb : recordOf sum256 fuel requested r' = some b) {i k : Nat} {x : String}
    (hi : a.chain[i]? = some x) (hk : b.chain[k]? = some x) :
    (i = 0 ∧ k = 0 ∧ r.id = r'.id) ∨
      ∃ j, i = j + 1 ∧ k = j + 1 ∧ j < r.values.length ∧ r.values.drop j = r'.values.drop j := by
  have hswitch : ∀ {q : Report} {c : InstanceTopology} {j : Nat},
      recordOf sum256 fuel requested q = some c →
      c.tierIDs[j]? = some x → j < q.values.length ∧
      switchID sum256 fuel (q.values.drop j) requested = some x := by
    intro q c j hq hj
    rw [getElem?_tierIDs hq] at hj
    split_ifs at hj with hlt
    exact ⟨hlt, hj⟩
  -- A switch is no requested instance.
  have hapart : ∀ {q : Report} {c : InstanceTopology} {j : Nat},
      recordOf sum256 fuel requested q = some c →
      c.tierIDs[j]? = some x → ∀ p ∈ rs, x ≠ p.id := by
    intro q c j hq hj p hp heq
    refine (switchID_spec (hswitch hq hj).2).2 (heq ▸ ?_)
    exact GoMap.mem_iff_lookup.mpr ⟨p.name, (husable p hp).wanted⟩
  cases i with
  | zero =>
    have hxa : x = r.id := (Option.some.inj hi).symm.trans (id_recordOf ha)
    cases k with
    | zero =>
      exact Or.inl ⟨rfl, rfl, hxa.symm.trans ((Option.some.inj hk).symm.trans (id_recordOf hb))⟩
    | succ k => exact absurd hxa (hapart hb hk r hr)
  | succ i =>
    cases k with
    | zero => exact absurd ((Option.some.inj hk).symm.trans (id_recordOf hb)) (hapart ha hi r' hr')
    | succ k =>
      obtain ⟨hlt, hid⟩ := hswitch ha hi
      obtain ⟨hlt', hid'⟩ := hswitch hb hk
      have hdrop := switchID_inj hinj (fun p => valid_of_mem_switchPaths husable)
        (drop_mem_switchPaths hr hlt)
        (drop_mem_switchPaths hr' hlt') hid hid'
      have hlen := congrArg List.length hdrop
      rw [List.length_drop, List.length_drop, (husable r hr).length, (husable r' hr').length]
        at hlen
      rw [(husable r hr).length] at hlt
      rw [(husable r' hr').length] at hlt'
      obtain rfl : i = k := by omega
      exact Or.inr ⟨i, rfl, rfl, (husable r hr).length ▸ hlt, hdrop⟩

/-- **The first records give a tree.** -/
theorem treeRecords {insts : ClusterTopology}
    (hrecords : rs.map (recordOf sum256 fuel requested) = insts.map some)
    {i2n : GoMap String String} (hi2n : ∀ id, i2n.lookup id = if id ∈ rs.map (·.id) then
      requested.lookup id else none) :
    TreeRecords (firstRecords insts) i2n := by
  have hreport : ∀ {c : List String}, c ∈ requestedChains i2n (firstRecords insts) →
      ∃ inst ∈ firstRecords insts, ∃ r ∈ rs,
      recordOf sum256 fuel requested r = some inst ∧ inst.chain = c := by
    intro c hc
    obtain ⟨inst, hinst, -, rfl⟩ := mem_requestedChains.mp hc
    obtain ⟨r, hr, hrecord⟩ :=
      exists_report_of_mem hrecords ((firstRecords_sublist insts).subset hinst)
    exact ⟨inst, hinst, r, hr, hrecord, rfl⟩
  have hmem : ∀ id, id ∈ i2n → id ∈ rs.map (·.id) := by
    intro id hid
    obtain ⟨name, hname⟩ := GoMap.mem_iff_lookup.mp hid
    by_contra hnot
    rw [hi2n, if_neg hnot] at hname
    exact absurd hname (by simp)
  refine ⟨nodup_firstRecords insts, ?_, .of_index ?_ ?_, ?_, ?_⟩
  · intro inst hinst tier htier
    obtain ⟨r, -, hrecord⟩ :=
      exists_report_of_mem hrecords ((firstRecords_sublist insts).subset hinst)
    obtain ⟨j, hj⟩ := List.mem_iff_getElem?.mp (List.mem_map_of_mem (f := (·.id)) htier)
    have hswitch := getElem?_tierIDs hrecord j
    rw [InstanceTopology.tierIDs, hj] at hswitch
    split_ifs at hswitch
    exact (switchID_spec hswitch.symm).1
  · intro ca hca cb hcb i k x hi hk
    obtain ⟨a, hafirst, r, hr, ha, rfl⟩ := hreport hca
    obtain ⟨b, hbfirst, r', hr', hb, rfl⟩ := hreport hcb
    rcases chain_cases husable hinj hr hr' ha hb hi hk with ⟨rfl, rfl, hid⟩ | ⟨j, rfl,
      rfl, hlt, hdrop⟩
    · -- Both are the first record of the instance.
      rw [mem_firstRecords, id_recordOf ha, hid, ← id_recordOf hb] at hafirst
      rw [Option.some.inj (hafirst.symm.trans (mem_firstRecords.mp hbfirst))]
    · have hnext : r.values.drop (j + 1) = r'.values.drop (j + 1) := by
        rw [← List.drop_drop, ← List.drop_drop, hdrop]
      have hlen := (husable r hr).length.trans (husable r' hr').length.symm
      change a.tierIDs[j + 1]? = b.tierIDs[j + 1]?
      rw [getElem?_tierIDs ha, getElem?_tierIDs hb, hnext, hlen]
  · intro ca hca cb hcb i k x hi hk
    obtain ⟨a, -, r, hr, ha, rfl⟩ := hreport hca
    obtain ⟨b, -, r', hr', hb, rfl⟩ := hreport hcb
    rcases chain_cases husable hinj hr hr' ha hb hi hk with ⟨rfl, rfl, -⟩ | ⟨j, rfl, rfl, -⟩ <;> rfl
  · intro hempty
    obtain ⟨r, hr, hid⟩ := List.mem_map.mp (hmem _ hempty)
    exact (husable r hr).named hid
  · -- Every eligible instance has a record.
    intro id hid hnot
    refine absurd ?_ hnot
    obtain ⟨r, hr, rfl⟩ := List.mem_map.mp (hmem id hid)
    obtain ⟨inst, hinst, hrecord⟩ := List.mem_map.mp (hrecords ▸ List.mem_map_of_mem hr)
    rw [mem_map_firstRecords, ← id_recordOf hrecord.symm]
    exact List.mem_map_of_mem hinst

omit husable

/-! ## Enough fuel -/

/-- With enough fuel every path has switch IDs. -/
theorem exists_switchTiers {values : List String} (hpaths : ∀ p, p ≠ [] → p <:+ values →
      p ∈ switchPaths rs) :
    ∃ n, ∀ fuel ≥ n, ∃ tiers, switchTiers sum256 fuel requested values = some tiers := by
  induction values with
  | nil => exact ⟨0, fun fuel _ => ⟨[], rfl⟩⟩
  | cons value values ih =>
    obtain ⟨n, hn⟩ := ih fun p hne hsuffix =>
      hpaths p hne (hsuffix.trans (List.suffix_cons value values))
    obtain ⟨m, hm⟩ := exists_switchID hinj (hpaths (value :: values) (by simp) List.suffix_rfl)
    refine ⟨max n m, fun fuel hfuel => ?_⟩
    obtain ⟨tiers, htiers⟩ := hn fuel (le_trans (le_max_left n m) hfuel)
    obtain ⟨id, hid⟩ := hm fuel (le_trans (le_max_right n m) hfuel)
    exact ⟨{ id := id, name := "" } :: tiers, by rw [switchTiers, hid, htiers]⟩

/-- Some fuel is enough for all reports. -/
theorem exists_records {rs' : List Report} (hsub : ∀ r ∈ rs', r ∈ rs) :
    ∃ n, ∀ fuel ≥ n, ∀ r ∈ rs', ∃ inst, recordOf sum256 fuel requested r = some inst := by
  induction rs' with
  | nil => exact ⟨0, by simp⟩
  | cons r rs' ih =>
    obtain ⟨hr, hsub⟩ := List.forall_mem_cons.mp hsub
    obtain ⟨n, hn⟩ := ih hsub
    obtain ⟨m, hm⟩ := exists_switchTiers hinj fun p hne hsuffix => ⟨hne, r, hr, hsuffix⟩
    refine ⟨max n m, fun fuel hfuel => List.forall_mem_cons.mpr ⟨?_,
      hn fuel (le_trans (le_max_left n m) hfuel)⟩⟩
    obtain ⟨tiers, htiers⟩ := hm fuel (le_trans (le_max_right n m) hfuel)
    exact ⟨_, Option.map_eq_some_iff.mpr ⟨tiers, htiers, rfl⟩⟩

end Chains

/-- With enough fuel the scan comes to an end. -/
theorem exists_scanNodes {sum256 : String → Vector UInt8 32} {fuel : Nat} {params : Params}
    {requested : GoMap String String}
    (h : ∀ r ∈ reports isValidLabelValue params requested nodes, ∃ inst, recordOf sum256 fuel
      requested r = some inst)
    (st : ScanState) :
    ∃ res, scanNodes isValidLabelValue sum256 fuel params requested nodes st = some res := by
  induction nodes generalizing st with
  | nil => exact ⟨_, rfl⟩
  | cons node nodes ih =>
    have hrest : ∀ r ∈ reports isValidLabelValue params requested nodes, ∃ inst, recordOf sum256
        fuel requested r = some inst := by
      intro r hr
      obtain ⟨node', hnode', hreport⟩ := List.mem_filterMap.mp hr
      exact h r (List.mem_filterMap.mpr ⟨node', List.mem_cons_of_mem _ hnode', hreport⟩)
    obtain ⟨res, hres⟩ :
        ∃ res, addNode isValidLabelValue sum256 fuel params requested st node = some res := by
      unfold addNode
      split_ifs with hskip
      · exact ⟨_, rfl⟩
      · cases hvalues : labelValues isValidLabelValue node params.topologyLabels with
        | error err => cases params.onMissingLabel <;> exact ⟨_, rfl⟩
        | ok values =>
          have hreport : reportOf isValidLabelValue params requested node =
              some ⟨node.instanceID, (requested.lookup node.instanceID).getD "", values⟩ := by
            rw [reportOf, if_neg hskip, hvalues]
          obtain ⟨inst, hinst⟩ := h _ (List.mem_filterMap.mpr ⟨node, List.mem_cons_self, hreport⟩)
          obtain ⟨tiers, htiers, -⟩ := Option.map_eq_some_iff.mp hinst
          exact ⟨_, by simp only [htiers, Option.map_some]; rfl⟩
    rw [scanNodes, hres]
    cases res with
    | error err => exact ⟨_, rfl⟩
    | ok st₁ => exact ih hrest st₁

/-! ## The tree -/

/-- **The tree of the reports**, for the requested instances. -/
structure ReportsTree (g : Graph Ref) (requested : GoMap String String) (rs : List Report) :
    Prop where
  accepted : ∃ fuel st, initTree fuel (some g) = some (.ok st)
  placed : ∀ r ∈ rs, ∃ path, g.PlacedOnce r.id r.name path
  only : ∀ keys v, keys ≠ [] → g.Walk keys v → (g.heap v).vertices.entries = [] →
    ∃ r ∈ rs, r.id = (g.heap v).id
  shared : ∀ a b, IsFirst rs a → IsFirst rs b → ∀ i < a.values.length,
    ((∃ sw, g.TierSwitch a.id i sw ∧ g.TierSwitch b.id i sw) ↔ ∀ j ≥ i, a.values[j]? = b.values[j]?)
  apart : ∀ keys v, keys ≠ [] → g.Walk keys v → (g.heap v).vertices.entries ≠ [] →
    (g.heap v).id ∉ requested

theorem IsFirst.mem {rs : List Report} (h : IsFirst rs r) : r ∈ rs := List.mem_of_find?_eq_some h

theorem lookup_requested_singleton (m : GoMap String String) (id : String) :
    (requested [m]).lookup id = m.lookup id := by
  have hcopy : requested [m] = (∅ : GoMap String String).copy m := rfl
  rw [hcopy, GoMap.lookup_copy, AList.lookup_empty, Option.or_none]

section Tree

variable {sum256 : String → Vector UInt8 32} {fuel : Nat} {params : Params}
  {requested : GoMap String String} {rs : List Report}
  {insts : ClusterTopology} {i2n : GoMap String String} {g : Graph Ref}
  (husable : ∀ r ∈ rs, r.Usable params requested)
  (hinj : Set.InjOn (truncatedDigest sum256) (hashedStrings sum256 requested (switchPaths rs)))
  (hrecords : rs.map (recordOf sum256 fuel requested) = insts.map some)
  (hi2n : ∀ id, i2n.lookup id = if id ∈ rs.map (·.id) then requested.lookup id else none)
  (htree : g.IsTreeOf (firstRecords insts) i2n)

/-- The record of a first report. -/
theorem IsFirst.exists_record (hrecords : rs.map (recordOf sum256 fuel requested) = insts.map some)
    (h : IsFirst rs r) :
    ∃ inst ∈ firstRecords insts, recordOf sum256 fuel requested r = some inst := by
  obtain ⟨inst, hinst, hrecord⟩ := List.mem_map.mp (hrecords ▸ List.mem_map_of_mem h.mem)
  refine ⟨inst, mem_firstRecords.mpr ?_, hrecord.symm⟩
  rw [find?_records hrecords, id_recordOf hrecord.symm, h, Option.bind_some, hrecord]

theorem length_tierIDs {inst : InstanceTopology}
    (h : recordOf sum256 fuel requested r = some inst) : inst.tierIDs.length = r.values.length := by
  obtain ⟨tiers, htiers, rfl⟩ := Option.map_eq_some_iff.mp h
  exact (List.length_map _).trans (length_switchTiers htiers)

theorem forall_getElem?_iff_drop {α : Type} (l l' : List α) (i : Nat) :
    (∀ j ≥ i, l[j]? = l'[j]?) ↔ l.drop i = l'.drop i := by
  constructor
  · intro h
    refine List.ext_getElem? fun j => ?_
    rw [List.getElem?_drop, List.getElem?_drop, h (i + j) (by omega)]
  · intro h j hj
    have hj' := congrArg (·[j - i]?) h
    simpa only [List.getElem?_drop, Nat.add_sub_cancel' hj] using hj'

include husable hi2n in
/-- The instance of a report is eligible under its requested name. -/
theorem lookup_record (hr : r ∈ rs) : i2n.lookup r.id = some r.name := by
  rw [hi2n, if_pos (List.mem_map_of_mem hr), (husable r hr).wanted]

include husable hinj hrecords hi2n htree

/-- **Two instances share a switch** exactly when their values agree from its tier up. -/
theorem shared_iff {a b : Report} (ha : IsFirst rs a) (hb : IsFirst rs b) {i : Nat}
    (hi : i < a.values.length) :
    (∃ sw, g.TierSwitch a.id i sw ∧ g.TierSwitch b.id i sw) ↔
      a.values.drop i = b.values.drop i := by
  obtain ⟨insta, hinsta, hreca⟩ := ha.exists_record hrecords
  obtain ⟨instb, hinstb, hrecb⟩ := hb.exists_record hrecords
  have hida := id_recordOf hreca
  have hidb := id_recordOf hrecb
  have hnamea : i2n.lookup insta.instanceID = some a.name := by
    rw [hida, lookup_record husable hi2n ha.mem]
  have hnameb : i2n.lookup instb.instanceID = some b.name := by
    rw [hidb, lookup_record husable hi2n hb.mem]
  have hlen : a.values.length = b.values.length :=
    (husable a ha.mem).length.trans (husable b hb.mem).length.symm
  rw [← hida, ← hidb]
  constructor
  · rintro ⟨sw, hswa, hswb⟩
    obtain ⟨hlt, hwa⟩ := (htree.tierSwitch_iff hinsta hnamea).mp hswa
    obtain ⟨-, hwb⟩ := (htree.tierSwitch_iff hinstb hnameb).mp hswb
    have htail : insta.tierIDs.drop i = instb.tierIDs.drop i :=
      List.reverse_inj.mp (htree.shaped.unique _ _ _ _ hwa hwb rfl)
    -- The chains meet at the switch of tier `i`.
    have hx : insta.chain[i + 1]? = some insta.tierIDs[i] := List.getElem?_eq_getElem hlt
    have hy : instb.chain[i + 1]? = some insta.tierIDs[i] :=
      ((forall_getElem?_iff_drop _ _ i).mpr htail i le_rfl).symm.trans hx
    rcases chain_cases husable hinj ha.mem hb.mem hreca hrecb hx hy with
      ⟨h0, -⟩ | ⟨j, hj, -, -, hvalues⟩
    · exact absurd h0 (by omega)
    · obtain rfl : i = j := by omega
      exact hvalues
  · intro hvalues
    have htail : insta.tierIDs.drop i = instb.tierIDs.drop i := by
      refine List.ext_getElem? fun j => ?_
      rw [List.getElem?_drop, List.getElem?_drop, getElem?_tierIDs hreca, getElem?_tierIDs hrecb,
        hlen, ← List.drop_drop,
        hvalues, List.drop_drop]
    have hlt : i < insta.tierIDs.length := (length_tierIDs hreca).symm ▸ hi
    obtain ⟨sw, hsw⟩ := htree.exists_tierSwitch hinsta hnamea hlt
    obtain ⟨-, hwalk⟩ := (htree.tierSwitch_iff hinsta hnamea).mp hsw
    refine ⟨sw, hsw, (htree.tierSwitch_iff hinstb hnameb).mpr ⟨?_, htail ▸ hwalk⟩⟩
    rw [length_tierIDs hrecb, ← hlen]
    exact hi

/-- A tree of the records is a tree of the reports. -/
theorem reportsTree_of_isTreeOf (hroot : g.tiers = some .root) : ReportsTree g requested rs where
  accepted := exists_initTree hroot htree.shaped
  placed r hr := by
    -- The first report of the instance has the same ID and name.
    obtain ⟨r₁, hfirst⟩ : ∃ r₁, rs.find? (·.id = r.id) = some r₁ :=
      Option.isSome_iff_exists.mp (List.find?_isSome.mpr ⟨r, hr, by simp⟩)
    have hid : r₁.id = r.id := by simpa using List.find?_some hfirst
    have hisFirst : IsFirst rs r₁ := by rw [IsFirst, hid, hfirst]
    obtain ⟨inst, hinst, hrec⟩ := hisFirst.exists_record hrecords
    have hname : i2n.lookup inst.instanceID = some r.name := by
      rw [id_recordOf hrec, hid, lookup_record husable hi2n hr]
    have hplaced := htree.complete inst hinst r.name hname
    rw [id_recordOf hrec, hid] at hplaced
    exact ⟨_, hplaced⟩
  only keys v hkeys hwalk hleaf := by
    obtain ⟨name, hname⟩ := GoMap.mem_iff_lookup.mp (htree.leaf keys v hkeys hwalk hleaf)
    rw [hi2n] at hname
    split_ifs at hname with hmem
    exact List.mem_map.mp hmem
  shared a b ha hb i hi := by
    rw [shared_iff husable hinj hrecords hi2n htree ha hb hi, forall_getElem?_iff_drop]
  apart keys v hkeys hwalk hsw := by
    rcases htree.switch keys v hkeys hwalk hsw with ⟨inst, hinst, -, hmem⟩ | ⟨-, id, hid, hnot⟩
    · obtain ⟨r, -, hrec⟩ :=
        exists_report_of_mem hrecords ((firstRecords_sublist insts).subset hinst)
      obtain ⟨j, hj⟩ := List.mem_iff_getElem?.mp hmem
      rw [getElem?_tierIDs hrec] at hj
      split_ifs at hj
      exact (switchID_spec hj).2
    · -- Every eligible instance has a record.
      obtain ⟨name, hname⟩ := GoMap.mem_iff_lookup.mp hid
      rw [hi2n] at hname
      split_ifs at hname with hmem
      obtain ⟨r, hr, rfl⟩ := List.mem_map.mp hmem
      obtain ⟨inst, hinst, hrec⟩ := List.mem_map.mp (hrecords ▸ List.mem_map_of_mem hr)
      rw [mem_map_firstRecords, ← id_recordOf hrec.symm] at hnot
      exact absurd (List.mem_map_of_mem hinst) hnot

end Tree

variable {cis : List (GoMap String String)}

/-- What the scan of the nodes leaves for `ToGraph`. -/
theorem scanned {sum256 : String → Vector UInt8 32} {fuel : Nat} {params : Params} {st : ScanState}
    (h : scanNodes isValidLabelValue sum256 fuel params (requested cis) nodes
      { topo := [], eligible := ∅ } = some (.ok st)) :
    (reports isValidLabelValue params (requested cis) nodes).map
    (recordOf sum256 fuel (requested cis)) = st.topo.map some ∧
      ∀ id, (requested [st.eligible]).lookup id =
        if id ∈ (reports isValidLabelValue params (requested cis) nodes).map (·.id) then
          (requested cis).lookup id else none := by
  obtain ⟨insts, htopo, hrecords, heligible⟩ := scanNodes_eq_ok h
  rw [List.nil_append] at htopo
  refine ⟨htopo ▸ hrecords, fun id => ?_⟩
  rw [lookup_requested_singleton, heligible, AList.lookup_empty]

/-- **The provider returns** once the fuel is enough for the salts and for the depth of the tree. -/
theorem exists_generateTopologyConfig (hlabels : RejectsSeparators isValidLabelValue)
    {sum256 : String → Vector UInt8 32} (order : RangeOrder) {params : Params}
    (hinj : Set.InjOn (truncatedDigest sum256)
      (hashedStrings sum256 (requested cis)
        (switchPaths (reports isValidLabelValue params (requested cis) nodes)))) :
    ∃ n, ∀ fuel ≥ n, ∃ res, generateTopologyConfig isValidLabelValue sum256 order fuel params
      (.ok nodes) cis = some res := by
  have husable : ∀ r ∈ reports isValidLabelValue params (requested cis) nodes, r.Usable params
      (requested cis) :=
    fun r => usable_of_mem_reports hlabels
  obtain ⟨n, hn⟩ := exists_records hinj fun r hr => hr
  refine ⟨max n (params.topologyLabels.length + 1), fun fuel hfuel => ?_⟩
  obtain ⟨res, hres⟩ :=
    exists_scanNodes (hn fuel (le_trans (le_max_left _ _) hfuel)) { topo := [], eligible := ∅ }
  simp only [generateTopologyConfig, hres]
  cases res with
  | error err => exact ⟨_, rfl⟩
  | ok st =>
    dsimp only
    split_ifs
    · exact ⟨_, rfl⟩
    · obtain ⟨hrecords, hi2n⟩ := scanned hres
      have hlen : ∀ inst ∈ firstRecords st.topo, inst.chain.length ≤ fuel := by
        intro inst hinst
        obtain ⟨r, hr, hrec⟩ :=
          exists_report_of_mem hrecords ((firstRecords_sublist _).subset hinst)
        have hchain : inst.chain.length = params.topologyLabels.length + 1 := by
          rw [InstanceTopology.chain, List.length_cons, length_tierIDs hrec, (husable r hr).length]
        exact hchain ▸ le_trans (le_max_right _ _) hfuel
      obtain ⟨g, hg⟩ := (treeRecords husable hinj hrecords hi2n).exists_toGraph order hlen
      exact ⟨.ok g, by rw [toGraph_firstRecords, hg]; rfl⟩

/-- A returned graph comes from a scan and from `ToGraph`. -/
theorem generateTopologyConfig_eq_ok {sum256 : String → Vector UInt8 32} {order : RangeOrder}
    {fuel : Nat} {params : Params} {g : Graph Ref}
    (h : generateTopologyConfig isValidLabelValue sum256 order fuel params
      (.ok nodes) cis = some (.ok g)) :
    ∃ st, scanNodes isValidLabelValue sum256 fuel params (requested cis) nodes
      { topo := [], eligible := ∅ } = some (.ok st) ∧
      toGraph order fuel st.topo [st.eligible] 0 false = some g := by
  simp only [generateTopologyConfig] at h
  split at h
  · exact absurd h (by simp)
  · exact absurd h (by simp)
  · rename_i st hst
    split_ifs at h
    · exact absurd h (by simp)
    · obtain ⟨g', hg', heq⟩ := Option.map_eq_some_iff.mp h
      exact ⟨st, hst, Except.ok.inj heq ▸ hg'⟩

/-- **The provider yields a tree.** If the truncated digest does not collide on the strings that are
hashed, `GenerateTopologyConfig` returns, and a graph that it returns is the tree of its reports. -/
theorem generateTopologyConfig_tree (isValidLabelValue : String → List String)
    (hlabels : RejectsSeparators isValidLabelValue) (sum256 : String → Vector UInt8 32)
    (order : RangeOrder) (params : Params) (nodes : List Node) (cis : List (GoMap String String))
    (hinj : Set.InjOn (truncatedDigest sum256)
      (hashedStrings sum256 (requested cis)
        (switchPaths (reports isValidLabelValue params (requested cis) nodes)))) :
    (∃ n, ∀ fuel ≥ n, ∃ res, generateTopologyConfig isValidLabelValue sum256 order fuel params
      (.ok nodes) cis = some res) ∧
      ∀ fuel g, generateTopologyConfig isValidLabelValue sum256 order fuel params (.ok nodes) cis =
        some (.ok g) →
        ReportsTree g (requested cis) (reports isValidLabelValue params (requested cis) nodes) := by
  refine ⟨exists_generateTopologyConfig hlabels order hinj, fun fuel g hg => ?_⟩
  have husable : ∀ r ∈ reports isValidLabelValue params (requested cis) nodes, r.Usable params
      (requested cis) :=
    fun r => usable_of_mem_reports hlabels
  obtain ⟨st, hst, hgraph⟩ := generateTopologyConfig_eq_ok hg
  obtain ⟨hrecords, hi2n⟩ := scanned hst
  rw [toGraph_firstRecords] at hgraph
  have hroot : g.tiers = some .root := by
    obtain ⟨st', -, rfl⟩ := Option.map_eq_some_iff.mp hgraph
    rfl
  exact reportsTree_of_isTreeOf husable hinj hrecords hi2n
    ((treeRecords husable hinj hrecords hi2n).isTreeOf hgraph) hroot

/-! ## Two racks of one zone -/

/-- A digest for short strings: their bytes. -/
def shortDigest (s : String) : Vector UInt8 32 :=
  Vector.ofFn fun i => (s.toUTF8.data.toList[i.val]?).getD 0

/-- A check that accepts the letters and digits of label values. -/
def labelErrors (value : String) : List String :=
  if value.toList.all Char.isAlphanum then [] else ["not alphanumeric"]

theorem labelErrors_rejects : RejectsSeparators labelErrors := by
  intro value hvalue
  have hall : ∀ c ∈ value.toList, c.isAlphanum = true := by
    simpa [labelErrors] using hvalue
  exact ⟨fun hmem => absurd (hall _ hmem) (by decide), fun hmem => absurd (hall _ hmem) (by decide)⟩

/-- The label values, closest first. -/
def rackParams : Params where
  topologyLabels := ["rack", "zone"]
  requireReady := false
  onMissingLabel := .skip

/-- A node in a rack of the zone `z`. -/
def rackNode (name rack : String) (h : name ≠ "") : Node where
  name := name
  instanceAnnotation := none
  labels := (AList.singleton "rack" rack).insert "zone" "z"
  deleted := false
  conditions := []
  named := h

/-- Two requested nodes. -/
def rackRequest : List (GoMap String String) := [(AList.singleton "a" "a").insert "b" "b"]

def rackNodes : List Node := [rackNode "a" "r1" (by decide), rackNode "b" "r2" (by decide)]

theorem reports_rackNodes :
    reports labelErrors rackParams (requested rackRequest) rackNodes = [⟨"a", "a", ["r1", "z"]⟩,
      ⟨"b", "b", ["r2", "z"]⟩] := by decide

/-- No salt is needed, so three strings are hashed. -/
theorem hashedStrings_rackNodes : hashedStrings shortDigest (requested rackRequest)
    (switchPaths (reports labelErrors rackParams (requested rackRequest) rackNodes)) ⊆
      {"r1/z#0", "r2/z#0", "z#0"} := by
  rw [reports_rackNodes]
  rintro s ⟨values, ⟨hne, r, hr, hsuffix⟩, salt, htried, rfl⟩
  have hvalues : values = ["r1", "z"] ∨ values = ["r2", "z"] ∨ values = ["z"] := by
    rcases List.mem_cons.mp hr with rfl | hr
    · have hcases : values = ["r1", "z"] ∨ values = ["z"] := by
        simpa [List.suffix_cons_iff, hne] using hsuffix
      exact hcases.imp_right Or.inr
    · obtain rfl := List.mem_singleton.mp hr
      exact Or.inr (by simpa [List.suffix_cons_iff, hne] using hsuffix)
  have hfree : saltedID shortDigest values 0 ∉ requested rackRequest := by
    rcases hvalues with rfl | rfl | rfl <;> decide
  obtain rfl : salt = 0 := by
    by_contra hpos
    exact hfree (htried 0 (Nat.pos_of_ne_zero hpos))
  rcases hvalues with rfl | rfl | rfl
  · exact Or.inl (by decide)
  · exact Or.inr (Or.inl (by decide))
  · exact Or.inr (Or.inr (by decide))

/-- Two nodes in different racks of a zone share its switch and no other. -/
theorem rackNodes_tree :
    ∃ g, generateTopologyConfig labelErrors shortDigest .entries 3 rackParams
    (.ok rackNodes) rackRequest = some (.ok g) ∧
    ReportsTree g (requested rackRequest)
      (reports labelErrors rackParams (requested rackRequest) rackNodes) := by
  have hrun : ((generateTopologyConfig labelErrors shortDigest .entries 3 rackParams (.ok rackNodes)
      rackRequest).map
      fun res => res.toOption.isSome) = some true := by decide
  obtain ⟨res, hres, hok⟩ := Option.map_eq_some_iff.mp hrun
  cases res with
  | error err => exact absurd hok (by simp [Except.toOption])
  | ok g =>
    refine ⟨g, hres, ?_⟩
    refine (generateTopologyConfig_tree labelErrors labelErrors_rejects shortDigest .entries
      rackParams rackNodes rackRequest
      ?_).2 3 g hres
    refine Set.InjOn.mono hashedStrings_rackNodes ?_
    rintro s (rfl | rfl | rfl) s' (rfl | rfl | rfl) h
    all_goals first | rfl | exact absurd h (by decide)

end Topograph.Nodelabels
