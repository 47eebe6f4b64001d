import Topograph.Lib.Loops
import Topograph.GraphEngine.Instances

/-! # Which instances are reported

The records of `deriveInstances` should be the requested leaves of the tier tree, one for each
instance ID, and the requested hosts of the domains that stand for no such leaf. A host is looked up
by its instance ID, or failing that by its host name; the record that is found need not be a leaf,
it may come from an earlier host. So a host can be taken for another one. The records are the
intended ones for requests for which no host is (`derive_reported`). `WalkDone` and `Derived` say
what holds after a part of the leaves and of the hosts. -/

namespace Topograph.GraphEngine

open Topograph.Topology
open Topograph.K8s (ValueGraph keyTopologyXclrDomain keyTopologyXclrSubDomain)

/-! ## Leaves -/

section Leaves

variable (requested : Option (Finset String))

/-- The first requested leaf with an instance ID. -/
def reportedLeaf (ls : List Leaf) (id : String) : Option Leaf :=
  if id = "" then none else ls.find? fun e => decide (instanceID e.vertex = id) &&
    wanted requested id e.vertex.name

/-- The leaf reported under an ID has a name other than its ID. -/
def LeafNamed (ls : List Leaf) (name id : String) : Prop :=
  ∃ e, reportedLeaf requested ls id = some e ∧ e.vertex.name = name ∧ name ≠ "" ∧ name ≠ id

/-- What holds after the visits of some leaves. -/
structure WalkDone (done : List Leaf) (st : DeriveState) : Prop where
  instances : ∀ id, st.instances.lookup id =
    (reportedLeaf requested done id).map fun e =>
    { id := id, networkLayers := e.layers, labels := ∅ }
  named : ∀ name id, st.nameToID.lookup name = some id → LeafNamed requested done name id
  mem_named : ∀ name id, LeafNamed requested done name id → name ∈ st.nameToID

variable {requested}

/-- A requested instance is named by its ID or by its host name. -/
theorem wanted_some {r : Finset String} {id name : String} :
    wanted (some r) id name = true ↔ id ∈ r ∨ name ∈ r := by
  simp [wanted]

theorem walkDone_empty (requested : Option (Finset String)) :
    WalkDone requested [] { instances := ∅, nameToID := ∅ } where
  instances id := by
    rw [reportedLeaf]
    split_ifs <;> rfl
  named name id hlook := absurd hlook (by simp)
  mem_named name id hleaf := by
    obtain ⟨e, he, -⟩ := hleaf
    rw [reportedLeaf] at he
    split_ifs at he
    exact absurd he (by simp)

theorem reportedLeaf_ne {ls : List Leaf} {id : String} {e : Leaf}
    (h : reportedLeaf requested ls id = some e) : id ≠ "" := by
  rintro rfl
  rw [reportedLeaf, if_pos rfl] at h
  exact absurd h (by simp)

/-- A leaf behind the others counts if it is requested and its instance ID is new. -/
theorem reportedLeaf_append_singleton (ls : List Leaf) (e : Leaf) (id : String) :
    reportedLeaf requested (ls ++ [e]) id =
      (reportedLeaf requested ls id).or
        (if instanceID e.vertex ≠ "" ∧ wanted requested (instanceID e.vertex) e.vertex.name then
          if id = instanceID e.vertex then some e else none
        else none) := by
  rw [reportedLeaf, reportedLeaf]
  by_cases hid : id = ""
  · simp only [if_pos hid, Option.none_or]
    split_ifs with hnew heq
    · exact absurd (heq.symm.trans hid) hnew.1
    · rfl
    · rfl
  · rw [if_neg hid, if_neg hid, List.find?_append]
    congr 1
    by_cases heq : id = instanceID e.vertex
    · subst heq
      by_cases hwanted :
        wanted requested (instanceID e.vertex) e.vertex.name <;> simp [hid, hwanted]
    · simp [heq, Ne.symm heq]

variable {st : DeriveState}

/-- A leaf without an ID, known already or not requested is skipped. -/
theorem addLeaf_of_skip {path : List String} {v : VTree}
    (h : instanceID v = "" ∨ instanceID v ∈ st.instances ∨
      ¬ wanted requested (instanceID v) v.name) :
    addLeaf requested path v st = st := by
  rw [addLeaf]
  by_cases hid : instanceID v = ""
  · rw [if_pos hid]
  · rw [if_neg hid]
    rcases h.resolve_left hid with hmem | hwanted
    · rw [if_pos hmem]
    · rw [if_pos hwanted, ite_self]

/-- **One leaf.** -/
theorem WalkDone.step {done : List Leaf} (h : WalkDone requested done st) (e : Leaf) :
    WalkDone requested (done ++ [e]) (visitLeaf requested [] st e) := by
  have hmem : instanceID e.vertex ∈ st.instances ↔
      ∃ e', reportedLeaf requested done (instanceID e.vertex) = some e' := by
    rw [GoMap.mem_iff_lookup, h.instances]
    simp only [Option.map_eq_some_iff]
    exact ⟨fun ⟨_, e', he', _⟩ => ⟨e', he'⟩, fun ⟨e', he'⟩ => ⟨_, e', he', rfl⟩⟩
  rw [visitLeaf, foldl_nextPath, List.nil_append]
  by_cases hskip : instanceID e.vertex = "" ∨ instanceID e.vertex ∈ st.instances ∨
      ¬ wanted requested (instanceID e.vertex) e.vertex.name
  · -- The leaf is not the first requested one of its instance ID.
    have hsame : reportedLeaf requested (done ++ [e]) = reportedLeaf requested done := by
      funext id
      rw [reportedLeaf_append_singleton]
      split_ifs with hnew heq
      · obtain ⟨e', he'⟩ :=
          hmem.mp (hskip.resolve_left hnew.1 |>.resolve_right (by simpa using hnew.2))
        rw [heq, he', Option.some_or]
      · exact Option.or_none
      · exact Option.or_none
    rw [addLeaf_of_skip hskip]
    exact ⟨by rw [hsame]; exact h.instances, by simpa only [LeafNamed, hsame] using h.named,
      by simpa only [LeafNamed, hsame] using h.mem_named⟩
  · push Not at hskip
    obtain ⟨hid, hfree, hwanted⟩ := hskip
    have hnone : reportedLeaf requested done (instanceID e.vertex) = none :=
      Option.eq_none_iff_forall_ne_some.mpr fun e' he' => hfree (hmem.mpr ⟨e', he'⟩)
    have hnew : ∀ id, reportedLeaf requested (done ++ [e]) id =
        if id = instanceID e.vertex then some e else reportedLeaf requested done id := by
      intro id
      rw [reportedLeaf_append_singleton, if_pos ⟨hid, hwanted⟩]
      split_ifs with heq
      · rw [heq, hnone, Option.none_or]
      · exact Option.or_none
    have hnamed : ∀ name id, LeafNamed requested (done ++ [e]) name id ↔
        LeafNamed requested done name id ∨ id = instanceID e.vertex ∧ e.vertex.name = name ∧
        name ≠ "" ∧ name ≠ id := by
      intro name id
      simp only [LeafNamed, hnew]
      by_cases heq : id = instanceID e.vertex
      · simp [heq, hnone]
      · simp [heq]
    rw [addLeaf, if_neg hid, if_neg hfree, if_neg (by simpa using hwanted)]
    refine ⟨fun id => ?_, fun name id hlook => ?_, fun name id hleaf => ?_⟩
    · dsimp only
      rw [GoMap.lookup_insert_eq_ite, hnew, h.instances]
      split_ifs with heq
      · rw [heq, Option.map_some, Leaf.layers]
      · rfl
    · rw [hnamed]
      split_ifs at hlook with hname
      · rw [GoMap.lookup_insert_eq_ite] at hlook
        split_ifs at hlook with heq
        · obtain rfl := Option.some.inj hlook
          exact Or.inr ⟨rfl, heq.symm, heq ▸ hname.1, heq ▸ hname.2.1⟩
        · exact Or.inl (h.named name id hlook)
      · exact Or.inl (h.named name id hlook)
    · rcases (hnamed name id).mp hleaf with hold | ⟨rfl, rfl, hne, hid'⟩
      · have hin := h.mem_named name id hold
        split_ifs with hname
        · exact (AList.mem_insert _).mpr (Or.inr hin)
        · exact hin
      · split_ifs with hname
        · exact (AList.mem_insert _).mpr (Or.inl rfl)
        · by_contra hnot
          exact hname ⟨hne, hid', hnot⟩

end Leaves

/-! ## Hosts -/

section Hosts

variable (requested : Option (Finset String)) (ls : List Leaf)

/-- The ID a host has by itself. -/
def ownID (host : HostInfo) : String :=
  if host.instanceID = "" then host.hostName else host.instanceID

/-- The host stands for a reported leaf: by its instance ID, or by its host name. -/
def OnLeaf (host : HostInfo) : Prop :=
  (∃ e, reportedLeaf requested ls host.instanceID = some e) ∨
    (∃ id, LeafNamed requested ls host.hostName id) ∨
    ∃ e, reportedLeaf requested ls host.hostName = some e

/-- The record that a host stands for: the reported leaf of its instance ID, failing that a reported
leaf of its host name, and its own one if there is none. -/
def StandsFor (host : HostInfo) (id : String) : Prop :=
  (id = host.instanceID ∧ ∃ e, reportedLeaf requested ls host.instanceID = some e) ∨
    reportedLeaf requested ls host.instanceID = none ∧
      (LeafNamed requested ls host.hostName id ∨
        (∀ id', ¬ LeafNamed requested ls host.hostName id') ∧
          (id = host.hostName ∧ (∃ e, reportedLeaf requested ls host.hostName = some e) ∨
            id = ownID host ∧ reportedLeaf requested ls host.hostName = none))

/-- A requested host that stands for no leaf. -/
def HostOnly (host : HostInfo) : Prop :=
  ownID host ≠ "" ∧ wanted requested (ownID host) host.hostName = true ∧ ¬ OnLeaf requested ls host

/-- **No host is taken for another one**: if the name of a host is the ID of one in front of it,
then its own ID is that of one in front of it too. -/
def Apart (hosts : List (String × HostInfo)) : Prop :=
  ∀ before entry behind, hosts = before ++ entry :: behind → HostOnly requested ls entry.2 →
    ∀ other ∈ before, HostOnly requested ls other.2 → ownID other.2 = entry.2.hostName →
      ∃ earlier ∈ before, HostOnly requested ls earlier.2 ∧ ownID earlier.2 = ownID entry.2

/-- Every ID stands under one host name. -/
def OneName (hosts : List (String × HostInfo)) : Prop :=
  ∀ x ∈ hosts, ∀ y ∈ hosts, HostOnly requested ls x.2 → HostOnly requested ls y.2 →
    ownID x.2 = ownID y.2 →
    x.2.hostName = y.2.hostName

/-- What holds of the records after the visits of some hosts. -/
structure Derived (hosts : List (String × HostInfo)) (records : GoMap String Instance) : Prop where
  /-- There is one record for an instance ID. -/
  id_eq : ∀ id r, records.lookup id = some r → r.id = id
  /-- The requested leaves are reported, with the switches above the first one. -/
  leaf : ∀ id e, reportedLeaf requested ls id = some e → ∃ r, records.lookup id = some r ∧
    r.networkLayers = e.layers
  /-- Any other record is that of a requested host that stands for no leaf, and has labels. -/
  hostOnly : ∀ id r, records.lookup id = some r → reportedLeaf requested ls id = none →
    r.networkLayers = [] ∧ r.labels ≠ ∅ ∧
    ∃ entry ∈ hosts, HostOnly requested ls entry.2 ∧ ownID entry.2 = id
  /-- If no host is taken for another one, all these hosts are reported. -/
  host : Apart requested ls hosts → ∀ entry ∈ hosts, HostOnly requested ls entry.2 →
    ownID entry.2 ∈ records
  /-- The labels of a record are those of one host that stands for it. -/
  labels : ∀ id r, records.lookup id = some r → r.labels = ∅ ∨
    ∃ entry ∈ hosts, StandsFor requested ls entry.2 id ∧ r.labels = setLabels ∅ entry.1 entry.2

variable {requested ls} {st : DeriveState}

/-- After the walk the leaves are recorded, and no hosts yet. -/
theorem WalkDone.derived (h : WalkDone requested ls st) : Derived requested ls [] st.instances where
  id_eq id r hr := by
    rw [h.instances, Option.map_eq_some_iff] at hr
    obtain ⟨e, -, rfl⟩ := hr
    rfl
  leaf id e he := ⟨_, by rw [h.instances, he, Option.map_some], rfl⟩
  hostOnly id r hr hnone := by
    rw [h.instances, hnone] at hr
    exact absurd hr (by simp)
  host := by simp
  labels id r hr := by
    rw [h.instances, Option.map_eq_some_iff] at hr
    obtain ⟨e, -, rfl⟩ := hr
    exact Or.inl rfl

variable {id : String}

theorem Derived.ne {hosts : List (String × HostInfo)} {records : GoMap String Instance}
    (h : Derived requested ls hosts records) (hid : id ∈ records) : id ≠ "" := by
  obtain ⟨r, hr⟩ := GoMap.mem_iff_lookup.mp hid
  cases hleaf : reportedLeaf requested ls id with
  | none =>
    obtain ⟨-, -, entry, -, hentry, rfl⟩ := h.hostOnly id r hr hleaf
    exact hentry.1
  | some e => exact reportedLeaf_ne hleaf

theorem Derived.mem_of_leaf {hosts : List (String × HostInfo)} {records : GoMap String Instance}
    (h : Derived requested ls hosts records) {e : Leaf}
    (he : reportedLeaf requested ls id = some e) : id ∈ records := by
  obtain ⟨r, hr, -⟩ := h.leaf id e he
  exact GoMap.mem_iff_lookup.mpr ⟨r, hr⟩

/-- Hosts are apart when more hosts are. -/
theorem Apart.of_append {hosts rest : List (String × HostInfo)}
    (h : Apart requested ls (hosts ++ rest)) : Apart requested ls hosts := by
  intro before entry behind heq
  exact h before entry (behind ++ rest) (by rw [heq, List.append_assoc, List.cons_append])

/-- Host names that are the ID of no other host. -/
theorem apart_of_names {hosts : List (String × HostInfo)}
    (h : ∀ x ∈ hosts, ∀ y ∈ hosts, ownID x.2 = y.2.hostName → ownID x.2 = ownID y.2) :
    Apart requested ls hosts := by
  rintro before entry behind rfl - other hother honly hname
  exact ⟨other, hother, honly,
    h other (List.mem_append_left _ hother) entry List.mem_append_cons_self hname⟩

/-- A host that stands for no leaf has the ID of none. -/
theorem HostOnly.reportedLeaf_ownID {host : HostInfo} (h : HostOnly requested ls host) :
    reportedLeaf requested ls (ownID host) = none := by
  refine Option.eq_none_iff_forall_ne_some.mpr fun e he => h.2.2 ?_
  rw [ownID] at he
  split_ifs at he
  · exact Or.inr (Or.inr ⟨e, he⟩)
  · exact Or.inl ⟨e, he⟩

/-- **Which record a host is looked up under**: one that exists, or its own ID. -/
theorem hostID_cases {hosts : List (String × HostInfo)}
    (h : Derived requested ls hosts st.instances)
    (hnames : ∀ name id, st.nameToID.lookup name = some id → LeafNamed requested ls name id)
    (hnamed : ∀ name id, LeafNamed requested ls name id → name ∈ st.nameToID) (host : HostInfo) :
    hostID st host ∈ st.instances ∧
        ((∃ e, reportedLeaf requested ls (hostID st host) = some e) →
          StandsFor requested ls host (hostID st host)) ∧
        (ownID host ∈ st.instances ∨ OnLeaf requested ls host ∨ host.hostName ∈ st.instances) ∨
      hostID st host ∉ st.instances ∧ hostID st host = ownID host ∧ ¬ OnLeaf requested ls host ∧
        host.hostName ∉ st.instances := by
  by_cases hinst : host.instanceID ∈ st.instances
  · left
    have hne := h.ne hinst
    have hid : hostID st host = host.instanceID := by simp [hostID, hinst, hne]
    rw [hid]
    exact ⟨hinst, fun hleaf => Or.inl ⟨rfl, hleaf⟩, Or.inl (by rwa [ownID, if_neg hne])⟩
  · have hnone : reportedLeaf requested ls host.instanceID = none :=
      Option.eq_none_iff_forall_ne_some.mpr fun e he => hinst (h.mem_of_leaf he)
    -- The order of the source: the instance ID, the name of a leaf, the host name, a new ID.
    cases hname : st.nameToID.lookup host.hostName with
    | some mapped =>
      left
      obtain ⟨e, he, -⟩ := hnames _ _ hname
      have hmem := h.mem_of_leaf he
      have hid : hostID st host = mapped := by simp [hostID, hinst, hname, h.ne hmem]
      rw [hid]
      exact ⟨hmem, fun _ => Or.inr ⟨hnone, Or.inl (hnames _ _ hname)⟩,
        Or.inr (Or.inl (Or.inr (Or.inl ⟨mapped, hnames _ _ hname⟩)))⟩
    | none =>
      have hunnamed : ∀ id, ¬ LeafNamed requested ls host.hostName id := by
        intro id hleaf
        obtain ⟨id', hid'⟩ := GoMap.mem_iff_lookup.mp (hnamed _ _ hleaf)
        exact absurd (hname.symm.trans hid') (by simp)
      by_cases hhost : host.hostName ∈ st.instances
      · left
        have hid : hostID st host = host.hostName := by simp [hostID, hinst, hname, hhost]
        rw [hid]
        exact ⟨hhost, fun hleaf => Or.inr ⟨hnone, Or.inr ⟨hunnamed, Or.inl ⟨rfl, hleaf⟩⟩⟩,
          Or.inr (Or.inr hhost)⟩
      · right
        have hid : hostID st host = ownID host := by simp [hostID, hinst, hname, hhost, ownID]
        rw [hid]
        refine ⟨?_, rfl, ?_, hhost⟩
        · rw [ownID]
          split_ifs
          · exact hhost
          · exact hinst
        · rintro (⟨e, he⟩ | ⟨id, hleaf⟩ | ⟨e, he⟩)
          · exact hinst (h.mem_of_leaf he)
          · exact hunnamed id hleaf
          · exact hhost (h.mem_of_leaf he)

/-- The domain label is the domain of the host. -/
theorem label_setLabels_domain (domain : String) (host : HostInfo) :
    label (setLabels ∅ domain host) keyTopologyXclrDomain = domain := by
  rw [label, setLabels]
  split_ifs
  · rw [GoMap.lookup_insert_eq_ite, if_neg (by decide), AList.lookup_insert, Option.getD_some]
  · rw [AList.lookup_insert, Option.getD_some]

/-- A host of a named domain has labels. -/
theorem setLabels_ne_empty {domain : String} (hdomain : domain ≠ "") (host : HostInfo) :
    setLabels ∅ domain host ≠ ∅ := by
  intro hempty
  have hlabel := label_setLabels_domain domain host
  rw [hempty] at hlabel
  exact hdomain hlabel.symm

/-- A host that stands for no leaf stands for itself. -/
theorem standsFor_ownID {host : HostInfo} (h : ¬ OnLeaf requested ls host) :
    StandsFor requested ls host (ownID host) := by
  simp only [OnLeaf, not_or, not_exists] at h
  have hnone : ∀ {x}, (∀ e, reportedLeaf requested ls x ≠ some e) →
      reportedLeaf requested ls x = none :=
    Option.eq_none_iff_forall_ne_some.mpr
  exact Or.inr ⟨hnone h.1, Or.inr ⟨h.2.1, Or.inr ⟨rfl, hnone h.2.2⟩⟩⟩

section Step

variable {hosts : List (String × HostInfo)} {records : GoMap String Instance}
  {entry : String × HostInfo}

section

variable (h : Derived requested ls hosts records)

include h

/-- A host that changes no record. -/
theorem Derived.skip
    (hentry : Apart requested ls (hosts ++ [entry]) → HostOnly requested ls entry.2 →
      ownID entry.2 ∈ records) :
    Derived requested ls (hosts ++ [entry]) records where
  id_eq := h.id_eq
  leaf := h.leaf
  hostOnly id r hr hnone := by
    obtain ⟨hlayers, hlabels, x, hx, hown⟩ := h.hostOnly id r hr hnone
    exact ⟨hlayers, hlabels, x, List.mem_append_left _ hx, hown⟩
  host hapart x hx honly := by
    rcases List.mem_append.mp hx with hold | hlast
    · exact h.host hapart.of_append x hold honly
    · obtain rfl := List.mem_singleton.mp hlast
      exact hentry hapart honly
  labels id r hr := by
    refine (h.labels id r hr).imp_right ?_
    rintro ⟨x, hx, hlabels⟩
    exact ⟨x, List.mem_append_left _ hx, hlabels⟩

/-- The labels of a host are given to the record of a leaf. -/
theorem Derived.relabel {r : Instance} (hr : records.lookup id = some r) {e : Leaf}
    (he : reportedLeaf requested ls id = some e) (hentry : entry ∈ hosts)
    (hstands : StandsFor requested ls entry.2 id) :
    Derived requested ls hosts
      (records.insert id { r with labels := setLabels ∅ entry.1 entry.2 }) := by
  refine ⟨fun id' r' hr' => ?_, fun id' e he => ?_, fun id' r' hr' hnone => ?_,
    fun hapart x hx honly => ?_,
    fun id' r' hr' => ?_⟩
  · rw [GoMap.lookup_insert_eq_ite] at hr'
    split_ifs at hr' with heq
    · rw [← Option.some.inj hr', heq]
      exact h.id_eq id r hr
    · exact h.id_eq id' r' hr'
  · obtain ⟨r', hr', hlayers⟩ := h.leaf id' e he
    rw [GoMap.lookup_insert_eq_ite]
    split_ifs with heq
    · rw [heq] at hr'
      obtain rfl := Option.some.inj (hr.symm.trans hr')
      exact ⟨_, rfl, hlayers⟩
    · exact ⟨r', hr', hlayers⟩
  · rw [GoMap.lookup_insert_eq_ite, if_neg] at hr'
    · exact h.hostOnly id' r' hr' hnone
    · rintro rfl
      exact absurd (he.symm.trans hnone) (by simp)
  · exact (AList.mem_insert _).mpr (Or.inr (h.host hapart x hx honly))
  · rw [GoMap.lookup_insert_eq_ite] at hr'
    split_ifs at hr' with heq
    · rw [← Option.some.inj hr', heq]
      exact Or.inr ⟨entry, hentry, hstands, rfl⟩
    · exact h.labels id' r' hr'

/-- A requested host that stands for no leaf gets a record. -/
theorem Derived.create (hfree : ownID entry.2 ∉ records) (hdomain : entry.1 ≠ "")
    (honly : HostOnly requested ls entry.2) :
    Derived requested ls (hosts ++ [entry]) (records.insert (ownID entry.2)
      { id := ownID entry.2, networkLayers := [], labels := setLabels ∅ entry.1 entry.2 }) := by
  have hself : entry ∈ hosts ++ [entry] := List.mem_append_cons_self
  refine ⟨fun id r hr => ?_, fun id e he => ?_, fun id r hr hnone => ?_, fun hapart x hx hxonly =>
    ?_, fun id r hr => ?_⟩
  · rw [GoMap.lookup_insert_eq_ite] at hr
    split_ifs at hr with heq
    · rw [← Option.some.inj hr, heq]
    · exact h.id_eq id r hr
  · obtain ⟨r, hr, hlayers⟩ := h.leaf id e he
    have heq : id ≠ ownID entry.2 := by
      rintro rfl
      exact hfree (h.mem_of_leaf he)
    exact ⟨r, by rw [GoMap.lookup_insert_eq_ite, if_neg heq, hr], hlayers⟩
  · rw [GoMap.lookup_insert_eq_ite] at hr
    split_ifs at hr with heq
    · rw [← Option.some.inj hr, heq]
      exact ⟨rfl, setLabels_ne_empty hdomain entry.2, entry, hself, honly, rfl⟩
    · obtain ⟨hlayers, hlabels, x, hx, hown⟩ := h.hostOnly id r hr hnone
      exact ⟨hlayers, hlabels, x, List.mem_append_left _ hx, hown⟩
  · rcases List.mem_append.mp hx with hold | hlast
    · exact (AList.mem_insert _).mpr (Or.inr (h.host hapart.of_append x hold hxonly))
    · obtain rfl := List.mem_singleton.mp hlast
      exact (AList.mem_insert _).mpr (Or.inl rfl)
  · rw [GoMap.lookup_insert_eq_ite] at hr
    split_ifs at hr with heq
    · rw [← Option.some.inj hr, heq]
      exact Or.inr ⟨entry, hself, standsFor_ownID honly.2.2, rfl⟩
    · refine (h.labels id r hr).imp_right ?_
      rintro ⟨x, hx, hlabels⟩
      exact ⟨x, List.mem_append_left _ hx, hlabels⟩

/-- A host whose host name is that of a record has a record of its own, unless it is taken for
another one. -/
theorem Derived.found (hapart : Apart requested ls (hosts ++ [entry]))
    (honly : HostOnly requested ls entry.2)
    (hin : ownID entry.2 ∈ records ∨ entry.2.hostName ∈ records) : ownID entry.2 ∈ records := by
  rcases hin with hown | hname
  · exact hown
  · obtain ⟨r, hr⟩ := GoMap.mem_iff_lookup.mp hname
    cases hleaf : reportedLeaf requested ls entry.2.hostName with
    | some e => exact absurd (Or.inr (Or.inr ⟨e, hleaf⟩)) honly.2.2
    | none =>
      -- The record is that of a host in front.
      obtain ⟨-, -, other, hother, hotherOnly, hsame⟩ := h.hostOnly _ r hr hleaf
      obtain ⟨earlier, hearlier, hearlierOnly, heq⟩ :=
        hapart hosts entry [] rfl honly other hother hotherOnly hsame
      exact heq ▸ h.host hapart.of_append earlier hearlier hearlierOnly

end

end Step

/-- **One host.** -/
theorem Derived.step {hosts : List (String × HostInfo)}
    (h : Derived requested ls hosts st.instances) {entry : String × HostInfo}
    (hdomains : ∀ x ∈ hosts ++ [entry], x.1 ≠ "")
    (hnames : ∀ name id, st.nameToID.lookup name = some id → LeafNamed requested ls name id)
    (hnamed : ∀ name id, LeafNamed requested ls name id → name ∈ st.nameToID) :
    Derived requested ls (hosts ++ [entry]) (addHost requested st entry).instances := by
  rw [addHost]
  rcases hostID_cases h hnames hnamed entry.2 with ⟨hmem, hstands, hown⟩ | ⟨hfree, hid, hleaf, -⟩
  · -- The host stands for a record that exists.
    obtain ⟨r, hr⟩ := GoMap.mem_iff_lookup.mp hmem
    have hskip : Derived requested ls (hosts ++ [entry]) st.instances :=
      h.skip fun hapart honly => h.found hapart honly (hown.imp_right fun hor =>
        hor.resolve_left honly.2.2)
    rw [if_neg (h.ne hmem), if_neg (by simp [hmem]), hr, Option.getD_some]
    dsimp only
    split_ifs with hlabel
    · exact hskip
    · have hempty : r.labels = ∅ := by
        rcases h.labels _ r hr with hempty | ⟨x, hx, -, hx'⟩
        · exact hempty
        · rw [hx', label_setLabels_domain] at hlabel
          exact absurd (hdomains x (List.mem_append_left _ hx)) hlabel
      rw [hempty]
      cases hleaf : reportedLeaf requested ls (hostID st entry.2) with
      | none => exact absurd hempty (h.hostOnly _ r hr hleaf).2.1
      | some e => exact hskip.relabel hr hleaf List.mem_append_cons_self (hstands ⟨e, hleaf⟩)
  · rw [hid] at hfree ⊢
    by_cases hne : ownID entry.2 = ""
    · rw [if_pos hne]
      exact h.skip fun _ honly => absurd hne honly.1
    · by_cases hwanted : wanted requested (ownID entry.2) entry.2.hostName = true
      · rw [if_neg hne, if_neg (by simp [hwanted]), AList.lookup_eq_none.mpr hfree,
          Option.getD_none,
          if_neg (by simp [label])]
        exact h.create hfree (hdomains entry List.mem_append_cons_self) ⟨hne, hwanted, hleaf⟩
      · rw [if_neg hne, if_pos ⟨hfree, hwanted⟩]
        exact h.skip fun _ honly => absurd honly.2.1 hwanted

theorem addHost_nameToID (st : DeriveState) (entry : String × HostInfo) :
    (addHost requested st entry).nameToID = st.nameToID := by
  rw [addHost]
  dsimp only
  split_ifs <;> rfl

/-- **After the hosts.** They leave the names of the leaves as they are. -/
theorem derived_foldl (hosts : List (String × HostInfo)) (h : Derived requested ls [] st.instances)
    (hdomains : ∀ x ∈ hosts, x.1 ≠ "")
    (hnames : ∀ name id, st.nameToID.lookup name = some id → LeafNamed requested ls name id)
    (hnamed : ∀ name id, LeafNamed requested ls name id → name ∈ st.nameToID) :
    Derived requested ls hosts (hosts.foldl (addHost requested) st).instances ∧
      (hosts.foldl (addHost requested) st).nameToID = st.nameToID := by
  refine Loops.foldl_rule (I := fun done (st' : DeriveState) =>
    Derived requested ls done st'.instances ∧ st'.nameToID = st.nameToID) ⟨h, rfl⟩ ?_
  intro done entry rest st' heq hdone
  have hseen : ∀ x ∈ done ++ [entry], x ∈ hosts := by
    intro x hx
    rw [← heq, List.append_cons]
    exact List.mem_append_left _ hx
  refine ⟨hdone.1.step (fun x hx => hdomains x (hseen x hx)) ?_ ?_,
    (addHost_nameToID ..).trans hdone.2⟩
  · rwa [hdone.2]
  · rwa [hdone.2]

/-! ## A host that is lost -/

/-- The first host that is taken for another one. -/
theorem exists_first_of_not_apart {hosts : List (String × HostInfo)}
    (h : ¬ Apart requested ls hosts) :
    ∃ before entry behind, hosts = before ++ entry :: behind ∧ Apart requested ls before ∧
    HostOnly requested ls entry.2 ∧
      (∃ other ∈ before, HostOnly requested ls other.2 ∧ ownID other.2 = entry.2.hostName) ∧
        ∀ earlier ∈ before, HostOnly requested ls earlier.2 → ownID earlier.2 ≠ ownID entry.2 := by
  induction hosts using List.reverseRecOn with
  | nil => exact absurd (fun before entry behind heq => absurd heq (by simp)) h
  | append_singleton hosts last ih =>
    by_cases hosts_ok : Apart requested ls hosts
    · simp only [Apart, not_forall, exists_prop, not_exists, not_and] at h
      obtain ⟨before, entry, behind, heq, honly, other, hother, hotherOnly, hname, hnone⟩ := h
      refine ⟨before, entry, behind, heq, ?_, honly, ⟨other, hother, hotherOnly, hname⟩, hnone⟩
      rcases List.eq_nil_or_concat behind with rfl | ⟨behind, z, rfl⟩
      · exact List.append_inj_left' heq rfl ▸ hosts_ok
      · rw [List.concat_eq_append, ← List.cons_append, ← List.append_assoc] at heq
        rw [List.append_inj_left' heq rfl] at hosts_ok
        exact hosts_ok.of_append
    · obtain ⟨before, entry, behind, rfl, hrest⟩ := ih hosts_ok
      exact ⟨before, entry, behind ++ [last], by simp, hrest⟩

/-- A host gets a new record under its own ID only, and if none has its host name. -/
theorem Derived.mem_addHost {hosts : List (String × HostInfo)}
    (h : Derived requested ls hosts st.instances)
    (hnames : ∀ name id, st.nameToID.lookup name = some id → LeafNamed requested ls name id)
    (hnamed : ∀ name id, LeafNamed requested ls name id → name ∈ st.nameToID)
    {entry : String × HostInfo} (hmem : id ∈ (addHost requested st entry).instances) :
    id ∈ st.instances ∨ HostOnly requested ls entry.2 ∧ ownID entry.2 = id ∧
    entry.2.hostName ∉ st.instances := by
  rw [addHost] at hmem
  dsimp only at hmem
  split_ifs at hmem with hempty hskip hlabel
  · exact Or.inl hmem
  · exact Or.inl hmem
  · exact Or.inl hmem
  · rcases (AList.mem_insert _).mp hmem with rfl | hmem
    · rcases hostID_cases h hnames hnamed entry.2 with ⟨hin, -⟩ | ⟨hfree, hown, hleaf, hname⟩
      · exact Or.inl hin
      · rw [hown] at hfree hempty hskip ⊢
        exact Or.inr ⟨⟨hempty, by simpa [hfree] using hskip, hleaf⟩, rfl, hname⟩
    · exact Or.inl hmem

theorem mem_addHost_of_mem (hmem : id ∈ st.instances) (entry : String × HostInfo) :
    id ∈ (addHost requested st entry).instances := by
  rw [addHost]
  dsimp only
  split_ifs
  · exact hmem
  · exact hmem
  · exact hmem
  · exact (AList.mem_insert _).mpr (Or.inr hmem)

/-- **A host is lost**: one that is taken for another one has no record, if its ID stands under one
host name. -/
theorem exists_lost {hosts : List (String × HostInfo)} (hwalk : WalkDone requested ls st)
    (hdomains : ∀ x ∈ hosts, x.1 ≠ "") (hone : OneName requested ls hosts)
    (h : ¬ Apart requested ls hosts) :
    ∃ entry ∈ hosts, HostOnly requested ls entry.2 ∧
    ownID entry.2 ∉ (hosts.foldl (addHost requested) st).instances := by
  obtain ⟨before, entry, behind, rfl, hbefore, honly, ⟨other, hother, hotherOnly, hname⟩, hfirst⟩ :=
    exists_first_of_not_apart h
  have hself : entry ∈ before ++ entry :: behind := List.mem_append_cons_self
  obtain ⟨hderived, hst⟩ :=
    derived_foldl before hwalk.derived (fun x hx => hdomains x (List.mem_append_left _ hx))
    hwalk.named
    hwalk.mem_named
  refine ⟨entry, hself, honly, ?_⟩
  rw [List.foldl_append]
  -- The hosts behind find the record of the other one.
  refine (Loops.foldl_rule (I := fun done (st' : DeriveState) =>
    Derived requested ls (before ++ done) st'.instances ∧
    st'.nameToID = st.nameToID ∧ entry.2.hostName ∈ st'.instances ∧ ownID entry.2 ∉ st'.instances)
      ⟨?_, hst, ?_, ?_⟩ ?_).2.2.2
  · rwa [List.append_nil]
  · exact hname ▸ hderived.host hbefore other hother hotherOnly
  · intro hmem
    obtain ⟨r, hr⟩ := GoMap.mem_iff_lookup.mp hmem
    obtain ⟨-, -, x, hx, hxOnly, heq⟩ := hderived.hostOnly _ r hr honly.reportedLeaf_ownID
    exact hfirst x hx hxOnly heq
  · rintro done x rest st' heq ⟨hdone, hnames, hin, hout⟩
    have hx : ∀ y ∈ before ++ done ++ [x], y ∈ before ++ entry :: behind := by
      intro y hy
      rw [← heq]
      simp only [List.mem_append, List.mem_cons, List.not_mem_nil, or_false] at hy ⊢
      tauto
    refine ⟨?_, (addHost_nameToID ..).trans hnames, mem_addHost_of_mem hin x, fun hmem => ?_⟩
    · rw [← List.append_assoc]
      exact hdone.step (fun y hy => hdomains y (hx y hy)) (hnames ▸ hwalk.named)
        (hnames ▸ hwalk.mem_named)
    · rcases hdone.mem_addHost (hnames ▸ hwalk.named) (hnames ▸ hwalk.mem_named) hmem with
        hold | ⟨hxOnly, hown, hfree⟩
      · exact hout hold
      · exact hfree (hone entry hself x (hx x (by simp)) honly hxOnly hown.symm ▸ hin)

/-- The hosts of a domain map with their domains. -/
theorem mem_hostEntries {domains : DomainMap} {entry : String × HostInfo} :
    entry ∈ hostEntries domains ↔ ∃ hosts, domains.hosts.lookup entry.1 = some hosts ∧
    ∃ key, hosts.lookup key = some entry.2 := by
  simp only [hostEntries, List.mem_flatMap, List.mem_insertionSort, List.mem_map]
  constructor
  · rintro ⟨domain, -, host, hhost, rfl⟩
    cases hd : domains.hosts.lookup domain with
    | none => simp [hd] at hhost
    | some hosts =>
      rw [hd, Option.elim_some, List.mem_filterMap] at hhost
      obtain ⟨key, -, hkey⟩ := hhost
      exact ⟨hosts, rfl, key, hkey⟩
  · rintro ⟨hosts, hd, key, hkey⟩
    refine ⟨entry.1, AList.mem_keys.mp (GoMap.mem_iff_lookup.mpr ⟨hosts, hd⟩), entry.2, ?_, rfl⟩
    rw [hd, Option.elim_some, List.mem_filterMap]
    exact ⟨key, (List.mem_insertionSort _).mpr
      (AList.mem_keys.mp (GoMap.mem_iff_lookup.mpr ⟨entry.2, hkey⟩)), hkey⟩

end Hosts

/-! ## Attached records -/

/-- What becomes of a record that is completed by another. -/
structure Filled (inst derived r : Instance) : Prop where
  id : r.id = inst.id
  /-- What is set is kept. -/
  layers_kept : inst.networkLayers ≠ [] → r.networkLayers = inst.networkLayers
  labels_kept : ∀ key, label inst.labels key ≠ "" → r.labels.lookup key = inst.labels.lookup key
  labels_other : ∀ key, key ≠ keyTopologyXclrDomain → key ≠ keyTopologyXclrSubDomain →
    r.labels.lookup key = inst.labels.lookup key
  /-- What is not set is taken from the other record. -/
  layers_filled : inst.networkLayers = [] → r.networkLayers = derived.networkLayers
  domain_filled : label inst.labels keyTopologyXclrDomain = "" →
    label r.labels keyTopologyXclrDomain = label derived.labels keyTopologyXclrDomain
  /-- A sub-domain is added only next to the domain it was derived with. -/
  subDomain : label r.labels keyTopologyXclrSubDomain ≠ label inst.labels keyTopologyXclrSubDomain →
    label r.labels keyTopologyXclrSubDomain = label derived.labels keyTopologyXclrSubDomain ∧
      label r.labels keyTopologyXclrDomain = label derived.labels keyTopologyXclrDomain

section Fill

variable (derived inst : Instance)

theorem fillLabel_id (key : String) : (fillLabel derived inst key).id = inst.id := by
  rw [fillLabel]
  split_ifs <;> rfl

theorem fillLabel_networkLayers (key : String) :
    (fillLabel derived inst key).networkLayers = inst.networkLayers := by
  rw [fillLabel]
  split_ifs <;> rfl

/-- The labels after one turn of the loop. -/
theorem lookup_fillLabel (key key' : String) :
    (fillLabel derived inst key).labels.lookup key' =
      if key' = key ∧ label derived.labels key ≠ "" ∧ label inst.labels key = "" ∧
          (key = keyTopologyXclrSubDomain →
            label inst.labels keyTopologyXclrDomain = label derived.labels keyTopologyXclrDomain)
              then
        some (label derived.labels key)
      else inst.labels.lookup key' := by
  rw [fillLabel]
  split_ifs with hskip hpair hall hall hall
  · tauto
  · rfl
  · tauto
  · rfl
  · rw [hall.1, AList.lookup_insert]
  · rw [GoMap.lookup_insert_eq_ite, if_neg (by tauto)]

/-- A label is filled alone. -/
theorem label_fillLabel_of_ne {key key' : String} (h : key' ≠ key) :
    label (fillLabel derived inst key).labels key' = label inst.labels key' := by
  rw [label, lookup_fillLabel, if_neg (by tauto), label]

/-- A label is only filled when it is empty. -/
theorem label_fillLabel_domain :
    label (fillLabel derived inst keyTopologyXclrDomain).labels keyTopologyXclrDomain =
      if label inst.labels keyTopologyXclrDomain = "" then
        label derived.labels keyTopologyXclrDomain
      else label inst.labels keyTopologyXclrDomain := by
  rw [label, lookup_fillLabel]
  have hkeys : keyTopologyXclrDomain ≠ keyTopologyXclrSubDomain := by decide
  split_ifs with hall hempty hempty
  · rfl
  · tauto
  · have hzero : label derived.labels keyTopologyXclrDomain = "" := by
      by_contra hne
      exact hall ⟨rfl, hne, hempty, fun h => absurd h hkeys⟩
    rw [hzero]
    exact hempty
  · rfl

/-- **Completing a record** keeps what is set and never mixes the labels of two domains. -/
theorem filled_fillInstance : Filled inst derived (fillInstance inst derived) := by
  have hkeys : keyTopologyXclrDomain ≠ keyTopologyXclrSubDomain := by decide
  set start : Instance :=
    if inst.networkLayers = [] ∧ derived.networkLayers ≠ [] then
      { inst with networkLayers := derived.networkLayers } else inst with hstart
  have hlabels : start.labels = inst.labels := by
    rw [hstart]
    split_ifs <;> rfl
  have hfill : fillInstance inst derived =
      fillLabel derived (fillLabel derived start keyTopologyXclrDomain) keyTopologyXclrSubDomain :=
      rfl
  -- The domain label is filled first; the subdomain label is only filled in the same domain.
  have hdomain : label (fillInstance inst derived).labels keyTopologyXclrDomain =
      if label inst.labels keyTopologyXclrDomain = "" then
        label derived.labels keyTopologyXclrDomain
      else label inst.labels keyTopologyXclrDomain := by
    rw [hfill, label_fillLabel_of_ne _ _ hkeys, label_fillLabel_domain, hlabels]
  rw [hfill] at hdomain ⊢
  constructor
  · rw [fillLabel_id, fillLabel_id, hstart]
    split_ifs <;> rfl
  · intro hset
    rw [fillLabel_networkLayers, fillLabel_networkLayers, hstart, if_neg (by tauto)]
  · intro key hset
    have hfirst : (fillLabel derived start keyTopologyXclrDomain).labels.lookup key =
        inst.labels.lookup key := by
      rw [lookup_fillLabel, hlabels, if_neg]
      rintro ⟨rfl, -, hempty, -⟩
      exact hset hempty
    rw [lookup_fillLabel, hfirst, if_neg]
    rintro ⟨rfl, -, hempty, -⟩
    rw [label, hfirst] at hempty
    exact hset hempty
  · intro key hd hs
    rw [lookup_fillLabel, if_neg (by tauto), lookup_fillLabel, if_neg (by tauto), hlabels]
  · intro hnone
    rw [fillLabel_networkLayers, fillLabel_networkLayers, hstart]
    split_ifs with hlayers
    · rfl
    · rw [hnone]
      by_contra hne
      exact hlayers ⟨hnone, Ne.symm hne⟩
  · intro hempty
    rw [hdomain, if_pos hempty]
  · intro hchanged
    have hsub : label (fillLabel derived start keyTopologyXclrDomain).labels
        keyTopologyXclrSubDomain =
        label inst.labels keyTopologyXclrSubDomain := by
      rw [label_fillLabel_of_ne _ _ hkeys.symm, hlabels]
    rw [← hsub, label, lookup_fillLabel] at hchanged
    rw [label, lookup_fillLabel]
    split_ifs at hchanged ⊢ with hall
    · refine ⟨rfl, ?_⟩
      rw [label_fillLabel_of_ne _ _ hkeys]
      exact hall.2.2.2 rfl
    · exact absurd rfl hchanged

end Fill

/-! ## Main result -/

/-- The leaves of a graph. -/
def graphLeaves (graph : ValueGraph) : List Leaf := graph.tiers.elim [] leaves

/-- The hosts of a graph. -/
def graphHosts (graph : ValueGraph) : List (String × HostInfo) := graph.domains.elim [] hostEntries

/-- A host of a graph has a domain. -/
theorem ne_empty_of_mem_graphHosts {graph : ValueGraph} {entry : String × HostInfo}
    (h : entry ∈ graphHosts graph) : entry.1 ≠ "" := by
  rw [graphHosts] at h
  cases hdomains : graph.domains with
  | none => simp [hdomains] at h
  | some domains =>
    rw [hdomains, Option.elim_some] at h
    obtain ⟨hosts, hhosts, -⟩ := mem_hostEntries.mp h
    exact (domains.filed _ _ hhosts).named

/-- **After the tier tree.** -/
theorem walkDone_tiers (graph : ValueGraph) (requested : Finset String) :
    WalkDone (some requested) (graphLeaves graph)
    (graph.tiers.elim { instances := ∅, nameToID := ∅ } fun root =>
      walk (some requested) root [] { instances := ∅, nameToID := ∅ }) := by
  have hstart := walkDone_empty (some requested)
  rw [graphLeaves]
  cases graph.tiers with
  | none => exact hstart
  | some root =>
    rw [Option.elim_some, Option.elim_some, walk_eq_foldl]
    exact Loops.foldl_rule hstart fun _ e _ _ _ h => h.step e

/-- **The records are the requested nodes**: one for each requested leaf, and one for each requested
host that stands for no leaf. -/
structure Reports (graph : ValueGraph) (requested : Finset String)
    (records : GoMap String Instance) : Prop where
  id_eq : ∀ id r, records.lookup id = some r → r.id = id
  mem_iff : ∀ id, id ∈ records ↔
    (∃ e, reportedLeaf (some requested) (graphLeaves graph) id = some e) ∨
    id ≠ "" ∧ ∃ entry ∈ graphHosts graph, ownID entry.2 = id ∧
    (id ∈ requested ∨ entry.2.hostName ∈ requested) ∧
      ¬ OnLeaf (some requested) (graphLeaves graph) entry.2
  /-- The switches above the first requested leaf; hosts have none. -/
  layers : ∀ id r, records.lookup id = some r →
    r.networkLayers = ((reportedLeaf (some requested) (graphLeaves graph) id).map Leaf.layers).getD
    []
  labels : ∀ id r, records.lookup id = some r → r.labels = ∅ ∨
    ∃ entry ∈ graphHosts graph, StandsFor (some requested) (graphLeaves graph) entry.2 id ∧
    r.labels = setLabels ∅ entry.1 entry.2

/-- **When the requested nodes are reported.** The records are the requested nodes if no requested
host is taken for another one. That is needed as well if the ID of every requested host stands under
one host name; otherwise a later entry can bring the record that is missing. A record completed by
another keeps what is set, and a sub-domain is added only next to the domain it was derived with. -/
theorem derive_reported (graph : ValueGraph) (requested : Finset String) :
    (Apart (some requested) (graphLeaves graph) (graphHosts graph) →
        Reports graph requested (deriveInstances graph (some requested))) ∧
      (OneName (some requested) (graphLeaves graph) (graphHosts graph) →
        Reports graph requested (deriveInstances graph (some requested)) →
          Apart (some requested) (graphLeaves graph) (graphHosts graph)) ∧
      ∀ inst derived, Filled inst derived (fillInstance inst derived) := by
  have hwalk := walkDone_tiers graph requested
  refine ⟨fun hapart => ?_, fun hone hreports => ?_,
    fun inst derived => filled_fillInstance derived inst⟩
  · have hderived : Derived (some requested) (graphLeaves graph) (graphHosts graph)
        (deriveInstances graph (some requested)) :=
      (derived_foldl _ hwalk.derived (fun _ => ne_empty_of_mem_graphHosts) hwalk.named
        hwalk.mem_named).1
    refine ⟨hderived.id_eq, fun id => ⟨fun hid => ?_, ?_⟩, fun id r hr => ?_, hderived.labels⟩
    · obtain ⟨r, hr⟩ := GoMap.mem_iff_lookup.mp hid
      cases hleaf : reportedLeaf (some requested) (graphLeaves graph) id with
      | some e => exact Or.inl ⟨e, rfl⟩
      | none =>
        obtain ⟨-, -, entry, hentry, ⟨hne, hwanted, hoff⟩, rfl⟩ := hderived.hostOnly id r hr hleaf
        exact Or.inr ⟨hne, entry, hentry, rfl, wanted_some.mp hwanted, hoff⟩
    · rintro (⟨e, he⟩ | ⟨hne, entry, hentry, rfl, hwanted, hoff⟩)
      · exact hderived.mem_of_leaf he
      · exact hderived.host hapart entry hentry ⟨hne, wanted_some.mpr hwanted, hoff⟩
    · cases hleaf : reportedLeaf (some requested) (graphLeaves graph) id with
      | some e =>
        obtain ⟨r', hr', hlayers⟩ := hderived.leaf id e hleaf
        rwa [Option.some.inj (hr.symm.trans hr')]
      | none => exact (hderived.hostOnly id r hr hleaf).1
  · by_contra hnot
    obtain ⟨entry, hentry, ⟨hne, hwanted, hoff⟩, hlost⟩ :=
      exists_lost hwalk (fun _ => ne_empty_of_mem_graphHosts) hone hnot
    exact hlost ((hreports.mem_iff (ownID entry.2)).mpr (Or.inr ⟨hne, entry, hentry, rfl,
      wanted_some.mp hwanted, hoff⟩))

/-- A host in two domains under the same name, and one beside it. -/
def plainDomains : DomainMap :=
  ((DomainMap.new.addHostInfo
    { domain := "d1", instanceID := "b", hostName := "a", subDomain := "" }).addHostInfo
    { domain := "d2", instanceID := "b", hostName := "a", subDomain := "" }).addHostInfo
    { domain := "d2", instanceID := "c", hostName := "d", subDomain := "s" }

theorem plainDomains_reported : Reports { tiers := none, domains := some plainDomains } {"a", "c"}
    (deriveInstances { tiers := none, domains := some plainDomains } (some {"a", "c"})) :=
  (derive_reported { tiers := none, domains := some plainDomains } {"a", "c"}).1
    (apart_of_names (by decide))

/-- Two hosts outside of the tier tree; the host name of the second is the instance ID of the
first. -/
def namesakeGraph : ValueGraph where
  tiers := none
  domains := some ((DomainMap.new.addHostInfo
    { domain := "d1", instanceID := "b", hostName := "a", subDomain := "" }).addHostInfo
    { domain := "d2", instanceID := "c", hostName := "b", subDomain := "" })

/-- Both instance IDs are requested and there is no leaf that the second host could stand for, but
it is not reported. -/
theorem namesake_not_reported :
    (∃ entry ∈ graphHosts namesakeGraph, entry.2.instanceID = "c") ∧
    graphLeaves namesakeGraph = [] ∧
      "b" ∈ deriveInstances namesakeGraph (some {"b", "c"}) ∧
        "c" ∉ deriveInstances namesakeGraph (some {"b", "c"}) := by
  refine ⟨by decide, rfl, by decide, by decide⟩

end Topograph.GraphEngine
