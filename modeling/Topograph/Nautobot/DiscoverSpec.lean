import Topograph.Lib.Loops
import Topograph.Nautobot.Discover
import Mathlib.Data.Finset.Basic

/-! # What discovery returns

The inventory is a finite set of records (`Site`), and the queries answer with records of it
(`Answers`). The search then ends without an error, with the switches reachable from those of the
first query and the compute nodes at their interfaces, whatever the size of a batch
(`discover_reachable`). `Explored` is the invariant of the loop over the frontier. -/

namespace Topograph.Nautobot

open Topograph

/-! ## Inventories -/

/-- An inventory: the records, and the IDs of the switches that the first query selects. -/
structure Site (p : ProviderParams) where
  records : GoMap String Device
  seeds : List String
  id_eq : ∀ {id d}, records.lookup id = some d → d.id = id
  id_ne : ∀ {id d}, records.lookup id = some d → id ≠ ""
  name_ne : ∀ {id d}, records.lookup id = some d → d.name ≠ ""
  /-- What is said of a peer is what its own record says. -/
  peer_record : ∀ {id d peer}, records.lookup id = some d → some peer ∈ d.interfaces →
    ∃ d', records.lookup peer.id = some d' ∧ d'.toIdentity = peer
  seeds_nodup : seeds.Nodup
  seeds_switch : ∀ id ∈ seeds, ∃ d, records.lookup id = some d ∧
    hasRole d.toIdentity p.switchRoles = true
  roles_disjoint : ∀ role ∈ p.deviceRole, role ∉ p.switchRoles

namespace Site

variable {p : ProviderParams} (site : Site p)

/-- A switch that is not excluded. -/
def IsSwitch (id : String) : Prop :=
  ∃ d, site.records.lookup id = some d ∧ p.excluded d.toIdentity = false ∧
    hasRole d.toIdentity p.switchRoles = true

/-- A switch of the first query. -/
def IsSeed (id : String) : Prop := id ∈ site.seeds ∧ site.IsSwitch id

/-- A cable from an interface of one switch to another switch. -/
def Cable (id id' : String) : Prop :=
  site.IsSwitch id ∧ site.IsSwitch id' ∧ ∃ d peer, site.records.lookup id = some d ∧
    some peer ∈ d.interfaces ∧ peer.id = id'

/-- The switches reachable from those of the first query. -/
def Reachable (id : String) : Prop := ReachableFrom site.IsSeed site.Cable id

/-- A compute node that is not excluded, at an interface of a reachable switch. -/
def HostPeer (host : Identity) : Prop :=
  (p.excluded host = false ∧ hasRole host p.deviceRole = true) ∧
    ∃ id sw, site.Reachable id ∧ site.records.lookup id = some sw ∧ some host ∈ sw.interfaces

/-- The queries answer with the records asked for, each once and in any order. -/
structure Answers (devices : Option (List String) → Nat → Except HTTPError (List Device)) :
    Prop where
  seeds : ∀ limit, ∃ l, devices none limit = .ok l ∧
    l.Perm (site.seeds.filterMap site.records.lookup)
  ids : ∀ limit (ids : List String), ids.Nodup → (∀ id ∈ ids, site.IsSwitch id) →
    ∃ l, devices (some ids) limit = .ok l ∧ l.Perm (ids.filterMap site.records.lookup)

/-- A server that answers in the order of the request. -/
def serve (ids : Option (List String)) (_limit : Nat) : Except HTTPError (List Device) :=
  .ok ((ids.getD site.seeds).filterMap site.records.lookup)

/-- **Exactly the reachable switches and their compute nodes**, each once. -/
structure Discovered (l : List Device) : Prop where
  nodup : (l.map (·.id)).Nodup
  mem_iff : ∀ d, d ∈ l ↔ site.Reachable d.id ∧ site.records.lookup d.id = some d ∨
    ∃ host, site.HostPeer host ∧ d = { host with interfaces := [] }

variable {site}

/-- A site answers its own requests. -/
theorem answers_serve (site : Site p) : site.Answers site.serve where
  seeds := fun _ => ⟨_, rfl, List.Perm.refl _⟩
  ids := fun _ _ _ _ => ⟨_, rfl, List.Perm.refl _⟩

/-- What is discovered is unique up to order. -/
theorem Discovered.perm {l l' : List Device} (h : site.Discovered l) (h' : site.Discovered l') :
    l.Perm l' :=
  (List.perm_ext_iff_of_nodup (List.Nodup.of_map _ h.nodup) (List.Nodup.of_map _ h'.nodup)).mpr
    fun d => by
    rw [h.mem_iff, h'.mem_iff]

theorem Reachable.isSwitch {id : String} (h : site.Reachable id) : site.IsSwitch id := by
  obtain ⟨s, hs, hpath⟩ := h
  cases hpath with
  | refl => exact hs.2
  | tail _ hlast => exact hlast.2.1

/-- The IDs of the records of a list of IDs. -/
theorem map_id_filterMap_lookup {ids : List String}
    (h : ∀ id ∈ ids, ∃ d, site.records.lookup id = some d) :
    (ids.filterMap site.records.lookup).map (·.id) = ids := by
  induction ids with
  | nil => rfl
  | cons id ids ih =>
    obtain ⟨d, hd⟩ := h id List.mem_cons_self
    have hids := ih fun id hid => h id (List.mem_cons_of_mem _ hid)
    simp only [List.filterMap_cons, hd, List.map_cons, hids, site.id_eq hd]

end Site

/-! ## Following cables -/

section Follow

variable {p : ProviderParams}

/-- The IDs that `addPeers` schedules, if they are not scheduled. -/
def switchPeers (p : ProviderParams) (d : Device) : List String :=
  d.interfaces.filterMap fun iface => iface.bind fun peer =>
    if peer.id = "" ∨ peer.name = "" ∨ p.excluded peer ∨ ¬ hasRole peer p.switchRoles then none
      else some peer.id

section

variable (st : DiscoverState)

/-- A peer is queued when it is a named switch that was not seen. -/
theorem addPeer_eq (iface : Option Identity) :
    addPeer p st iface =
      let pushed := (iface.bind fun peer =>
        if peer.id = "" ∨ peer.name = "" ∨ p.excluded peer ∨ ¬ hasRole peer p.switchRoles then none
          else some peer.id).elim
          (st.scheduled, st.frontier) (push (st.scheduled, st.frontier))
      { st with scheduled := pushed.1, frontier := pushed.2 } := by
  cases iface with
  | none => rfl
  | some peer =>
    rw [addPeer, Option.bind_some]
    by_cases hskip : peer.id = "" ∨ peer.name = "" ∨ p.excluded peer ∨ ¬ hasRole peer p.switchRoles
    · rw [if_pos hskip, if_pos (by tauto)]
      rfl
    · rw [if_neg hskip, Option.elim_some, push]
      by_cases hmem : peer.id ∈ st.scheduled
      · rw [if_pos (by tauto), if_pos hmem]
      · rw [if_neg (by tauto), if_neg hmem]

/-- **Following the cables of a device** puts its switches on the frontier. -/
theorem addPeers_eq (d : Device) :
    addPeers p st d =
      { st with
        scheduled := ((switchPeers p d).foldl push (st.scheduled, st.frontier)).1
        frontier := ((switchPeers p d).foldl push (st.scheduled, st.frontier)).2 } := by
  rw [addPeers, switchPeers]
  induction d.interfaces generalizing st with
  | nil => rfl
  | cons iface l ih =>
    rw [List.foldl_cons, ih, addPeer_eq, List.filterMap_cons]
    split
    · next hnone => simp only [hnone, Option.elim_none]
    · next id hid => simp only [hid, Option.elim_some, List.foldl_cons]

@[simp] theorem addPeers_devices (d : Device) : (addPeers p st d).devices = st.devices := by
  rw [addPeers_eq]

@[simp] theorem addPeers_requests (d : Device) : (addPeers p st d).requests = st.requests := by
  rw [addPeers_eq]

theorem addPeers_withDevices (ds : List Device) (d : Device) :
    addPeers p { st with devices := ds } d = { addPeers p st d with devices := ds } := by
  rw [addPeers_eq, addPeers_eq]

end

theorem foldl_addPeers_withDevices (l : List Device) (st : DiscoverState) (ds : List Device) :
    l.foldl (addPeers p) { st with devices := ds } =
      { l.foldl (addPeers p) st with devices := ds } := by
  induction l generalizing st with
  | nil => rfl
  | cons d l ih => rw [List.foldl_cons, addPeers_withDevices, ih, List.foldl_cons]

variable {site : Site p}

/-- The peers of a switch are the ends of its cables. -/
theorem mem_switchPeers {id y : String} {d : Device} (hd : site.records.lookup id = some d)
    (hswitch : site.IsSwitch id) : y ∈ switchPeers p d ↔ site.Cable id y := by
  rw [switchPeers, List.mem_filterMap]
  constructor
  · rintro ⟨iface, hmem, hsome⟩
    obtain ⟨peer, rfl, hid⟩ := Option.bind_eq_some_iff.mp hsome
    obtain ⟨d', hd', hpeer⟩ := site.peer_record hd hmem
    split_ifs at hid with hskip
    obtain rfl := Option.some.inj hid
    push Not at hskip
    refine ⟨hswitch, ⟨d', hd', ?_, ?_⟩, d, peer, hd, hmem, rfl⟩
    · simpa [hpeer] using hskip.2.2.1
    · simpa [hpeer] using hskip.2.2.2
  · rintro ⟨-, ⟨d', hd', hexcl, hrole⟩, d₀, peer, hd₀, hmem, rfl⟩
    obtain rfl := Option.some.inj (hd.symm.trans hd₀)
    obtain ⟨d'', hd'', rfl⟩ := site.peer_record hd hmem
    obtain rfl := Option.some.inj (hd'.symm.trans hd'')
    refine ⟨_, hmem, ?_⟩
    rw [Option.bind_some, if_neg]
    simp [site.id_ne hd', site.name_ne hd', hexcl, hrole]

/-- The devices of a list are the records of switches. -/
def SwitchRecords (site : Site p) (l : List Device) : Prop :=
  ∀ d ∈ l, site.records.lookup d.id = some d ∧ p.excluded d.toIdentity = false ∧
    hasRole d.toIdentity p.switchRoles = true

theorem foldl_addPeers_devices (l : List Device) (st : DiscoverState) :
    (l.foldl (addPeers p) st).devices = st.devices := by
  induction l generalizing st with
  | nil => rfl
  | cons d l ih => rw [List.foldl_cons, ih, addPeers_devices]

theorem foldl_addPeers_requests (l : List Device) (st : DiscoverState) :
    (l.foldl (addPeers p) st).requests = st.requests := by
  induction l generalizing st with
  | nil => rfl
  | cons d l ih => rw [List.foldl_cons, ih, addPeers_requests]

variable {l : List Device}

/-- **Following the cables of a list of switches** finishes them. -/
theorem Search.foldl_addPeers (hl : SwitchRecords site l) (st : DiscoverState) {done : List String}
    (h : Search site.IsSeed site.Cable st.scheduled done (l.map (·.id) ++ st.frontier)) :
    Search site.IsSeed site.Cable (l.foldl (addPeers p) st).scheduled (done ++ l.map (·.id))
      (l.foldl (addPeers p) st).frontier := by
  induction l generalizing st done with
  | nil => simpa using h
  | cons d l ih =>
    obtain ⟨hd, hexcl, hrole⟩ := hl d List.mem_cons_self
    have hvisit := h.visit fun y => mem_switchPeers hd ⟨d, hd, hexcl, hrole⟩
    rw [List.foldl_cons, List.map_cons, List.append_cons]
    refine ih (fun d hd => hl d (List.mem_cons_of_mem _ hd)) _ ?_
    rw [addPeers_eq]
    exact hvisit

/-! ## Answers -/

/-- The switches of the first query that are not excluded. -/
theorem foldlM_addSeed (st : DiscoverState)
    (hl : ∀ d ∈ l, d.id ≠ "" ∧ d.name ≠ "" ∧ hasRole d.toIdentity p.switchRoles = true ∧
      d.id ∉ st.scheduled)
    (hnodup : (l.map (·.id)).Nodup) :
    l.foldlM (addSeed p) st =
      .ok { st with
        scheduled := st.scheduled ∪
          ((l.filter fun d => !p.excluded d.toIdentity).map (·.id)).toFinset
        devices := st.devices ++ l.filter fun d => !p.excluded d.toIdentity } := by
  induction l generalizing st with
  | nil => simp [pure, Except.pure]
  | cons d l ih =>
    obtain ⟨hid, hname, hrole, hnew⟩ := hl d List.mem_cons_self
    obtain ⟨hfresh, hnodup⟩ := List.nodup_cons.mp hnodup
    have htail := fun d' (hd' : d' ∈ l) => hl d' (List.mem_cons_of_mem _ hd')
    rw [List.foldlM_cons, addSeed]
    by_cases hexcl : p.excluded d.toIdentity
    · rw [if_pos hexcl, List.filter_cons_of_neg (by simp [hexcl])]
      exact ih st htail hnodup
    · rw [if_neg hexcl, if_neg (by simp [hid, hname, hrole, hnew]),
        List.filter_cons_of_pos (by simp [hexcl])]
      refine (ih _ (fun d' hd' => ?_) hnodup).trans ?_
      · obtain ⟨hid', hname', hrole', hnew'⟩ := htail d' hd'
        refine ⟨hid', hname', hrole', ?_⟩
        rw [Finset.mem_insert, not_or]
        refine ⟨fun heq => hfresh ?_, hnew'⟩
        exact List.mem_map.mpr ⟨d', hd', heq⟩
      · simp only [List.map_cons, List.toFinset_cons, Finset.insert_union_comm, List.append_assoc,
          List.singleton_append]

/-- The switches of a batch. -/
theorem foldlM_addSwitch (hl : SwitchRecords site l) (hnodup : (l.map (·.id)).Nodup)
    (st : DiscoverState) :
    l.foldlM (addSwitch p) ((l.map (·.id)).toFinset, st) =
      .ok (∅, { l.foldl (addPeers p) st with devices := st.devices ++ l }) := by
  induction l generalizing st with
  | nil => simp [pure, Except.pure]
  | cons d l ih =>
    obtain ⟨hd, hexcl, hrole⟩ := hl d List.mem_cons_self
    obtain ⟨hfresh, hnodup⟩ := List.nodup_cons.mp hnodup
    have herase : (insert d.id (l.map (·.id)).toFinset).erase d.id = (l.map (·.id)).toFinset :=
      Finset.erase_insert (by simpa using hfresh)
    have hok : ¬ (d.id ∉ insert d.id (l.map (·.id)).toFinset ∨ d.name = "" ∨
        p.excluded d.toIdentity ∨
        ¬ hasRole d.toIdentity p.switchRoles) := by
      simp [hexcl, hrole, site.name_ne hd]
    rw [List.foldlM_cons, List.map_cons, List.toFinset_cons, addSwitch, if_neg hok, herase,
      addPeers_withDevices]
    refine (ih (fun d hd => hl d (List.mem_cons_of_mem _ hd)) hnodup _).trans ?_
    rw [foldl_addPeers_withDevices, List.foldl_cons, List.append_assoc, List.singleton_append]

end Follow

/-! ## The loop over the frontier -/

section Loop

variable {p : ProviderParams} {site : Site p} {devices : Option (List String) → Nat →
    Except HTTPError (List Device)}

/-- What holds before every turn of the loop. -/
structure Explored (site : Site p) (st : DiscoverState) : Prop where
  search : Search site.IsSeed site.Cable st.scheduled (st.devices.map (·.id)) st.frontier
  record : ∀ d ∈ st.devices, site.records.lookup d.id = some d
  /-- A device is one of the first query, or it was requested. -/
  fetched : ∃ first : List String, (∀ id, id ∈ first ↔ site.IsSeed id) ∧
    (first ++ st.requests.flatten).Perm (st.devices.map (·.id))

variable {st : DiscoverState}

/-- No device is visited twice. -/
theorem Explored.length_le (h : Explored site st) :
    st.devices.length ≤ site.records.entries.length := by
  have hnodup : (st.devices.map (·.id)).Nodup := (List.nodup_append'.mp h.search.nodup).1
  have hsub : st.devices.map (·.id) ⊆ site.records.keys := by
    intro id hid
    obtain ⟨d, hd, rfl⟩ := List.mem_map.mp hid
    exact AList.mem_keys.mp (GoMap.mem_iff_lookup.mpr ⟨d, h.record d hd⟩)
  have hle := (hnodup.subperm hsub).length_le
  rwa [List.length_map, GoMap.length_keys] at hle

/-- The records that the first query answers with. -/
theorem seed_answer {l : List Device} (h : l.Perm (site.seeds.filterMap site.records.lookup)) :
    (l.map (·.id)).Perm site.seeds ∧
      ∀ d ∈ l, site.records.lookup d.id = some d ∧ hasRole d.toIdentity p.switchRoles = true := by
  constructor
  · refine (h.map _).trans (List.Perm.of_eq (Site.map_id_filterMap_lookup fun id hid => ?_))
    obtain ⟨d, hd, -⟩ := site.seeds_switch id hid
    exact ⟨d, hd⟩
  · intro d hd
    obtain ⟨id, hid, hlook⟩ := List.mem_filterMap.mp (h.mem_iff.mp hd)
    obtain rfl := site.id_eq hlook
    obtain ⟨d', hd', hrole⟩ := site.seeds_switch d.id hid
    refine ⟨hlook, ?_⟩
    rwa [Option.some.inj (hlook.symm.trans hd')]

/-- **The switches of the first query.** -/
theorem discoverSeeds_explored (h : site.Answers devices) (size : Nat) :
    ∃ st, discoverSeeds p devices size = .ok st ∧ Explored site st := by
  obtain ⟨l, hl, hperm⟩ := h.seeds size
  obtain ⟨hids, hrecord⟩ := seed_answer hperm
  have hnodup : (l.map (·.id)).Nodup := hids.nodup_iff.mpr site.seeds_nodup
  have hfold := foldlM_addSeed { devices := [], scheduled := ∅, frontier := [], requests := [] }
    (fun d hd => ⟨site.id_ne (hrecord d hd).1, site.name_ne (hrecord d hd).1, (hrecord d hd).2,
      Finset.notMem_empty _⟩) hnodup
  set kept := l.filter fun d => !p.excluded d.toIdentity with hkept
  have hswitches : SwitchRecords site kept := by
    intro d hd
    obtain ⟨hdl, hexcl⟩ := List.mem_filter.mp hd
    exact ⟨(hrecord d hdl).1, by simpa using hexcl, (hrecord d hdl).2⟩
  have hmem : ∀ id, site.IsSeed id ↔ id ∈ kept.map (·.id) := by
    intro id
    rw [List.mem_map]
    constructor
    · rintro ⟨hid, d, hd, hexcl, -⟩
      obtain ⟨d', hd', rfl⟩ := List.mem_map.mp (hids.mem_iff.mpr hid)
      obtain rfl := Option.some.inj (hd.symm.trans (hrecord d' hd').1)
      exact ⟨d, List.mem_filter.mpr ⟨hd', by simp [hexcl]⟩, rfl⟩
    · rintro ⟨d, hd, rfl⟩
      exact ⟨hids.mem_iff.mp (List.mem_map_of_mem (List.mem_filter.mp hd).1), d, hswitches d hd⟩
  have hstart : Search site.IsSeed site.Cable (∅ ∪ (kept.map (·.id)).toFinset) []
      (kept.map (·.id) ++ []) :=
    Search.init (by simpa using hnodup.sublist (List.filter_sublist.map _))
      (by simpa using hmem) (by simp)
  have hrun : discoverSeeds p devices size = .ok (kept.foldl (addPeers p)
      { devices := kept, scheduled := ∅ ∪ (kept.map (·.id)).toFinset, frontier := [],
        requests := [] }) := by
    rw [discoverSeeds, hl]
    simp only [bind, Except.bind, hfold]
    rfl
  refine ⟨_, hrun, ?_, ?_, kept.map (·.id), fun id => (hmem id).symm, ?_⟩
  · rw [foldl_addPeers_devices]
    simpa using Search.foldl_addPeers hswitches
      { devices := kept, scheduled := ∅ ∪ (kept.map (·.id)).toFinset, frontier := [],
        requests := [] } hstart
  · rw [foldl_addPeers_devices]
    exact fun d hd => (hswitches d hd).1
  · rw [foldl_addPeers_devices, foldl_addPeers_requests]
    simp

/-- **One turn of the loop.** -/
theorem followBatch_explored (h : site.Answers devices) {size : Nat} (hsize : 0 < size)
    (hst : Explored site st) (hne : st.frontier ≠ []) :
    ∃ st', followBatch p devices (fun _ => false) size st = .ok st' ∧ Explored site st' ∧
    st.devices.length < st'.devices.length := by
  set sorted := st.frontier.insertionSort (· ≤ ·) with hsorted
  set batch := sorted.take (min size sorted.length) with hbatch
  have hlength : batch.length = min size sorted.length := by simp [hbatch]
  have hsplit : (batch ++ sorted.drop batch.length).Perm st.frontier := by
    rw [hlength, hbatch, List.take_append_drop]
    exact List.perm_insertionSort _ _
  have hpos : 0 < batch.length := by
    have hfrontier : 0 < st.frontier.length := List.length_pos_iff.mpr hne
    rw [hlength, hsorted, List.length_insertionSort]
    omega
  -- The batch and the rest are the frontier in another order.
  have hsearch := hst.search.perm hsplit.symm
  have hbatchSwitch : ∀ id ∈ batch, site.IsSwitch id := fun id hid =>
    Site.Reachable.isSwitch (hsearch.reachable id (by simp [hid]))
  have hbatchNodup : batch.Nodup :=
    (List.nodup_append'.mp (List.nodup_append'.mp hsearch.nodup).2.1).1
  obtain ⟨l, hl, hperm⟩ := h.ids size batch hbatchNodup hbatchSwitch
  have hids : (l.map (·.id)).Perm batch := by
    refine (hperm.map _).trans (List.Perm.of_eq (Site.map_id_filterMap_lookup fun id hid => ?_))
    obtain ⟨d, hd, -⟩ := hbatchSwitch id hid
    exact ⟨d, hd⟩
  have hswitches : SwitchRecords site l := by
    intro d hd
    obtain ⟨id, hid, hlook⟩ := List.mem_filterMap.mp (hperm.mem_iff.mp hd)
    obtain rfl := site.id_eq hlook
    obtain ⟨d', hd', hswitch⟩ := hbatchSwitch d.id hid
    obtain rfl := Option.some.inj (hlook.symm.trans hd')
    exact ⟨hlook, hswitch⟩
  -- The response has each switch of the batch once, so the loop over it does not fail.
  have hfold := foldlM_addSwitch hswitches (hids.nodup_iff.mpr hbatchNodup)
    { st with frontier := sorted.drop batch.length, requests := st.requests ++ [batch] }
  rw [List.toFinset_eq_of_perm _ _ hids] at hfold
  have hrun : followBatch p devices (fun _ => false) size st = .ok { l.foldl (addPeers p)
      { st with frontier := sorted.drop batch.length, requests := st.requests ++ [batch] } with
          devices := st.devices ++ l } := by
    rw [followBatch]
    simp only [← hsorted, ← hbatch, hl, addSwitches, bind, Except.bind, hfold]
    rfl
  refine ⟨_, hrun, ⟨?_, ?_, ?_⟩, ?_⟩
  · rw [List.map_append]
    exact Search.foldl_addPeers hswitches _ (hsearch.perm (hids.symm.append_right _))
  · intro d hd
    rcases List.mem_append.mp hd with hold | hnew
    · exact hst.record d hold
    · exact (hswitches d hnew).1
  · obtain ⟨first, hfirst, hfetched⟩ := hst.fetched
    refine ⟨first, hfirst, ?_⟩
    rw [foldl_addPeers_requests, List.flatten_append, List.flatten_singleton, ← List.append_assoc,
      List.map_append]
    exact hfetched.append hids.symm
  · have hnew : l.length = batch.length := by simpa using hids.length_eq
    simp only [List.length_append]
    omega

/-- **The loop** ends without an error; the fuel it needs is the number of records. -/
theorem followFrontier_explored (h : site.Answers devices) {size : Nat} (hsize : 0 < size)
    (fuel : Nat) (hst : Explored site st)
    (hfuel : site.records.entries.length < st.devices.length + fuel) :
    ∃ st', followFrontier p devices (fun _ => false) size fuel st = some (.ok st') ∧
    Explored site st' ∧ st'.frontier = [] := by
  induction fuel generalizing st with
  | zero => exact absurd hst.length_le (by omega)
  | succ fuel ih =>
    by_cases hnil : st.frontier = []
    · exact ⟨st, by rw [followFrontier, if_pos hnil], hst, hnil⟩
    · obtain ⟨st', hrun, hst', hlonger⟩ := followBatch_explored h hsize hst hnil
      obtain ⟨st'', hrest, hst''⟩ := ih hst' (by omega)
      exact ⟨st'', by rw [followFrontier, if_neg hnil, hrun, ← hrest], hst''⟩

end Loop

/-! ## Compute nodes -/

section Hosts

variable {p : ProviderParams}

/-- The interfaces lead to compute nodes with names that are no switches, and agree on them. -/
structure HostInterfaces (p : ProviderParams) (scheduled : Finset String)
    (l : List (Option Identity)) : Prop where
  valid : ∀ host, some host ∈ l → p.excluded host = false → hasRole host p.deviceRole = true →
    host.id ≠ "" ∧ host.name ≠ "" ∧ host.id ∉ scheduled
  agree : ∀ host host', some host ∈ l → some host' ∈ l → host.id = host'.id → host = host'

/-- The map holds the compute nodes at some interfaces. -/
def HoldsHosts (p : ProviderParams) (hosts : GoMap String Identity) (l : List (Option Identity)) :
    Prop :=
  ∀ id host, hosts.lookup id = some host ↔
    host.id = id ∧ some host ∈ l ∧ p.excluded host = false ∧ hasRole host p.deviceRole = true

variable {hosts : GoMap String Identity} {l : List (Option Identity)} {scheduled : Finset String}
  {seen : List (Option Identity)}

theorem addHost_holds (hl : HostInterfaces p scheduled l) {iface : Option Identity}
    (hhosts : HoldsHosts p hosts seen) (hseen : ∀ x ∈ seen, x ∈ l) (hiface : iface ∈ l) :
    ∃ hosts', addHost p scheduled hosts iface = .ok hosts' ∧
      HoldsHosts p hosts' (seen ++ [iface]) := by
  cases iface with
  | none => exact ⟨hosts, rfl, fun id host => by simpa using hhosts id host⟩
  | some peer =>
    by_cases hskip : p.excluded peer ∨ ¬ hasRole peer p.deviceRole
    · refine ⟨hosts, by rw [addHost, if_pos hskip], fun id host => (hhosts id host).trans ?_⟩
      rw [List.mem_append]
      refine and_congr_right fun _ => and_congr_left fun hhost => (or_iff_left ?_).symm
      intro heq
      obtain rfl := Option.some.inj (List.mem_singleton.mp heq)
      rcases hskip with hexcl | hrole
      · exact absurd hhost.1 (by simp [hexcl])
      · exact hrole hhost.2
    · have hkind : p.excluded peer = false ∧ hasRole peer p.deviceRole = true := by
        simpa using hskip
      obtain ⟨hid, hname, hfree⟩ := hl.valid peer hiface hkind.1 hkind.2
      -- An entry for the same ID is the same compute node, so that writing it again changes
      -- nothing.
      have hrun : addHost p scheduled hosts (some peer) = .ok (hosts.insert peer.id peer) := by
        rw [addHost, if_neg hskip, if_neg (by simp [hid, hname, hfree])]
        cases hprev : hosts.lookup peer.id with
        | none => rfl
        | some previous =>
          obtain ⟨hpid, hpseen, -⟩ := (hhosts peer.id previous).mp hprev
          obtain rfl := hl.agree previous peer (hseen _ hpseen) hiface hpid
          simp
      refine ⟨_, hrun, fun id host => ?_⟩
      rw [GoMap.lookup_insert_eq_ite, List.mem_append, List.mem_singleton, Option.some_inj]
      split_ifs with heq
      · constructor
        · intro hsome
          obtain rfl := Option.some.inj hsome
          exact ⟨heq.symm, Or.inr rfl, hkind⟩
        · rintro ⟨hhid, hmem | rfl, -⟩
          · rw [hl.agree host peer (hseen _ hmem) hiface (hhid.trans heq)]
          · rfl
      · refine (hhosts id host).trans (and_congr_right fun hhid => and_congr_left fun _ =>
          (or_iff_left ?_).symm)
        rintro rfl
        exact heq hhid.symm

/-- **The compute nodes at the interfaces of the switches.** -/
theorem collectHosts_holds {switches : List Device}
    (h : HostInterfaces p scheduled (switches.flatMap Device.interfaces)) :
    ∃ hosts, collectHosts p scheduled switches = .ok hosts ∧
      HoldsHosts p hosts (switches.flatMap Device.interfaces) := by
  refine Loops.exists_foldlM (I := fun seen hosts => HoldsHosts p hosts seen) (fun id host =>
    by simp) fun seen iface rest hosts heq hhosts => ?_
  exact addHost_holds h hhosts (fun x hx => heq ▸ List.mem_append_left _ hx)
    (heq ▸ List.mem_append_cons_self)

/-- The hosts are the devices with the role that are not excluded. -/
theorem mem_hostDevices (h : HoldsHosts p hosts l) {d : Device} : d ∈ hostDevices hosts ↔
      ∃ host, (some host ∈ l ∧ p.excluded host = false ∧ hasRole host p.deviceRole = true) ∧
      d = { host with interfaces := [] } := by
  simp only [hostDevices, List.mem_filterMap, List.mem_insertionSort, Option.map_eq_some_iff]
  constructor
  · rintro ⟨id, -, host, hlook, rfl⟩
    exact ⟨host, ((h id host).mp hlook).2, rfl⟩
  · rintro ⟨host, hhost, rfl⟩
    have hlook : hosts.lookup host.id = some host := (h host.id host).mpr ⟨rfl, hhost⟩
    exact ⟨host.id, AList.mem_keys.mp (GoMap.mem_iff_lookup.mpr ⟨host, hlook⟩), host, hlook, rfl⟩

theorem nodup_hostDevices (h : HoldsHosts p hosts l) : ((hostDevices hosts).map (·.id)).Nodup := by
  have hids : (hostDevices hosts).map (·.id) = hosts.keys.insertionSort (· ≤ ·) := by
    rw [hostDevices, List.map_filterMap]
    refine (List.filterMap_congr fun id hid => ?_).trans (List.filterMap_some)
    obtain ⟨host, hlook⟩ :=
      GoMap.mem_iff_lookup.mp (AList.mem_keys.mpr ((List.mem_insertionSort _).mp hid))
    simp [hlook, ((h id host).mp hlook).1]
  rw [hids]
  exact (List.perm_insertionSort _ _).nodup_iff.mpr hosts.keys_nodup

end Hosts

/-! ## Main result -/

section Main

variable {p : ProviderParams} {site : Site p} {st : DiscoverState}

section

variable (h : Explored site st)

include h

/-- The interfaces of the switches that were found. -/
theorem Explored.hostInterfaces :
    HostInterfaces p st.scheduled (st.devices.flatMap Device.interfaces) := by
  have hrecord : ∀ host, some host ∈ st.devices.flatMap Device.interfaces →
      ∃ d, site.records.lookup host.id = some d ∧ d.toIdentity = host := by
    intro host hhost
    obtain ⟨sw, hsw, hiface⟩ := List.mem_flatMap.mp hhost
    exact site.peer_record (h.record sw hsw) hiface
  constructor
  · intro host hhost _ hrole
    obtain ⟨d, hd, rfl⟩ := hrecord host hhost
    refine ⟨site.id_ne hd, site.name_ne hd, fun hmem => ?_⟩
    -- What is scheduled is a switch, and no role is one of both kinds.
    obtain ⟨d', hd', -, hswitch⟩ :=
      Site.Reachable.isSwitch (h.search.reachable _ ((h.search.mem_marked _).mp hmem))
    obtain rfl := Option.some.inj (hd.symm.trans hd')
    rw [hasRole, Option.any_eq_true] at hrole hswitch
    obtain ⟨role, hrole, hdevice⟩ := hrole
    obtain ⟨role', hrole', hswitch⟩ := hswitch
    obtain rfl := Option.some.inj (hrole.symm.trans hrole')
    exact site.roles_disjoint role (by simpa using hdevice) (by simpa using hswitch)
  · intro host host' hhost hhost' heq
    obtain ⟨d, hd, rfl⟩ := hrecord host hhost
    obtain ⟨d', hd', rfl⟩ := hrecord host' hhost'
    rw [heq] at hd
    rw [Option.some.inj (hd.symm.trans hd')]

/-- When nothing is queued, all reachable switches were visited. -/
theorem Explored.mem_devices_iff (hdone : st.frontier = []) (d : Device) :
    d ∈ st.devices ↔ site.Reachable d.id ∧ site.records.lookup d.id = some d := by
  have hsearch := h.search
  rw [hdone] at hsearch
  constructor
  · intro hd
    exact ⟨hsearch.mem_done_iff.mp (List.mem_map_of_mem hd), h.record d hd⟩
  · rintro ⟨hreach, hlook⟩
    obtain ⟨d', hd', hid⟩ := List.mem_map.mp (hsearch.mem_done_iff.mpr hreach)
    have hlook' := h.record d' hd'
    rw [hid] at hlook'
    rwa [Option.some.inj (hlook.symm.trans hlook')]

/-- When nothing is queued, all hosts at reachable switches were seen. -/
theorem Explored.mem_interfaces_iff (hdone : st.frontier = []) (host : Identity) :
    some host ∈ st.devices.flatMap Device.interfaces ↔
      ∃ id sw, site.Reachable id ∧ site.records.lookup id = some sw ∧
      some host ∈ sw.interfaces := by
  rw [List.mem_flatMap]
  constructor
  · rintro ⟨sw, hsw, hiface⟩
    exact ⟨sw.id, sw, ((h.mem_devices_iff hdone sw).mp hsw).1, h.record sw hsw, hiface⟩
  · rintro ⟨id, sw, hreach, hlook, hiface⟩
    obtain rfl := site.id_eq hlook
    exact ⟨sw, (h.mem_devices_iff hdone sw).mpr ⟨hreach, hlook⟩, hiface⟩

/-- **The compute nodes are appended** to the switches. -/
theorem appendHosts_discovered (hdone : st.frontier = []) :
    ∃ hosts, appendHosts p st = .ok { st with devices := st.devices ++ hostDevices hosts } ∧
      site.Discovered (st.devices ++ hostDevices hosts) := by
  obtain ⟨hosts, hrun, hhosts⟩ := collectHosts_holds h.hostInterfaces
  refine ⟨hosts, by rw [appendHosts, hrun]; rfl, ?_, fun d => ?_⟩
  · rw [List.map_append]
    refine List.nodup_append'.mpr ⟨(List.nodup_append'.mp h.search.nodup).1,
      nodup_hostDevices hhosts, fun id hid hhost => ?_⟩
    obtain ⟨d, hd, rfl⟩ := List.mem_map.mp hhost
    obtain ⟨host, ⟨hiface, hexcl, hrole⟩, rfl⟩ := (mem_hostDevices hhosts).mp hd
    exact (h.hostInterfaces.valid host hiface hexcl hrole).2.2
      ((h.search.mem_marked _).mpr (List.mem_append_left _ hid))
  · rw [List.mem_append, h.mem_devices_iff hdone, mem_hostDevices hhosts]
    refine or_congr_right (exists_congr fun host => and_congr_left fun _ => ?_)
    rw [h.mem_interfaces_iff hdone, Site.HostPeer, and_comm]

end

theorem batchSize_pos (pageSize : Option Int) : 0 < batchSize pageSize := by
  cases pageSize with
  | none => decide
  | some size =>
    rw [batchSize]
    split_ifs with hsize
    · omega
    · decide

/-- **Discovery finds the reachable switches.** It ends without an error, with the switches
reachable from those of the first query and their compute nodes; no switch is requested twice, nor
one of the first query; and the devices are the same for every size of a batch. -/
theorem discover_reachable {p : ProviderParams} (site : Site p)
    {devices : Option (List String) → Nat → Except HTTPError (List Device)}
    (h : site.Answers devices) :
    (∀ pageSize fuel, site.records.entries.length < fuel →
      ∃ st, discover p devices (fun _ => false) pageSize fuel = some (.ok st) ∧
      site.Discovered st.devices ∧
        st.requests.flatten.Nodup ∧ ∀ id ∈ st.requests.flatten, ¬ site.IsSeed id) ∧
    ∀ pageSize pageSize' fuel fuel' st st', site.records.entries.length < fuel →
      site.records.entries.length < fuel' →
      discover p devices (fun _ => false) pageSize fuel = some (.ok st) →
      discover p devices (fun _ => false) pageSize' fuel' = some (.ok st') →
        st.devices.Perm st'.devices := by
  have hmain : ∀ pageSize fuel, site.records.entries.length < fuel →
      ∃ st, discover p devices (fun _ => false) pageSize fuel = some (.ok st) ∧
      site.Discovered st.devices ∧
        st.requests.flatten.Nodup ∧ ∀ id ∈ st.requests.flatten, ¬ site.IsSeed id := by
    intro pageSize fuel hfuel
    obtain ⟨st₀, hseeds, hst₀⟩ := discoverSeeds_explored h (batchSize pageSize)
    obtain ⟨st, hloop, hst, hdone⟩ :=
      followFrontier_explored h (batchSize_pos pageSize) fuel hst₀ (by omega)
    obtain ⟨hosts, hhosts, hdiscovered⟩ := appendHosts_discovered hst hdone
    refine ⟨{ st with devices := st.devices ++ hostDevices hosts }, ?_, hdiscovered, ?_⟩
    · rw [discover, hseeds]
      simp only [hloop, Option.map_some, Except.bind, hhosts]
    · obtain ⟨first, hfirst, hfetched⟩ := hst.fetched
      obtain ⟨-, hnodup, hdisjoint⟩ :=
        List.nodup_append'.mp (hfetched.nodup_iff.mpr (List.nodup_append'.mp hst.search.nodup).1)
      exact ⟨hnodup, fun id hid hseed => hdisjoint ((hfirst id).mpr hseed) hid⟩
  refine ⟨hmain, fun pageSize pageSize' fuel fuel' st st' hfuel hfuel' hrun hrun' => ?_⟩
  obtain ⟨r, hr, hdiscovered, -⟩ := hmain pageSize fuel hfuel
  obtain ⟨r', hr', hdiscovered', -⟩ := hmain pageSize' fuel' hfuel'
  obtain rfl := Except.ok.inj (Option.some.inj (hrun.symm.trans hr))
  obtain rfl := Except.ok.inj (Option.some.inj (hrun'.symm.trans hr'))
  exact hdiscovered.perm hdiscovered'

/-- A spine found by the first query, a leaf behind it, and a node behind the leaf. -/
def rackParams : ProviderParams :=
  { deviceRole := ["compute"], switchRoles := ["leaf", "spine"], excludeStatuses := ["Deleted"] }

def rackNode : Device :=
  { id := "n1", name := "node-1", serial := "x", status := none, role := some "compute",
    interfaces := [] }

def rackSpine : Identity :=
  { id := "s1", name := "spine-1", serial := "", status := none, role := some "spine" }

def rackLeaf : Device :=
  { id := "l1", name := "leaf-1", serial := "", status := some "Active", role := some "leaf"
    interfaces := [some rackNode.toIdentity, none, some rackSpine] }

def rackRecords : GoMap String Device :=
  (((∅ : GoMap String Device).insert "s1"
    { rackSpine with interfaces := [some rackLeaf.toIdentity] }).insert "l1" rackLeaf).insert
    "n1" rackNode

theorem lookup_rackRecords {id : String} {d : Device} (h : rackRecords.lookup id = some d) :
    id = "n1" ∧ d = rackNode ∨ id = "l1" ∧ d = rackLeaf ∨
      id = "s1" ∧ d = { rackSpine with interfaces := [some rackLeaf.toIdentity] } := by
  simp only [rackRecords, GoMap.lookup_insert_eq_ite, AList.lookup_empty] at h
  split_ifs at h with hn hl hs
  · exact Or.inl ⟨hn, (Option.some.inj h).symm⟩
  · exact Or.inr (Or.inl ⟨hl, (Option.some.inj h).symm⟩)
  · exact Or.inr (Or.inr ⟨hs, (Option.some.inj h).symm⟩)

def rackSite : Site rackParams where
  records := rackRecords
  seeds := ["s1"]
  id_eq := by
    intro id d h
    rcases lookup_rackRecords h with ⟨rfl, rfl⟩ | ⟨rfl, rfl⟩ | ⟨rfl, rfl⟩ <;> rfl
  id_ne := by
    intro id d h
    rcases lookup_rackRecords h with ⟨rfl, rfl⟩ | ⟨rfl, rfl⟩ | ⟨rfl, rfl⟩ <;> decide
  name_ne := by
    intro id d h
    rcases lookup_rackRecords h with ⟨rfl, rfl⟩ | ⟨rfl, rfl⟩ | ⟨rfl, rfl⟩ <;> decide
  peer_record := by
    intro id d peer h hmem
    rcases lookup_rackRecords h with ⟨rfl, rfl⟩ | ⟨rfl, rfl⟩ | ⟨rfl, rfl⟩
    · simp [rackNode] at hmem
    · have hpeer : peer = rackNode.toIdentity ∨ peer = rackSpine := by simpa [rackLeaf] using hmem
      rcases hpeer with rfl | rfl
      · exact ⟨rackNode, rfl, rfl⟩
      · exact ⟨_, rfl, rfl⟩
    · have hpeer : peer = rackLeaf.toIdentity := by simpa using hmem
      rw [hpeer]
      exact ⟨rackLeaf, rfl, rfl⟩
  seeds_nodup := by decide
  seeds_switch := by
    intro id hid
    obtain rfl := List.mem_singleton.mp hid
    exact ⟨_, rfl, by decide⟩
  roles_disjoint := by decide

/-- The rack is found from its spine, with batches of one switch and with those of the default
size. -/
theorem rack_discovered :
    rackSite.Answers rackSite.serve ∧
      ∃ st st', discover rackParams rackSite.serve (fun _ => false) (some 1) 4 = some (.ok st) ∧
        discover rackParams rackSite.serve (fun _ => false) none 4 = some (.ok st') ∧
        rackSite.Discovered st.devices ∧ st.devices.Perm st'.devices := by
  have hanswers := Site.answers_serve rackSite
  obtain ⟨hruns, hsame⟩ := discover_reachable rackSite hanswers
  have hfuel : rackSite.records.entries.length < 4 := by decide
  obtain ⟨st, hst, hdiscovered, -⟩ := hruns (some 1) 4 hfuel
  obtain ⟨st', hst', -⟩ := hruns none 4 hfuel
  exact ⟨hanswers, st, st', hst, hst', hdiscovered, hsame _ _ _ _ _ _ hfuel hfuel hst hst'⟩

end Main

end Topograph.Nautobot
