import Topograph.Httperr
import Topograph.Lib.FrontierSearch
import Topograph.Lib.GoMap
import Mathlib.Data.Finset.Erase

/-! # Discovery of switches in Nautobot (`pkg/providers/nautobot/discovery.go`)

`discover` starts from the switches of one query and follows their cables. Switches it meets on the
way are requested by ID, a batch at a time; the compute nodes it meets are collected from the
interfaces of the switches. The query function (`p.devices`) and the checks of the context are
parameters. -/

namespace Topograph.Nautobot

/-- What the query selects of a device at the other end of a cable. `status` and `role` are the
names of the objects, if there are any. -/
structure Identity where
  id : String
  name : String
  serial : String
  status : Option String
  role : Option String
  deriving DecidableEq, Repr

/-- `device`: an interface holds the device at the other end of its cable, if there is one. -/
structure Device extends Identity where
  interfaces : List (Option Identity)
  deriving DecidableEq, Repr

/-- The fields of `ProviderParams` that the search reads. -/
structure ProviderParams where
  deviceRole : List String
  switchRoles : List String
  excludeStatuses : List String

/-- The device has one of the roles. -/
def hasRole (d : Identity) (roles : List String) : Bool := d.role.any (· ∈ roles)

/-- The device has an excluded status. -/
def ProviderParams.excluded (p : ProviderParams) (d : Identity) : Bool :=
  d.status.any (· ∈ p.excludeStatuses)

def defaultPageSize : Nat := 100

/-- The size of the batches. -/
def batchSize (pageSize : Option Int) : Nat :=
  match pageSize with
  | none => defaultPageSize
  | some size => if 0 < size then size.toNat else defaultPageSize

/-! ## The search -/

/-- The variables of the search, with the batches requested so far. -/
structure DiscoverState where
  devices : List Device
  scheduled : Finset String
  frontier : List String
  requests : List (List String)

section

variable (p : ProviderParams)

/-- The body of `addPeers` for one interface. -/
def addPeer (st : DiscoverState) : Option Identity → DiscoverState
  | none => st
  | some peer =>
    if peer.id = "" ∨ peer.name = "" ∨ p.excluded peer ∨ ¬ hasRole peer p.switchRoles ∨
      peer.id ∈ st.scheduled then st
    else { st with scheduled := insert peer.id st.scheduled, frontier := st.frontier ++ [peer.id] }

/-- `addPeers`. -/
def addPeers (st : DiscoverState) (d : Device) : DiscoverState := d.interfaces.foldl (addPeer p) st

/-- One switch of the first query. -/
def addSeed (st : DiscoverState) (seed : Device) : Except HTTPError DiscoverState :=
  if p.excluded seed.toIdentity then .ok st
  else if seed.id = "" ∨ seed.name = "" ∨ ¬ hasRole seed.toIdentity p.switchRoles ∨
    seed.id ∈ st.scheduled then
    .error ⟨statusBadGateway, "Nautobot returned invalid or duplicate switch identity"⟩
  else .ok { st with scheduled := insert seed.id st.scheduled, devices := st.devices ++ [seed] }

/-- One switch of the answer to a batch; `pending` are the IDs of the batch that were not seen in
the answer yet. -/
def addSwitch (pst : Finset String × DiscoverState) (sw : Device) :
    Except HTTPError (Finset String × DiscoverState) :=
  if sw.id ∉ pst.1 ∨ sw.name = "" ∨ p.excluded sw.toIdentity ∨
    ¬ hasRole sw.toIdentity p.switchRoles then
    .error ⟨statusBadGateway, "Nautobot returned an unexpected, duplicate, or invalid switch"⟩
  else .ok (pst.1.erase sw.id, addPeers p { pst.2 with devices := pst.2.devices ++ [sw] } sw)

/-- The switches of the answer, and the check that none is missing. -/
def addSwitches (batch : List String) (st : DiscoverState) (switches : List Device) :
    Except HTTPError DiscoverState := do
  let (pending, st) ← switches.foldlM (addSwitch p) (batch.toFinset, st)
  if pending ≠ ∅ then
    throw ⟨statusBadGateway,
      "Nautobot omitted connected switches; check inventory consistency and token permissions"⟩
  return st

variable (devices : Option (List String) → Nat → Except HTTPError (List Device))
  (canceled : Nat → Bool)

/-- One turn of the loop over the frontier. -/
def followBatch (size : Nat) (st : DiscoverState) : Except HTTPError DiscoverState := do
  let frontier := st.frontier.insertionSort (· ≤ ·)
  let batch := frontier.take (min size frontier.length)
  if canceled st.requests.length then
    throw ⟨statusBadGateway, "Nautobot discovery canceled"⟩
  let switches ← devices (some batch) size
  addSwitches p batch
    { st with frontier := frontier.drop batch.length, requests := st.requests ++ [batch] } switches

/-- The loop; `none` if the fuel is used up. -/
def followFrontier (size : Nat) : Nat → DiscoverState → Option (Except HTTPError DiscoverState)
  | 0, _ => none
  | fuel + 1, st =>
    if st.frontier = [] then some (.ok st)
    else
      match followBatch p devices canceled size st with
      | .error e => some (.error e)
      | .ok st => followFrontier size fuel st

/-! ## Compute nodes -/

/-- One interface of a switch, when the compute nodes are collected. -/
def addHost (scheduled : Finset String) (hosts : GoMap String Identity) :
    Option Identity → Except HTTPError (GoMap String Identity)
  | none => .ok hosts
  | some peer =>
    if p.excluded peer ∨ ¬ hasRole peer p.deviceRole then .ok hosts
    else if peer.id = "" ∨ peer.name = "" ∨ peer.id ∈ scheduled then
      .error ⟨statusBadGateway, "Nautobot returned invalid compute peer identity"⟩
    else
      match hosts.lookup peer.id with
      | none => .ok (hosts.insert peer.id peer)
      | some previous =>
        if previous.name ≠ peer.name ∨ previous.serial ≠ "" ∧ peer.serial ≠ "" ∧
          previous.serial ≠ peer.serial then
          .error ⟨statusBadGateway, "Nautobot returned conflicting compute peer identities"⟩
        else .ok (hosts.insert peer.id
          { peer with serial := if peer.serial = "" then previous.serial else peer.serial })

/-- The compute nodes at the interfaces of the switches. -/
def collectHosts (scheduled : Finset String) (switches : List Device) :
    Except HTTPError (GoMap String Identity) :=
  (switches.flatMap Device.interfaces).foldlM (addHost p scheduled) ∅

/-- The compute nodes as devices, by ID. -/
def hostDevices (hosts : GoMap String Identity) : List Device :=
  (hosts.keys.insertionSort (· ≤ ·)).filterMap fun id => (hosts.lookup id).map fun host =>
    { host with interfaces := [] }

/-! ## `discover` -/

/-- The state at the start of the loop: every switch of the first query is registered before their
cables are followed. -/
def discoverSeeds (size : Nat) : Except HTTPError DiscoverState := do
  let seeds ← devices none size
  let st ← seeds.foldlM (addSeed p)
      { devices := [], scheduled := ∅, frontier := [], requests := [] }
  return st.devices.foldl (addPeers p) st

/-- Append the compute nodes. -/
def appendHosts (st : DiscoverState) : Except HTTPError DiscoverState := do
  let hosts ← collectHosts p st.scheduled st.devices
  return { st with devices := st.devices ++ hostDevices hosts }

/-- `discover`. The devices of the state are what the source returns. -/
def discover (pageSize : Option Int) (fuel : Nat) : Option (Except HTTPError DiscoverState) :=
  match discoverSeeds p devices (batchSize pageSize) with
  | .error e => some (.error e)
  | .ok st =>
    (followFrontier p devices canceled (batchSize pageSize) fuel st).map fun r =>
      r.bind (appendHosts p)

end

end Topograph.Nautobot
