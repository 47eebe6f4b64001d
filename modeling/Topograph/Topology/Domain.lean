import Topograph.Lib.GoMap

/-! # Accelerator domains (`pkg/topology/domain.go`)

A `DomainMap` maps accelerator domains to their hosts. Every map of the program is filled through
`AddHostInfo`, so the outer key of a host is its domain, the inner key its name, and no domain is
empty or without a name; the structure carries these facts. `getDomainTree` arranges the hosts of a
map into a tree of at most two levels below the root, with the host counts that size the blocks. -/

namespace Topograph.Topology

/-- A host of an accelerator domain. -/
structure HostInfo where
  domain : String
  instanceID : String
  hostName : String
  /-- The sub-domain of the host within its accelerator domain, if not empty. -/
  subDomain : String
  deriving DecidableEq, Repr

/-- The hosts of one domain, keyed by name. -/
abbrev Hosts := GoMap String HostInfo

/-- Whether `hosts` may stand under the key `domain`: both have the names they are filed under. -/
structure Hosts.Filed (domain : String) (hosts : Hosts) : Prop where
  named : domain ≠ ""
  nonempty : hosts.entries ≠ []
  keyed : ∀ key host, hosts.lookup key = some host → host.domain = domain ∧ host.hostName = key

/-- `DomainMap`: accelerator domain name to host metadata. -/
structure DomainMap where
  hosts : GoMap String Hosts
  filed : ∀ domain hs, hosts.lookup domain = some hs → hs.Filed domain

namespace DomainMap

/-- `NewDomainMap`. -/
def new : DomainMap where
  hosts := ∅
  filed domain hs h := by simp at h

/-- The hosts of the domain of `host` once `host` is added to them. -/
def addTo (m : DomainMap) (host : HostInfo) : Hosts :=
  match m.hosts.lookup host.domain with
  | some hosts => hosts.insert host.hostName host
  | none => (∅ : Hosts).insert host.hostName host

theorem lookup_addTo (m : DomainMap) (host : HostInfo) (key : String) :
    (m.addTo host).lookup key =
      if key = host.hostName then some host
      else (m.hosts.lookup host.domain).bind fun hosts => hosts.lookup key := by
  unfold addTo
  cases m.hosts.lookup host.domain with
  | none => rw [GoMap.lookup_insert_eq_ite, AList.lookup_empty, Option.bind_none]
  | some hosts => rw [GoMap.lookup_insert_eq_ite, Option.bind_some]

/-- Hosts are filed under their own names. -/
theorem filed_addTo (m : DomainMap) (host : HostInfo) (h : host.domain ≠ "") :
    (m.addTo host).Filed host.domain where
  named := h
  nonempty := by
    intro hnil
    have hlook := lookup_addTo m host host.hostName
    rw [if_pos rfl, GoMap.entries_eq_nil_iff.mp hnil] at hlook
    exact absurd hlook (by simp)
  keyed key h' hl := by
    rw [lookup_addTo] at hl
    split_ifs at hl with hkey
    · rw [← Option.some.inj hl, hkey]
      exact ⟨rfl, rfl⟩
    · obtain ⟨hs, hhs, hl⟩ := Option.bind_eq_some_iff.mp hl
      exact (m.filed _ _ hhs).keyed key h' hl

/-- `AddHostInfo`: a host without a domain is skipped. -/
def addHostInfo (m : DomainMap) (host : HostInfo) : DomainMap :=
  if h : host.domain = "" then m
  else
    { hosts := m.hosts.insert host.domain (m.addTo host)
      filed := by
        intro domain hs hl
        rw [GoMap.lookup_insert_eq_ite] at hl
        split_ifs at hl with hd
        · rw [← Option.some.inj hl, hd]
          exact filed_addTo m host h
        · exact m.filed domain hs hl }

/-- `AddHost`. -/
def addHost (m : DomainMap) (domain instance_ host : String) : DomainMap :=
  m.addHostInfo { domain := domain, instanceID := instance_, hostName := host, subDomain := "" }

/-- A host of a domain map, looked up by domain and name. -/
def lookupHost (m : DomainMap) (domain key : String) : Option HostInfo :=
  (m.hosts.lookup domain).bind fun hosts => hosts.lookup key

/-- A host is found under its own domain and name. -/
theorem keyed_of_lookupHost {m : DomainMap} {domain key : String} {host : HostInfo}
    (h : m.lookupHost domain key = some host) : host.domain = domain ∧ host.hostName = key := by
  obtain ⟨hosts, hentry, hhost⟩ := Option.bind_eq_some_iff.mp h
  exact (m.filed domain hosts hentry).keyed key host hhost

/-- **What adding a host changes**: the one place it is filed under. -/
theorem lookupHost_addHostInfo (m : DomainMap) (host : HostInfo) (h : host.domain ≠ "")
    (domain key : String) :
    (m.addHostInfo host).lookupHost domain key =
      if domain = host.domain ∧ key = host.hostName then some host
      else m.lookupHost domain key := by
  unfold lookupHost addHostInfo
  rw [dif_neg h, GoMap.lookup_insert_eq_ite]
  by_cases hd : domain = host.domain
  · subst hd
    rw [if_pos rfl, Option.bind_some, lookup_addTo]
    simp only [true_and]
  · rw [if_neg hd, if_neg fun hc => hd hc.1]

end DomainMap

/-! ## The domain tree -/

/-- A vertex of the domain tree. The children are a map, kept as its list of entries; `hosts` is set
for leaves only. -/
inductive BlockVertex where
  | node (id : String) (actualNodeCount maxChildNodeCount : Nat) (hosts : Option Hosts)
      (children : List (String × BlockVertex))

/-- The number of hosts placed below the vertex. -/
def BlockVertex.actualNodeCount : BlockVertex → Nat
  | node _ actualNodeCount _ _ _ => actualNodeCount

/-- The largest host count among the children of a vertex. -/
def maxNodeCount (children : List (String × BlockVertex)) : Nat :=
  (children.map fun child => child.2.actualNodeCount).foldl max 0

/-- A sub-domain vertex while the hosts of its domain are placed. -/
structure SubDomain where
  hosts : Hosts
  actualNodeCount : Nat

/-- The sub-domain a host is placed in: its own, or the fallback named like the domain. -/
def HostInfo.placedIn (domain : String) (host : HostInfo) : String :=
  if host.subDomain = "" then domain else host.subDomain

/-- One turn of the loop that places the hosts of a two-level domain. -/
def placeHost (domain : String) (subs : GoMap String SubDomain) (host : HostInfo) :
    GoMap String SubDomain :=
  let gn := host.placedIn domain
  let sub := (subs.lookup gn).getD { hosts := ∅, actualNodeCount := 0 }
  subs.insert gn
    { hosts := sub.hosts.insert host.hostName host, actualNodeCount := sub.actualNodeCount + 1 }

/-- The sub-domains of a two-level domain. -/
def subDomains (domain : String) (hosts : Hosts) : GoMap String SubDomain :=
  hosts.values.foldl (placeHost domain) ∅

/-- Whether some host of the domain carries a sub-domain. -/
def hasSubDomain (hosts : Hosts) : Bool := hosts.values.any fun host => host.subDomain ≠ ""

/-- The vertex of one domain: a leaf with its hosts, or one child per sub-domain. -/
def domainVertex (domain : String) (hosts : Hosts) : BlockVertex :=
  if hasSubDomain hosts then
    let children := (subDomains domain hosts).entries.map fun e =>
      (e.1, BlockVertex.node e.1 e.2.actualNodeCount 0 (some e.2.hosts) [])
    .node domain hosts.values.length (maxNodeCount children) none children
  else .node domain hosts.entries.length 0 (some hosts) []

/-- `GetDomainTree`: the root has one child per domain. -/
def DomainMap.getDomainTree (m : DomainMap) : BlockVertex :=
  let children := m.hosts.entries.map fun e => (e.1, domainVertex e.1 e.2)
  .node "" 0 (maxNodeCount children) none children

/-! ## Inferred block sizes -/

/-- The loop `for capacity < target { capacity *= 2 }`, for a positive capacity. -/
def doubleUntil (target : Nat) : Nat → Nat → Nat
  | 0, capacity => capacity
  | fuel + 1, capacity =>
    if capacity < target then doubleUntil target fuel (capacity * 2) else capacity

/-- The host counts of the named sub-domains of a domain. -/
def subSizes (hosts : Hosts) : GoMap String Nat :=
  hosts.values.foldl (fun sizes host =>
    if host.subDomain = "" then sizes
    else sizes.insert host.subDomain ((sizes.lookup host.subDomain).getD 0 + 1)) ∅

/-- `InferTwoLevelBlockSizes`: nothing for a map without sub-domains. -/
def DomainMap.inferTwoLevelBlockSizes (m : DomainMap) : List Nat :=
  let maxDomainSize := (m.hosts.values.map fun hosts => hosts.entries.length).foldl max 0
  let maxSubDomainSize := (m.hosts.values.flatMap fun hosts => (subSizes hosts).values).foldl max 0
  if m.hosts.values.any hasSubDomain then
    let aggregateSize := doubleUntil maxDomainSize maxDomainSize maxSubDomainSize
    if aggregateSize = maxSubDomainSize then [maxSubDomainSize]
    else [maxSubDomainSize, aggregateSize]
  else []

end Topograph.Topology
