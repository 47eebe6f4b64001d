import Topograph.Topology.Domain
import Topograph.Lib.Grouping

/-! # The hosts of a domain tree

A domain map is determined by its lookups, and its tree holds the hosts of the map: the sub-domains
of a two-level domain group its hosts (`PlacedIn`). -/

namespace Topograph.Topology

/-! ## Filed hosts -/

namespace Hosts.Filed

variable {domain : String} {hosts : Hosts} (h : hosts.Filed domain)

include h

theorem of_mem_values {host : HostInfo} (hmem : host ∈ hosts.values) :
    host.domain = domain ∧ hosts.lookup host.hostName = some host := by
  obtain ⟨key, hkey⟩ := GoMap.mem_values.mp hmem
  have hlook := GoMap.lookup_eq_some_iff.mpr hkey
  obtain ⟨hdomain, hname⟩ := h.keyed key host hlook
  exact ⟨hdomain, hname ▸ hlook⟩

/-- The names of the hosts are their keys. -/
theorem map_hostName_values : hosts.values.map (·.hostName) = hosts.keys := by
  rw [GoMap.values, List.map_map]
  apply List.map_congr_left
  intro e he
  exact (h.keyed e.1 e.2 (GoMap.lookup_eq_some_iff.mpr he)).2

theorem nodup_hostNames : (hosts.values.map (·.hostName)).Nodup :=
  h.map_hostName_values ▸ hosts.nodupKeys

end Hosts.Filed

namespace DomainMap

/-- A domain is a key of the map exactly when it has a host. -/
theorem isSome_lookup_iff (m : DomainMap) (domain : String) :
    (m.hosts.lookup domain).isSome ↔ ∃ key, (m.lookupHost domain key).isSome := by
  unfold lookupHost
  cases hd : m.hosts.lookup domain with
  | none => simp
  | some hosts =>
    simp only [Option.isSome_some, Option.bind_some, true_iff]
    by_contra hno
    apply (m.filed domain hosts hd).nonempty
    rw [GoMap.entries_eq_nil_iff]
    intro key
    exact Option.not_isSome_iff_eq_none.mp fun hsome => hno ⟨key, hsome⟩

/-- The names of all hosts, domain by domain. -/
def hostNames (m : DomainMap) : List String := m.hosts.entries.flatMap fun e => e.2.keys

end DomainMap

/-! ## Sub-domains -/

/-- The sub-domain under a key, without hosts if there is none. -/
def subAt (subs : GoMap String SubDomain) (g : String) : SubDomain :=
  (subs.lookup g).getD { hosts := ∅, actualNodeCount := 0 }

/-- What holds once the hosts `l` are placed: every sub-domain has its hosts under their names. -/
structure PlacedIn (domain : String) (l : List HostInfo) (subs : GoMap String SubDomain) :
    Prop where
  mem : ∀ g, (subs.lookup g).isSome ↔ ∃ host ∈ l, host.placedIn domain = g
  hosts : ∀ g, (subAt subs g).hosts.values.Perm (l.filter fun host => host.placedIn domain = g)
  keyed : ∀ g key host, (subAt subs g).hosts.lookup key = some host → host.hostName = key
  count : ∀ g, (subAt subs g).actualNodeCount = (subAt subs g).hosts.values.length

namespace PlacedIn

variable {domain : String} {l : List HostInfo} {subs : GoMap String SubDomain}

theorem start (domain : String) : PlacedIn domain [] ∅ := by
  constructor <;> simp [subAt]

/-- A name that is new in its domain is new in every sub-domain. -/
theorem lookup_eq_none (h : PlacedIn domain l subs) {name : String}
    (hnew : name ∉ l.map (·.hostName)) (g : String) : (subAt subs g).hosts.lookup name = none := by
  rw [Option.eq_none_iff_forall_not_mem]
  intro other hother
  have hmem : other ∈ l.filter fun host => host.placedIn domain = g :=
    (h.hosts g).mem_iff.mp (GoMap.mem_values.mpr ⟨name, GoMap.lookup_eq_some_iff.mp hother⟩)
  apply hnew
  rw [← h.keyed g name other hother]
  exact List.mem_map_of_mem (List.mem_filter.mp hmem).1

/-- **One host is placed.** -/
theorem step (h : PlacedIn domain l subs) {host : HostInfo}
    (hnew : host.hostName ∉ l.map (·.hostName)) :
    PlacedIn domain (host :: l) (placeHost domain subs host) := by
  have hat : ∀ g, subAt (placeHost domain subs host) g =
      if g = host.placedIn domain then
        { hosts := (subAt subs g).hosts.insert host.hostName host
          actualNodeCount := (subAt subs g).actualNodeCount + 1 }
      else subAt subs g := by
    intro g
    unfold placeHost
    rw [subAt, GoMap.lookup_insert_eq_ite]
    by_cases hg : g = host.placedIn domain
    · rw [if_pos hg, if_pos hg, hg]
      rfl
    · rw [if_neg hg, if_neg hg]
      rfl
  have hvalues : ∀ g, g = host.placedIn domain →
      (subAt (placeHost domain subs host) g).hosts.values =
      host :: (subAt subs g).hosts.values := by
    intro g hg
    rw [hat, if_pos hg]
    exact GoMap.values_insert_of_lookup_eq_none (h.lookup_eq_none hnew g) host
  constructor
  case mem =>
    intro g
    unfold placeHost
    rw [GoMap.lookup_insert_eq_ite]
    by_cases hg : g = host.placedIn domain
    · simp [hg]
    · rw [if_neg hg, h.mem]
      simp [Ne.symm hg]
  case hosts =>
    intro g
    by_cases hg : g = host.placedIn domain
    · rw [hvalues g hg, List.filter_cons_of_pos (by simp [hg])]
      exact (h.hosts g).cons host
    · rw [hat, if_neg hg, List.filter_cons_of_neg (by simpa using Ne.symm hg)]
      exact h.hosts g
  case keyed =>
    intro g key other hother
    rw [hat] at hother
    split_ifs at hother with hg
    · change AList.lookup key (AList.insert host.hostName host (subAt subs g).hosts) =
        some other at hother
      rw [GoMap.lookup_insert_eq_ite] at hother
      split_ifs at hother with hkey
      · rw [← Option.some.inj hother, hkey]
      · exact h.keyed g key other hother
    · exact h.keyed g key other hother
  case count =>
    intro g
    by_cases hg : g = host.placedIn domain
    · rw [hvalues g hg, List.length_cons, ← h.count g, hat, if_pos hg]
    · rw [hat, if_neg hg, h.count g]

/-- Hosts with distinct names are placed one after another. -/
theorem foldl (h : PlacedIn domain l subs) {hs : List HostInfo}
    (hnodup : ((hs.reverse ++ l).map (·.hostName)).Nodup) :
    PlacedIn domain (hs.reverse ++ l) (hs.foldl (placeHost domain) subs) := by
  induction hs generalizing l subs with
  | nil => exact h
  | cons host hs ih =>
    rw [List.reverse_cons, List.append_assoc, List.singleton_append] at hnodup ⊢
    have hnew : host.hostName ∉ l.map (·.hostName) := by
      rw [List.map_append, List.map_cons] at hnodup
      exact (List.nodup_cons.mp (List.nodup_append.mp hnodup).2.1).1
    exact ih (h.step hnew) hnodup

end PlacedIn

/-- **The sub-domains of a domain group its hosts.** -/
theorem placedIn_subDomains {domain : String} {hosts : Hosts} (h : hosts.Filed domain) :
    PlacedIn domain hosts.values.reverse (subDomains domain hosts) := by
  have hnodup : ((hosts.values.reverse ++ []).map HostInfo.hostName).Nodup := by
    rw [List.append_nil, List.map_reverse, List.nodup_reverse]
    exact h.nodup_hostNames
  have := (PlacedIn.start domain).foldl hnodup
  rwa [List.append_nil] at this

/-! ## The hosts below a vertex -/

mutual

/-- The hosts of the leaves below a vertex. -/
def BlockVertex.leafHosts : BlockVertex → List HostInfo
  | .node _ _ _ (some hosts) _ => hosts.values
  | .node _ _ _ none children => childHosts children

/-- The hosts below the children of a vertex. -/
def childHosts : List (String × BlockVertex) → List HostInfo
  | [] => []
  | child :: children => child.2.leafHosts ++ childHosts children

end

/-- The hosts below a list of vertices. -/
theorem childHosts_eq_flatMap (children : List (String × BlockVertex)) :
    childHosts children = children.flatMap fun child => child.2.leafHosts := by
  induction children with
  | nil => rfl
  | cons child children ih => rw [childHosts, ih, List.flatMap_cons]

/-- **The vertex of a domain holds its hosts**, in one leaf or grouped by sub-domain. -/
theorem leafHosts_domainVertex_perm {domain : String} {hosts : Hosts} (h : hosts.Filed domain) :
    (domainVertex domain hosts).leafHosts.Perm hosts.values := by
  unfold domainVertex
  split_ifs with hsub
  · have hplaced := placedIn_subDomains h
    rw [BlockVertex.leafHosts, childHosts_eq_flatMap, List.flatMap_map]
    show ((subDomains domain hosts).entries.flatMap fun e => e.2.hosts.values).Perm _
    -- The groups are those of the keys, and the keys cover the hosts.
    rw [GoMap.flatMap_entries (subDomains domain hosts) fun _ sub => sub.hosts.values]
    have hgroup : ∀ g ∈ (subDomains domain hosts).keys,
        (((subDomains domain hosts).lookup g).elim [] fun sub => sub.hosts.values).Perm
          (hosts.values.reverse.filter fun host => host.placedIn domain = g) := by
      intro g hg
      obtain ⟨sub, hlook⟩ := GoMap.mem_iff_lookup.mp (AList.mem_keys.mp hg)
      have hperm := hplaced.hosts g
      rw [subAt, hlook, Option.getD_some] at hperm
      rwa [hlook, Option.elim_some]
    refine (List.Perm.flatMap_left _ hgroup).trans ?_
    refine (Grouping.flatMap_filter_perm _ (subDomains domain hosts).nodupKeys ?_).trans
      (List.reverse_perm _)
    intro host hhost
    exact AList.mem_keys.mpr (AList.lookup_isSome.mp ((hplaced.mem _).mpr ⟨host, hhost, rfl⟩))
  · rw [BlockVertex.leafHosts]

/-- **The domain tree holds the hosts of the map.** -/
theorem map_hostName_leafHosts_perm (m : DomainMap) :
    (m.getDomainTree.leafHosts.map (·.hostName)).Perm m.hostNames := by
  unfold DomainMap.getDomainTree DomainMap.hostNames
  rw [BlockVertex.leafHosts, childHosts_eq_flatMap, List.flatMap_map, List.map_flatMap]
  apply List.Perm.flatMap_left
  intro e he
  have hfiled := m.filed e.1 e.2 (GoMap.lookup_eq_some_iff.mpr he)
  rw [← hfiled.map_hostName_values]
  exact (leafHosts_domainVertex_perm hfiled).map _

end Topograph.Topology
