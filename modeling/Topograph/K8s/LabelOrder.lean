import Mathlib.Data.Finset.Max
import Topograph.Ib.Discovery
import Topograph.K8s.Labeler

/-! # Node labels and the order of maps

`BuildNodeLabels` ranges over maps, and a shared vertex is walked once for every path to it, each
time in an order of its own. Two runs on one graph are runs on two values that differ in these
orders alone (`Reorders`). Every visit of a compute node writes the labels of its path over those of
earlier visits, and every visit can be the last one; so the labels are the same in all orders, and
those of one path, exactly when any two paths to a node agree on the keys that both write
(`orderIndependent_iff`). -/

namespace Topograph.K8s

open Topograph.Topology

/-! ## Orders -/

mutual

/-- `Reorders v v'`: the same vertex, with the children of every vertex below in some order. -/
def Reorders : VTree → VTree → Prop
  | .node name id vertices, v' =>
    v'.name = name ∧ v'.id = id ∧ ∃ vertices', ReordersAll vertices vertices' ∧
    vertices'.Perm v'.vertices

/-- The same vertices with their children in another order. -/
def ReordersAll : List (String × VTree) → List (String × VTree) → Prop
  | [], vertices' => vertices' = []
  | (key, v) :: vertices, vertices' =>
    ∃ v' rest, vertices' = (key, v') :: rest ∧ Reorders v v' ∧ ReordersAll vertices rest

end

mutual

theorem Reorders.refl : ∀ v : VTree, Reorders v v
  | .node name id vertices => by
    rw [Reorders]
    exact ⟨rfl, rfl, vertices, ReordersAll.refl vertices, .refl _⟩

theorem ReordersAll.refl : ∀ vertices : List (String × VTree), ReordersAll vertices vertices
  | [] => by rw [ReordersAll]
  | (key, v) :: vertices => by
    rw [ReordersAll]
    exact ⟨v, vertices, rfl, Reorders.refl v, ReordersAll.refl vertices⟩

end

/-- Reordering keeps IDs. -/
theorem Reorders.id_eq {v v' : VTree} (h : Reorders v v') : v'.id = v.id := by
  obtain ⟨name, id, vertices⟩ := v
  rw [Reorders] at h
  exact h.2.1

/-- The visits below a list of vertices. -/
theorem childVisits_eq (vertices : List (String × VTree)) (layers : List String) :
    childVisits vertices layers = vertices.flatMap fun e => visits e.2 (e.2.id :: layers) := by
  induction vertices with
  | nil => rw [childVisits]; rfl
  | cons e vertices ih => rw [childVisits, ih, List.flatMap_cons]

theorem visits_of_ne_nil {name id : String} {vertices : List (String × VTree)} (h : vertices ≠ [])
    (layers : List String) :
    visits (.node name id vertices) layers = childVisits vertices layers := by
  cases vertices with
  | nil => exact absurd rfl h
  | cons e vertices => rw [visits]

mutual

/-- **The visits of another order** are the same visits. -/
theorem visits_perm :
    ∀ (v v' : VTree) (layers : List String), Reorders v v' →
    (visits v layers).Perm (visits v' layers)
  | .node name id [], .node name' id' vertices', layers, h => by
    rw [Reorders] at h
    obtain ⟨rfl, rfl, ws, hws, hperm⟩ := h
    rw [ReordersAll] at hws
    subst hws
    obtain rfl : vertices' = [] := hperm.nil_eq.symm
    exact .refl _
  | .node name id (e :: vertices), .node name' id' vertices', layers, h => by
    rw [Reorders] at h
    obtain ⟨rfl, rfl, ws, hws, hperm⟩ := h
    have hne : vertices' ≠ [] := by
      rintro rfl
      rw [ReordersAll] at hws
      obtain ⟨v', rest, rfl, -⟩ := hws
      exact absurd hperm.length_eq (by simp)
    rw [visits_of_ne_nil (List.cons_ne_nil e vertices), visits_of_ne_nil hne]
    refine (childVisits_perm (e :: vertices) ws layers hws).trans ?_
    rw [childVisits_eq, childVisits_eq]
    exact hperm.flatMap_right _

/-- Reordering permutes the visits below a list of vertices. -/
theorem childVisits_perm : ∀ (vertices vertices' : List (String × VTree)) (layers : List String),
    ReordersAll vertices vertices' →
      (childVisits vertices layers).Perm (childVisits vertices' layers)
  | [], vertices', layers, h => by
    rw [ReordersAll] at h
    subst h
    exact .refl _
  | (key, v) :: vertices, vertices', layers, h => by
    rw [ReordersAll] at h
    obtain ⟨v', rest, rfl, hv, hrest⟩ := h
    rw [childVisits, childVisits, hv.id_eq]
    exact (visits_perm v v' _ hv).append (childVisits_perm vertices rest layers hrest)

end

mutual

/-- **Every visit can be the last one.** -/
theorem exists_last : ∀ (v : VTree) (layers : List String) (x : Visit), x ∈ visits v layers →
    ∃ v', Reorders v v' ∧ ∃ before, visits v' layers = before ++ [x]
  | .node name id [], [], x, h => by
    rw [visits] at h
    exact absurd h List.not_mem_nil
  | .node name id [], own :: layers, x, h => by
    rw [visits] at h
    obtain rfl := List.mem_singleton.mp h
    exact ⟨_, Reorders.refl _, [], by rw [visits]; rfl⟩
  | .node name id (e :: vertices), layers, x, h => by
    rw [visits] at h
    obtain ⟨ws, ws', hws, hperm, before, heq⟩ := exists_last_child (e :: vertices) layers x h
    have hne : ws' ≠ [] := by
      rintro rfl
      rw [childVisits] at heq
      exact absurd heq (by simp)
    refine ⟨.node name id ws', ?_, before, by rw [visits_of_ne_nil hne, heq]⟩
    rw [Reorders]
    exact ⟨rfl, rfl, ws, hws, hperm⟩

/-- Some order of the children visits a given leaf last. -/
theorem exists_last_child : ∀ (vertices : List (String × VTree)) (layers : List String) (x : Visit),
    x ∈ childVisits vertices layers → ∃ ws ws', ReordersAll vertices ws ∧ ws.Perm ws' ∧
      ∃ before, childVisits ws' layers = before ++ [x]
  | [], layers, x, h => by
    rw [childVisits] at h
    exact absurd h List.not_mem_nil
  | (key, v) :: vertices, layers, x, h => by
    rw [childVisits, List.mem_append] at h
    rcases h with h | h
    · -- The child goes behind its siblings.
      obtain ⟨v', hv, before, heq⟩ := exists_last v (v.id :: layers) x h
      refine ⟨(key, v') :: vertices, vertices ++ [(key, v')], ?_,
        (List.perm_append_singleton _ _).symm,
        childVisits vertices layers ++ before, ?_⟩
      · rw [ReordersAll]
        exact ⟨v', vertices, rfl, hv, ReordersAll.refl vertices⟩
      · rw [childVisits_eq, List.flatMap_append, List.flatMap_singleton, hv.id_eq, heq,
          ← childVisits_eq,
          List.append_assoc]
    · obtain ⟨ws, ws', hws, hperm, before, heq⟩ := exists_last_child vertices layers x h
      refine ⟨(key, v) :: ws, (key, v) :: ws', ?_, hperm.cons _,
        visits v (v.id :: layers) ++ before, ?_⟩
      · rw [ReordersAll]
        exact ⟨v, ws, rfl, Reorders.refl v, hws⟩
      · rw [childVisits, heq, List.append_assoc]

end

/-- Two domain maps with the same hosts in the same domains. -/
def SameDomains (domains domains' : DomainMap) : Prop :=
  ∀ domain host, (domains.hosts.lookup domain).bind (·.lookup host) =
    (domains'.hosts.lookup domain).bind (·.lookup host)

/-- The same graph, with its maps in some order. -/
def ValueGraph.Reorders (graph graph' : ValueGraph) : Prop :=
  Option.Rel K8s.Reorders graph.tiers graph'.tiers ∧
    Option.Rel SameDomains graph.domains graph'.domains

/-! ## What a list of visits writes -/

/-- The value of one label of one node. -/
def labelOf (nodeMap : NodeLabelMap) (name key : String) : Option String :=
  ((nodeMap.lookup name).getD ∅).lookup key

/-- The tier labels of one path to a node. -/
def Visit.labels (keys : TopologyLabelKeys) (v : Visit) : Labels :=
  (tierLabels keys 0 v.switches).foldl (fun labels l => labels.insert l.1 l.2) ∅

/-- Two paths agree on the keys that both write. -/
def Visit.Compatible (keys : TopologyLabelKeys) (v w : Visit) : Prop :=
  ∀ key a b, (v.labels keys).lookup key = some a → (w.labels keys).lookup key = some b → a = b

/-- Labels that are written do not depend on the labels before. -/
theorem lookup_foldl_labels (l : List (String × String)) (labels : Labels) (key : String) :
    (l.foldl (fun labels l => labels.insert l.1 l.2) labels).lookup key =
      ((l.foldl (fun labels l => labels.insert l.1 l.2) (∅ : Labels)).lookup key).or
        (labels.lookup key) := by
  rw [GoMap.lookup_foldl_insert_reverse Prod.fst Prod.snd,
    GoMap.lookup_foldl_insert_reverse Prod.fst Prod.snd, AList.lookup_empty,
    Option.or_none]

/-- **One visit**: it writes the labels of its path over those the node has. -/
theorem labelOf_apply (keys : TopologyLabelKeys) (nodeMap : NodeLabelMap) (v : Visit)
    (name key : String) (hname : name ≠ "") :
    labelOf (v.apply keys nodeMap) name key =
      if v.name = name then ((v.labels keys).lookup key).or (labelOf nodeMap name key)
      else labelOf nodeMap name key := by
  unfold labelOf Visit.apply Visit.labels
  split_ifs with hempty heq heq
  · exact absurd (heq.symm.trans hempty) hname
  · rfl
  · rw [← heq, AList.lookup_insert, Option.getD_some, lookup_foldl_labels]
  · rw [AList.lookup_insert_ne (Ne.symm heq)]

/-- A node has labels when a visit labels it. -/
theorem mem_foldl_apply (keys : TopologyLabelKeys) (vs : List Visit) (nodeMap : NodeLabelMap)
    (name : String) :
    name ∈ vs.foldl (Visit.apply keys) nodeMap ↔ name ∈ nodeMap ∨ ∃ v ∈ vs, v.name = name ∧
    name ≠ "" := by
  induction vs generalizing nodeMap with
  | nil => simp
  | cons v vs ih =>
    have hmem : name ∈ v.apply keys nodeMap ↔ name ∈ nodeMap ∨ (v.name = name ∧ name ≠ "") := by
      unfold Visit.apply
      split_ifs with hempty
      · exact ⟨Or.inl, fun h => h.resolve_right fun ⟨heq, hne⟩ => hne (heq ▸ hempty)⟩
      · rw [AList.mem_insert]
        constructor
        · rintro (rfl | h)
          · exact Or.inr ⟨rfl, hempty⟩
          · exact Or.inl h
        · rintro (h | ⟨rfl, -⟩)
          · exact Or.inr h
          · exact Or.inl rfl
    rw [List.foldl_cons, ih, hmem]
    simp only [List.mem_cons, exists_eq_or_imp, or_assoc]

/-- The visits of one node agree. -/
def Agreeing (keys : TopologyLabelKeys) (vs : List Visit) : Prop :=
  ∀ v ∈ vs, ∀ w ∈ vs, v.name = w.name → v.name ≠ "" → v.Compatible keys w

/-- **The labels after visits that agree**: a key has the value that some visit writes and, if no
visit writes it, its old one. This does not mention the order of the visits. -/
theorem labelOf_foldl_apply (keys : TopologyLabelKeys) (vs : List Visit) (nodeMap : NodeLabelMap)
    (name key value : String) (hname : name ≠ "") (hvs : Agreeing keys vs) :
    labelOf (vs.foldl (Visit.apply keys) nodeMap) name key = some value ↔
      (∃ v ∈ vs, v.name = name ∧ (v.labels keys).lookup key = some value) ∨
        ((∀ v ∈ vs, v.name = name → (v.labels keys).lookup key = none) ∧
          labelOf nodeMap name key = some value) := by
  -- Induction from the end of the list: the last visit has the last word.
  induction vs using List.reverseRecOn with
  | nil => simp
  | append_singleton vs w ih =>
    have hold := ih fun v hv v' hv' => hvs v (List.mem_append_left _ hv) v'
      (List.mem_append_left _ hv')
    rw [List.foldl_append, List.foldl_cons, List.foldl_nil, labelOf_apply keys _ w name key hname]
    simp only [List.mem_append, List.mem_singleton, or_imp, forall_and, or_and_right, exists_or,
      exists_eq_left, forall_eq]
    split_ifs with hw
    · cases hlabel : (w.labels keys).lookup key with
      | none => simp [hw, hold]
      | some a =>
        rw [Option.some_or]
        constructor
        · intro h
          exact Or.inl (Or.inr ⟨hw, h⟩)
        · rintro ((⟨v, hv, hvname, hvlabel⟩ | ⟨-, h⟩) | ⟨⟨-, hnone⟩, -⟩)
          · have hagree := hvs v (List.mem_append_left _ hv) w (List.mem_append_cons_self)
              (hvname.trans hw.symm) (hvname ▸ hname)
            rw [hagree key value a hvlabel hlabel]
          · exact h
          · exact absurd (hnone hw) (by simp)
    · simp [hw, hold]

/-! ## The labels of the domains -/

/-- The hosts of all domains, with their domain, in the order of the loops. -/
def hostEntries (domains : DomainMap) : List (String × Σ _ : String, HostInfo) :=
  domains.hosts.entries.flatMap fun domain => domain.2.entries.map fun host => (domain.1, host)

/-- The hosts of the domains. -/
theorem mem_hostEntries {domains : DomainMap} {domain host : String} {info : HostInfo} :
    (domain, ⟨host, info⟩) ∈ hostEntries domains ↔
      (domains.hosts.lookup domain).bind (·.lookup host) = some info := by
  simp only [hostEntries, List.mem_flatMap, List.mem_map, Prod.mk.injEq, Option.bind_eq_some_iff]
  constructor
  · rintro ⟨⟨d, hosts⟩, hd, h, hh, rfl, rfl⟩
    exact ⟨hosts, GoMap.lookup_eq_some_iff.mpr hd, GoMap.lookup_eq_some_iff.mpr hh⟩
  · rintro ⟨hosts, hd, hh⟩
    exact ⟨⟨domain, hosts⟩, GoMap.lookup_eq_some_iff.mp hd, ⟨host, info⟩,
      GoMap.lookup_eq_some_iff.mp hh, rfl, rfl⟩

/-- Labelling the domains is one loop over their hosts. -/
theorem getDomainLabels_eq (keys : TopologyLabelKeys) (domains : DomainMap)
    (nodeMap : NodeLabelMap) :
    getDomainLabels keys domains nodeMap =
      (hostEntries domains).foldlM
        (fun nodeMap e => addDomainLabel keys e.1 nodeMap e.2) nodeMap := by
  unfold getDomainLabels hostEntries
  generalize domains.hosts.entries = entries
  induction entries generalizing nodeMap with
  | nil => rfl
  | cons domain entries ih =>
    rw [List.foldlM_cons, List.flatMap_cons, List.foldlM_append, List.foldlM_map]
    congr 1
    funext nodeMap'
    exact ih nodeMap'

/-- Two hosts that may both be labelled. -/
def Apart (e e' : String × Σ _ : String, HostInfo) : Prop := e.2.1 = e'.2.1 → e.2.1 = ""

theorem lookup_hostLabels (keys : TopologyLabelKeys) (domain : String) (info : HostInfo)
    (labels : Labels) :
    ∃ val, (hostLabels keys domain info labels).lookup keys.xclrDomain = some val := by
  unfold hostLabels
  split_ifs
  · rw [GoMap.lookup_insert_eq_ite, AList.lookup_insert]
    split_ifs <;> exact ⟨_, rfl⟩
  · exact ⟨_, AList.lookup_insert _⟩

/-- Every labelled node has a domain, as `getDomainLabels` keeps it. -/
def AllInDomain (keys : TopologyLabelKeys) (nodeMap : NodeLabelMap) : Prop :=
  ∀ name labels, nodeMap.lookup name = some labels → ∃ val, labels.lookup keys.xclrDomain = some val

variable {keys : TopologyLabelKeys} {host : Σ _ : String, HostInfo} {nodeMap : NodeLabelMap}

/-- A host that has labels already is an error. -/
theorem addDomainLabel_of_mem (hdomain : AllInDomain keys nodeMap) (domain : String)
    (hname : host.1 ≠ "") (hmem : host.1 ∈ nodeMap) :
    ∃ err, addDomainLabel keys domain nodeMap host = .error err := by
  obtain ⟨labels, hlook⟩ := GoMap.mem_iff_lookup.mp hmem
  obtain ⟨val, hval⟩ := hdomain _ _ hlook
  refine ⟨"multiple accelerator labels " ++ val ++ ", " ++ domain ++ " for node " ++ host.1, ?_⟩
  simp only [addDomainLabel, if_neg hname, hlook, Option.getD_some, hval]

/-- A new host gets its labels. -/
theorem addDomainLabel_of_not_mem (keys : TopologyLabelKeys) (domain : String) (hname : host.1 ≠ "")
    (hnew : host.1 ∉ nodeMap) :
    addDomainLabel keys domain nodeMap host = .ok
      (nodeMap.insert host.1 (hostLabels keys domain host.2 ∅)) := by
  rw [addDomainLabel, if_neg hname]
  simp only [AList.lookup_eq_none.mpr hnew, Option.getD_none, AList.lookup_empty]

theorem lookup_insert_hostLabels (keys : TopologyLabelKeys) (domain : String) (hname : host.1 ≠ "")
    (hnew : host.1 ∉ nodeMap) (name : String) (labels : Labels) :
    (nodeMap.insert host.1 (hostLabels keys domain host.2 ∅)).lookup name = some labels ↔
      nodeMap.lookup name = some labels ∨
        (host.1 = name ∧ name ≠ "" ∧ labels = hostLabels keys domain host.2 ∅) := by
  rw [GoMap.lookup_insert_eq_ite]
  split_ifs with heq
  · rw [heq, AList.lookup_eq_none.mpr hnew]
    simp [hname, eq_comm]
  · simp [Ne.symm heq]

/-- The hosts of a list can all be labelled: those with a name are apart and new. -/
def Labelable (nodeMap : NodeLabelMap) (l : List (String × Σ _ : String, HostInfo)) : Prop :=
  l.Pairwise Apart ∧ ∀ e ∈ l, e.2.1 ≠ "" → e.2.1 ∉ nodeMap

/-- **The loops over the hosts** succeed exactly when all hosts can be labelled, and then each has
the labels of its entry. -/
theorem foldlM_addDomainLabel (keys : TopologyLabelKeys)
    (l : List (String × Σ _ : String, HostInfo)) (nodeMap : NodeLabelMap)
    (hdomain : AllInDomain keys nodeMap) :
    (Labelable nodeMap l ∧
      ∃ nodeMap', l.foldlM (fun nodeMap e => addDomainLabel keys e.1 nodeMap e.2) nodeMap =
        .ok nodeMap' ∧
        ∀ name labels, nodeMap'.lookup name = some labels ↔ nodeMap.lookup name = some labels ∨
          ∃ e ∈ l, e.2.1 = name ∧ name ≠ "" ∧ labels = hostLabels keys e.1 e.2.2 ∅) ∨
    (¬ Labelable nodeMap l ∧
      ∃ err, l.foldlM (fun nodeMap e => addDomainLabel keys e.1 nodeMap e.2) nodeMap =
        .error err) := by
  induction l generalizing nodeMap with
  | nil => exact Or.inl ⟨⟨.nil, by simp⟩, nodeMap, rfl, by simp⟩
  | cons e l ih =>
    rw [List.foldlM_cons]
    by_cases hempty : e.2.1 = ""
    · have hstep : addDomainLabel keys e.1 nodeMap e.2 = .ok nodeMap := by
        rw [addDomainLabel, if_pos hempty]
      have hcond : Labelable nodeMap (e :: l) ↔ Labelable nodeMap l := by
        simp only [Labelable, List.pairwise_cons, List.forall_mem_cons, Apart, hempty, ne_eq,
          not_true_eq_false,
          false_implies, true_and, implies_true]
      have hspec : ∀ name labels, (∃ e' ∈ e :: l, e'.2.1 = name ∧ name ≠ "" ∧
          labels = hostLabels keys e'.1 e'.2.2 ∅) ↔
          ∃ e' ∈ l, e'.2.1 = name ∧ name ≠ "" ∧ labels = hostLabels keys e'.1 e'.2.2 ∅ := by
        intro name labels
        simp only [List.mem_cons, exists_eq_or_imp, hempty, or_iff_right_iff_imp]
        rintro ⟨rfl, hne, -⟩
        exact absurd rfl hne
      simp only [hstep, hcond, hspec]
      exact ih nodeMap hdomain
    · by_cases hmem : e.2.1 ∈ nodeMap
      · obtain ⟨err, herr⟩ := addDomainLabel_of_mem hdomain e.1 hempty hmem
        exact Or.inr ⟨fun hcond => hcond.2 e List.mem_cons_self hempty hmem, err, by rw [herr]; rfl⟩
      · have hcond : Labelable nodeMap (e :: l) ↔
            Labelable (nodeMap.insert e.2.1 (hostLabels keys e.1 e.2.2 ∅)) l := by
          simp only [Labelable, List.pairwise_cons, List.forall_mem_cons, Apart, hempty,
            AList.mem_insert, hmem]
          constructor
          · rintro ⟨⟨hnew, hpair⟩, -, hfresh⟩
            refine ⟨hpair, fun x hx hne => not_or.mpr ⟨fun heq => hnew x hx heq.symm,
              hfresh x hx hne⟩⟩
          · rintro ⟨hpair, hfresh⟩
            refine ⟨⟨fun x hx heq => ?_, hpair⟩, fun _ => not_false,
              fun x hx hne => (not_or.mp (hfresh x hx hne)).2⟩
            exact hfresh x hx (heq ▸ hempty) (Or.inl heq.symm)
        have hlook := lookup_insert_hostLabels keys e.1 hempty hmem
        have hdomain' : AllInDomain keys (nodeMap.insert e.2.1 (hostLabels keys e.1 e.2.2 ∅)) := by
          intro name labels h
          rcases (hlook name labels).mp h with h | ⟨-, -, rfl⟩
          · exact hdomain name labels h
          · exact lookup_hostLabels keys _ _ _
        have hrest := ih _ hdomain'
        simp only [hlook, or_assoc, ← hcond] at hrest
        rw [addDomainLabel_of_not_mem keys e.1 hempty hmem]
        simp only [List.mem_cons, exists_eq_or_imp]
        exact hrest

/-- No host is in two domains. -/
def OneDomain (domains : DomainMap) : Prop :=
  ∀ domain domain' host, host ≠ "" → ((domains.hosts.lookup domain).bind (·.lookup host)).isSome →
    ((domains.hosts.lookup domain').bind (·.lookup host)).isSome → domain = domain'

/-- A host is listed once in each of its domains. -/
theorem pairwise_hostEntries (domains : DomainMap) :
    (hostEntries domains).Pairwise fun e e' => e.1 = e'.1 → e.2.1 ≠ e'.2.1 := by
  unfold hostEntries
  rw [List.pairwise_flatMap]
  constructor
  · intro domain hdomain
    rw [List.pairwise_map]
    refine (List.nodupKeys_iff_pairwise.mp domain.2.nodupKeys).imp ?_
    intro host host' hne _
    exact hne
  · refine (List.nodupKeys_iff_pairwise.mp domains.hosts.nodupKeys).imp
      fun {d d'} hne e he e' he' heq => ?_
    obtain ⟨host, -, rfl⟩ := List.mem_map.mp he
    obtain ⟨host', -, rfl⟩ := List.mem_map.mp he'
    exact absurd heq hne

/-- Labelling succeeds when no host has two domains. -/
theorem labelable_hostEntries_iff (domains : DomainMap) :
    Labelable ∅ (hostEntries domains) ↔ OneDomain domains := by
  constructor
  · rintro ⟨hapart, -⟩ domain domain' host hname hin hin'
    obtain ⟨info, hinfo⟩ := Option.isSome_iff_exists.mp hin
    obtain ⟨info', hinfo'⟩ := Option.isSome_iff_exists.mp hin'
    by_contra hne
    have hsymm : Std.Symm Apart := ⟨fun e e' h heq => heq.trans (h heq.symm)⟩
    exact hname (hapart.forall (mem_hostEntries.mpr hinfo) (mem_hostEntries.mpr hinfo')
      (by simp [hne]) rfl)
  · intro h
    refine ⟨(pairwise_hostEntries domains).imp_of_mem fun {e e'} he he' hdistinct heq => ?_,
      by simp⟩
    by_contra hname
    refine hdistinct (h _ _ e.2.1 hname ?_ ?_) heq
    · rw [mem_hostEntries.mp he, Option.isSome_some]
    · rw [heq, mem_hostEntries.mp he', Option.isSome_some]

/-- **`getDomainLabels`** fails when a host is in two domains; otherwise every named host has the
labels of its domain. -/
theorem getDomainLabels_spec (keys : TopologyLabelKeys) (domains : DomainMap) :
    (OneDomain domains ∧ ∃ nodeMap, getDomainLabels keys domains ∅ = .ok nodeMap ∧
      ∀ name labels, nodeMap.lookup name = some labels ↔
        ∃ domain info, (domains.hosts.lookup domain).bind (·.lookup name) = some info ∧ name ≠ "" ∧
          labels = hostLabels keys domain info ∅) ∨
    (¬ OneDomain domains ∧ ∃ err, getDomainLabels keys domains ∅ = .error err) := by
  rw [← labelable_hostEntries_iff, getDomainLabels_eq]
  rcases foldlM_addDomainLabel keys (hostEntries domains) ∅ (fun name labels h =>
    absurd h (by simp)) with
    ⟨hcond, nodeMap, hrun, hspec⟩ | h
  · refine Or.inl ⟨hcond, nodeMap, hrun, fun name labels => ?_⟩
    rw [hspec]
    constructor
    · rintro (h | ⟨⟨domain, host, info⟩, he, rfl, hname, rfl⟩)
      · exact absurd h (by simp)
      · exact ⟨domain, info, mem_hostEntries.mp he, hname, rfl⟩
    · rintro ⟨domain, info, he, hname, rfl⟩
      exact Or.inr ⟨(domain, ⟨name, info⟩), mem_hostEntries.mpr he, rfl, hname, rfl⟩
  · exact Or.inr h

/-- **`BuildNodeLabels` succeeds** exactly when no host is in two domains, whatever the keys and the
tiers are. -/
theorem buildNodeLabels_eq_ok_iff (keys : TopologyLabelKeys) (graph : ValueGraph) :
    (∃ nodeMap, buildNodeLabels keys (some graph) = .ok nodeMap) ↔
      ∀ domains, graph.domains = some domains → OneDomain domains := by
  rw [buildNodeLabels_eq, ValueGraph.domainLabels]
  cases graph.domains with
  | none => simp [Except.map]
  | some domains =>
    rcases getDomainLabels_spec keys domains with ⟨hone, nodeMap, hrun, -⟩ | ⟨hmany, err, hrun⟩
    · simp [hrun, hone, Except.map]
    · simp [hrun, hmany, Except.map]

/-! ## All orders give the same labels -/

/-- Two label maps with the same nodes and the same labels. -/
def SameLabels (nodeMap nodeMap' : NodeLabelMap) : Prop :=
  ∀ name, (name ∈ nodeMap ↔ name ∈ nodeMap') ∧
    ∀ key, labelOf nodeMap name key = labelOf nodeMap' name key

/-- Two runs end alike: both fail, or both return the same labels. -/
def SameResult : Except String NodeLabelMap → Except String NodeLabelMap → Prop
  | .ok nodeMap, .ok nodeMap' => SameLabels nodeMap nodeMap'
  | .error _, .error _ => True
  | _, _ => False

/-- The tier labels of every node are those of one path to it, over the labels of its domain. -/
def SinglePath (keys : TopologyLabelKeys) (graph : ValueGraph) : Prop :=
  ∀ nodeMap, buildNodeLabels keys (some graph) = .ok nodeMap →
    ∃ domainMap, graph.domainLabels keys = .ok domainMap ∧ ∀ name, name ≠ "" →
    (∃ v ∈ graph.visits, v.name = name) →
      ∃ v ∈ graph.visits, v.name = name ∧
        ∀ key, labelOf nodeMap name key = ((v.labels keys).lookup key).or
        (labelOf domainMap name key)

/-- The labels of a graph are the same in every order of its maps, and those of single paths. -/
def OrderIndependent (keys : TopologyLabelKeys) (graph : ValueGraph) : Prop :=
  (∀ graph', graph.Reorders graph' →
    SameResult (buildNodeLabels keys (some graph)) (buildNodeLabels keys (some graph'))) ∧
    SinglePath keys graph

/-- The domain labels do not depend on the order. -/
theorem domainLabels_of_reorders (keys : TopologyLabelKeys) {graph graph' : ValueGraph}
    (h : graph.Reorders graph') :
    (∃ nodeMap nodeMap', graph.domainLabels keys = .ok nodeMap ∧
      graph'.domainLabels keys = .ok nodeMap' ∧ "" ∉ nodeMap ∧
      ∀ name, nodeMap.lookup name = nodeMap'.lookup name) ∨
    ∃ err err', graph.domainLabels keys = .error err ∧ graph'.domainLabels keys = .error err' := by
  obtain ⟨tiers, domains⟩ := graph
  obtain ⟨tiers', domains'⟩ := graph'
  cases h.2 with
  | none => exact Or.inl ⟨∅, ∅, rfl, rfl, by simp, fun name => rfl⟩
  | @some domains domains' hsame =>
    have hone : OneDomain domains ↔ OneDomain domains' := by
      unfold OneDomain
      simp only [hsame _ _]
    rcases getDomainLabels_spec keys domains with ⟨hd, nodeMap, hrun, hspec⟩ | ⟨hd, err, herr⟩
    · rcases getDomainLabels_spec keys domains' with ⟨-, nodeMap', hrun', hspec'⟩ | ⟨hd', -⟩
      · refine Or.inl ⟨nodeMap, nodeMap', hrun, hrun', fun hmem => ?_, fun name => ?_⟩
        · obtain ⟨labels, hlook⟩ := GoMap.mem_iff_lookup.mp hmem
          obtain ⟨-, -, -, hne, -⟩ := (hspec "" labels).mp hlook
          exact hne rfl
        · refine Option.ext fun labels => ?_
          rw [hspec, hspec']
          simp only [hsame _ _]
      · exact absurd (hone.mp hd) hd'
    · rcases getDomainLabels_spec keys domains' with ⟨hd', -⟩ | ⟨-, err', herr'⟩
      · exact absurd (hone.mpr hd') hd
      · exact Or.inr ⟨err, err', herr, herr'⟩

/-- Reordering a graph permutes its visits. -/
theorem visits_of_reorders {graph graph' : ValueGraph} (h : graph.Reorders graph') :
    graph.visits.Perm graph'.visits := by
  obtain ⟨tiers, domains⟩ := graph
  obtain ⟨tiers', domains'⟩ := graph'
  cases h.1 with
  | none => exact .refl _
  | @some treeRoot treeRoot' hroot =>
    have hlayers : rootLayers treeRoot' = rootLayers treeRoot := by
      rw [rootLayers, rootLayers, hroot.id_eq]
    change (visits treeRoot (rootLayers treeRoot)).Perm (visits treeRoot' (rootLayers treeRoot'))
    rw [hlayers]
    exact visits_perm treeRoot treeRoot' _ hroot

variable {graph : ValueGraph}

/-- Some order of the maps ends in any given visit. -/
theorem exists_reorders_last {v : Visit} (h : v ∈ graph.visits) :
    ∃ graph', graph.Reorders graph' ∧ graph'.domains = graph.domains ∧
      ∃ before, graph'.visits = before ++ [v] := by
  obtain ⟨tiers, domains⟩ := graph
  cases tiers with
  | none => exact absurd h List.not_mem_nil
  | some treeRoot =>
    obtain ⟨treeRoot', hroot, before, hlast⟩ := exists_last treeRoot (rootLayers treeRoot) v h
    have hlayers : rootLayers treeRoot' = rootLayers treeRoot := by
      rw [rootLayers, rootLayers, hroot.id_eq]
    have hdomains : Option.Rel SameDomains domains domains := by
      cases domains with
      | none => exact .none
      | some domains => exact .some fun _ _ => rfl
    refine ⟨⟨some treeRoot', domains⟩, ⟨.some hroot, hdomains⟩, rfl, before, ?_⟩
    change visits treeRoot' (rootLayers treeRoot') = before ++ [v]
    rw [hlayers, hlast]

/-- **The same visits in another order**, over the same labels, leave the same labels if they
agree. -/
theorem sameLabels_of_perm {vs vs' : List Visit} (hperm : vs.Perm vs') (hvs : Agreeing keys vs)
    {nodeMap nodeMap' : NodeLabelMap} (hempty : "" ∉ nodeMap)
    (hsame : ∀ name, nodeMap.lookup name = nodeMap'.lookup name) :
    SameLabels (vs.foldl (Visit.apply keys) nodeMap) (vs'.foldl (Visit.apply keys) nodeMap') := by
  have hmem : ∀ name, name ∈ nodeMap ↔ name ∈ nodeMap' := fun name => by
    rw [GoMap.mem_iff_lookup, GoMap.mem_iff_lookup, hsame]
  have hold : ∀ name key, labelOf nodeMap name key = labelOf nodeMap' name key := fun name key => by
    rw [labelOf, labelOf, hsame]
  intro name
  constructor
  · rw [mem_foldl_apply, mem_foldl_apply, hmem]
    simp only [hperm.mem_iff]
  · intro key
    by_cases hname : name = ""
    · -- A node without a name is never written.
      subst hname
      have hnone : ∀ (l : List Visit) (m : NodeLabelMap), "" ∉ m →
          labelOf (l.foldl (Visit.apply keys) m) "" key = none := by
        intro l m hm
        have : "" ∉ l.foldl (Visit.apply keys) m := by simp [mem_foldl_apply, hm]
        rw [labelOf, AList.lookup_eq_none.mpr this, Option.getD_none, AList.lookup_empty]
      rw [hnone vs nodeMap hempty, hnone vs' nodeMap' (fun h => hempty ((hmem "").mpr h))]
    · have hvs' : Agreeing keys vs' :=
        fun v hv w hw => hvs v (hperm.mem_iff.mpr hv) w (hperm.mem_iff.mpr hw)
      refine Option.ext fun value => ?_
      rw [labelOf_foldl_apply keys vs nodeMap name key value hname hvs,
        labelOf_foldl_apply keys vs' nodeMap' name key value hname hvs', hold]
      simp only [hperm.mem_iff]

/-! ## A longest path -/

/-- The label keys of a leaf are those of the tiers, in order. -/
theorem map_fst_tierLabels (keys : TopologyLabelKeys) (tier : Nat) (layers : List String) :
    (tierLabels keys tier layers).map (·.1) =
      (List.range (tierLabels keys tier layers).length).map fun i => keys.fabricKey (tier + i) := by
  induction layers generalizing tier with
  | nil => rfl
  | cons sw layers ih =>
    rw [tierLabels]
    split_ifs
    · rfl
    · rw [List.map_cons, ih (tier + 1), List.length_cons, List.range_succ_eq_map,
        List.map_cons, List.map_map]
      congr 1
      refine List.map_congr_left fun i _ => ?_
      rw [Function.comp_apply, Nat.succ_eq_add_one]
      congr 1
      omega

/-- A path that is at least as long writes at least the same keys. -/
theorem mem_labels_of_length_le {v w : Visit} {key : String}
    (hlen : (tierLabels keys 0 v.switches).length ≤ (tierLabels keys 0 w.switches).length)
    (h : key ∈ v.labels keys) : key ∈ w.labels keys := by
  unfold Visit.labels at h ⊢
  rw [GoMap.mem_foldl_insert, ← List.mem_map, map_fst_tierLabels] at h ⊢
  refine Or.inr (List.map_subset _ ?_ (h.resolve_left (AList.notMem_empty key)))
  exact List.range_subset.mpr hlen

/-- If all visits agree, a node has one path. -/
theorem singlePath_of_agreeing (h : Agreeing keys graph.visits) : SinglePath keys graph := by
  intro nodeMap hrun
  rw [buildNodeLabels_eq] at hrun
  cases hdom : graph.domainLabels keys with
  | error err =>
    rw [hdom] at hrun
    exact absurd hrun (by simp [Except.map])
  | ok domainMap =>
    rw [hdom] at hrun
    obtain rfl := Except.ok.inj hrun
    refine ⟨domainMap, rfl, fun name hname ⟨v₀, hv₀, hv₀name⟩ => ?_⟩
    -- The path that writes the most tiers writes all keys the other paths write.
    obtain ⟨v, hv, hmax⟩ := (graph.visits.filter (·.name = name)).toFinset.exists_max_image
      (fun v => (tierLabels keys 0 v.switches).length) ⟨v₀, by simp [hv₀, hv₀name]⟩
    simp only [List.mem_toFinset, List.mem_filter, decide_eq_true_eq] at hv hmax
    refine ⟨v, hv.1, hv.2, fun key => Option.ext fun value => ?_⟩
    rw [labelOf_foldl_apply keys _ domainMap name key value hname h]
    cases hlabel : (v.labels keys).lookup key with
    | some a =>
      rw [Option.some_or]
      constructor
      · rintro (⟨w, hw, hwname, hwlabel⟩ | ⟨hnone, -⟩)
        · rw [h v hv.1 w hw (hv.2.trans hwname.symm) (hv.2 ▸ hname) key a value hlabel hwlabel]
        · exact absurd ((hnone v hv.1 hv.2).symm.trans hlabel) (by simp)
      · intro ha
        exact Or.inl ⟨v, hv.1, hv.2, hlabel.trans ha⟩
    | none =>
      have hnone : ∀ w ∈ graph.visits, w.name = name → (w.labels keys).lookup key = none := by
        intro w hw hwname
        refine AList.lookup_eq_none.mpr fun hmem => ?_
        exact AList.lookup_eq_none.mp hlabel (mem_labels_of_length_le (hmax w ⟨hw, hwname⟩) hmem)
      rw [Option.none_or]
      constructor
      · rintro (⟨w, hw, hwname, hwlabel⟩ | ⟨-, h⟩)
        · exact absurd ((hnone w hw hwname).symm.trans hwlabel) (by simp)
        · exact h
      · intro h
        exact Or.inr ⟨hnone, h⟩

/-- What a run ends with is what its last visit wrote. -/
theorem labelOf_of_last {domainMap : NodeLabelMap} (hdom : graph.domainLabels keys = .ok domainMap)
    (hind : OrderIndependent keys graph) {v : Visit} (hv : v ∈ graph.visits) (hname : v.name ≠ "")
    {key value : String} (hlabel : (v.labels keys).lookup key = some value) :
    labelOf (graph.visits.foldl (Visit.apply keys) domainMap) v.name key = some value := by
  obtain ⟨graph', hreorder, hdomains, before, hlast⟩ := exists_reorders_last hv
  have hsame := hind.1 graph' hreorder
  have hdom' : graph'.domainLabels keys = .ok domainMap := by
    rw [ValueGraph.domainLabels, hdomains]; exact hdom
  rw [buildNodeLabels_eq, buildNodeLabels_eq, hdom, hdom'] at hsame
  have hlabels : labelOf (graph.visits.foldl (Visit.apply keys) domainMap) v.name key =
      labelOf (graph'.visits.foldl (Visit.apply keys) domainMap) v.name key := (hsame v.name).2 key
  rw [hlabels, hlast, List.foldl_append, List.foldl_cons, List.foldl_nil,
    labelOf_apply keys _ v _ key hname, if_pos rfl, hlabel,
    Option.some_or]

/-- **Labels in all orders.** The labels of a graph are the same for every order of its maps, and
those of single paths, exactly when any two paths to a node agree on the keys that both write, or
when there are none because a host is in two domains. -/
theorem orderIndependent_iff (keys : TopologyLabelKeys) (graph : ValueGraph) :
    OrderIndependent keys graph ↔ (∃ domains, graph.domains = some domains ∧ ¬ OneDomain domains) ∨
      Agreeing keys graph.visits := by
  have hfails : (∃ domains, graph.domains = some domains ∧ ¬ OneDomain domains) ↔
      ∃ err, graph.domainLabels keys = .error err := by
    unfold ValueGraph.domainLabels
    cases graph.domains with
    | none => simp
    | some domains =>
      rcases getDomainLabels_spec keys domains with ⟨hd, nodeMap, hrun, -⟩ | ⟨hd, err, herr⟩
      · simp [hd, hrun]
      · simp [hd, herr]
  rw [hfails]
  constructor
  · intro hind
    cases hdom : graph.domainLabels keys with
    | error err => exact Or.inl ⟨err, rfl⟩
    | ok domainMap =>
      refine Or.inr fun v hv w hw heq hname key a b ha hb => ?_
      have hlast := labelOf_of_last hdom hind hv hname ha
      rw [heq, labelOf_of_last hdom hind hw (heq ▸ hname) hb] at hlast
      exact (Option.some.inj hlast).symm
  · intro hcond
    refine ⟨fun graph' hreorder => ?_, ?_⟩
    · rw [buildNodeLabels_eq, buildNodeLabels_eq]
      rcases domainLabels_of_reorders keys hreorder with ⟨nodeMap, nodeMap', hrun, hrun', hempty,
        hsame⟩ | ⟨err, err', herr, herr'⟩
      · rw [hrun, hrun']
        have hvs : Agreeing keys graph.visits := hcond.resolve_left (by rw [hrun]; simp)
        exact sameLabels_of_perm (visits_of_reorders hreorder) hvs hempty hsame
      · rw [herr, herr']
        trivial
    · rcases hcond with ⟨err, herr⟩ | hvs
      · intro nodeMap hrun
        rw [buildNodeLabels_eq, herr] at hrun
        exact absurd hrun (by simp [Except.map])
      · exact singlePath_of_agreeing hvs

/-! ## A node below two leaf switches -/

/-- Leaf switches `L1` and `L2` below the spine `S`; the node `n` has an HCA at each of them, `a`
and `b` have one. -/
def dualHomedSwitches : GoMap String Ib.Switch :=
  ((AList.singleton "S" (Ib.parsedSwitch "S" ["L1", "L2"])).insert "L1" (Ib.parsedSwitch "L1" ["h1",
    "h3", "S"])).insert "L2"
    (Ib.parsedSwitch "L2" ["h2", "h4", "S"])

/-- Two adapters of `n`, and one each of `a` and `b`. -/
def dualHomedHCAs : GoMap String String :=
  (((AList.singleton "h1" "n").insert "h2" "n").insert "h3" "a").insert "h4" "b"

/-- The spine that discovery returns for these switches; `swap` is for the other order of its
children. -/
def dualHomedSpine (swap : Bool) : VTree :=
  let l1 := ("L1", .node "" "L1" [("a", .node "a" "a" []), ("n", .node "n" "n" [])])
  let l2 := ("L2", .node "" "L2" [("b", .node "b" "b" []), ("n", .node "n" "n" [])])
  .node "" "S" (if swap then [l2, l1] else [l1, l2])

/-- The graph of the provider, with an unnamed root above the spine. -/
def dualHomedGraph (swap : Bool) : ValueGraph where
  tiers := some (.node "" "" [("S", dualHomedSpine swap)])
  domains := none

/-- Both orders of the same discovered graph are runs of the program; in one the node is labelled
with the leaf switch `L2`, in the other with `L1`. -/
theorem dualHomed_labels_differ :
    Ib.generateTopologyConfig 4 dualHomedSwitches dualHomedHCAs
      (((AList.singleton "n" true).insert "a" true).insert "b" true) =
        some [MVertex.ofVTree (dualHomedSpine false)] ∧
      (dualHomedGraph false).Reorders (dualHomedGraph true) ∧
      ((buildNodeLabels (newTopologyLabelKeys [] "") (some (dualHomedGraph false))).map
        fun nodeMap => labelOf nodeMap "n" (fabricTierKey 0)) = .ok (some "L2") ∧
      ((buildNodeLabels (newTopologyLabelKeys [] "") (some (dualHomedGraph true))).map
        fun nodeMap => labelOf nodeMap "n" (fabricTierKey 0)) = .ok (some "L1") := by
  refine ⟨rfl, ⟨.some ?_, .none⟩, by decide +kernel, by decide +kernel⟩
  have hspine : Reorders (dualHomedSpine false) (dualHomedSpine true) := by
    rw [dualHomedSpine, Reorders]
    exact ⟨rfl, rfl, _, ReordersAll.refl _, .swap _ _ _⟩
  have hroot : ReordersAll [("S", dualHomedSpine false)] [("S", dualHomedSpine true)] := by
    rw [ReordersAll]
    exact ⟨_, _, rfl, hspine, ReordersAll.refl []⟩
  rw [Reorders]
  exact ⟨rfl, rfl, _, hroot, .refl _⟩

end Topograph.K8s
