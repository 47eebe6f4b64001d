import Topograph.K8s.Reconcile
import Topograph.Lib.Loops

/-! # What reconciliation changes

`mergeNodeLabels` and `nodeLabelPatch` are described key by key. The keys that `BuildNodeLabels`
writes are managed keys, so without a source label a patch changes managed labels only, and makes
them the desired ones whatever they were before (`reconcile_history`). -/

namespace Topograph.K8s

open Topograph.Topology
open Topograph.Cluset (Text isNumeral isNumeral_iff)

/-! ## Patches, key by key -/

/-- The patch holds the labels that differ. -/
theorem lookup_nodeLabelPatch (current desired : Labels) (key : String) :
    (nodeLabelPatch current desired).lookup key =
      if current.lookup key = desired.lookup key then none else some (desired.lookup key) := by
  -- The first loop removes, the second one sets.
  have hremove : ∀ key, (current.entries.foldl (fun (changes : Patch) e =>
      if e.1 ∈ desired then changes else changes.insert e.1 none) ∅).lookup key =
        (current.lookup key).bind fun _ => if key ∈ desired then none else some none := by
    intro key
    rw [GoMap.lookup_foldl_entries (f := fun a _ o => if a ∈ desired then o else some none)]
    · cases current.lookup key <;> rfl
    · intro m e a
      by_cases he : e.1 ∈ desired
      · rw [if_pos he, if_pos he]
        split_ifs with ha
        · rw [ha]
        · rfl
      · rw [if_neg he, if_neg he, GoMap.lookup_insert_eq_ite]
  rw [nodeLabelPatch, GoMap.lookup_foldl_entries (f := fun a b o => if current.lookup a = some b
    then o else some (some b))]
  · rw [hremove]
    cases hd : desired.lookup key with
    | none =>
      have hmem : key ∉ desired := AList.lookup_eq_none.mp hd
      cases current.lookup key <;> simp [hmem]
    | some value =>
      have hmem : key ∈ desired := GoMap.mem_iff_lookup.mpr ⟨value, hd⟩
      cases hc : current.lookup key with
      | none => simp
      | some value' => by_cases heq : value' = value <;> simp [hmem, heq]
  · intro m e a
    by_cases he : current.lookup e.1 = some e.2
    · rw [if_pos he, if_pos he]
      split_ifs with ha
      · rw [ha]
      · rfl
    · rw [if_neg he, if_neg he, GoMap.lookup_insert_eq_ite]

/-- A patch replaces its labels alone. -/
theorem lookup_applyPatch (labels : Labels) (patch : Patch) (key : String) :
    (applyPatch labels patch).lookup key = (patch.lookup key).getD (labels.lookup key) := by
  rw [applyPatch, GoMap.lookup_foldl_entries (f := fun _ b _ => b)]
  · cases patch.lookup key <;> rfl
  · rintro m ⟨a', b⟩ a
    cases b with
    | none =>
      by_cases ha : a = a'
      · rw [if_pos ha, ha]
        exact AList.lookup_erase a' m
      · rw [if_neg ha]
        exact AList.lookup_erase_ne ha
    | some value => exact GoMap.lookup_insert_eq_ite m a' a value

/-- **A patch between two label maps**, applied to a third: the keys on which the two agree are left
alone. -/
theorem lookup_applyPatch_nodeLabelPatch (labels current desired : Labels) (key : String) :
    (applyPatch labels (nodeLabelPatch current desired)).lookup key =
      if current.lookup key = desired.lookup key then labels.lookup key
        else desired.lookup key := by
  rw [lookup_applyPatch, lookup_nodeLabelPatch]
  split_ifs <;> rfl

/-! ## Desired labels, key by key -/

/-- The managed labels go, but not the source label. -/
theorem lookup_removeManagedTopologyLabels (labels : Labels) (keys : TopologyLabelKeys)
    (source key : String) :
    (removeManagedTopologyLabels labels keys source).lookup key =
      if (source ≠ "" ∧ key = source) ∨ isManagedLevelLabel key keys = false then labels.lookup key
      else none := by
  rw [removeManagedTopologyLabels, GoMap.lookup_filterMap]
  cases labels.lookup key with
  | none => split_ifs <;> rfl
  | some value =>
    by_cases hsource : source ≠ "" ∧ key = source
    · simp [hsource]
    · cases hm : isManagedLevelLabel key keys <;> simp [hsource]

/-- The merged labels: the new ones, and the unmanaged ones of the node. -/
theorem lookup_mergeNodeLabels (current labels : Labels) (keys : TopologyLabelKeys)
    (source key : String) :
    (mergeNodeLabels current labels keys source).lookup key =
      ((skipAcceleratorLabelsWhenSourceExists current labels keys source).lookup key).or
        (if (source ≠ "" ∧ key = source) ∨ isManagedLevelLabel key keys = false then
          current.lookup key else none) := by
  rw [mergeNodeLabels, GoMap.lookup_copy, lookup_removeManagedTopologyLabels]

/-- The filter on the generated labels adds nothing. -/
theorem mem_of_mem_skip {current labels : Labels} {keys : TopologyLabelKeys}
    {source key value : String}
    (h : (skipAcceleratorLabelsWhenSourceExists current labels keys source).lookup key =
      some value) :
    labels.lookup key = some value := by
  rw [skipAcceleratorLabelsWhenSourceExists] at h
  split_ifs at h
  · exact h
  · by_cases hsub : key = keys.xclrSubDomain
    · rw [hsub, AList.lookup_erase] at h
      exact absurd h (by simp)
    · rw [AList.lookup_erase_ne hsub] at h
      by_cases hdom : key = keys.xclrDomain
      · rw [hdom, AList.lookup_erase] at h
        exact absurd h (by simp)
      · rwa [AList.lookup_erase_ne hdom] at h

/-! ## The keys that are written -/

/-- The keys of generated labels. A tier is an index of a slice, so it is below the largest
integer. -/
def TopologyLabelKeys.OutputKey (keys : TopologyLabelKeys) (key : String) : Prop :=
  key = keys.xclrDomain ∨ key = keys.xclrSubDomain ∨
    ∃ tier, tier + 1 < 2 ^ 63 ∧ keys.fabricKey tier = key ∧ key ≠ ""

/-- A label map that `BuildNodeLabels` produces for a node of some graph. The switches above a node
are kept in a slice, whose length is an `int`. -/
def Produces (keys : TopologyLabelKeys) (labels : Labels) : Prop :=
  ∃ graph : ValueGraph, (∀ v ∈ graph.visits, v.switches.length < 2 ^ 63) ∧ ∃ nodeMap node,
    buildNodeLabels keys (some graph) = .ok nodeMap ∧ nodeMap.lookup node = some labels

/-- All keys of the labels of all nodes are output keys. -/
def WritesOutputKeys (keys : TopologyLabelKeys) (nodeMap : NodeLabelMap) : Prop :=
  ∀ node labels, nodeMap.lookup node = some labels → ∀ key ∈ labels, keys.OutputKey key

variable {labels : Labels}

theorem mem_insert_iff {key key' value : String} :
    key' ∈ labels.insert key value ↔ key' = key ∨ key' ∈ labels := AList.mem_insert labels

variable {nodeMap : NodeLabelMap}

theorem WritesOutputKeys.getD {keys : TopologyLabelKeys} (h : WritesOutputKeys keys nodeMap)
    (node : String) : ∀ key ∈ (nodeMap.lookup node).getD ∅, keys.OutputKey key := by
  cases hlook : nodeMap.lookup node with
  | none => simp
  | some labels => exact h node labels hlook

/-- Output keys stay output keys when a node gets labels. -/
theorem WritesOutputKeys.insert {keys : TopologyLabelKeys} (h : WritesOutputKeys keys nodeMap)
    {node : String} (hlabels : ∀ key ∈ labels, keys.OutputKey key) :
    WritesOutputKeys keys (nodeMap.insert node labels) := by
  intro node' labels' hlook
  rw [GoMap.lookup_insert_eq_ite] at hlook
  split_ifs at hlook
  · rwa [← Option.some.inj hlook]
  · exact h node' labels' hlook

/-- The labels of a host have output keys. -/
theorem outputKey_hostLabels {keys : TopologyLabelKeys} {domainName : String} {hostInfo : HostInfo}
    (h : ∀ key ∈ labels, keys.OutputKey key) :
    ∀ key ∈ hostLabels keys domainName hostInfo labels, keys.OutputKey key := by
  have hdomain : ∀ key ∈ labels.insert keys.xclrDomain (checkLabel domainName),
      keys.OutputKey key := by
    intro key hkey
    rcases mem_insert_iff.mp hkey with rfl | hkey
    · exact Or.inl rfl
    · exact h key hkey
  intro key hkey
  rw [hostLabels] at hkey
  split_ifs at hkey
  · rcases mem_insert_iff.mp hkey with rfl | hkey
    · exact Or.inr (Or.inl rfl)
    · exact hdomain key hkey
  · exact hdomain key hkey

theorem WritesOutputKeys.addDomainLabel {keys : TopologyLabelKeys} {domainName : String}
    {nodeMap nodeMap' : NodeLabelMap} (h : WritesOutputKeys keys nodeMap)
    {host : Σ _ : String, HostInfo}
    (hrun : addDomainLabel keys domainName nodeMap host = .ok nodeMap') :
    WritesOutputKeys keys nodeMap' := by
  rw [K8s.addDomainLabel] at hrun
  split_ifs at hrun with hname
  · rwa [← Except.ok.inj hrun]
  · dsimp only at hrun
    split at hrun
    · exact absurd hrun (by simp)
    · rw [← Except.ok.inj hrun]
      exact h.insert (outputKey_hostLabels (h.getD _))

/-- Labelling the domains writes output keys only. -/
theorem WritesOutputKeys.getDomainLabels {keys : TopologyLabelKeys} {domains : DomainMap}
    {nodeMap nodeMap' : NodeLabelMap} (h : WritesOutputKeys keys nodeMap)
    (hrun : getDomainLabels keys domains nodeMap = .ok nodeMap') :
    WritesOutputKeys keys nodeMap' := by
  refine Loops.foldlM_ok (I := fun _ => WritesOutputKeys keys) h (fun _ _ _ _ _ _ h hrun => ?_) hrun
  exact Loops.foldlM_ok (I := fun _ => WritesOutputKeys keys) h (fun _ _ _ _ _ _ h hrun =>
    h.addDomainLabel hrun) hrun

variable {tier : Nat}

/-- The keys of a tier loop. -/
theorem mem_tierLabels {keys : TopologyLabelKeys} {switches : List String} {l : String × String}
    (h : l ∈ tierLabels keys tier switches) :
    ∃ i < switches.length, keys.fabricKey (tier + i) = l.1 ∧ l.1 ≠ "" := by
  induction switches generalizing tier with
  | nil => exact absurd h List.not_mem_nil
  | cons sw switches ih =>
    rw [tierLabels] at h
    split_ifs at h with hend
    · exact absurd h List.not_mem_nil
    · rcases List.mem_cons.mp h with rfl | h
      · exact ⟨0, Nat.succ_pos _, rfl, fun hkey => hend (Or.inr hkey)⟩
      · obtain ⟨i, hi, hkey, hne⟩ := ih h
        exact ⟨i + 1, Nat.succ_lt_succ hi, by rw [← hkey]; congr 1; omega, hne⟩

variable {key : String}

/-- A visit writes output keys only. -/
theorem WritesOutputKeys.apply {keys : TopologyLabelKeys} (h : WritesOutputKeys keys nodeMap)
    {v : Visit} (hlen : v.switches.length < 2 ^ 63) :
    WritesOutputKeys keys (v.apply keys nodeMap) := by
  rw [Visit.apply]
  split_ifs
  · exact h
  · refine h.insert fun key hkey => ?_
    rcases GoMap.mem_foldl_insert.mp hkey with hkey | ⟨e, he, rfl⟩
    · exact h.getD _ key hkey
    · obtain ⟨i, hi, hkey, hne⟩ := mem_tierLabels he
      exact Or.inr (Or.inr ⟨i, by omega, by rw [← hkey, Nat.zero_add], hne⟩)

/-- **Generated labels have output keys.** -/
theorem Produces.outputKey {keys : TopologyLabelKeys} (h : Produces keys labels)
    (hkey : key ∈ labels) : keys.OutputKey key := by
  obtain ⟨graph, hlen, nodeMap, node, hrun, hlook⟩ := h
  rw [buildNodeLabels_eq] at hrun
  have hdomains : ∀ nodeMap, graph.domainLabels keys = .ok nodeMap →
      WritesOutputKeys keys nodeMap := by
    intro nodeMap hdom
    have hempty : WritesOutputKeys keys ∅ := fun _ _ h => absurd h (by simp)
    rw [ValueGraph.domainLabels] at hdom
    cases hd : graph.domains with
    | none =>
      rw [hd] at hdom
      rwa [← Except.ok.inj hdom]
    | some domains =>
      rw [hd] at hdom
      exact hempty.getDomainLabels hdom
  cases hdom : graph.domainLabels keys with
  | error err =>
    rw [hdom] at hrun
    exact absurd hrun (by simp [Except.map])
  | ok nodeMap₀ =>
    rw [hdom] at hrun
    obtain rfl := Except.ok.inj hrun
    have hall : WritesOutputKeys keys (graph.visits.foldl (Visit.apply keys) nodeMap₀) :=
      List.foldlRecOn graph.visits _ (hdomains _ hdom) fun _ h v hv => h.apply (hlen v hv)
    exact hall node labels hlook key hkey

/-! ## Written keys are managed -/

theorem toList_toString (n : Nat) : (toString n).toList = Nat.toDigits 10 n := by
  rw [Nat.toString_eq_ofList_toDigits, String.toList_ofList]

theorem isNumeral_toDigits (n : Nat) : isNumeral (Nat.toDigits 10 n) = true := by
  rw [isNumeral_iff]
  exact ⟨Nat.toDigits_ne_nil, fun c hc => Nat.isDigit_of_mem_toDigits (by omega) (by omega) hc⟩

/-- A numeral without a sign is read as its value. -/
theorem parseInt_numeral {s : Text} (h : isNumeral s = true)
    (hlt : Nat.ofDigitChars 10 s 0 < 2 ^ 63) :
    parseInt s = some (Nat.ofDigitChars 10 s 0 : Int) := by
  obtain ⟨hne, hdig⟩ := isNumeral_iff.mp h
  cases s with
  | nil => exact absurd rfl hne
  | cons c s =>
    have hc := hdig c List.mem_cons_self
    have hminus : c ≠ '-' := by
      rintro rfl
      exact absurd hc (by decide)
    have hplus : c ≠ '+' := by
      rintro rfl
      exact absurd hc (by decide)
    rw [parseInt, if_pos ⟨h, hlt⟩]
    · rintro s' heq
      exact hminus (List.cons.inj heq).1
    · rintro s' heq
      exact hplus (List.cons.inj heq).1

/-- The tier is read off its key. -/
theorem cutPrefix_fabricTierKey (tier : Nat) :
    cutPrefix (fabricTierKey tier) keyFabricTierPrefix = some (Nat.toDigits 10 tier) := by
  rw [cutPrefix, fabricTierKey, String.toList_append, toList_toString, if_pos, List.drop_left]
  exact List.isPrefixOf_iff_prefix.mpr (List.prefix_append ..)

theorem parseInt_toDigits (h : tier < 2 ^ 63) :
    parseInt (Nat.toDigits 10 tier) = some (tier : Int) := by
  have hvalue : Nat.ofDigitChars 10 (Nat.toDigits 10 tier) 0 = tier := by simp
  rw [parseInt_numeral (isNumeral_toDigits tier) (by rw [hvalue]; exact h), hvalue]

/-- The keys of the tiers are recognised. -/
theorem isTierKey_fabricTierKey (h : tier < 2 ^ 63) : isTierKey (fabricTierKey tier) = true := by
  rw [isTierKey, cutPrefix_fabricTierKey, Option.bind_some, parseInt_toDigits h]
  simp

/-- **The engine manages what it writes.** -/
theorem isManagedLevelLabel_of_outputKey {grammar : LabelGrammar} {keys : TopologyLabelKeys}
    (hvalid : keys.validate grammar = .ok ()) (h : keys.OutputKey key) :
    isManagedLevelLabel key keys = true := by
  have hconfigured : ∀ key ∈ keys.configured, isManagedLevelLabel key keys = true := by
    intro key hkey
    rw [isManagedLevelLabel, decide_eq_true_iff]
    exact Or.inr (Or.inr (Or.inl ⟨hkey, TopologyLabelKeys.ne_empty_of_mem hvalid hkey⟩))
  rcases h with rfl | rfl | ⟨tier, htier, rfl, hne⟩
  · exact hconfigured _ (by simp [TopologyLabelKeys.configured])
  · exact hconfigured _ (by simp [TopologyLabelKeys.configured])
  · rw [TopologyLabelKeys.fabricKey] at hne ⊢
    split_ifs with hfabric
    · rw [isManagedLevelLabel, decide_eq_true_iff]
      exact Or.inr (Or.inr (Or.inr (isTierKey_fabricTierKey (by omega))))
    · rw [if_neg hfabric] at hne
      cases hget : keys.fabric[tier]? with
      | none =>
        rw [hget] at hne
        exact absurd rfl hne
      | some key => exact hconfigured key (List.mem_append_left _ (List.mem_of_getElem? hget))

/-! ## Histories -/

section History

variable {k8s : Kubernetes} {p : Params} {keys : TopologyLabelKeys} {nodeName : String}

/-- The cached labels of a node that needs not be fetched. -/
def EngineState.cachedLabels (st : EngineState) (nodeName : String) : Option Labels :=
  (st.cachedNodeMap.bind (·.lookup nodeName)).join

/-- The labels of a node after several calls of `AddNodeLabels`. -/
def addAllLabels (k8s : Kubernetes) (p : Params) (keys : TopologyLabelKeys) (nodeName : String)
    (st : EngineState) (ls : List Labels) : EngineState :=
  ls.foldl (fun st labels => (addNodeLabels k8s p keys st nodeName labels).1) st

/-- Without a source label: the new labels under managed keys, and what was there under the
others. -/
theorem lookup_mergeNodeLabels_of_managed {current labels : Labels}
    (hlabels : ∀ key ∈ labels, isManagedLevelLabel key keys = true) (key : String) :
    (mergeNodeLabels current labels keys "").lookup key =
      if isManagedLevelLabel key keys = true then labels.lookup key else current.lookup key := by
  rw [lookup_mergeNodeLabels, skipAcceleratorLabelsWhenSourceExists, if_pos (Or.inl rfl)]
  cases hm : isManagedLevelLabel key keys with
  | true => simp
  | false =>
    have hnone : labels.lookup key = none := by
      rw [AList.lookup_eq_none]
      exact fun hmem => absurd (hlabels key hmem) (by simp [hm])
    simp [hnone]

/-- A node that is cached with the labels `current` and stands on the server with `server`. -/
structure Holds (st : EngineState) (nodeName : String) (current server : Labels) : Prop where
  cached : st.cachedLabels nodeName = some current
  server : st.server.lookup nodeName = some server

/-- **One call**: the managed labels become the given ones in the cache and on the server, other
labels and other nodes stay. -/
theorem Holds.addNodeLabels {st : EngineState} {current server labels : Labels}
    (h : Holds st nodeName current server) (hsource : p.acceleratorDomainSourceLabel = "")
    (hmatch : matchesNodeSelector k8s p current = true)
    (hlabels : ∀ key ∈ labels, isManagedLevelLabel key keys = true)
    (hsame : ∀ key, isManagedLevelLabel key keys = true → server.lookup key = current.lookup key) :
    ∃ current' server', Holds (K8s.addNodeLabels k8s p keys st nodeName labels).1 nodeName
      current' server' ∧
      (∀ key, current'.lookup key = if isManagedLevelLabel key keys = true then labels.lookup key
        else current.lookup key) ∧
      (∀ key, server'.lookup key = if isManagedLevelLabel key keys = true then labels.lookup key
        else server.lookup key) ∧
      (∀ other, other ≠ nodeName → (K8s.addNodeLabels k8s p keys st nodeName labels).1.server.lookup
        other = st.server.lookup other) ∧
      (K8s.addNodeLabels k8s p keys st nodeName labels).2 =
        .ok (if current.equal (mergeNodeLabels current labels keys "") then none
          else some (nodeLabelPatch current (mergeNodeLabels current labels keys ""))) := by
  have hdesired : ∀ key, (mergeNodeLabels current labels keys "").lookup key =
      if isManagedLevelLabel key keys = true then labels.lookup key else current.lookup key :=
    lookup_mergeNodeLabels_of_managed hlabels
  -- The node is in the cache.
  obtain ⟨cached, hcached, hnode⟩ :=
    Option.bind_eq_some_iff.mp (Option.join_eq_some_iff.mp h.cached)
  have hstep : K8s.addNodeLabels k8s p keys st nodeName labels = reconcileNode k8s p keys st cached
      nodeName labels current := by
    simp only [K8s.addNodeLabels, loadNodes, hcached, Option.getD_some, hnode]
  rw [hstep, reconcileNode, if_neg (by simp [hmatch]), hsource]
  by_cases heq : current.equal (mergeNodeLabels current labels keys "") = true
  · -- Nothing to do: the cached labels are the desired ones.
    have hcurrent := GoMap.equal_iff.mp heq
    rw [if_pos heq, if_pos heq]
    refine ⟨current, server, h, fun key => (hcurrent key).trans (hdesired key), fun key => ?_,
      fun _ _ => rfl, rfl⟩
    split_ifs with hm
    · rw [hsame key hm, hcurrent, hdesired, if_pos hm]
    · rfl
  · rw [if_neg heq, if_neg heq]
    simp only [h.server]
    refine ⟨_, _, ⟨?_, AList.lookup_insert _⟩, hdesired, fun key => ?_,
      fun other hother => ?_, trivial⟩
    · simp [EngineState.cachedLabels]
    · rw [lookup_applyPatch_nodeLabelPatch, hdesired]
      by_cases hm : isManagedLevelLabel key keys = true
      · rw [if_pos hm, if_pos hm]
        split_ifs with hkeep
        · rw [hsame key hm, hkeep]
        · rfl
      · rw [if_neg hm, if_neg hm, if_pos rfl]
    · exact AList.lookup_insert_ne hother

/-- What holds after the calls `ls`, in terms of the labels before them. -/
structure HistoryInvariant (keys : TopologyLabelKeys) (nodeName : String) (st₀ : EngineState)
    (current₀ server₀ : Labels) (ls : List Labels) (st : EngineState) : Prop where
  node : ∃ current server, Holds st nodeName current server ∧
    (∀ key, isManagedLevelLabel key keys = false →
      current.lookup key = current₀.lookup key ∧ server.lookup key = server₀.lookup key) ∧
    ∀ key, isManagedLevelLabel key keys = true → server.lookup key = current.lookup key ∧
      ∀ l, ls.getLast? = some l → server.lookup key = l.lookup key
  others : ∀ other, other ≠ nodeName → st.server.lookup other = st₀.server.lookup other

/-- **A whole history**, by induction on the calls. -/
theorem historyInvariant_run {st : EngineState} {current server : Labels}
    (h : Holds st nodeName current server) (hsource : p.acceleratorDomainSourceLabel = "")
    (hsame : ∀ key, isManagedLevelLabel key keys = true → server.lookup key = current.lookup key)
    {ls : List Labels}
    (hlabels : ∀ labels ∈ ls, ∀ key ∈ labels, isManagedLevelLabel key keys = true)
    (hmatch : ∀ pre, pre <+: ls → ∀ c, (addAllLabels k8s p keys nodeName st pre).cachedLabels
      nodeName = some c → matchesNodeSelector k8s p c = true) :
    HistoryInvariant keys nodeName st current server ls
      (addAllLabels k8s p keys nodeName st ls) := by
  induction ls using List.reverseRecOn with
  | nil =>
    exact ⟨⟨current, server, h, fun _ _ => ⟨rfl, rfl⟩, fun key hm => ⟨hsame key hm, by simp⟩⟩,
      fun _ _ => rfl⟩
  | append_singleton ls labels ih =>
    obtain ⟨⟨current₁, server₁, h₁, hkeep, hmanaged⟩, hothers⟩ := ih
      (fun l hl => hlabels l (List.mem_append_left _ hl)) fun pre hpre =>
      hmatch pre (hpre.trans (List.prefix_append ..))
    have hm₁ := hmatch ls (List.prefix_append ..) current₁ h₁.cached
    obtain ⟨current₂, server₂, h₂, hcurrent, hserver, hothers₂, -⟩ := h₁.addNodeLabels hsource hm₁
      (hlabels labels (List.mem_append_cons_self)) fun key hm => (hmanaged key hm).1
    have hrun : addAllLabels k8s p keys nodeName st (ls ++ [labels]) =
        (addNodeLabels k8s p keys (addAllLabels k8s p keys nodeName st ls) nodeName labels).1 := by
      rw [addAllLabels, List.foldl_append]
      rfl
    rw [hrun]
    refine ⟨⟨current₂, server₂, h₂, fun key hm => ?_, fun key hm => ?_⟩, fun other hother => ?_⟩
    · rw [hcurrent, hserver, hm]
      exact hkeep key hm
    · rw [hcurrent, hserver, if_pos hm, if_pos hm]
      refine ⟨rfl, fun l hl => ?_⟩
      rw [List.getLast?_append, List.getLast?_singleton, Option.some_or] at hl
      rw [← Option.some.inj hl]
    · rw [hothers₂ other hother, hothers other hother]

/-- **Reconciliation depends on the last labels only.** After calls with generated labels, the last
of them `ln`, the node has `ln` under the managed keys, and its other labels and all other nodes are
as before, although the cached copy may differ from the server in unmanaged labels; no call fails,
and `ln` again sends no patch. -/
theorem reconcile_history (grammar : LabelGrammar) (k8s : Kubernetes) (p : Params)
    (keys : TopologyLabelKeys) (hparams : getParameters grammar p = .ok keys)
    (hsource : p.acceleratorDomainSourceLabel = "") (nodeName : String) (st : EngineState)
    (current server : Labels) (hnode : Holds st nodeName current server)
    (hsame : ∀ key, isManagedLevelLabel key keys = true → server.lookup key = current.lookup key)
    (ls : List Labels) (ln : Labels) (hproduced : ∀ labels ∈ ls ++ [ln], Produces keys labels)
    (hmatch : ∀ pre, pre <+: ls ++ [ln] →
      ∀ c, (addAllLabels k8s p keys nodeName st pre).cachedLabels nodeName = some c →
      matchesNodeSelector k8s p c = true) :
    (∀ pre labels, pre ++ [labels] <+: ls ++ [ln] →
      ∃ patch, (addNodeLabels k8s p keys (addAllLabels k8s p keys nodeName st pre) nodeName
        labels).2 = .ok patch) ∧
    (∃ server', (addAllLabels k8s p keys nodeName st (ls ++ [ln])).server.lookup nodeName =
      some server' ∧
      (∀ key, isManagedLevelLabel key keys = false → server'.lookup key = server.lookup key) ∧
      (∀ key, isManagedLevelLabel key keys = true → server'.lookup key = ln.lookup key)) ∧
    (∀ key ∈ ln, isManagedLevelLabel key keys = true) ∧
    (∀ other, other ≠ nodeName →
      (addAllLabels k8s p keys nodeName st (ls ++ [ln])).server.lookup other =
        st.server.lookup other) ∧
    (addNodeLabels k8s p keys (addAllLabels k8s p keys nodeName st (ls ++ [ln])) nodeName ln).2 =
      .ok none := by
  obtain ⟨-, hvalid⟩ := getParameters_eq_ok hparams
  have hlabels : ∀ labels ∈ ls ++ [ln], ∀ key ∈ labels, isManagedLevelLabel key keys = true :=
    fun labels hl key hkey => isManagedLevelLabel_of_outputKey hvalid
      ((hproduced labels hl).outputKey hkey)
  have hrun : ∀ pre, pre <+: ls ++ [ln] →
      HistoryInvariant keys nodeName st current server pre
      (addAllLabels k8s p keys nodeName st pre) := by
    intro pre hpre
    exact historyInvariant_run hnode hsource hsame (fun l hl => hlabels l (hpre.subset hl))
      fun pre' hpre' => hmatch pre' (hpre'.trans hpre)
  obtain ⟨⟨current', server', hnode', hkeep, hmanaged⟩, hothers⟩ := hrun _ (List.prefix_refl _)
  have hlast : (ls ++ [ln]).getLast? = some ln := List.getLast?_concat ..
  have hln := hlabels ln (by simp)
  refine ⟨?_, ⟨server', hnode'.server, fun key hm => (hkeep key hm).2,
    fun key hm => (hmanaged key hm).2 ln hlast⟩,
    hln, hothers, ?_⟩
  · intro pre labels hpre
    have hpre' := (List.prefix_append pre [labels]).trans hpre
    obtain ⟨⟨current₁, server₁, h₁, -, hmanaged₁⟩, -⟩ := hrun pre hpre'
    obtain ⟨-, -, -, -, -, -, hok⟩ := h₁.addNodeLabels hsource (hmatch pre hpre' current₁ h₁.cached)
      (hlabels labels (hpre.subset (by simp))) fun key hm => (hmanaged₁ key hm).1
    exact ⟨_, hok⟩
  · -- The cached labels are the desired ones already.
    obtain ⟨-, -, -, -, -, -, hok⟩ := hnode'.addNodeLabels hsource
      (hmatch _ (List.prefix_refl _) current' hnode'.cached) hln fun key hm => (hmanaged key hm).1
    rw [hok, if_pos]
    rw [GoMap.equal_iff]
    intro key
    rw [lookup_mergeNodeLabels_of_managed hln]
    split_ifs with hm
    · rw [← (hmanaged key hm).1, (hmanaged key hm).2 ln hlast]
    · rfl

end History

/-! ### A node below one switch -/

/-- A grammar that accepts every key but the empty one. -/
def anyKey : LabelGrammar where
  isQualifiedName key := if key = "" then ["name part must be non-empty"] else []
  nonempty := by decide

/-- A server whose selectors match labels with the selected values. -/
def exactSelectors : Kubernetes where
  selectorMatches selector labels := selector.entries.all fun e => labels.lookup e.1 = some e.2
  notFound nodeName := "nodes " ++ Translate.goQuote nodeName ++ " not found"

/-- Parameters with default keys, without a node selector. -/
def defaultParams (acceleratorDomainSourceLabel : String) : Params where
  nodeSelector := ∅
  fabricLabels := []
  acceleratorLabel := ""
  acceleratorDomainSourceLabel := acceleratorDomainSourceLabel

/-- A node `n` below a switch. -/
def belowSwitch (switch : String) : ValueGraph where
  tiers := some (.node "" "" [(switch, .node switch switch [("n", .node "n" "n" [])])])
  domains := none

/-- The labels of a node below one switch. -/
def belowSwitchLabels (switch : String) : Labels := (∅ : Labels).insert (fabricTierKey 0) switch

/-- The labels below a switch are produced by a graph. -/
theorem produces_belowSwitch {switch : String} (hne : switch ≠ "")
    (hlen : switch.utf8ByteSize ≤ 63) :
    Produces (newTopologyLabelKeys [] "") (belowSwitchLabels switch) := by
  have htier : tierLabels (newTopologyLabelKeys [] "") 0 [switch] =
      [(fabricTierKey 0, switch)] := by
    have hkey : fabricTierKey 0 ≠ "" := by decide
    simp [tierLabels, TopologyLabelKeys.fabricKey, newTopologyLabelKeys, checkLabel,
      hne, hlen, hkey]
  refine ⟨belowSwitch switch, ?_, _, "n", rfl, ?_⟩
  · simp [belowSwitch, ValueGraph.visits, visits, childVisits, rootLayers, VTree.id]
  · simp only [rootLayers, VTree.id, if_pos, htier, AList.lookup_insert]
    rfl

/-- The node moves from one switch to another; on the server it has a label of its own that the
engine never saw. -/
theorem moved_node_history :
    (∃ server', (addAllLabels exactSelectors (defaultParams "") (newTopologyLabelKeys [] "") "n"
      { cachedNodeMap := some ((∅ : GoMap String (Option Labels)).insert "n" (some ∅))
        server := (∅ : GoMap String Labels).insert "n" ((∅ : Labels).insert "team" "a") }
      [belowSwitchLabels "s", belowSwitchLabels "t"]).server.lookup "n" = some server' ∧
        server'.lookup "team" = some "a" ∧ server'.lookup (fabricTierKey 0) = some "t") := by
  obtain ⟨-, ⟨server', hlook, hkeep, hmanaged⟩, -⟩ :=
    reconcile_history anyKey exactSelectors (defaultParams "")
    (newTopologyLabelKeys [] "") rfl rfl "n"
    { cachedNodeMap := some ((∅ : GoMap String (Option Labels)).insert "n" (some ∅))
      server := (∅ : GoMap String Labels).insert "n" ((∅ : Labels).insert "team" "a") }
    ∅ ((∅ : Labels).insert "team" "a") ⟨rfl, rfl⟩
    (by
      intro key hm
      rw [GoMap.lookup_insert_eq_ite, if_neg]
      rintro rfl
      exact absurd hm (by decide))
    [belowSwitchLabels "s"] (belowSwitchLabels "t")
    (by
      intro labels hl
      rcases List.mem_pair.mp hl with rfl | rfl
      · exact produces_belowSwitch (by decide) (by decide)
      · exact produces_belowSwitch (by decide) (by decide))
    fun _ _ _ _ => rfl
  refine ⟨server', hlook, ?_, ?_⟩
  · rw [hkeep "team" (by decide)]
    decide
  · rw [hmanaged (fabricTierKey 0) (by decide)]
    decide

end Topograph.K8s
