import Mathlib.Data.List.Induction
import Topograph.Nodelabels.Provider

/-! # Accelerator domains of Kubernetes nodes (`pkg/accelerator`)

The instance and region annotations of a node are looked up in the request, and a label or an
annotation of the node gives the accelerator domain of the host found. The request groups its
instances by region; `instancesByRegion` keeps the last group of a region only, so that the grouping
matters exactly when an instance is missing there (`groupingIrrelevant_iff`). -/

namespace Topograph.Accelerator

open Topograph.Topology
open Topograph.Nodelabels (trimSpace)

def keyNodeInstance : String := "topograph.run/instance"
def keyNodeRegion : String := "topograph.run/region"
def keyGpuClusterID : String := "topograph.run/cluster-id"

/-- `corev1.Node`: what the discovery reads of it. -/
structure Node where
  labels : GoMap String String
  annotations : GoMap String String

/-- `topology.ComputeInstances`: the host names of the instances of a region. -/
structure ComputeInstances where
  region : String
  instances : GoMap String String

/-- `Target`. -/
structure Target where
  instanceID : String
  hostName : String
  labels : GoMap String String
  annotations : GoMap String String

/-! ## Targets -/

/-- The map of `TargetsFromKubernetesNodes`: a later group of a region replaces an earlier one. -/
def instancesByRegion (instances : List ComputeInstances) : GoMap String (GoMap String String) :=
  instances.foldl (fun m regionalInstances => m.insert regionalInstances.region
    regionalInstances.instances) ∅

/-- The target of one node. -/
def targetOf (byRegion : GoMap String (GoMap String String)) (node : Node) : Option Target :=
  let instanceID := trimSpace ((node.annotations.lookup keyNodeInstance).getD "")
  let region := trimSpace ((node.annotations.lookup keyNodeRegion).getD "")
  if instanceID = "" ∨ region = "" then none
  else
    ((byRegion.lookup region).bind fun regionalInstances => regionalInstances.lookup instanceID).map
      fun hostName =>
      { instanceID := instanceID, hostName := hostName, labels := node.labels,
        annotations := node.annotations }

/-- `TargetsFromKubernetesNodes`. -/
def targetsFromKubernetesNodes (nodes : List Node) (instances : List ComputeInstances) :
    List Target :=
  nodes.filterMap (targetOf (instancesByRegion instances))

/-! ## Discovery -/

/-- `Assignment`. -/
structure Assignment where
  domainID : String
  subDomainID : String

/-- `metadataDiscoverer`, as `NewKubernetesDiscovererFromConfig` makes it: the annotation that
`nvidia-smi` leaves, or a configured label. -/
inductive MetadataDiscoverer where
  | nvidiaSMI
  | kubernetesLabel (key : String)

/-- The value and the key of the discoverer. -/
def MetadataDiscoverer.value (labels annotations : GoMap String String) :
    MetadataDiscoverer → String
  | .nvidiaSMI => (annotations.lookup keyGpuClusterID).getD ""
  | .kubernetesLabel key => (labels.lookup key).getD ""

/-- One turn of the loop of `Discover`. -/
def MetadataDiscoverer.assign (d : MetadataDiscoverer) (assignments : GoMap String Assignment)
    (target : Target) : GoMap String Assignment :=
  let domainID := trimSpace (d.value target.labels target.annotations)
  if domainID = "" then assignments
  else assignments.insert target.instanceID { domainID := domainID, subDomainID := "" }

/-- `metadataDiscoverer.Discover`. -/
def MetadataDiscoverer.discover (d : MetadataDiscoverer) (targets : List Target) :
    GoMap String Assignment := targets.foldl d.assign ∅

/-- One turn of the loop of `DomainMapFromAssignments`. -/
def addTarget (assignments : GoMap String Assignment) (domainMap : DomainMap) (target : Target) :
    DomainMap :=
  match assignments.lookup target.instanceID with
  | none => domainMap
  | some assignment =>
    domainMap.addHostInfo
      { domain := assignment.domainID
        subDomain := assignment.subDomainID
        instanceID := target.instanceID
        hostName := target.hostName }

/-- `DomainMapFromAssignments`. -/
def domainMapFromAssignments (assignments : GoMap String Assignment) (targets : List Target) :
    DomainMap :=
  targets.foldl (addTarget assignments) DomainMap.new

/-- `DiscoverKubernetesDomains`. -/
def discoverKubernetesDomains (d : MetadataDiscoverer) (nodes : List Node)
    (instances : List ComputeInstances) : DomainMap :=
  let targets := targetsFromKubernetesNodes nodes instances
  domainMapFromAssignments (d.discover targets) targets

/-! ## The hosts of a domain map -/

/-- The host is in some domain. -/
def Appears (domainMap : DomainMap) (hostName : String) : Prop :=
  ∃ domain, (domainMap.lookupHost domain hostName).isSome

variable {hostName : String}

/-- A host that appears stays when another one is added. -/
theorem Appears.addHostInfo {domainMap : DomainMap} (h : Appears domainMap hostName)
    (host : HostInfo) : Appears (domainMap.addHostInfo host) hostName := by
  obtain ⟨domain, hdomain⟩ := h
  by_cases hempty : host.domain = ""
  · exact ⟨domain, by rwa [DomainMap.addHostInfo, dif_pos hempty]⟩
  · refine ⟨domain, ?_⟩
    rw [DomainMap.lookupHost_addHostInfo _ _ hempty]
    split_ifs
    · rfl
    · exact hdomain

theorem Appears.addTarget {domainMap : DomainMap} (h : Appears domainMap hostName)
    (assignments : GoMap String Assignment) (target : Target) :
    Appears (addTarget assignments domainMap target) hostName := by
  unfold Accelerator.addTarget
  cases assignments.lookup target.instanceID with
  | none => exact h
  | some assignment => exact h.addHostInfo _

variable {target : Target} {assignments : GoMap String Assignment}

/-- Every target with a domain is in the map, and only targets are. -/
theorem appears_domainMapFromAssignments {targets : List Target} (hmem : target ∈ targets)
    {assignment : Assignment} (hlook : assignments.lookup target.instanceID = some assignment)
    (hdomain : assignment.domainID ≠ "") :
    Appears (domainMapFromAssignments assignments targets) target.hostName := by
  unfold domainMapFromAssignments
  induction targets using List.reverseRecOn with
  | nil => exact absurd hmem List.not_mem_nil
  | append_singleton targets other ih =>
    rw [List.foldl_concat]
    rcases List.mem_append.mp hmem with hmem | hmem
    · exact (ih hmem).addTarget assignments other
    · obtain rfl := List.mem_singleton.mp hmem
      refine ⟨assignment.domainID, ?_⟩
      rw [Accelerator.addTarget, hlook]
      dsimp only
      rw [DomainMap.lookupHost_addHostInfo _ _ hdomain, if_pos ⟨rfl, rfl⟩]
      rfl

/-- Only the target of a node appears for it. -/
theorem hostName_of_appears (h : Appears (domainMapFromAssignments assignments [target]) hostName) :
    target.hostName = hostName := by
  obtain ⟨domain, hdomain⟩ := h
  change ((addTarget assignments DomainMap.new target).lookupHost domain hostName).isSome at hdomain
  have hnew : ∀ domain, (DomainMap.new.lookupHost domain hostName).isSome = false := fun _ => rfl
  unfold addTarget at hdomain
  cases hlook : assignments.lookup target.instanceID with
  | none => simp [hlook, hnew] at hdomain
  | some assignment =>
    simp only [hlook] at hdomain
    by_cases hempty : assignment.domainID = ""
    · simp [DomainMap.addHostInfo, hempty, hnew] at hdomain
    · rw [DomainMap.lookupHost_addHostInfo _ _ hempty] at hdomain
      split_ifs at hdomain with heq
      · exact heq.2.symm
      · simp [hnew] at hdomain

/-- Every target with a value has an assignment with a domain, its own or that of another target
with its instance. -/
theorem MetadataDiscoverer.exists_assignment (d : MetadataDiscoverer) {targets : List Target}
    (hmem : target ∈ targets) (hvalue : trimSpace (d.value target.labels target.annotations) ≠ "") :
    ∃ assignment, (d.discover targets).lookup target.instanceID = some assignment ∧
    assignment.domainID ≠ "" := by
  unfold discover
  induction targets using List.reverseRecOn with
  | nil => exact absurd hmem List.not_mem_nil
  | append_singleton targets other ih =>
    rw [List.foldl_concat, assign]
    by_cases hother : trimSpace (d.value other.labels other.annotations) = ""
    · rw [if_pos hother]
      refine ih ((List.mem_append.mp hmem).resolve_right fun hlast => ?_)
      exact hvalue (List.mem_singleton.mp hlast ▸ hother)
    · rw [if_neg hother, GoMap.lookup_insert_eq_ite]
      split_ifs with hsame
      · exact ⟨_, rfl, hother⟩
      · refine ih ((List.mem_append.mp hmem).resolve_right fun hlast => ?_)
        exact hsame (congrArg Target.instanceID (List.mem_singleton.mp hlast))

/-! ## Requests -/

/-- The request has a host for an instance of a region. -/
def Requests (instances : List ComputeInstances) (region instanceID hostName : String) : Prop :=
  ∃ group ∈ instances, group.region = region ∧ group.instances.lookup instanceID = some hostName

/-- The last group of a region. -/
def lastGroup (instances : List ComputeInstances) (region : String) : Option ComputeInstances :=
  instances.reverse.find? (·.region = region)

/-- Of the groups of one region the last one counts. -/
theorem lookup_instancesByRegion (instances : List ComputeInstances) (region : String) :
    (instancesByRegion instances).lookup region = (lastGroup instances region).map
      (·.instances) := by
  rw [instancesByRegion, GoMap.lookup_foldl_insert_reverse, AList.lookup_empty,
    Option.or_none, lastGroup]

/-- The last group of a region has the instance, if it is requested, and both have a name. -/
def GatheredAt (instances : List ComputeInstances) (region instanceID : String) : Prop :=
  ∀ hostName, Requests instances region instanceID hostName → region ≠ "" ∧ instanceID ≠ "" ∧
    ∃ group, lastGroup instances region = some group ∧
    group.instances.lookup instanceID = some hostName

/-- The last group of every region has all its instances, and none has an empty name. -/
def Gathered (instances : List ComputeInstances) : Prop :=
  ∀ region instanceID, GatheredAt instances (trimSpace region) (trimSpace instanceID)

/-- It is enough to look at the groups. -/
theorem gathered_of_groups {instances : List ComputeInstances}
    (h : ∀ group ∈ instances, group.region ≠ "" ∧ ∀ last ∈ lastGroup instances group.region,
      ∀ e ∈ group.instances.entries, e.1 ≠ "" ∧ last.instances.lookup e.1 = some e.2) :
      Gathered instances := by
  rintro region instanceID hostName ⟨group, hgroup, hregion, hlook⟩
  obtain ⟨hne, hlast⟩ := h group hgroup
  rw [hregion] at hne hlast
  have hfind : (lastGroup instances (trimSpace region)).isSome := by
    rw [lastGroup, List.find?_isSome]
    exact ⟨group, List.mem_reverse.mpr hgroup, by simpa using hregion⟩
  obtain ⟨last, hfind⟩ := Option.isSome_iff_exists.mp hfind
  obtain ⟨hid, hhost⟩ := hlast last hfind _ (GoMap.lookup_eq_some_iff.mp hlook)
  exact ⟨hne, hid, last, hfind, hhost⟩

/-- The node is annotated with an instance and a region. -/
def Node.Annotated (node : Node) (region instanceID : String) : Prop :=
  node.annotations.lookup keyNodeRegion = some region ∧
    node.annotations.lookup keyNodeInstance = some instanceID

/-- The last groups have the instances that some nodes are annotated with. -/
def GatheredFor (nodes : List Node) (instances : List ComputeInstances) : Prop :=
  ∀ node ∈ nodes, ∀ region instanceID, node.Annotated region instanceID →
    GatheredAt instances (trimSpace region) (trimSpace instanceID)

/-- Every host that is requested for a node with a domain is in the domain map. -/
def FindsHosts (d : MetadataDiscoverer) (nodes : List Node) (instances : List ComputeInstances) :
    Prop :=
  ∀ node ∈ nodes, ∀ region instanceID hostName, node.Annotated region instanceID →
    Requests instances (trimSpace region) (trimSpace instanceID) hostName →
    trimSpace (d.value node.labels node.annotations) ≠ "" →
      Appears (discoverKubernetesDomains d nodes instances) hostName

section Targets

variable {node : Node} {region instanceID : String} (hnode : node.Annotated region instanceID)
  {instances : List ComputeInstances}

include hnode

/-- The target of an annotated node, without the table of regions. -/
theorem targetOf_eq : targetOf (instancesByRegion instances) node =
    if trimSpace instanceID = "" ∨ trimSpace region = "" then none
    else (((lastGroup instances (trimSpace region)).map (·.instances)).bind fun m =>
      m.lookup (trimSpace instanceID)).map fun hostName =>
      ⟨trimSpace instanceID, hostName, node.labels, node.annotations⟩ := by
  rw [← lookup_instancesByRegion, targetOf, hnode.1, hnode.2]
  rfl

/-- The target of a node is what the last group of its region says. -/
theorem hostName_targetOf (h : targetOf (instancesByRegion instances) node = some target) :
    trimSpace region ≠ "" ∧ trimSpace instanceID ≠ "" ∧
      ∃ group, lastGroup instances (trimSpace region) = some group ∧
      group.instances.lookup (trimSpace instanceID) = some target.hostName := by
  rw [targetOf_eq hnode] at h
  split_ifs at h with hempty
  obtain ⟨hostName, hlook, rfl⟩ := Option.map_eq_some_iff.mp h
  obtain ⟨_, hgroup, hhost⟩ := Option.bind_eq_some_iff.mp hlook
  obtain ⟨group, hlast, rfl⟩ := Option.map_eq_some_iff.mp hgroup
  exact ⟨fun h => hempty (Or.inr h), fun h => hempty (Or.inl h), group, hlast, hhost⟩

/-- A request that is gathered in one group is found. -/
theorem exists_targetOf (h : GatheredAt instances (trimSpace region) (trimSpace instanceID))
    (hreq : Requests instances (trimSpace region) (trimSpace instanceID) hostName) :
    targetOf (instancesByRegion instances) node = some ⟨trimSpace instanceID, hostName, node.labels,
      node.annotations⟩ := by
  obtain ⟨hregion, hinstance, group, hlast, hhost⟩ := h hostName hreq
  rw [targetOf_eq hnode, if_neg (by simp [hregion, hinstance]), hlast, Option.map_some,
    Option.bind_some, hhost, Option.map_some]

end Targets

theorem GatheredFor.findsHosts {nodes : List Node} {instances : List ComputeInstances}
    (h : GatheredFor nodes instances) (d : MetadataDiscoverer) : FindsHosts d nodes instances := by
  intro node hnode region instanceID hostName hannotated hreq hvalue
  have hmem := List.mem_filterMap.mpr
    ⟨node, hnode, exists_targetOf hannotated (h node hnode region instanceID hannotated) hreq⟩
  obtain ⟨assignment, hlook, hdomain⟩ := d.exists_assignment hmem hvalue
  exact appears_domainMapFromAssignments hmem hlook hdomain

/-- The annotations of a node with a domain. -/
def probeAnnotations (region instanceID : String) : GoMap String String :=
  (((∅ : GoMap String String).insert keyGpuClusterID "domain").insert keyNodeInstance
    instanceID).insert keyNodeRegion region

/-- A node with the given annotations and a domain. -/
def probe (d : MetadataDiscoverer) (region instanceID : String) : Node where
  labels := match d with
    | .nvidiaSMI => ∅
    | .kubernetesLabel key => (∅ : GoMap String String).insert key "domain"
  annotations := probeAnnotations region instanceID

/-- The probe has the annotations of its instance. -/
theorem probe_annotated (d : MetadataDiscoverer) (region instanceID : String) :
    (probe d region instanceID).Annotated region instanceID := by
  refine ⟨AList.lookup_insert _, ?_⟩
  show (probeAnnotations region instanceID).lookup keyNodeInstance = some instanceID
  rw [probeAnnotations, AList.lookup_insert_ne (by decide), AList.lookup_insert]

/-- The probe reports a domain to every discoverer. -/
theorem value_probe (d : MetadataDiscoverer) (region instanceID : String) :
    d.value (probe d region instanceID).labels (probe d region instanceID).annotations =
      "domain" := by
  cases d with
  | nvidiaSMI =>
    show ((probeAnnotations region instanceID).lookup keyGpuClusterID).getD "" = "domain"
    rw [probeAnnotations, AList.lookup_insert_ne (by decide), AList.lookup_insert_ne (by decide),
      AList.lookup_insert]
    rfl
  | kubernetesLabel key =>
    show (((∅ : GoMap String String).insert key "domain").lookup key).getD "" = "domain"
    rw [AList.lookup_insert]
    rfl

/-- A request that finds the hosts of all nodes is gathered: one annotated node tells. -/
theorem gathered_of_findsHosts {d : MetadataDiscoverer} {instances : List ComputeInstances}
    (h : ∀ nodes, FindsHosts d nodes instances) : Gathered instances := by
  intro region instanceID hostName hreq
  have hannotated := probe_annotated d region instanceID
  have happears := h [probe d region instanceID] _ List.mem_cons_self region instanceID hostName
    hannotated hreq
    (by rw [value_probe]; decide)
  rw [discoverKubernetesDomains, targetsFromKubernetesNodes, List.filterMap_cons] at happears
  cases htarget : targetOf (instancesByRegion instances) (probe d region instanceID) with
  | none =>
    rw [htarget] at happears
    obtain ⟨domain, hdomain⟩ := happears
    exact absurd hdomain (by simp [domainMapFromAssignments, DomainMap.new, DomainMap.lookupHost])
  | some target =>
    rw [htarget] at happears
    have hname : target.hostName = hostName := hostName_of_appears happears
    exact hname ▸ hostName_targetOf hannotated htarget

/-- **The grouping of two requests is irrelevant** for some nodes: both give one domain map, which
has the hosts requested for the nodes with a domain. -/
def IrrelevantFor (d : MetadataDiscoverer) (nodes : List Node)
    (instances instances' : List ComputeInstances) : Prop :=
  discoverKubernetesDomains d nodes instances = discoverKubernetesDomains d nodes instances' ∧
    FindsHosts d nodes instances ∧ FindsHosts d nodes instances'

/-- It is irrelevant whatever the nodes are. -/
def GroupingIrrelevant (d : MetadataDiscoverer) (instances instances' : List ComputeInstances) :
    Prop :=
  ∀ nodes, IrrelevantFor d nodes instances instances'

/-- A node without the annotations has no target. -/
theorem annotated_of_targetOf {byRegion : GoMap String (GoMap String String)} {node : Node}
    (h : targetOf byRegion node = some target) :
    ∃ region instanceID, node.Annotated region instanceID := by
  have hblank : trimSpace "" = "" := by decide
  unfold targetOf at h
  cases hinstance : node.annotations.lookup keyNodeInstance with
  | none => simp [hinstance, hblank] at h
  | some instanceID =>
    cases hregion : node.annotations.lookup keyNodeRegion with
    | none => simp [hregion, hblank] at h
    | some region => exact ⟨region, instanceID, hregion, hinstance⟩

/-- A target of one gathered request is a target of another one with the same instances. -/
theorem targetOf_of_gathered {nodes : List Node} {instances instances' : List ComputeInstances}
    (h : GatheredFor nodes instances) (h' : GatheredFor nodes instances')
    (hsame : ∀ region instanceID hostName, Requests instances region instanceID hostName →
      Requests instances' region instanceID hostName)
    {node : Node} (hnode : node ∈ nodes)
    (htarget : targetOf (instancesByRegion instances) node = some target) :
    targetOf (instancesByRegion instances') node = some target := by
  obtain ⟨region, instanceID, hannotated⟩ := annotated_of_targetOf htarget
  obtain ⟨-, -, group, hlast, hhost⟩ := hostName_targetOf hannotated htarget
  have hreq : Requests instances (trimSpace region) (trimSpace instanceID) target.hostName :=
    ⟨group, List.mem_reverse.mp (List.mem_of_find?_eq_some hlast),
      by simpa using List.find?_some hlast, hhost⟩
  rw [exists_targetOf hannotated (h' node hnode region instanceID hannotated) (hsame _ _ _ hreq),
    ← exists_targetOf hannotated (h node hnode region instanceID hannotated) hreq, htarget]

/-- **When the grouping of a request is irrelevant**: for two requests of the same instances exactly
when the last group of each region has all instances of the region, in both of them. For given nodes
it is enough that the last groups have the instances of these nodes. -/
theorem groupingIrrelevant_iff (d : MetadataDiscoverer)
    {instances instances' : List ComputeInstances}
    (hsame : ∀ region instanceID hostName, Requests instances region instanceID hostName ↔
      Requests instances' region instanceID hostName) :
    (GroupingIrrelevant d instances instances' ↔ Gathered instances ∧ Gathered instances') ∧
      ∀ nodes, GatheredFor nodes instances → GatheredFor nodes instances' →
        IrrelevantFor d nodes instances instances' := by
  have hfor : ∀ nodes, GatheredFor nodes instances → GatheredFor nodes instances' →
      IrrelevantFor d nodes instances instances' := by
    intro nodes h h'
    have htargets : targetsFromKubernetesNodes nodes instances = targetsFromKubernetesNodes
        nodes instances' :=
      List.filterMap_congr fun node hnode => Option.ext fun target =>
        ⟨targetOf_of_gathered h h' (fun _ _ _ => (hsame _ _ _).mp) hnode,
          targetOf_of_gathered h' h (fun _ _ _ => (hsame _ _ _).mpr) hnode⟩
    refine ⟨?_, h.findsHosts d, h'.findsHosts d⟩
    rw [discoverKubernetesDomains, htargets, discoverKubernetesDomains]
  refine ⟨⟨fun h => ?_, fun ⟨h, h'⟩ nodes => ?_⟩, hfor⟩
  · exact ⟨gathered_of_findsHosts fun nodes => (h nodes).2.1, gathered_of_findsHosts fun nodes =>
      (h nodes).2.2⟩
  · exact hfor nodes (fun _ _ _ _ _ => h _ _) fun _ _ _ _ _ => h' _ _

/-- Two instances of a region in one group, and in two. -/
def oneGroup : List ComputeInstances :=
  [⟨"west", ((∅ : GoMap String String).insert "i2" "n2").insert "i1" "n1"⟩]

/-- The same instances in two groups of the region. -/
def twoGroups : List ComputeInstances :=
  [⟨"west", (∅ : GoMap String String).insert "i1" "n1"⟩,
    ⟨"west", (∅ : GoMap String String).insert "i2" "n2"⟩]

/-- A second group that has the instance of the first one as well. -/
def repeatedGroup : List ComputeInstances :=
  ⟨"west", (∅ : GoMap String String).insert "i1" "n1"⟩ :: oneGroup

/-- The three groupings hold the same requests. -/
theorem requests_oneGroup_iff (region instanceID hostName : String) :
    (Requests oneGroup region instanceID hostName ↔ Requests twoGroups region instanceID hostName) ∧
      (Requests oneGroup region instanceID hostName ↔
        Requests repeatedGroup region instanceID hostName) := by
  simp only [Requests, oneGroup, twoGroups, repeatedGroup, List.mem_cons, List.not_mem_nil,
    or_false, exists_eq_or_imp,
    exists_eq_left, GoMap.lookup_insert_eq_ite, AList.lookup_empty]
  by_cases hone : instanceID = "i1"
  · simp [hone]
  · simp [hone]

theorem repeatedGroup_irrelevant : GroupingIrrelevant .nvidiaSMI oneGroup repeatedGroup :=
  (groupingIrrelevant_iff .nvidiaSMI fun _ _ _ => (requests_oneGroup_iff _ _ _).2).1.mpr
    ⟨gathered_of_groups (by decide), gathered_of_groups (by decide)⟩

/-- **A second group of a region loses the first**: the node of the first instance is in the domain
map of one group, and not in that of two. -/
theorem west_lost :
    (∀ region instanceID hostName, Requests oneGroup region instanceID hostName ↔
      Requests twoGroups region instanceID hostName) ∧
    ((discoverKubernetesDomains .nvidiaSMI [probe .nvidiaSMI "west" "i1"] oneGroup).lookupHost
      "domain" "n1").isSome = true ∧
    ((discoverKubernetesDomains .nvidiaSMI [probe .nvidiaSMI "west" "i1"] twoGroups).lookupHost
      "domain" "n1").isSome = false ∧
    ¬ GroupingIrrelevant .nvidiaSMI oneGroup twoGroups := by
  have hone : ((discoverKubernetesDomains .nvidiaSMI [probe .nvidiaSMI "west" "i1"]
      oneGroup).lookupHost "domain" "n1").isSome = true := by
    decide
  have htwo : ((discoverKubernetesDomains .nvidiaSMI [probe .nvidiaSMI "west" "i1"]
      twoGroups).lookupHost "domain" "n1").isSome = false := by
    decide
  refine ⟨fun _ _ _ => (requests_oneGroup_iff _ _ _).1, hone, htwo, fun h => ?_⟩
  rw [(h _).1, htwo] at hone
  exact absurd hone (by decide)

end Topograph.Accelerator
