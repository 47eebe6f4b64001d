import Topograph.Lib.Loops
import Topograph.Nfd.ObjectNames

/-! # Groups and node features fit together

What the engine writes for a node is a list of `Write`s: one for each label that is published, and
one for the source value. The elements of the node are the kinds and values of its writes, and the
groups are those of all writes of all nodes (`Recorded`). Hence every element has one group and
every group a node (`buildNFDObjects_groups`). The key recorded on a group is the source label if
the source value of some node is behind the group, and the key of the kind if not. `engineObjects`
is the result for the source values and names of the engine. -/

namespace Topograph.Nfd

open Topograph.K8s
  (Labels NodeLabelMap keyFabricTierPrefix keyTopologyXclrDomain keyTopologyXclrSubDomain
    cutPrefix parseInt)
open Topograph.Nodelabels (trimSpace)

/-! ## Kinds -/

theorem cutPrefix_eq_some {s start : String} {rest : List Char}
    (h : cutPrefix s start = some rest) : s = start ++ String.ofList rest := by
  rw [cutPrefix] at h
  split_ifs at h with hstart
  rw [← Option.some.inj h]
  refine String.toList_injective ?_
  rw [String.toList_append, String.toList_ofList]
  exact (List.prefix_iff_eq_append.mp (List.isPrefixOf_iff_prefix.mp hstart)).symm

/-- A label has the kind of its tier, or it is one of the accelerator labels. -/
theorem topologyKind_eq_some {labelKey kind : String} (h : topologyKind labelKey = some kind) :
    labelKey = keyTopologyXclrDomain ∧ kind = topologyTypeAcceleratorDomain ∨
      labelKey = keyTopologyXclrSubDomain ∧ kind = topologyTypeAcceleratorSubDomain ∨
        ∃ level, labelKey = keyFabricTierPrefix ++ level ∧ kind = topologyTypeFabric ++ level := by
  rw [topologyKind] at h
  split_ifs at h with hdomain hsub
  · exact Or.inl ⟨hdomain, (Option.some.inj h).symm⟩
  · exact Or.inr (Or.inl ⟨hsub, (Option.some.inj h).symm⟩)
  · obtain ⟨level, hlevel, hkind⟩ := Option.bind_eq_some_iff.mp h
    split_ifs at hkind
    exact Or.inr (Or.inr ⟨String.ofList level, cutPrefix_eq_some hlevel,
      (Option.some.inj hkind).symm⟩)

theorem fabric_ne_accelerator (level : String) :
    topologyTypeFabric ++ level ≠ topologyTypeAcceleratorDomain ∧
      topologyTypeFabric ++ level ≠ topologyTypeAcceleratorSubDomain := by
  constructor <;>
  · intro h
    have hhead := congrArg (fun s : String => s.toList.head?) h
    rw [String.toList_append, List.head?_append_of_ne_nil _ (by decide)] at hhead
    exact absurd hhead (by decide)

/-- **A kind belongs to one label key.** -/
theorem topologyKind_injective {key key' kind : String} (h : topologyKind key = some kind)
    (h' : topologyKind key' = some kind) : key = key' := by
  have hne : topologyTypeAcceleratorDomain ≠ topologyTypeAcceleratorSubDomain := by decide
  rcases topologyKind_eq_some h with ⟨rfl, rfl⟩ | ⟨rfl, rfl⟩ | ⟨level, rfl, rfl⟩ <;>
    rcases topologyKind_eq_some h' with ⟨rfl, hkind⟩ | ⟨rfl, hkind⟩ | ⟨level', rfl, hkind⟩
  · rfl
  · exact absurd hkind hne
  · exact absurd hkind.symm (fabric_ne_accelerator level').1
  · exact absurd hkind.symm hne
  · rfl
  · exact absurd hkind.symm (fabric_ne_accelerator level').2
  · exact absurd hkind (fabric_ne_accelerator level).1
  · exact absurd hkind (fabric_ne_accelerator level).2
  · rw [String.append_right_inj _ |>.mp hkind]

/-! ## Writes -/

/-- A value of a kind is published for a node, and its label key is recorded. -/
structure Write where
  kind : String
  value : String
  labelKey : String
  deriving DecidableEq, Repr

section Writes

variable (source sourceLabel : String)

/-- What is written for a label. -/
def labelWrite (labels : Labels) (labelKey : String) : Option Write :=
  (topologyKind labelKey).bind fun kind =>
    if (kind = topologyTypeAcceleratorDomain ∨ kind = topologyTypeAcceleratorSubDomain) ∧
      source ≠ "" then none
    else if trimSpace ((labels.lookup labelKey).getD "") = "" then none
    else some { kind := kind, value := trimSpace ((labels.lookup labelKey).getD ""),
                labelKey := labelKey }

/-- What is written for the labels of a node. -/
def labelWrites (labels : Labels) : List Write :=
  (labels.keys.insertionSort (· ≤ ·)).filterMap (labelWrite source labels)

/-- What is written for a source value. -/
def sourceWrites : List Write :=
  if source ≠ "" then
    [{ kind := topologyTypeAcceleratorDomain, value := source, labelKey := sourceLabel }] else []

variable {source sourceLabel}

/-- A label is written under its own key and kind. -/
theorem labelWrite_eq_some {labels : Labels} {labelKey : String} {w : Write}
    (h : labelWrite source labels labelKey = some w) :
    w.labelKey = labelKey ∧ topologyKind labelKey = some w.kind ∧ w.value ≠ "" ∧
      ((w.kind = topologyTypeAcceleratorDomain ∨ w.kind = topologyTypeAcceleratorSubDomain) →
        source = "") := by
  obtain ⟨kind, hkind, hw⟩ := Option.bind_eq_some_iff.mp h
  split_ifs at hw with hskip hempty
  obtain rfl := Option.some.inj hw
  refine ⟨rfl, hkind, hempty, fun haccel => ?_⟩
  by_contra hsource
  exact hskip ⟨haccel, hsource⟩

theorem mem_labelWrites {labels : Labels} {w : Write} (h : w ∈ labelWrites source labels) :
    labelWrite source labels w.labelKey = some w := by
  obtain ⟨key, -, hkey⟩ := List.mem_filterMap.mp h
  rwa [(labelWrite_eq_some hkey).1]

/-- **A node has one value of a kind.** -/
theorem nodup_kinds (source sourceLabel : String) (labels : Labels) :
    ((labelWrites source labels ++ sourceWrites source sourceLabel).map Write.kind).Nodup := by
  have hlabels : ((labelWrites source labels).map Write.kind).Nodup := by
    have hkeys : (labels.keys.insertionSort (· ≤ ·)).Nodup :=
      (List.perm_insertionSort _ _).nodup_iff.mpr labels.keys_nodup
    rw [labelWrites, List.map_filterMap]
    refine hkeys.filterMap fun key key' kind hkey hkey' => ?_
    obtain ⟨w, hw, rfl⟩ := Option.map_eq_some_iff.mp hkey
    obtain ⟨w', hw', hkind⟩ := Option.map_eq_some_iff.mp hkey'
    exact topologyKind_injective (labelWrite_eq_some hw).2.1 (hkind ▸ (labelWrite_eq_some hw').2.1)
  rw [List.map_append]
  refine List.nodup_append'.mpr ⟨hlabels, ?_, fun kind hkind hsource => ?_⟩
  · rw [sourceWrites]
    split_ifs <;> simp
  · -- A source value takes the place of the accelerator labels.
    obtain ⟨w, hw, rfl⟩ := List.mem_map.mp hkind
    rw [sourceWrites] at hsource
    split_ifs at hsource with hne
    · exact hne ((labelWrite_eq_some (mem_labelWrites hw)).2.2.2 (Or.inl (by simpa using hsource)))
    · simp at hsource

end Writes

/-! ## Groups of writes -/

@[simp] theorem groupKey_ensureKind (gv : GroupValues) (kind kind' value : String) :
    groupKey (ensureKind gv kind) kind' value = groupKey gv kind' value := by
  rw [ensureKind]
  split_ifs with hmem
  · rfl
  · rw [groupKey, GoMap.lookup_insert_eq_ite]
    split_ifs with heq
    · rw [groupKey, heq, AList.lookup_eq_none.mpr hmem]
      rfl
    · rfl

/-- Setting a key changes one value of one kind. -/
theorem groupKey_setGroupKey (gv : GroupValues) (kind value key kind' value' : String) :
    groupKey (setGroupKey gv kind value key) kind' value' =
      if kind' = kind ∧ value' = value then some key else groupKey gv kind' value' := by
  rw [groupKey, setGroupKey, GoMap.lookup_insert_eq_ite]
  by_cases hkind : kind' = kind
  · rw [if_pos hkind, Option.bind_some, GoMap.lookup_insert_eq_ite, groupKey, hkind]
    by_cases hvalue : value' = value
    · simp [hvalue]
    · cases gv.lookup kind <;> simp [hvalue]
  · rw [if_neg hkind, if_neg (fun h => hkind h.1), groupKey]

/-- The groups behind some writes. -/
structure Recorded (sourceLabel : String) (writes : List Write) (gv : GroupValues) : Prop where
  key : ∀ kind value key, groupKey gv kind value = some key →
    { kind := kind, value := value, labelKey := key } ∈ writes
  mem : ∀ w ∈ writes, ∃ key, groupKey gv w.kind w.value = some key
  /-- The source label takes precedence. -/
  source : sourceLabel ≠ "" → ∀ value,
    { kind := topologyTypeAcceleratorDomain, value := value, labelKey := sourceLabel } ∈ writes →
      groupKey gv topologyTypeAcceleratorDomain value = some sourceLabel

theorem recorded_empty (sourceLabel : String) : Recorded sourceLabel [] ∅ where
  key kind value key h := absurd h (by simp [groupKey])
  mem := by simp
  source := by simp

section Recorded

variable {sourceLabel : String} {writes : List Write} {gv : GroupValues}

/-- A write that sets the key of its group. -/
theorem Recorded.set (h : Recorded sourceLabel writes gv) (w : Write)
    (hw : sourceLabel ≠ "" → w.kind = topologyTypeAcceleratorDomain → w.labelKey ≠ sourceLabel →
      groupKey gv w.kind w.value ≠ some sourceLabel) :
    Recorded sourceLabel (writes ++ [w])
      (setGroupKey (ensureKind gv w.kind) w.kind w.value w.labelKey) := by
  refine ⟨fun kind value key hkey => ?_, fun w' hw' => ?_, fun hlabel value hvalue => ?_⟩
  · rw [groupKey_setGroupKey, groupKey_ensureKind] at hkey
    split_ifs at hkey with heq
    · obtain rfl := Option.some.inj hkey
      rw [heq.1, heq.2]
      exact List.mem_append_cons_self
    · exact List.mem_append_left _ (h.key kind value key hkey)
  · rw [groupKey_setGroupKey, groupKey_ensureKind]
    split_ifs with heq
    · exact ⟨w.labelKey, rfl⟩
    · rcases List.mem_append.mp hw' with hold | hlast
      · exact h.mem w' hold
      · obtain rfl := List.mem_singleton.mp hlast
        exact absurd ⟨rfl, rfl⟩ heq
  · rw [groupKey_setGroupKey, groupKey_ensureKind]
    rcases List.mem_append.mp hvalue with hold | hlast
    · have hbefore := h.source hlabel value hold
      split_ifs with heq
      · -- The group had the source label, so it is written with it again.
        by_contra hne
        refine hw hlabel heq.1.symm (fun hsame => hne (by rw [hsame])) ?_
        rw [← heq.1, ← heq.2, hbefore]
      · exact hbefore
    · obtain rfl := List.mem_singleton.mp hlast
      rw [if_pos ⟨rfl, rfl⟩]

/-- A write whose group keeps its key. -/
theorem Recorded.keep (h : Recorded sourceLabel writes gv) {w : Write}
    (hkind : w.kind = topologyTypeAcceleratorDomain)
    (hkey : groupKey gv w.kind w.value = some sourceLabel) :
    Recorded sourceLabel (writes ++ [w]) (ensureKind gv w.kind) := by
  refine ⟨fun kind value key hgroup => ?_, fun w' hw' => ?_, fun hlabel value hvalue => ?_⟩
  · rw [groupKey_ensureKind] at hgroup
    exact List.mem_append_left _ (h.key kind value key hgroup)
  · rw [groupKey_ensureKind]
    rcases List.mem_append.mp hw' with hold | hlast
    · exact h.mem w' hold
    · obtain rfl := List.mem_singleton.mp hlast
      exact ⟨sourceLabel, hkey⟩
  · rw [groupKey_ensureKind]
    rcases List.mem_append.mp hvalue with hold | hlast
    · exact h.source hlabel value hold
    · obtain rfl := List.mem_singleton.mp hlast
      exact hkey

variable {st : NodeState}

/-- The state after a label is that after its write, if it has one. -/
theorem addLabel_recorded (source : String) (labels : Labels)
    (h : Recorded sourceLabel writes st.groupValues) (labelKey : String) :
    Recorded sourceLabel (writes ++ (labelWrite source labels labelKey).toList)
        (addLabel source sourceLabel labels st labelKey).groupValues ∧
      (addLabel source sourceLabel labels st labelKey).elements =
        (labelWrite source labels labelKey).toList.foldl (fun m w => m.insert w.kind w.value)
          st.elements := by
  rw [addLabel, labelWrite]
  cases topologyKind labelKey with
  | none => exact ⟨by simpa using h, rfl⟩
  | some kind =>
    rw [Option.bind_some]
    dsimp only
    by_cases hskip : (kind = topologyTypeAcceleratorDomain ∨
      kind = topologyTypeAcceleratorSubDomain) ∧ source ≠ ""
    · rw [if_pos hskip, if_pos hskip]
      exact ⟨by simpa using h, rfl⟩
    rw [if_neg hskip, if_neg hskip]
    by_cases hempty : trimSpace ((labels.lookup labelKey).getD "") = ""
    · rw [if_pos hempty, if_pos hempty]
      exact ⟨by simpa using h, rfl⟩
    rw [if_neg hempty, if_neg hempty]
    refine ⟨?_, rfl⟩
    dsimp only [Option.toList_some]
    split_ifs with hguard
    · refine h.keep hguard.1 ?_
      rw [groupKey_ensureKind] at hguard
      cases hkey : groupKey st.groupValues kind (trimSpace ((labels.lookup labelKey).getD "")) with
      | none => exact absurd (hguard.2.2.symm.trans (by rw [hkey]; rfl)) hguard.2.1
      | some key => rw [← hguard.2.2, hkey, Option.getD_some]
    · refine h.set { kind := kind, value := trimSpace ((labels.lookup labelKey).getD ""),
                     labelKey := labelKey }
        fun hlabel hkind _ hkey => hguard ⟨hkind, hlabel, ?_⟩
      rw [groupKey_ensureKind, hkey, Option.getD_some]

/-- The loop over the labels of a node. -/
theorem foldl_addLabel_recorded (source : String) (labels : Labels) (keys : List String)
    (h : Recorded sourceLabel writes st.groupValues) :
    Recorded sourceLabel (writes ++ keys.filterMap (labelWrite source labels))
        (keys.foldl (addLabel source sourceLabel labels) st).groupValues ∧
      (keys.foldl (addLabel source sourceLabel labels) st).elements =
        (keys.filterMap (labelWrite source labels)).foldl (fun m w => m.insert w.kind w.value)
          st.elements := by
  induction keys generalizing writes st with
  | nil => exact ⟨by simpa using h, rfl⟩
  | cons key keys ih =>
    obtain ⟨hrecorded, helements⟩ := addLabel_recorded source labels h key
    obtain ⟨hrest, hrestElements⟩ := ih hrecorded
    rw [List.foldl_cons, hrestElements, helements, ← List.foldl_append]
    have hsplit : (key :: keys).filterMap (labelWrite source labels) =
        (labelWrite source labels key).toList ++ keys.filterMap (labelWrite source labels) := by
      rw [List.filterMap_cons]
      cases labelWrite source labels key <;> rfl
    rw [hsplit, ← List.append_assoc]
    exact ⟨hrest, rfl⟩

theorem addSource_recorded (source : String) (h : Recorded sourceLabel writes st.groupValues) :
    Recorded sourceLabel (writes ++ sourceWrites source sourceLabel)
      (addSource source sourceLabel st).groupValues ∧ (addSource source sourceLabel st).elements =
        (sourceWrites source sourceLabel).foldl (fun m w => m.insert w.kind w.value)
          st.elements := by
  rw [addSource, sourceWrites]
  split_ifs with hsource
  · exact ⟨h.set { kind := topologyTypeAcceleratorDomain, value := source, labelKey := sourceLabel }
      fun _ _ hne => absurd rfl hne, rfl⟩
  · exact ⟨by simpa using h, rfl⟩

end Recorded

/-! ## The loop over the nodes -/

section Nodes

variable (nodeLabels : NodeLabelMap) (values : GoMap String String) (sourceLabel : String)

/-- What is written for a node. -/
def nodeWrites (node : String) : List Write :=
  labelWrites (sourceValue values node) ((nodeLabels.lookup node).getD ∅) ++
    sourceWrites (sourceValue values node) sourceLabel

/-- The elements of a node. -/
def nodeElements (node : String) : GoMap String String :=
  (nodeWrites nodeLabels values sourceLabel node).foldl (fun m w => m.insert w.kind w.value) ∅

/-- The feature of a node, if it has an element. -/
def featureOf (stableObjectName : String → String → String) (node : String) : Option NodeFeature :=
  if (nodeElements nodeLabels values sourceLabel node).entries.isEmpty then none
  else some (makeNodeFeature stableObjectName node
    (nodeElements nodeLabels values sourceLabel node))

variable {nodeLabels values sourceLabel}

/-- The elements of a node are what it writes. -/
theorem lookup_nodeElements {node kind value : String} :
    (nodeElements nodeLabels values sourceLabel node).lookup kind = some value ↔
      ∃ w ∈ nodeWrites nodeLabels values sourceLabel node, w.kind = kind ∧ w.value = value := by
  have hlook := GoMap.lookup_foldl_insert_empty (a := kind) (b := value)
    (fun w : Write => some w.value)
    (nodup_kinds (sourceValue values node) sourceLabel ((nodeLabels.lookup node).getD ∅))
  simp only [Option.some_inj] at hlook
  exact hlook

/-- **One node.** -/
theorem visitNode_recorded (nodeLabels : NodeLabelMap) (values : GoMap String String)
    {writes : List Write} {gv : GroupValues} (h : Recorded sourceLabel writes gv) (node : String) :
    Recorded sourceLabel (writes ++ nodeWrites nodeLabels values sourceLabel node)
        (visitNode nodeLabels values sourceLabel gv node).groupValues ∧
      (visitNode nodeLabels values sourceLabel gv node).elements = nodeElements nodeLabels values
        sourceLabel node := by
  set labels := (nodeLabels.lookup node).getD ∅ with hlabels
  have hstart : Recorded sourceLabel writes ({ elements := ∅, groupValues := gv } :
      NodeState).groupValues := h
  obtain ⟨hrecorded, helements⟩ :=
    foldl_addLabel_recorded (sourceValue values node) labels (labels.keys.insertionSort (· ≤ ·))
      hstart
  obtain ⟨hrecorded', helements'⟩ := addSource_recorded (sourceValue values node) hrecorded
  rw [List.append_assoc] at hrecorded'
  refine ⟨hrecorded', ?_⟩
  rw [visitNode, helements', helements, ← List.foldl_append]
  rfl

variable {isValidLabelValue : String → List String} {stableObjectName : String → String → String}

/-- **The loop over the nodes.** -/
theorem foldlM_addNode (stableObjectName : String → String → String) (nodeLabels : NodeLabelMap)
    (values : GoMap String String) (order : List String) (st : BuildState) {writes : List Write}
    (h : Recorded sourceLabel writes st.groupValues)
    (hvalid : ∀ node ∈ order, isValidLabelValue node = []) :
    ∃ gv,
      order.foldlM (addNode isValidLabelValue stableObjectName nodeLabels values sourceLabel) st =
        .ok { groupValues := gv
              nodeFeatures := st.nodeFeatures ++
                order.filterMap (featureOf nodeLabels values sourceLabel stableObjectName) } ∧
      Recorded sourceLabel
        (writes ++ order.flatMap (nodeWrites nodeLabels values sourceLabel)) gv := by
  induction order generalizing st writes with
  | nil => exact ⟨st.groupValues, by simp [pure, Except.pure], by simpa using h⟩
  | cons node order ih =>
    obtain ⟨hnode, helements⟩ := visitNode_recorded nodeLabels values h node
    have hstep : addNode isValidLabelValue stableObjectName nodeLabels values sourceLabel st node =
        .ok
          { groupValues := (visitNode nodeLabels values sourceLabel st.groupValues node).groupValues
            nodeFeatures := st.nodeFeatures ++
              (featureOf nodeLabels values sourceLabel stableObjectName node).toList } := by
      rw [addNode, if_neg (by simp [hvalid node List.mem_cons_self]), featureOf, ← helements]
      dsimp only
      split_ifs <;> simp
    obtain ⟨gv, hrun, hrecorded⟩ := ih
      { groupValues := (visitNode nodeLabels values sourceLabel st.groupValues node).groupValues
        nodeFeatures := st.nodeFeatures ++
          (featureOf nodeLabels values sourceLabel stableObjectName node).toList }
      hnode fun n hn => hvalid n (List.mem_cons_of_mem _ hn)
    refine ⟨gv, ?_, ?_⟩
    · rw [List.foldlM_cons, hstep]
      refine hrun.trans ?_
      rw [List.filterMap_cons]
      cases featureOf nodeLabels values sourceLabel stableObjectName node <;> simp
    · rwa [List.flatMap_cons, ← List.append_assoc]

variable {order : List String}

/-- The loop fails at an invalid node name. -/
theorem valid_of_foldlM_addNode {st st' : BuildState}
    (h : order.foldlM (addNode isValidLabelValue stableObjectName nodeLabels values sourceLabel)
      st = .ok st') :
    ∀ node ∈ order, isValidLabelValue node = [] := by
  refine Loops.foldlM_ok (I := fun done _ => ∀ node ∈ done, isValidLabelValue node = [])
    (by simp) ?_ h
  intro done node _ st st' _ hdone hstep
  refine List.forall_mem_append.mpr ⟨hdone, List.forall_mem_singleton.mpr ?_⟩
  by_contra hinvalid
  rw [addNode, if_pos hinvalid] at hstep
  cases hstep

/-- **The objects of an order.** -/
theorem buildInOrder_eq_ok {features : List NodeFeature} {groups : List NodeFeatureGroup}
    (h : buildInOrder isValidLabelValue stableObjectName nodeLabels values sourceLabel order =
      .ok (features, groups)) :
    ∃ gv, Recorded sourceLabel (order.flatMap (nodeWrites nodeLabels values sourceLabel)) gv ∧
      features = order.filterMap (featureOf nodeLabels values sourceLabel stableObjectName) ∧
      groups = makeGroups stableObjectName gv ∧ ∀ node ∈ order, isValidLabelValue node = [] := by
  rw [buildInOrder] at h
  cases hrun : order.foldlM (addNode isValidLabelValue stableObjectName nodeLabels
    values sourceLabel)
      { groupValues := ∅, nodeFeatures := [] } with
  | error e =>
    rw [hrun] at h
    cases h
  | ok st =>
    have hvalid := valid_of_foldlM_addNode hrun
    obtain ⟨gv, hrun', hrecorded⟩ := foldlM_addNode stableObjectName nodeLabels values order
      { groupValues := ∅, nodeFeatures := [] } (recorded_empty sourceLabel) hvalid
    obtain rfl := Except.ok.inj (hrun.symm.trans hrun')
    rw [hrun] at h
    obtain ⟨rfl, rfl⟩ := Prod.mk.inj (Except.ok.inj h)
    exact ⟨gv, hrecorded, rfl, rfl, hvalid⟩

theorem exists_buildInOrder (stableObjectName : String → String → String)
    (nodeLabels : NodeLabelMap) (values : GoMap String String) (sourceLabel : String)
    (hvalid : ∀ node ∈ order, isValidLabelValue node = []) :
    ∃ features groups, buildInOrder isValidLabelValue stableObjectName nodeLabels values sourceLabel
      order = .ok (features, groups) := by
  obtain ⟨gv, hrun, -⟩ := foldlM_addNode stableObjectName nodeLabels values order
    { groupValues := ∅, nodeFeatures := [] } (recorded_empty sourceLabel) hvalid
  refine ⟨order.filterMap (featureOf nodeLabels values sourceLabel stableObjectName),
    makeGroups stableObjectName gv, ?_⟩
  rw [buildInOrder, hrun]
  rfl

end Nodes

/-! ## Matching -/

/-- The elements that a node publishes for the topology. -/
def NodeFeature.elements (f : NodeFeature) : GoMap String String :=
  (f.attributes.lookup nfdFeatureSet).getD ∅

/-- The node of a feature. -/
def NodeFeature.node (f : NodeFeature) : Option String := f.labels.lookup labelNFDNodeName

/-- A rule holds if every element it asks for has one of the values. -/
def GroupRule.holds (rule : GroupRule) (attributes : GoMap String (GoMap String String)) : Bool :=
  rule.matchFeatures.all fun term => term.matchExpressions.entries.all fun e =>
    ((attributes.lookup term.feature).bind fun elements => elements.lookup e.1).any (· ∈ e.2)

/-- The group contains the node of a feature. -/
def NodeFeatureGroup.selects (g : NodeFeatureGroup) (f : NodeFeature) : Bool :=
  g.rules.any fun rule => rule.holds f.attributes

/-- The group asks for a value of a topology element. -/
def NodeFeatureGroup.selectsElement (g : NodeFeatureGroup) (kind value : String) : Bool :=
  g.rules.any fun rule => rule.matchFeatures.any fun term =>
    term.feature == nfdFeatureSet && (term.matchExpressions.lookup kind).any (value ∈ ·)

section Matching

variable {stableObjectName : String → String → String}

@[simp] theorem elements_makeNodeFeature (node : String) (elements : GoMap String String) :
    (makeNodeFeature stableObjectName node elements).elements = elements := by
  rw [NodeFeature.elements, makeNodeFeature]
  simp

@[simp] theorem node_makeNodeFeature (node : String) (elements : GoMap String String) :
    (makeNodeFeature stableObjectName node elements).node = some node := by
  rw [NodeFeature.node, makeNodeFeature]
  simp only [GoMap.lookup_insert_eq_ite]
  rfl

theorem selectsElement_makeNodeFeatureGroup (kind value key kind' value' : String) :
    (makeNodeFeatureGroup stableObjectName kind value key).selectsElement kind' value' =
      decide ((kind, value) = (kind', value')) := by
  rw [NodeFeatureGroup.selectsElement, makeNodeFeatureGroup]
  simp only [List.any_cons, List.any_nil, Bool.or_false, beq_self_eq_true, Bool.true_and,
    GoMap.lookup_insert_eq_ite, Prod.mk.injEq]
  by_cases hkind : kind' = kind
  · simp [hkind, eq_comm]
  · simp [hkind, Ne.symm hkind]

/-- A group selects the nodes with its value. -/
theorem selects_makeNodeFeatureGroup (kind value key : String) (f : NodeFeature) :
    (makeNodeFeatureGroup stableObjectName kind value key).selects f = true ↔
      f.elements.lookup kind = some value := by
  have hentries : ((∅ : GoMap String (List String)).insert kind [value]).entries =
      [⟨kind, [value]⟩] := rfl
  rw [NodeFeatureGroup.selects, makeNodeFeatureGroup]
  simp only [List.any_cons, List.any_nil, Bool.or_false, GroupRule.holds, List.all_cons,
    List.all_nil, Bool.and_true, hentries]
  rw [NodeFeature.elements]
  cases f.attributes.lookup nfdFeatureSet with
  | none => simp
  | some elements =>
    dsimp only [Option.bind_some, Option.getD_some]
    cases elements.lookup kind <;> simp

/-- The kinds and values of the groups, in order. -/
def groupEntries (gv : GroupValues) : List (String × String) :=
  (gv.keys.insertionSort (· ≤ ·)).flatMap fun kind =>
    (((gv.lookup kind).getD ∅).keys.insertionSort (· ≤ ·)).map fun value => (kind, value)

/-- One group for each value of each kind. -/
theorem makeGroups_eq_map (gv : GroupValues) :
    makeGroups stableObjectName gv =
      (groupEntries gv).map fun e => makeNodeFeatureGroup stableObjectName e.1 e.2
        ((groupKey gv e.1 e.2).getD "") := by
  rw [makeGroups, groupEntries, List.map_flatMap]
  congr 1
  funext kind
  rw [List.map_map]
  dsimp only
  congr 1
  funext value
  cases hkind : gv.lookup kind <;> simp [groupKey, hkind]

variable {gv : GroupValues}

/-- The values that have a group. -/
theorem mem_groupEntries {kind value : String} :
    (kind, value) ∈ groupEntries gv ↔ ∃ key, groupKey gv kind value = some key := by
  simp only [groupEntries, List.mem_flatMap, List.mem_map, List.mem_insertionSort, Prod.mk.injEq]
  constructor
  · rintro ⟨kind', -, value', hvalue, rfl, rfl⟩
    obtain ⟨key, hkey⟩ := GoMap.mem_iff_lookup.mp (AList.mem_keys.mpr hvalue)
    cases hkind : gv.lookup kind' with
    | none => simp [hkind] at hkey
    | some values => exact ⟨key, by simpa [groupKey, hkind] using hkey⟩
  · rintro ⟨key, hkey⟩
    obtain ⟨values, hvalues, hkey⟩ := Option.bind_eq_some_iff.mp hkey
    refine ⟨kind, AList.mem_keys.mp (GoMap.mem_iff_lookup.mpr ⟨values, hvalues⟩),
      value, ?_, rfl, rfl⟩
    rw [hvalues, Option.getD_some]
    exact AList.mem_keys.mp (GoMap.mem_iff_lookup.mpr ⟨key, hkey⟩)

theorem nodup_groupEntries (gv : GroupValues) : (groupEntries gv).Nodup := by
  refine List.nodup_flatMap.mpr ⟨fun kind _ => ?_, ?_⟩
  · refine List.Nodup.map (fun a b hab => (Prod.mk.inj hab).2) ?_
    exact (List.perm_insertionSort _ _).nodup_iff.mpr (AList.keys_nodup _)
  · have hkinds : (gv.keys.insertionSort (· ≤ ·)).Nodup :=
      (List.perm_insertionSort _ _).nodup_iff.mpr gv.keys_nodup
    refine hkinds.imp fun {kind kind'} hne => List.disjoint_left.mpr ?_
    rintro e he he'
    obtain ⟨v, -, rfl⟩ := List.mem_map.mp he
    obtain ⟨v', -, heq⟩ := List.mem_map.mp he'
    exact hne (Prod.mk.inj heq).1.symm

theorem mem_makeGroups {g : NodeFeatureGroup} : g ∈ makeGroups stableObjectName gv ↔
      ∃ kind value key, groupKey gv kind value = some key ∧
      g = makeNodeFeatureGroup stableObjectName kind value key := by
  rw [makeGroups_eq_map, List.mem_map]
  constructor
  · rintro ⟨⟨kind, value⟩, he, rfl⟩
    obtain ⟨key, hkey⟩ := mem_groupEntries.mp he
    exact ⟨kind, value, key, hkey, by rw [hkey, Option.getD_some]⟩
  · rintro ⟨kind, value, key, hkey, rfl⟩
    exact ⟨(kind, value), mem_groupEntries.mpr ⟨key, hkey⟩, by rw [hkey, Option.getD_some]⟩

/-- **One group for a value of a kind.** -/
theorem countP_makeGroups {kind value key : String} (h : groupKey gv kind value = some key) :
    ((makeGroups stableObjectName gv).countP fun g => g.selectsElement kind value) = 1 := by
  rw [makeGroups_eq_map, List.countP_map]
  have hcount := List.count_eq_one_of_mem (nodup_groupEntries gv) (mem_groupEntries.mpr ⟨key, h⟩)
  rw [List.count] at hcount
  rw [← hcount]
  refine List.countP_congr fun e _ => ?_
  rw [Function.comp_apply, selectsElement_makeNodeFeatureGroup]
  simp

end Matching

/-! ## Main result -/

/-- **The key of a group** is determined by the writes: by the source label if one has it, and by
the kind if not. -/
theorem groupKey_eq_of_mem_iff {sourceLabel : String} {writes writes' : List Write}
    {gv gv' : GroupValues} (h : Recorded sourceLabel writes gv)
    (h' : Recorded sourceLabel writes' gv') (hsame : ∀ w, w ∈ writes ↔ w ∈ writes')
    (hwrites : ∀ w ∈ writes, topologyKind w.labelKey = some w.kind ∨
      sourceLabel ≠ "" ∧ w.kind = topologyTypeAcceleratorDomain ∧ w.labelKey = sourceLabel) :
      groupKey gv = groupKey gv' := by
  funext kind value
  cases hkey : groupKey gv kind value with
  | none =>
    cases hkey' : groupKey gv' kind value with
    | none => rfl
    | some key' =>
      obtain ⟨key, hmem⟩ := h.mem _ ((hsame _).mpr (h'.key kind value key' hkey'))
      exact absurd (hkey.symm.trans hmem) (by simp)
  | some key =>
    have hw := h.key kind value key hkey
    obtain ⟨key', hkey'⟩ := h'.mem _ ((hsame _).mp hw)
    have hw' := (hsame _).mpr (h'.key kind value key' hkey')
    dsimp only at hkey'
    rw [hkey']
    rcases hwrites _ hw with hkind | ⟨hlabel, hdomain, hsource⟩
    · rcases hwrites _ hw' with hkind' | ⟨hlabel, hdomain, hsource⟩
      · exact congrArg some (topologyKind_injective hkind hkind')
      · dsimp only at hdomain hsource
        subst hdomain hsource
        rw [← hkey, h.source hlabel value hw']
    · dsimp only at hdomain hsource
      subst hdomain hsource
      rw [← hkey', h'.source hlabel value ((hsame _).mp hw)]

section Main

variable {nodeLabels : NodeLabelMap} {values : GoMap String String} {sourceLabel : String}

theorem mem_sourceWrites {source : String} {w : Write} (h : w ∈ sourceWrites source sourceLabel) :
    source ≠ "" ∧ w = { kind := topologyTypeAcceleratorDomain, value := source,
                        labelKey := sourceLabel } := by
  rw [sourceWrites] at h
  split_ifs at h with hsource
  · exact ⟨hsource, List.mem_singleton.mp h⟩
  · simp at h

variable {node : String}

/-- Where the key of a write comes from. -/
theorem labelKey_of_mem_nodeWrites {w : Write}
    (hw : w ∈ nodeWrites nodeLabels values sourceLabel node) :
    topologyKind w.labelKey = some w.kind ∨
      sourceValue values node ≠ "" ∧ w.kind = topologyTypeAcceleratorDomain ∧
      w.labelKey = sourceLabel := by
  rcases List.mem_append.mp hw with hlabel | hsource
  · exact Or.inl (labelWrite_eq_some (mem_labelWrites hlabel)).2.1
  · obtain ⟨hne, rfl⟩ := mem_sourceWrites hsource
    exact Or.inr ⟨hne, rfl, rfl⟩

/-- **A source value is the only accelerator element** of its node. -/
theorem lookup_nodeElements_accelerator (hsource : sourceValue values node ≠ "")
    {kind value : String}
    (hkind : kind = topologyTypeAcceleratorDomain ∨ kind = topologyTypeAcceleratorSubDomain) :
    (nodeElements nodeLabels values sourceLabel node).lookup kind = some value ↔
      kind = topologyTypeAcceleratorDomain ∧ value = sourceValue values node := by
  rw [lookup_nodeElements]
  constructor
  · rintro ⟨w, hw, rfl, rfl⟩
    rcases List.mem_append.mp hw with hlabel | hlast
    · exact absurd ((labelWrite_eq_some (mem_labelWrites hlabel)).2.2.2 hkind) hsource
    · obtain ⟨-, rfl⟩ := mem_sourceWrites hlast
      exact ⟨rfl, rfl⟩
  · rintro ⟨rfl, rfl⟩
    refine ⟨{ kind := topologyTypeAcceleratorDomain, value := sourceValue values node,
              labelKey := sourceLabel },
      List.mem_append_right _ ?_, rfl, rfl⟩
    rw [sourceWrites, if_pos hsource]
    exact List.mem_singleton_self _

variable {stableObjectName : String → String → String}

/-- The feature of a node with an element. -/
theorem featureOf_of_lookup {node kind value : String}
    (h : (nodeElements nodeLabels values sourceLabel node).lookup kind = some value) :
    featureOf nodeLabels values sourceLabel stableObjectName node =
      some (makeNodeFeature stableObjectName node
        (nodeElements nodeLabels values sourceLabel node)) := by
  rw [featureOf, if_neg]
  intro hempty
  rw [GoMap.entries_eq_nil_iff.mp (List.isEmpty_iff.mp hempty)] at h
  exact absurd h (by simp)

/-- The feature of a node holds its elements. -/
theorem featureOf_eq_some {f : NodeFeature}
    (h : featureOf nodeLabels values sourceLabel stableObjectName node = some f) :
    f.node = some node ∧ f.elements = nodeElements nodeLabels values sourceLabel node := by
  rw [featureOf] at h
  split_ifs at h
  obtain rfl := Option.some.inj h
  exact ⟨node_makeNodeFeature node _, elements_makeNodeFeature node _⟩

/-- **The groups do not depend on the order of the nodes** if there is a source label, or no source
value. -/
theorem groups_of_order {isValidLabelValue : String → List String} {features : List NodeFeature}
    {groups : List NodeFeatureGroup}
    (h : buildNFDObjects isValidLabelValue stableObjectName nodeLabels values sourceLabel =
      .ok (features, groups))
    (hlabel : sourceLabel ≠ "" ∨ ∀ node, sourceValue values node = "") {order : List String}
    (horder : order.Perm nodeLabels.keys) :
    ∃ features' groups',
      buildInOrder isValidLabelValue stableObjectName nodeLabels values sourceLabel order =
        .ok (features', groups') ∧ ∀ g, g ∈ groups' ↔ g ∈ groups := by
  obtain ⟨gv, hrecorded, -, rfl, hvalid⟩ := buildInOrder_eq_ok h
  have hperm : order.Perm (nodeLabels.keys.insertionSort (· ≤ ·)) :=
    horder.trans (List.perm_insertionSort _ _).symm
  obtain ⟨features', groups', hrun⟩ := exists_buildInOrder stableObjectName nodeLabels values
    sourceLabel fun node hnode => hvalid node (hperm.mem_iff.mp hnode)
  obtain ⟨gv', hrecorded', -, rfl, -⟩ := buildInOrder_eq_ok hrun
  refine ⟨features', _, hrun, fun g => ?_⟩
  have hkeys : groupKey gv' = groupKey gv := by
    refine groupKey_eq_of_mem_iff hrecorded' hrecorded (fun w => ?_) fun w hw => ?_
    · rw [List.mem_flatMap, List.mem_flatMap]
      exact exists_congr fun node => and_congr_left fun _ => hperm.mem_iff
    · obtain ⟨node, -, hw⟩ := List.mem_flatMap.mp hw
      refine (labelKey_of_mem_nodeWrites hw).imp_right fun hsource => ⟨?_, hsource.2⟩
      exact hlabel.resolve_right fun hnone => hsource.1 (hnone node)
  rw [mem_makeGroups, mem_makeGroups, hkeys]

/-- **Groups and node features fit together.** Every element of a node feature has one group, which
selects the feature, and every group selects a feature. A node with a source value publishes it as
its only accelerator element. If there is a source label, or no source value, then the groups and
their keys do not depend on the order of the nodes. -/
theorem buildNFDObjects_groups {isValidLabelValue : String → List String}
    {stableObjectName : String → String → String} {nodeLabels : NodeLabelMap}
    {values : GoMap String String} {sourceLabel : String} {features : List NodeFeature}
    {groups : List NodeFeatureGroup}
    (h : buildNFDObjects isValidLabelValue stableObjectName nodeLabels values sourceLabel =
      .ok (features, groups)) :
    (∀ f ∈ features, ∀ kind value, f.elements.lookup kind = some value →
      (groups.countP fun g => g.selectsElement kind value) = 1 ∧
      ∀ g ∈ groups, g.selectsElement kind value = true → g.selects f = true) ∧
    (∀ g ∈ groups, ∃ f ∈ features, g.selects f = true) ∧
    (∀ node ∈ nodeLabels, sourceValue values node ≠ "" →
      (∃ f ∈ features, f.node = some node) ∧
      ∀ f ∈ features, f.node = some node → ∀ kind value,
        (kind = topologyTypeAcceleratorDomain ∨ kind = topologyTypeAcceleratorSubDomain) →
        (f.elements.lookup kind = some value ↔ kind = topologyTypeAcceleratorDomain ∧
          value = sourceValue values node)) ∧
    ((sourceLabel ≠ "" ∨ ∀ node, sourceValue values node = "") →
      ∀ order : List String, order.Perm nodeLabels.keys → ∃ features' groups',
        buildInOrder isValidLabelValue stableObjectName nodeLabels values sourceLabel order = .ok
          (features', groups') ∧
        ∀ g, g ∈ groups' ↔ g ∈ groups) := by
  obtain ⟨gv, hrecorded, rfl, rfl, hvalid⟩ := buildInOrder_eq_ok h
  have hfeature : ∀ f ∈ (nodeLabels.keys.insertionSort (· ≤ ·)).filterMap
      (featureOf nodeLabels values sourceLabel stableObjectName),
      ∃ node ∈ nodeLabels.keys.insertionSort (· ≤ ·), f.node = some node ∧
      f.elements = nodeElements nodeLabels values sourceLabel node := by
    intro f hf
    obtain ⟨node, hnode, hf⟩ := List.mem_filterMap.mp hf
    exact ⟨node, hnode, featureOf_eq_some hf⟩
  refine ⟨fun f hf kind value helement => ?_, fun g hg => ?_, fun node hnode hsource => ⟨?_, ?_⟩,
    fun hlabel order horder => ?_⟩
  · obtain ⟨node, hnode, -, helements⟩ := hfeature f hf
    rw [helements, lookup_nodeElements] at helement
    obtain ⟨w, hw, rfl, rfl⟩ := helement
    obtain ⟨key, hkey⟩ := hrecorded.mem w (List.mem_flatMap.mpr ⟨node, hnode, hw⟩)
    refine ⟨countP_makeGroups hkey, fun g hg hselects => ?_⟩
    obtain ⟨kind, value, key', -, rfl⟩ := mem_makeGroups.mp hg
    rw [selectsElement_makeNodeFeatureGroup] at hselects
    obtain ⟨rfl, rfl⟩ := Prod.mk.inj (of_decide_eq_true hselects)
    rw [selects_makeNodeFeatureGroup, helements, lookup_nodeElements]
    exact ⟨w, hw, rfl, rfl⟩
  · obtain ⟨kind, value, key, hkey, rfl⟩ := mem_makeGroups.mp hg
    obtain ⟨node, hnode, hw⟩ := List.mem_flatMap.mp (hrecorded.key kind value key hkey)
    have hlook : (nodeElements nodeLabels values sourceLabel node).lookup kind = some value :=
      lookup_nodeElements.mpr ⟨_, hw, rfl, rfl⟩
    refine ⟨_, List.mem_filterMap.mpr ⟨node, hnode, featureOf_of_lookup hlook⟩, ?_⟩
    rw [selects_makeNodeFeatureGroup, elements_makeNodeFeature, hlook]
  · have hlook : (nodeElements nodeLabels values sourceLabel node).lookup
        topologyTypeAcceleratorDomain =
        some (sourceValue values node) :=
      (lookup_nodeElements_accelerator hsource (Or.inl rfl)).mpr ⟨rfl, rfl⟩
    refine ⟨_, List.mem_filterMap.mpr ⟨node, ?_, featureOf_of_lookup hlook⟩,
      node_makeNodeFeature node _⟩
    exact (List.mem_insertionSort _).mpr (AList.mem_keys.mp hnode)
  · intro f hf hfnode kind value hkind
    obtain ⟨node', -, hnode', helements⟩ := hfeature f hf
    obtain rfl := Option.some.inj (hfnode.symm.trans hnode')
    rw [helements]
    exact lookup_nodeElements_accelerator hsource hkind
  · exact groups_of_order h hlabel horder

/-! ## The objects of the engine -/

/-- Source values are collected for a source label only. -/
theorem sourceValue_acceleratorDomainSourceValues (nodes : List (String × Labels))
    (sourceLabel : String) :
    sourceLabel ≠ "" ∨
      ∀ node, sourceValue (acceleratorDomainSourceValues nodes sourceLabel) node = "" := by
  by_cases h : sourceLabel = ""
  · refine Or.inr fun node => ?_
    rw [acceleratorDomainSourceValues, if_pos h]
    rfl
  · exact Or.inl h

/-- **The objects that the engine makes** of the source values it collects and with the names it
gives: the names are DNS labels if the labels of the nodes have the keys of the model, and the
groups do not depend on the order of the nodes. -/
theorem engineObjects {isValidLabelValue : String → List String} {toLower : Char → Char}
    {sha256 : Cluset.Text → Vector UInt8 32} {nodes : List (String × Labels)}
    {features : List NodeFeature} {groups : List NodeFeatureGroup}
    (h : buildNFDObjects isValidLabelValue (objectName toLower sha256) nodeLabels
      (acceleratorDomainSourceValues nodes sourceLabel) sourceLabel = .ok (features, groups)) :
    (∀ f ∈ features, IsDNSLabel f.name.toList) ∧
    ((∀ node labels, nodeLabels.lookup node = some labels → ∀ key ∈ labels,
        key = keyTopologyXclrDomain ∨ key = keyTopologyXclrSubDomain ∨
          ∃ tier < 2 ^ 63, key = K8s.fabricTierKey tier) →
      ∀ g ∈ groups, IsDNSLabel g.name.toList) ∧
    ∀ order : List String, order.Perm nodeLabels.keys → ∃ features' groups',
      buildInOrder isValidLabelValue (objectName toLower sha256) nodeLabels
        (acceleratorDomainSourceValues nodes sourceLabel) sourceLabel order = .ok
          (features', groups') ∧
      ∀ g, g ∈ groups' ↔ g ∈ groups := by
  obtain ⟨gv, hrecorded, rfl, rfl, -⟩ := buildInOrder_eq_ok h
  refine ⟨fun f hf => ?_, fun hkeys g hg => ?_, fun order =>
    groups_of_order h (sourceValue_acceleratorDomainSourceValues nodes sourceLabel)⟩
  · obtain ⟨node, -, hf⟩ := List.mem_filterMap.mp hf
    rw [featureOf] at hf
    split_ifs at hf
    rw [← Option.some.inj hf]
    exact isDNSLabel_objectName toLower sha256 (by decide) node
  · obtain ⟨kind, value, key, hkey, rfl⟩ := mem_makeGroups.mp hg
    obtain ⟨node, -, hw⟩ := List.mem_flatMap.mp (hrecorded.key kind value key hkey)
    refine isDNSLabel_objectName toLower sha256 ?_ value
    rcases List.mem_append.mp hw with hlabel | hsource
    · -- The group of a label has the kind of its key.
      obtain ⟨labelKey, hmem, hwrite⟩ := List.mem_filterMap.mp hlabel
      have hmem : labelKey ∈ (nodeLabels.lookup node).getD ∅ :=
        AList.mem_keys.mpr ((List.mem_insertionSort _).mp hmem)
      cases hlook : nodeLabels.lookup node with
      | none => exact absurd (hlook ▸ hmem) (AList.notMem_empty _)
      | some labels =>
        rw [hlook, Option.getD_some] at hmem
        exact length_kind_le (labelWrite_eq_some hwrite).2.1 (hkeys node labels hlook labelKey hmem)
    · obtain ⟨-, hwrite⟩ := mem_sourceWrites hsource
      rw [Write.mk.inj hwrite |>.1]
      decide

end Main

/-- Two nodes of one accelerator domain: `a` has it from a source value, `b` from the provider. -/
def pairLabels : NodeLabelMap :=
  ((∅ : NodeLabelMap).insert "a" ∅).insert "b" ((∅ : Labels).insert keyTopologyXclrDomain "v")

def pairSource : GoMap String String := (∅ : GoMap String String).insert "a" "v"

/-- With a source label, the two nodes share one group. -/
theorem pair_groups : ∃ features groups,
    buildNFDObjects (fun _ => [])
      (objectName Char.toLower fun _ => Vector.replicate 32 0) pairLabels
      (acceleratorDomainSourceValues [("a", (∅ : Labels).insert "rack" "v")] "rack") "rack" =
        .ok (features, groups) ∧ ∀ g ∈ groups, ∃ f ∈ features, g.selects f = true := by
  have hvalid : ∀ node ∈ pairLabels.keys.insertionSort (· ≤ ·),
      (fun _ => [] : String → List String) node = [] := fun _ _ => rfl
  obtain ⟨features, groups, h⟩ :=
    exists_buildInOrder (objectName Char.toLower fun _ => Vector.replicate 32 0) pairLabels
      (acceleratorDomainSourceValues [("a", (∅ : Labels).insert "rack" "v")] "rack") "rack" hvalid
  exact ⟨features, groups, h, (buildNFDObjects_groups h).2.1⟩

/-- The keys recorded on the groups when the nodes are visited in some order, without a source
label. -/
def pairKeys (order : List String) : Option (List (Option String)) :=
  match buildInOrder (fun _ => []) (fun start value => start ++ value) pairLabels
    pairSource "" order with
  | .error _ => none
  | .ok (_, groups) => some (groups.map fun g => g.annotations.lookup annotationTopologyLabelKey)

/-- Without a source label, the key of the group is that of the node visited last. -/
theorem pair_keys_of_order :
    pairKeys ["a", "b"] = some [some "accelerator.topograph.run/domain"] ∧
    pairKeys ["b", "a"] = some [some ""] := by
  constructor <;> decide

end Topograph.Nfd
