import Topograph.K8s.Reconcile
import Topograph.Nodelabels.Provider

/-! # NFD objects (`pkg/engines/nfd/objects.go`, `pkg/engines/nfd/engine.go`)

The engine publishes the topology labels of a node as the elements of a node feature, and makes a
feature group for every value of every kind of label. A source label on the Kubernetes node replaces
the accelerator labels of the provider. The check of a label value (`validation.IsValidLabelValue`)
belongs to a library and is a parameter; so is the name of an object, which `ObjectNames` models. -/

namespace Topograph.Nfd

open Topograph.K8s
  (Labels NodeLabelMap keyFabricTierPrefix keyTopologyXclrDomain keyTopologyXclrSubDomain
    cutPrefix parseInt)
open Topograph.Nodelabels (trimSpace)
open Topograph.Translate (goQuote)

/-! ## Objects -/

def nfdFeatureSet : String := "topograph.network"
def nfdSystemName : String := "system.name"
def nfdNodeName : String := "nodename"

def topologyTypeFabric : String := "fabric-tier-"
def topologyTypeAcceleratorDomain : String := "accelerator-domain"
def topologyTypeAcceleratorSubDomain : String := "accelerator-sub-domain"

def labelNFDNodeName : String := "nfd.node.kubernetes.io/node-name"
def labelManagedBy : String := "app.kubernetes.io/managed-by"
def labelEngine : String := "topograph.run/engine"
def labelResource : String := "topograph.run/resource"
def labelGroupType : String := "topograph.run/group-type"

def managedByTopograph : String := "topograph"
def engineName : String := "nfd"
def resourceNodeFeature : String := "nodefeature"
def resourceNodeFeatureGroup : String := "nodefeaturegroup"
def annotationNodeName : String := "topograph.run/node-name"
def annotationTopologyLabelKey : String := "topograph.run/label-key"
def annotationTopologyValue : String := "topograph.run/label-value"

/-- `nfdv1alpha1.NodeFeature`; `attributes` are the elements by feature set. -/
structure NodeFeature where
  name : String
  labels : Labels
  annotations : GoMap String String
  attributes : GoMap String (GoMap String String)

/-- One entry of a `FeatureMatcher`: the elements of a feature set that have to have one of some
values (operator `In`). -/
structure FeatureMatcherTerm where
  feature : String
  matchExpressions : GoMap String (List String)

/-- `nfdv1alpha1.GroupRule`. -/
structure GroupRule where
  name : String
  matchFeatures : List FeatureMatcherTerm

/-- `nfdv1alpha1.NodeFeatureGroup`. -/
structure NodeFeatureGroup where
  name : String
  labels : Labels
  annotations : GoMap String String
  rules : List GroupRule

section Make

variable (stableObjectName : String → String → String)

/-- `makeNodeFeature`. -/
def makeNodeFeature (nodeName : String) (elements : GoMap String String) : NodeFeature where
  name := stableObjectName "topograph-node" nodeName
  labels := ((((∅ : Labels).insert labelNFDNodeName nodeName).insert labelManagedBy
    managedByTopograph).insert labelEngine
    engineName).insert labelResource resourceNodeFeature
  annotations := (∅ : GoMap String String).insert annotationNodeName nodeName
  attributes := ((∅ : GoMap String (GoMap String String)).insert nfdSystemName
    ((∅ : GoMap String String).insert nfdNodeName nodeName)).insert nfdFeatureSet elements

/-- `makeNodeFeatureGroup`. -/
def makeNodeFeatureGroup (kind value labelKey : String) : NodeFeatureGroup where
  name := stableObjectName ("topograph-" ++ kind) value
  labels := ((((∅ : Labels).insert labelManagedBy managedByTopograph).insert labelEngine
    engineName).insert labelResource
    resourceNodeFeatureGroup).insert labelGroupType kind
  annotations := ((∅ : GoMap String String).insert annotationTopologyLabelKey labelKey).insert
    annotationTopologyValue value
  rules :=
    [{ name := kind ++ " equals " ++ value
       matchFeatures := [{ feature := nfdFeatureSet,
                           matchExpressions :=
         (∅ : GoMap String (List String)).insert kind [value] }] }]

end Make

/-! ## Kinds of labels -/

/-- `topologyKind`. -/
def topologyKind (labelKey : String) : Option String :=
  if labelKey = keyTopologyXclrDomain then some topologyTypeAcceleratorDomain
  else if labelKey = keyTopologyXclrSubDomain then some topologyTypeAcceleratorSubDomain
  else
    (cutPrefix labelKey keyFabricTierPrefix).bind fun level =>
      if (parseInt level).isSome then some (topologyTypeFabric ++ String.ofList level) else none

/-! ## The loop over the nodes -/

/-- The label key of every value of every kind. -/
abbrev GroupValues := GoMap String (GoMap String String)

/-- `groupValues[kind][value]`. -/
def groupKey (groupValues : GroupValues) (kind value : String) : Option String :=
  (groupValues.lookup kind).bind fun values => values.lookup value

/-- The map of a kind is made when the kind is seen first. -/
def ensureKind (groupValues : GroupValues) (kind : String) : GroupValues :=
  if kind ∈ groupValues then groupValues else groupValues.insert kind ∅

/-- `groupValues[kind][value] = labelKey`. -/
def setGroupKey (groupValues : GroupValues) (kind value labelKey : String) : GroupValues :=
  groupValues.insert kind (((groupValues.lookup kind).getD ∅).insert value labelKey)

/-- The elements of a node, and the groups. -/
structure NodeState where
  elements : GoMap String String
  groupValues : GroupValues

section Loop

variable (acceleratorDomainSourceValue acceleratorDomainSourceLabel : String)

/-- One label of a node. -/
def addLabel (labels : Labels) (st : NodeState) (labelKey : String) : NodeState :=
  match topologyKind labelKey with
  | none => st
  | some kind =>
    if (kind = topologyTypeAcceleratorDomain ∨ kind = topologyTypeAcceleratorSubDomain) ∧
      acceleratorDomainSourceValue ≠ "" then st
    else
      let value := trimSpace ((labels.lookup labelKey).getD "")
      if value = "" then st
      else
        let groupValues := ensureKind st.groupValues kind
        { elements := st.elements.insert kind value
          groupValues :=
            -- The source label is not replaced by the label of the provider.
            if kind = topologyTypeAcceleratorDomain ∧ acceleratorDomainSourceLabel ≠ "" ∧
                (groupKey groupValues kind value).getD "" = acceleratorDomainSourceLabel
                then groupValues
            else setGroupKey groupValues kind value labelKey }

/-- The source value of a node. -/
def addSource (st : NodeState) : NodeState :=
  if acceleratorDomainSourceValue ≠ "" then
    { elements := st.elements.insert topologyTypeAcceleratorDomain acceleratorDomainSourceValue
      groupValues := setGroupKey (ensureKind st.groupValues topologyTypeAcceleratorDomain)
        topologyTypeAcceleratorDomain
        acceleratorDomainSourceValue acceleratorDomainSourceLabel }
  else st

end Loop

/-- What the loop over the nodes has made. -/
structure BuildState where
  groupValues : GroupValues
  nodeFeatures : List NodeFeature

section Build

variable (isValidLabelValue : String → List String) (stableObjectName : String → String → String)
  (nodeLabels : NodeLabelMap) (acceleratorDomainSourceValues : GoMap String String)
  (acceleratorDomainSourceLabel : String)

/-- The source value of a node, or the empty string. -/
def sourceValue (nodeName : String) : String :=
  trimSpace ((acceleratorDomainSourceValues.lookup nodeName).getD "")

/-- The elements of one node and the groups behind it. -/
def visitNode (groupValues : GroupValues) (nodeName : String) : NodeState :=
  let labels := (nodeLabels.lookup nodeName).getD ∅
  let source := sourceValue acceleratorDomainSourceValues nodeName
  addSource source acceleratorDomainSourceLabel
    ((labels.keys.insertionSort (· ≤ ·)).foldl (addLabel source acceleratorDomainSourceLabel labels)
      { elements := ∅, groupValues := groupValues })

/-- One node. -/
def addNode (st : BuildState) (nodeName : String) : Except String BuildState :=
  if isValidLabelValue nodeName ≠ [] then
    .error ("node name " ++ goQuote nodeName ++ " cannot be used as " ++ goQuote labelNFDNodeName ++
      " label value: " ++
      String.intercalate "; " (isValidLabelValue nodeName))
  else
    let node := visitNode nodeLabels acceleratorDomainSourceValues acceleratorDomainSourceLabel
      st.groupValues nodeName
    if node.elements.entries.isEmpty then .ok { st with groupValues := node.groupValues }
    else
      .ok { groupValues := node.groupValues
            nodeFeatures := st.nodeFeatures ++
              [makeNodeFeature stableObjectName nodeName node.elements] }

/-- The groups of all values. -/
def makeGroups (groupValues : GroupValues) : List NodeFeatureGroup :=
  (groupValues.keys.insertionSort (· ≤ ·)).flatMap fun kind =>
    let values := (groupValues.lookup kind).getD ∅
    (values.keys.insertionSort (· ≤ ·)).map fun value =>
      makeNodeFeatureGroup stableObjectName kind value ((values.lookup value).getD "")

/-- The objects when the nodes are visited in some order. -/
def buildInOrder (order : List String) : Except String (List NodeFeature × List NodeFeatureGroup) :=
  do
  let st ← order.foldlM (addNode isValidLabelValue stableObjectName nodeLabels
      acceleratorDomainSourceValues
    acceleratorDomainSourceLabel) { groupValues := ∅, nodeFeatures := [] }
  return (st.nodeFeatures, makeGroups stableObjectName st.groupValues)

/-- `buildNFDObjects`. -/
def buildNFDObjects : Except String (List NodeFeature × List NodeFeatureGroup) :=
  buildInOrder isValidLabelValue stableObjectName nodeLabels acceleratorDomainSourceValues
    acceleratorDomainSourceLabel
    (nodeLabels.keys.insertionSort (· ≤ ·))

end Build

/-- `acceleratorDomainSourceValues`; the nodes are given by their names and labels. -/
def acceleratorDomainSourceValues (nodes : List (String × Labels)) (sourceLabel : String) :
    GoMap String String :=
  if sourceLabel = "" then ∅
  else
    nodes.foldl (fun out node =>
      let value := trimSpace ((node.2.lookup sourceLabel).getD "")
      if value ≠ "" then out.insert node.1 value else out) ∅

end Topograph.Nfd
