import Topograph.Cluset.Numerals
import Topograph.K8s.Labeler
import Topograph.Lib.GoString

/-! # Label reconciliation (`pkg/engines/k8s/kubernetes.go`)

`addNodeLabels` brings the labels of a node in line with the labels of the current topology. It
works on a cached copy of the node: labels that the engine may have written are removed, the new
ones are copied in, and the difference is sent to the server as a patch. A patch is the map of its
changes, where a key without a value is removed. -/

namespace Topograph.K8s

open Topograph.Translate (goQuote)
open Topograph.Cluset (Text isNumeral)

/-! ## Managed keys -/

/-- `strconv.Atoi`, without the text of its error. -/
def parseInt : Text → Option Int
  | '-' :: s =>
    if isNumeral s ∧ Nat.ofDigitChars 10 s 0 ≤ 2 ^ 63 then some (-(Nat.ofDigitChars 10 s 0))
      else none
  | '+' :: s =>
    if isNumeral s ∧ Nat.ofDigitChars 10 s 0 < 2 ^ 63 then some (Nat.ofDigitChars 10 s 0) else none
  | s =>
    if isNumeral s ∧ Nat.ofDigitChars 10 s 0 < 2 ^ 63 then some (Nat.ofDigitChars 10 s 0) else none

/-- `strings.CutPrefix`. -/
def cutPrefix (s start : String) : Option Text :=
  if start.toList.isPrefixOf s.toList then some (s.toList.drop start.toList.length) else none

/-- A numbered default fabric key. -/
def isTierKey (key : String) : Bool :=
  match (cutPrefix key keyFabricTierPrefix).bind parseInt with
  | some level => 0 ≤ level
  | none => false

/-- `isManagedLevelLabel`. -/
def isManagedLevelLabel (key : String) (keys : TopologyLabelKeys) : Bool :=
  key = keyTopologyXclrDomain ∨ key = keyTopologyXclrSubDomain ∨
    (key ∈ keys.configured ∧ key ≠ "") ∨ isTierKey key

/-! ## Desired labels -/

/-- `strings.TrimSpace(s) == ""`. -/
def isBlank (s : String) : Bool := s.toList.all GoString.isSpace

/-- `skipAcceleratorLabelsWhenSourceExists`. -/
def skipAcceleratorLabelsWhenSourceExists (currentLabels labels : Labels) (keys : TopologyLabelKeys)
    (acceleratorDomainSourceLabel : String) : Labels :=
  if acceleratorDomainSourceLabel = "" ∨
    isBlank ((currentLabels.lookup acceleratorDomainSourceLabel).getD "") then labels
  else (labels.erase keys.xclrDomain).erase keys.xclrSubDomain

/-- `removeManagedTopologyLabels`. -/
def removeManagedTopologyLabels (labels : Labels) (keys : TopologyLabelKeys)
    (acceleratorDomainSourceLabel : String) : Labels :=
  labels.filterMap fun key value =>
    if acceleratorDomainSourceLabel ≠ "" ∧ key = acceleratorDomainSourceLabel then some value
    else if isManagedLevelLabel key keys then none
    else some value

/-- `mergeNodeLabels`. -/
def mergeNodeLabels (current labels : Labels) (keys : TopologyLabelKeys)
    (acceleratorDomainSourceLabel : String) : Labels :=
  (removeManagedTopologyLabels current keys acceleratorDomainSourceLabel).copy
    (skipAcceleratorLabelsWhenSourceExists current labels keys acceleratorDomainSourceLabel)

/-! ## Patches -/

/-- The changes of a patch; a key without a value is removed. -/
abbrev Patch := GoMap String (Option String)

/-- `nodeLabelPatch`. -/
def nodeLabelPatch (current desired : Labels) : Patch :=
  let changes : Patch := current.entries.foldl (fun changes e =>
    if e.1 ∈ desired then changes else changes.insert e.1 none) ∅
  desired.entries.foldl (fun changes e =>
    if current.lookup e.1 = some e.2 then changes else changes.insert e.1 (some e.2)) changes

/-- What the server makes of the labels of a node. -/
def applyPatch (labels : Labels) (patch : Patch) : Labels :=
  patch.entries.foldl (fun labels e => e.2.elim (labels.erase e.1) (labels.insert e.1)) labels

/-! ## The engine -/

/-- The nodes that the engine has cached (nil before they are loaded; a node may have to be
fetched), and the nodes of the server. -/
structure EngineState where
  cachedNodeMap : Option (GoMap String (Option Labels))
  server : GoMap String Labels

/-- What the libraries and the server of Kubernetes decide: whether a selector matches labels, and
the error for a node that the server does not have. -/
structure Kubernetes where
  selectorMatches : GoMap String String → Labels → Bool
  notFound : String → String

/-- `matchesNodeSelector`. -/
def matchesNodeSelector (k8s : Kubernetes) (p : Params) (labels : Labels) : Bool :=
  if p.nodeSelector.entries = [] then true
  else k8s.selectorMatches p.nodeSelector labels

/-- `loadNodes`: the nodes that the server lists for the selector. -/
def loadNodes (k8s : Kubernetes) (p : Params) (st : EngineState) : EngineState :=
  match st.cachedNodeMap with
  | some _ => st
  | none =>
    { st with
      cachedNodeMap := some (st.server.filterMap fun _ labels =>
        if matchesNodeSelector k8s p labels then some (some labels) else none) }

/-- What `AddNodeLabels` does with a node that it has. -/
def reconcileNode (k8s : Kubernetes) (p : Params) (keys : TopologyLabelKeys) (st : EngineState)
    (cached : GoMap String (Option Labels)) (nodeName : String) (labels current : Labels) :
    EngineState × Except String (Option Patch) :=
  if ¬ matchesNodeSelector k8s p current then (st, .ok none)
  else
    let desired := mergeNodeLabels current labels keys p.acceleratorDomainSourceLabel
    if current.equal desired then (st, .ok none)
    else
      let patch := nodeLabelPatch current desired
      match st.server.lookup nodeName with
      | none =>
        (st, .error ("failed to patch topology labels on node " ++ goQuote nodeName ++ ": "
          ++ k8s.notFound nodeName))
      | some serverLabels =>
        ({ cachedNodeMap := some (cached.insert nodeName (some desired))
           server := st.server.insert nodeName (applyPatch serverLabels patch) }, .ok (some patch))

/-- `AddNodeLabels`: the state behind it, and the patch that was sent. -/
def addNodeLabels (k8s : Kubernetes) (p : Params) (keys : TopologyLabelKeys) (st : EngineState)
    (nodeName : String) (labels : Labels) : EngineState × Except String (Option Patch) :=
  let st := loadNodes k8s p st
  let cached := st.cachedNodeMap.getD ∅
  match cached.lookup nodeName with
  | none => (st, .ok none)
  | some (some current) => reconcileNode k8s p keys st cached nodeName labels current
  | some none =>
    match st.server.lookup nodeName with
    | none => (st, .error ("node " ++ goQuote nodeName ++ " was not found in Kubernetes"))
    | some current =>
      let cached := cached.insert nodeName (some current)
      reconcileNode k8s p keys { st with cachedNodeMap := some cached } cached nodeName
        labels current

end Topograph.K8s
