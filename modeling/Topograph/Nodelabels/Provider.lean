import Topograph.Httperr
import Topograph.Lib.GoString
import Topograph.Topology.ToGraph
import Topograph.Translate.Config

/-! # Topology from node labels (`pkg/providers/nodelabels/provider.go`)

The provider reads the switches above a node from its labels, closest tier first. The same label
value may stand for different switches, so a switch is identified by its value and all values above
it: `switchID` hashes the joined values, and salts the hash until the ID is none of the requested
instances. The hash and the check of label values (`validation.IsValidLabelValue`, which returns
what is wrong with a value) are parameters; the loop over the salts carries `fuel`. -/

namespace Topograph.Nodelabels

open Topograph.Topology

/-- `onMissingLabel`. -/
inductive OnMissingLabel where
  | skip
  | fail
  deriving DecidableEq, Repr

/-- `Params`, as `ParseParams` accepts them; the node selector is applied by the server. -/
structure Params where
  topologyLabels : List String
  requireReady : Bool
  onMissingLabel : OnMissingLabel

/-- `corev1.ConditionStatus`. -/
inductive ConditionStatus where
  | true
  | false
  | unknown
  deriving DecidableEq, Repr

/-- A Kubernetes node: what the provider reads of it. The server stores no node without a name. -/
structure Node where
  name : String
  /-- The annotation `topograph.run/instance`. -/
  instanceAnnotation : Option String
  labels : GoMap String String
  deleted : Bool
  /-- The types and statuses of the conditions. -/
  conditions : List (String × ConditionStatus)
  named : name ≠ ""

/-! ## Values -/

/-- `strings.TrimSpace`. -/
def trimSpace (s : String) : String := String.ofList (GoString.trimSpace s.toList)

/-! ## Switch IDs -/

section SwitchID

variable (sum256 : String → Vector UInt8 32)

/-- `digest[:16]`. -/
def truncatedDigest (s : String) : List UInt8 := (sum256 s).toList.take 16

/-- The verb `%x` for a byte. -/
def hexByte (b : UInt8) : List Char := [Nat.digitChar (b.toNat / 16), Nat.digitChar (b.toNat % 16)]

/-- The string that is hashed for a path and a salt. -/
def saltedPath (values : List String) (salt : Nat) : String :=
  "/".intercalate values ++ "#" ++ toString salt

/-- The start of the closest value, for the reader of an ID. -/
def valuePrefix (values : List String) : List Char :=
  ((values.headD "").toList.take 23).rdropWhile fun c => c == '-' || c == '_' || c == '.'

/-- The ID of a switch with a salt. -/
def saltedID (values : List String) (salt : Nat) : String :=
  "switch_" ++ String.ofList (valuePrefix values) ++ "-" ++
    String.ofList ((truncatedDigest sum256 (saltedPath values salt)).flatMap hexByte)

/-- The loop of `switchID` from a salt on. -/
def saltLoop (values : List String) (nodeIDs : GoMap String String) : Nat → Nat → Option String
  | 0, _ => none
  | fuel + 1, salt =>
    if saltedID sum256 values salt ∈ nodeIDs then saltLoop values nodeIDs fuel (salt + 1)
    else some (saltedID sum256 values salt)

/-- `switchID`. -/
def switchID (fuel : Nat) (values : List String) (nodeIDs : GoMap String String) : Option String :=
  saltLoop sum256 values nodeIDs fuel 0

/-- The loop that names the tiers: every switch by its own label value and those above it. -/
def switchTiers (fuel : Nat) (nodeIDs : GoMap String String) :
    List String → Option (List FabricTier)
  | [] => some []
  | value :: values =>
    match switchID sum256 fuel (value :: values) nodeIDs, switchTiers fuel nodeIDs values with
    | some id, some tiers => some ({ id := id, name := "" } :: tiers)
    | _, _ => none

end SwitchID

/-! ## Nodes -/

/-- `IsNodeEligible`. -/
def isNodeEligible (node : Node) : Bool :=
  !node.deleted && ((node.conditions.find? (·.1 = "Ready")).any (·.2 = .true))

/-- The instance of a node: its annotation or, without one, its name. -/
def Node.instanceID (node : Node) : String :=
  let id := trimSpace (node.instanceAnnotation.getD "")
  if id = "" then node.name else id

/-- The values of the topology labels, or the first key whose value is missing or invalid. -/
def labelValues (isValidLabelValue : String → List String) (node : Node) :
    List String → Except (String × String) (List String)
  | [] => .ok []
  | key :: keys =>
    let value := (node.labels.lookup key).getD ""
    if value = "" ∨ isValidLabelValue value ≠ [] then .error (key, value)
    else
      match labelValues isValidLabelValue node keys with
      | .error err => .error err
      | .ok values => .ok (value :: values)

/-- A node is passed over if its instance is not requested, or if it is being deleted or not
ready. -/
def isSkipped (params : Params) (requested : GoMap String String) (node : Node) : Bool :=
  (requested.lookup node.instanceID).isNone || node.deleted ||
    (params.requireReady && !isNodeEligible node)

/-- The variables of the loop over the nodes. -/
structure ScanState where
  topo : ClusterTopology
  eligible : GoMap String String

/-- One turn of the loop over the nodes. -/
def addNode (isValidLabelValue : String → List String) (sum256 : String → Vector UInt8 32)
    (fuel : Nat) (params : Params) (requested : GoMap String String) (st : ScanState)
    (node : Node) : Option (Except HTTPError ScanState) :=
  if isSkipped params requested node then some (.ok st)
  else
    match labelValues isValidLabelValue node params.topologyLabels with
    | .error (key, value) =>
      match params.onMissingLabel with
      | .fail =>
        some (.error
          { code := statusBadRequest
            message := "node " ++ Translate.goQuote node.name ++
              " has missing or invalid topology label " ++
              Translate.goQuote key ++ ": " ++ Translate.goQuote value })
      | .skip => some (.ok st)
    | .ok values =>
      (switchTiers sum256 fuel requested values).map fun tiers =>
        .ok
          { topo := st.topo ++ [{ instanceID := node.instanceID, fabricTiers := tiers,
                                  xclrDomainID := "", xclrSubDomainID := "" }]
            eligible := st.eligible.insert node.instanceID
              ((requested.lookup node.instanceID).getD "") }

/-- The loop over the nodes. -/
def scanNodes (isValidLabelValue : String → List String) (sum256 : String → Vector UInt8 32)
    (fuel : Nat) (params : Params) (requested : GoMap String String) :
    List Node → ScanState → Option (Except HTTPError ScanState)
  | [], st => some (.ok st)
  | node :: nodes, st =>
    match addNode isValidLabelValue sum256 fuel params requested st node with
    | none => none
    | some (.error err) => some (.error err)
    | some (.ok st) => scanNodes isValidLabelValue sum256 fuel params requested nodes st

/-- `GenerateTopologyConfig`, with the outcome of listing the nodes. -/
def generateTopologyConfig (isValidLabelValue : String → List String)
    (sum256 : String → Vector UInt8 32) (order : RangeOrder) (fuel : Nat) (params : Params)
    (nodes : Except String (List Node)) (cis : List (GoMap String String)) :
    Option (Except HTTPError (Graph Ref)) :=
  match nodes with
  | .error err => some (.error { code := statusBadGateway, message := err })
  | .ok nodes =>
    match scanNodes isValidLabelValue sum256 fuel params (requested cis) nodes
      { topo := [], eligible := ∅ } with
    | none => none
    | some (.error err) => some (.error err)
    | some (.ok st) =>
      if (requested cis).entries ≠ [] ∧ st.eligible.entries = [] then
        some (.error
          { code := statusServiceUnavailable
            message :=
              "no requested nodes have usable topology; preserving the last successful output" })
      else (toGraph order fuel st.topo [st.eligible] 0 false).map .ok

end Topograph.Nodelabels
