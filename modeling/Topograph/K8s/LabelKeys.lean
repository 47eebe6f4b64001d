import Topograph.Translate.Config

/-! # Topology label keys (`pkg/engines/k8s/labeler.go`, `pkg/engines/k8s/engine.go`)

The k8s engine writes the place of a node into its labels: one key per fabric tier, one for the
accelerator domain and one for the sub-domain. `getParameters` checks the configured keys; the check
of a single key belongs to the Kubernetes library and is a parameter (`LabelGrammar`). -/

namespace Topograph.K8s

open Topograph.Translate (goQuote)

/-! ## Default keys (`pkg/topology/topology.go`) -/

def keyFabricTierPrefix : String := "fabric.topograph.run/tier-"

def keyTopologyXclrDomain : String := "accelerator.topograph.run/domain"

def keyTopologyXclrSubDomain : String := "accelerator.topograph.run/sub-domain"

/-- `FabricTierKey`. -/
def fabricTierKey (tier : Nat) : String := keyFabricTierPrefix ++ toString tier

/-! ## Configured keys -/

/-- `validation.IsQualifiedName`: the errors of a key. A key has to name something. -/
structure LabelGrammar where
  isQualifiedName : String → List String
  nonempty : isQualifiedName "" ≠ []

/-- `ValidateLabelKey`. -/
def validateLabelKey (grammar : LabelGrammar) (location key : String) : Except String Unit :=
  if grammar.isQualifiedName key = [] then .ok ()
  else .error (location ++ " " ++ goQuote key ++ " is not a valid Kubernetes label key: "
    ++ String.intercalate "; " (grammar.isQualifiedName key))

/-- `TopologyLabelKeys`: the fabric keys by tier, closest first; without any the defaults are
used. -/
structure TopologyLabelKeys where
  fabric : List String
  xclrDomain : String
  xclrSubDomain : String
  deriving DecidableEq, Repr

/-- `NewTopologyLabelKeys`. -/
def newTopologyLabelKeys (fabric : List String) (xclrDomain : String) : TopologyLabelKeys where
  fabric := fabric
  xclrDomain := if xclrDomain = "" then keyTopologyXclrDomain else xclrDomain
  xclrSubDomain := keyTopologyXclrSubDomain

namespace TopologyLabelKeys

variable (keys : TopologyLabelKeys)

/-- The configured keys with their locations, in the order of the check. -/
def locations : List (String × String) :=
  (keys.fabric.mapIdx fun tier key => ("fabricLabels[" ++ toString tier ++ "]", key)) ++
    [("acceleratorLabel", keys.xclrDomain), ("xclrSubDomainLabel", keys.xclrSubDomain)]

/-- One turn of `Validate`: a key has to be valid and new. -/
def validateKey (grammar : LabelGrammar) (seen : GoMap String String) (loc : String × String) :
    Except String (GoMap String String) :=
  match validateLabelKey grammar loc.1 loc.2 with
  | .error err => .error err
  | .ok () =>
    match seen.lookup loc.2 with
    | some previous =>
      .error ("topology label key " ++ goQuote loc.2 ++ " is configured for both " ++ previous ++
        " and " ++ loc.1)
    | none => .ok (seen.insert loc.2 loc.1)

/-- `Validate`. -/
def validate (grammar : LabelGrammar) : Except String Unit :=
  (keys.locations.foldlM (validateKey grammar) ∅).map fun _ => ()

/-- `FabricKey`: the key of a tier; a tier without a key is left out. -/
def fabricKey (tier : Nat) : String :=
  if keys.fabric = [] then fabricTierKey tier else (keys.fabric[tier]?).getD ""

/-- All configured keys. -/
def configured : List String := keys.fabric ++ [keys.xclrDomain, keys.xclrSubDomain]

/-- Every configured key has a location. -/
theorem map_snd_locations : keys.locations.map (·.2) = keys.configured := by
  have hfabric : ∀ (l : List String), (l.mapIdx fun tier key =>
      ("fabricLabels[" ++ toString tier ++ "]", key)).map
      (·.2) = l := by
    intro l
    apply List.ext_getElem?
    intro i
    simp
  rw [locations, List.map_append, hfabric]
  rfl

/-- The loop of `Validate` accepts keys that are valid and new. -/
theorem foldlM_validateKey_iff (grammar : LabelGrammar) (locs : List (String × String))
    (seen : GoMap String String) :
    (∃ seen', locs.foldlM (validateKey grammar) seen = .ok seen') ↔
      (∀ loc ∈ locs, grammar.isQualifiedName loc.2 = []) ∧ (locs.map (·.2)).Nodup ∧
        ∀ loc ∈ locs, seen.lookup loc.2 = none := by
  induction locs generalizing seen with
  | nil =>
    constructor
    · exact fun _ => ⟨by simp, List.nodup_nil, by simp⟩
    · exact fun _ => ⟨seen, rfl⟩
  | cons loc locs ih =>
    rw [List.foldlM_cons, List.forall_mem_cons, List.forall_mem_cons, List.map_cons,
      List.nodup_cons]
    by_cases hq : grammar.isQualifiedName loc.2 = []
    · cases hseen : seen.lookup loc.2 with
      | some previous =>
        constructor
        · rintro ⟨seen', h⟩
          rw [validateKey, validateLabelKey, if_pos hq] at h
          simp only [hseen] at h
          exact absurd h (by simp [bind, Except.bind])
        · rintro ⟨-, -, habs, -⟩
          exact absurd habs (by simp)
      | none =>
        have hstep : validateKey grammar seen loc = .ok (seen.insert loc.2 loc.1) := by
          rw [validateKey, validateLabelKey, if_pos hq]
          simp only [hseen]
        rw [hstep]
        refine (ih (seen.insert loc.2 loc.1)).trans ?_
        -- The keys behind must differ from this one and from those seen before.
        have hlook : (∀ l ∈ locs, (seen.insert loc.2 loc.1).lookup l.2 = none) ↔
            loc.2 ∉ locs.map (·.2) ∧ ∀ l ∈ locs, seen.lookup l.2 = none := by
          constructor
          · intro h
            refine ⟨fun hmem => ?_, fun l hl => ?_⟩
            · obtain ⟨l, hl, heq⟩ := List.mem_map.mp hmem
              have := h l hl
              rw [heq, AList.lookup_insert] at this
              exact absurd this (by simp)
            · have := h l hl
              rw [GoMap.lookup_insert_eq_ite] at this
              split_ifs at this
              exact this
          · rintro ⟨hnot, hnone⟩ l hl
            rw [GoMap.lookup_insert_eq_ite, if_neg, hnone l hl]
            exact fun heq => hnot (heq ▸ List.mem_map_of_mem hl)
        rw [hlook]
        tauto
    · constructor
      · rintro ⟨seen', h⟩
        rw [validateKey, validateLabelKey, if_neg hq] at h
        exact absurd h (by simp [bind, Except.bind])
      · rintro ⟨⟨habs, -⟩, -⟩
        exact absurd habs hq

/-- **`Validate`** accepts valid keys, each configured once. -/
theorem validate_eq_ok_iff (grammar : LabelGrammar) :
    keys.validate grammar = .ok () ↔
      (∀ key ∈ keys.configured, grammar.isQualifiedName key = []) ∧ keys.configured.Nodup := by
  have hiff := foldlM_validateKey_iff grammar keys.locations ∅
  rw [map_snd_locations] at hiff
  have hmap : keys.validate grammar = .ok () ↔
      ∃ seen', keys.locations.foldlM (validateKey grammar) ∅ = .ok seen' := by
    rw [validate]
    cases keys.locations.foldlM (validateKey grammar) ∅ with
    | error err => simp [Except.map]
    | ok seen' => simp [Except.map]
  rw [hmap, hiff]
  constructor
  · rintro ⟨hq, hnodup, -⟩
    refine ⟨fun key hkey => ?_, hnodup⟩
    rw [← map_snd_locations] at hkey
    obtain ⟨loc, hloc, rfl⟩ := List.mem_map.mp hkey
    exact hq loc hloc
  · rintro ⟨hq, hnodup⟩
    refine ⟨fun loc hloc => hq _ ?_, hnodup, by simp⟩
    rw [← map_snd_locations]
    exact List.mem_map_of_mem hloc

/-- Accepted keys are not empty. -/
theorem ne_empty_of_mem {grammar : LabelGrammar} {keys : TopologyLabelKeys}
    (h : keys.validate grammar = .ok ()) {key : String} (hkey : key ∈ keys.configured) :
    key ≠ "" := by
  rintro rfl
  exact grammar.nonempty (((keys.validate_eq_ok_iff grammar).mp h).1 "" hkey)

end TopologyLabelKeys

/-! ## Parameters -/

/-- The decoded engine parameters. -/
structure Params where
  nodeSelector : GoMap String String
  fabricLabels : List String
  acceleratorLabel : String
  acceleratorDomainSourceLabel : String

/-- `getParameters`: the label keys of accepted parameters. -/
def getParameters (grammar : LabelGrammar) (p : Params) : Except String TopologyLabelKeys :=
  if p.acceleratorLabel ≠ "" ∧ p.acceleratorDomainSourceLabel ≠ "" then
    .error
      "engine parameters acceleratorLabel and acceleratorDomainSourceLabel cannot be set together"
  else
    match
      if p.acceleratorDomainSourceLabel ≠ "" then
        validateLabelKey grammar "acceleratorDomainSourceLabel" p.acceleratorDomainSourceLabel
      else .ok ()
    with
    | .error err => .error err
    | .ok () =>
      match (newTopologyLabelKeys p.fabricLabels p.acceleratorLabel).validate grammar with
      | .error err => .error err
      | .ok () => .ok (newTopologyLabelKeys p.fabricLabels p.acceleratorLabel)

/-- Accepted parameters give the label keys, and these are valid. -/
theorem getParameters_eq_ok {grammar : LabelGrammar} {p : Params} {keys : TopologyLabelKeys}
    (h : getParameters grammar p = .ok keys) :
    keys = newTopologyLabelKeys p.fabricLabels p.acceleratorLabel ∧
    keys.validate grammar = .ok () := by
  rw [getParameters] at h
  split_ifs at h
  · split at h
    · exact absurd h (by simp)
    · split at h
      · exact absurd h (by simp)
      · rename_i hvalid
        obtain rfl := Except.ok.inj h
        exact ⟨rfl, hvalid⟩
  · split at h
    · exact absurd h (by simp)
    · split at h
      · exact absurd h (by simp)
      · rename_i hvalid
        obtain rfl := Except.ok.inj h
        exact ⟨rfl, hvalid⟩

end Topograph.K8s
