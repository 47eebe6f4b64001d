import Topograph.Topology.Graph

/-! # Configurations (`pkg/translate/topology.go`)

The input of the translation is a graph and a configuration. Regular expressions
come from a package outside the repository and enter as a parameter (`RegexpPackage`). -/

namespace Topograph.Translate

open Topograph.Topology

/-- What is used of the package `regexp`: a compiled expression knows its text, finds its leftmost
match in a text and expands a format with the groups of a match. -/
structure RegexpPackage where
  Regexp : Type
  Match : Type
  compile : String → Except String Regexp
  string : Regexp → String
  findStringSubmatchIndex : Regexp → String → Option Match
  expandString : Regexp → String → String → Match → String

/-- Regular expressions that match nothing. -/
def noRegexp : RegexpPackage where
  Regexp := String
  Match := Unit
  compile := .ok
  string := id
  findStringSubmatchIndex _ _ := none
  expandString _ _ _ _ := ""

/-- The plugin names. -/
def topologyTree : String := "topology/tree"
def topologyBlock : String := "topology/block"
def topologyFlat : String := "topology/flat"

/-- The verb `%q`. -/
def goQuote (s : String) : String := s.quote

section Config

variable (pkg : RegexpPackage)

/-- `BlockNameConfig`; validation stores the compiled expression. -/
structure BlockNameConfig where
  nodeNameRegexp : String
  format : String
  compiledRegexp : Option pkg.Regexp

/-- `TopologySpec`: the topology of one partition. -/
structure TopologySpec where
  plugin : String
  blockSizes : List Nat
  blockName : Option (BlockNameConfig pkg)
  clusterDefault : Bool
  nodes : List String

/-- `Config`. -/
structure Config where
  plugin : String
  blockSizes : List Nat
  blockName : Option (BlockNameConfig pkg)
  topologies : GoMap String (TopologySpec pkg)

end Config

variable {pkg : RegexpPackage} {ρ : Type}

/-- `ValidateBlockNameConfig`: the configuration with its compiled expression. -/
def validateBlockNameConfig :
    Option (BlockNameConfig pkg) → Except String (Option (BlockNameConfig pkg))
  | none => .ok none
  | some config =>
    if config.nodeNameRegexp = "" then .error "blockName.nodeNameRegexp must not be empty"
    else if config.format = "" then .error "blockName.format must not be empty"
    else if config.compiledRegexp.map pkg.string = some config.nodeNameRegexp then .ok (some config)
    else
      match pkg.compile config.nodeNameRegexp with
      | .error err =>
        .error ("invalid blockName.nodeNameRegexp " ++ goQuote config.nodeNameRegexp ++ ": " ++ err)
      | .ok compiled => .ok (some { config with compiledRegexp := some compiled })

/-- The checks of `Validate` on one partition topology. -/
def validateTopology (graph : Option (Graph ρ)) (topo : String) (spec : TopologySpec pkg) :
    Except String (TopologySpec pkg) := do
  if spec.blockName.isSome ∧ spec.plugin ≠ topologyBlock then
    throw ("topology " ++ goQuote topo ++ ": blockName is only supported with plugin "
      ++ goQuote topologyBlock)
  let blockName ← match validateBlockNameConfig spec.blockName with
    | .ok blockName => pure blockName
    | .error err => throw ("topology " ++ goQuote topo ++ ": " ++ err)
  if spec.plugin = topologyTree then
    if (graph.bind (·.tiers)).isNone then
      throw ("missing tree topology for topology " ++ goQuote topo)
  else if spec.plugin = topologyBlock then
    match graph.bind (·.domains) with
    | none => throw ("missing block topology for topology " ++ goQuote topo)
    | some domains =>
      if domains.hosts.entries = [] then
        throw ("block topology for topology " ++ goQuote topo ++ " contains no accelerator domains")
  else if spec.plugin ≠ topologyFlat then
    throw ("unsupported topology plugin " ++ goQuote spec.plugin ++
      " for topology " ++ goQuote topo)
  if spec.nodes = [] ∧ spec.plugin ≠ topologyFlat then
    throw ("topology " ++ goQuote topo ++ " specifies no nodes")
  return { spec with blockName := blockName }

/-- The loop of `Validate` over the partition topologies. -/
def validateTopologies (graph : Option (Graph ρ)) :
    List (Σ _ : String, TopologySpec pkg) → GoMap String (TopologySpec pkg) →
      Except String (GoMap String (TopologySpec pkg))
  | [], validated => .ok validated
  | ⟨topo, spec⟩ :: rest, validated =>
    match validateTopology graph topo spec with
    | .error err => .error err
    | .ok spec' => validateTopologies graph rest (validated.insert topo spec')

/-- `Validate`: the configuration with its compiled expressions. -/
def Config.validate (cfg : Config pkg) (graph : Option (Graph ρ)) : Except String (Config pkg) := do
  if cfg.blockName.isSome ∧ cfg.plugin ≠ topologyBlock then
    throw ("blockName is only supported with plugin " ++ goQuote topologyBlock)
  let blockName ← validateBlockNameConfig cfg.blockName
  if cfg.topologies.entries ≠ [] then
    if cfg.plugin ≠ "" then throw "plugin and topologies parameters are mutually exclusive"
    let topologies ← validateTopologies graph cfg.topologies.entries cfg.topologies
    return { cfg with blockName := blockName, topologies := topologies }
  else if cfg.plugin = topologyTree then
    if (graph.bind (·.tiers)).isNone then throw "missing tree topology"
    return { cfg with blockName := blockName }
  else if cfg.plugin = topologyBlock then
    match graph.bind (·.domains) with
    | none => throw "missing block topology"
    | some domains =>
      if domains.hosts.entries = [] then throw "block topology contains no accelerator domains"
      return { cfg with blockName := blockName }
  else throw ("unsupported topology plugin " ++ goQuote cfg.plugin)

variable {graph : Option (Graph ρ)} {cfg config : Config pkg}

/-- **What `Validate` accepts**: partition topologies without a plugin, or one of the two plugins
with what it needs of the graph. -/
theorem Config.validate_eq_ok (h : cfg.validate graph = .ok config) :
    ∃ blockName topologies, config = { cfg with blockName := blockName, topologies := topologies } ∧
      validateBlockNameConfig cfg.blockName = .ok blockName ∧
      ((cfg.topologies.entries ≠ [] ∧ cfg.plugin = "" ∧
          validateTopologies graph cfg.topologies.entries cfg.topologies = .ok topologies) ∨
        (cfg.topologies.entries = [] ∧ topologies = cfg.topologies ∧
          (cfg.plugin = topologyTree ∧ (graph.bind (·.tiers)).isSome ∨
            cfg.plugin = topologyBlock ∧
              ∃ domains, graph.bind (·.domains) = some domains ∧ domains.hosts.entries ≠ []))) := by
  unfold Config.validate at h
  simp only [bind, Except.bind, throw, throwThe, MonadExceptOf.throw, pure, Except.pure] at h
  split at h
  · exact absurd h (by simp)
  · split at h
    · exact absurd h (by simp)
    · rename_i blockName hblockName
      split_ifs at h with htop hplugin htree htiers hblock
      · -- Partition topologies.
        split at h
        · exact absurd h (by simp)
        · rename_i topologies hvalid
          exact ⟨blockName, topologies, (Except.ok.inj h).symm, hblockName,
            Or.inl ⟨htop, not_not.mp hplugin, hvalid⟩⟩
      · have hsome : (graph.bind (·.tiers)).isSome :=
          Option.isSome_iff_ne_none.mpr fun hnone => htiers (by rw [hnone, Option.isNone_none])
        exact ⟨blockName, cfg.topologies, (Except.ok.inj h).symm, hblockName,
          Or.inr ⟨not_not.mp htop, rfl, Or.inl ⟨htree, hsome⟩⟩⟩
      · split at h
        · exact absurd h (by simp)
        · rename_i domains hdomains
          split_ifs at h with hempty
          exact ⟨blockName, cfg.topologies, (Except.ok.inj h).symm, hblockName,
            Or.inr ⟨not_not.mp htop, rfl, Or.inr ⟨hblock, domains, hdomains, hempty⟩⟩⟩

end Topograph.Translate
