import Topograph.Topology.Vertex
import Topograph.Topology.Domain

/-! # Graphs (`pkg/topology/topology.go`)

The result of a provider and the input of the translation: the tier vertices in a heap, and the
accelerator domains. -/

namespace Topograph.Topology

/-- `Graph`: the tier vertices by pointer, the root of the switch hierarchy and the accelerator
domains. A child pointer may be nil. -/
structure Graph (ρ : Type) where
  heap : ρ → Vertex (Option ρ)
  tiers : Option ρ
  domains : Option DomainMap

/-- The graph is keyed as every producer builds it: the root has no ID, and a child stands under its
own. -/
structure Graph.Keyed {ρ : Type} (g : Graph ρ) : Prop where
  root : ∀ r, g.tiers = some r → (g.heap r).id = ""
  child : ∀ v key w, (g.heap v).vertices.lookup key = some (some w) → (g.heap w).id = key

/-- A way down from the root to a vertex, with the keys of the children on it. -/
inductive Graph.Walk {ρ : Type} (g : Graph ρ) : List String → ρ → Prop where
  | nil {r : ρ} (h : g.tiers = some r) : g.Walk [] r
  | snoc {keys : List String} {v w : ρ} {key : String} (hv : g.Walk keys v)
      (hw : (g.heap v).vertices.lookup key = some (some w)) : g.Walk (keys ++ [key]) w

/-- The vertex at the end of a way down. -/
def Graph.follow {ρ : Type} (g : Graph ρ) (keys : List String) : Option ρ :=
  g.tiers.bind (keys.foldlM fun v key => ((g.heap v).vertices.lookup key).join)

theorem Graph.follow_append_singleton {ρ : Type} (g : Graph ρ) (keys : List String) (key : String) :
    g.follow (keys ++ [key]) = (g.follow keys).bind fun v =>
      ((g.heap v).vertices.lookup key).join := by
  rw [Graph.follow, Graph.follow, Option.bind_assoc]
  congr 1
  funext r
  rw [List.foldlM_append]
  simp

theorem Graph.Walk.follow {ρ : Type} {g : Graph ρ} {keys : List String} {r : ρ}
    (h : g.Walk keys r) : g.follow keys = some r := by
  induction h with
  | nil hroot => rw [Graph.follow, hroot]; rfl
  | snoc _ hw ih => rw [Graph.follow_append_singleton, ih, Option.bind_some, hw]; rfl

/-- Below the root, a vertex with the ID and name stands at the end of a path and no vertex with the
ID anywhere else. -/
structure Graph.PlacedOnce {ρ : Type} (g : Graph ρ) (id name : String) (path : List String) :
    Prop where
  there : ∃ r, g.Walk (path ++ [id]) r ∧ (g.heap r).id = id ∧ (g.heap r).name = name
  once : ∀ keys r, keys ≠ [] → g.Walk keys r → (g.heap r).id = id → keys = path ++ [id]

/-- The switch of tier `i` above the vertex with an ID: it stands `i + 1` steps above it. -/
def Graph.TierSwitch {ρ : Type} (g : Graph ρ) (id : String) (i : Nat) (sw : ρ) : Prop :=
  ∃ keys v, g.Walk keys v ∧ (g.heap v).id = id ∧ i + 1 < keys.length ∧
    g.Walk (keys.take (keys.length - (i + 1))) sw

/-- The start of a walk is a walk. -/
theorem Graph.Walk.take {ρ : Type} {g : Graph ρ} {keys : List String} {v : ρ} (h : g.Walk keys v)
    (n : Nat) : ∃ w, g.Walk (keys.take n) w := by
  induction h with
  | nil hroot => exact ⟨_, by rw [List.take_nil]; exact .nil hroot⟩
  | @snoc keys v w key hv hw ih =>
    by_cases hn : n ≤ keys.length
    · rwa [List.take_append_of_le_length hn]
    · rw [List.take_of_length_le (by simp; omega)]
      exact ⟨w, .snoc hv hw⟩

/-- The ways down from the root form a finite tree: no child is nil, a child stands under its ID,
and there is one way to every ID. -/
structure Graph.TreeShaped {ρ : Type} (g : Graph ρ) : Prop where
  noNil : ∀ keys v key, g.Walk keys v → (g.heap v).vertices.lookup key ≠ some none
  keyed : ∀ keys v key w, g.Walk keys v → (g.heap v).vertices.lookup key = some (some w) →
    (g.heap w).id = key
  unique : ∀ keys keys' v w, g.Walk keys v → g.Walk keys' w → (g.heap v).id = (g.heap w).id →
    keys = keys'
  finite : ∃ ways : List (List String), ∀ keys v, g.Walk keys v → keys ∈ ways

end Topograph.Topology
