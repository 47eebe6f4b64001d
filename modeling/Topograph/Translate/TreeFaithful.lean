import Topograph.Topology.TreeShape
import Topograph.Translate.TreePaths

/-! # The file of a built graph

`ToGraph` puts every vertex below its own ID (`keyed_toGraph`), so the lines of its graph are those
of the vertices of the tree. The root has no line, and a switch with both nodes and sub-switches has
two. `toTreeTopology_faithful_iff` says when the file still names every requested node and every
switch once. -/

namespace Topograph.Translate

open Topograph.Topology

/-- One element counts in a list of lists if one list has one and the others have none. -/
theorem countP_flatMap_eq_one {α β : Type} {p : β → Bool} {f : α → List β} {l : List α}
    (hl : l.Nodup) :
    (l.flatMap f).countP p = 1 ↔
      ∃ v ∈ l, (f v).countP p = 1 ∧ ∀ w ∈ l, w ≠ v → (f w).countP p = 0 := by
  induction l with
  | nil => simp
  | cons x l ih =>
    obtain ⟨hx, hl⟩ := List.nodup_cons.mp hl
    have hzero : (l.flatMap f).countP p = 0 ↔ ∀ w ∈ l, (f w).countP p = 0 := by
      simp only [List.countP_eq_zero, List.mem_flatMap]
      grind
    rw [List.flatMap_cons, List.countP_append]
    constructor
    · intro h
      rcases Nat.add_eq_one_iff.mp h with ⟨h0, h1⟩ | ⟨h1, h0⟩
      · obtain ⟨v, hv, hone, hrest⟩ := (ih hl).mp h1
        exact ⟨v, List.mem_cons_of_mem x hv, hone, List.forall_mem_cons.mpr ⟨fun _ => h0, hrest⟩⟩
      · exact ⟨x, List.mem_cons_self, h1,
          List.forall_mem_cons.mpr ⟨fun h => absurd rfl h, fun w hw _ => hzero.mp h0 w hw⟩⟩
    · rintro ⟨v, hv, hone, hrest⟩
      obtain ⟨hhead, htail⟩ := List.forall_mem_cons.mp hrest
      rcases List.mem_cons.mp hv with rfl | hv
      · rw [hone, hzero.mpr fun w hw => htail w hw fun heq => hx (heq ▸ hw)]
      · rw [hhead fun heq => hx (heq ▸ hv), (ih hl).mpr ⟨v, hv, hone, htail⟩]

/-! ## Faithful files -/

section Defs

variable {ρ : Type} (heap : ρ → Vertex (Option ρ)) (root : ρ) (names : List String)

/-- A switch of the graph: a vertex below the root that has children. -/
def IsSwitch (v : ρ) : Prop := v ≠ root ∧ AtOrUnder heap root v ∧ ¬ IsLeaf heap v

/-- The vertex has a node of the name. -/
def HasNode (v : ρ) (n : String) : Prop := ∃ w ∈ childList heap v, IsLeaf heap w ∧ (heap w).name = n

/-- The vertex does not have both nodes and sub-switches. -/
def Unmixed (v : ρ) : Prop :=
  ∀ w ∈ childList heap v, ∀ w' ∈ childList heap v, IsLeaf heap w → IsLeaf heap w'

/-- **A faithful file**: every node is listed in one line, every switch is declared in one, and
every listed sub-switch is declared. -/
structure FaithfulLines (lines : List SwitchLine) : Prop where
  nodes : ∀ n ∈ names, lines.countP (fun line => n ∈ line.nodes) = 1
  switches : ∀ v, IsSwitch heap root v →
    lines.countP (fun line => line.switchName = displayName (heap v)) = 1
  declared : ∀ line ∈ lines, ∀ s ∈ line.switches, ∃ line' ∈ lines, line'.switchName = s

/-- Every node hangs below one switch, no switch has both nodes and sub-switches, and no two have
the same name. -/
structure Printable : Prop where
  nodes : ∀ n ∈ names, ∃! v, IsSwitch heap root v ∧ HasNode heap v n
  unmixed : ∀ v, IsSwitch heap root v → Unmixed heap v
  apart : ∀ v w, IsSwitch heap root v → IsSwitch heap root w →
    displayName (heap v) = displayName (heap w) → v = w

end Defs

section Lines

variable {ρ : Type} {heap : ρ → Vertex (Option ρ)} {v : ρ}

/-- The nodes on the line of a switch are its leaves. -/
theorem mem_childNodes {n : String} : n ∈ childNodes heap (heap v) ↔ HasNode heap v n := by
  simp [HasNode, childNodes, childList, IsLeaf]

/-- A line without switches: all children are leaves. -/
theorem childSwitches_eq_nil_iff :
    childSwitches heap (heap v) = [] ↔ ∀ w ∈ childList heap v, IsLeaf heap w := by
  simp only [childSwitches, childList, IsLeaf, List.filterMap_eq_nil_iff, ite_eq_left_iff,
    reduceCtorEq, imp_false, not_not]

theorem childNodes_eq_nil_iff :
    childNodes heap (heap v) = [] ↔ ∀ w ∈ childList heap v, ¬ IsLeaf heap w := by
  simp only [childNodes, childList, IsLeaf, List.filterMap_eq_nil_iff, ite_eq_right_iff,
    reduceCtorEq, imp_false]

/-- A node is listed in one of the lines of a vertex. -/
theorem countP_nodes_writeVertex (v : Vertex (Option ρ)) (n : String) :
    (writeVertex heap false v).countP (fun line => n ∈ line.nodes) =
      if v.id ≠ "" ∧ n ∈ childNodes heap v then 1 else 0 := by
  by_cases hid : v.id = ""
  · simp [writeVertex, hid]
  · by_cases hs : childSwitches heap v = [] <;> by_cases hn : childNodes heap v = [] <;>
      simp [writeVertex, hid, hs, hn, List.countP_cons]

/-- A vertex is declared once for its sub-switches and once for its nodes. -/
theorem countP_switchName_writeVertex (v : Vertex (Option ρ)) (s : String) :
    (writeVertex heap false v).countP (fun line => line.switchName = s) =
      if v.id ≠ "" ∧ displayName v = s then
        (if childSwitches heap v = [] then 0 else 1) + if childNodes heap v = [] then 0 else 1
      else 0 := by
  by_cases hid : v.id = ""
  · simp [writeVertex, hid]
  · by_cases hs : childSwitches heap v = [] <;> by_cases hn : childNodes heap v = [] <;>
      by_cases hname : displayName v = s <;> simp [writeVertex, hid, hs, hn, hname]

theorem not_isLeaf {w : ρ} (hw : w ∈ childList heap v) : ¬ IsLeaf heap v := by
  obtain ⟨e, he, -⟩ := List.mem_filterMap.mp hw
  exact List.ne_nil_of_mem he

end Lines

section Tree

variable {ρ : Type} {g : Graph ρ} {root : ρ} {l : List ρ} (ht : IsTree g.heap root l)
  (hroot : (g.heap root).id = "")

include ht hroot

/-- The switches of a tree. -/
theorem isSwitch_iff {v : ρ} :
    IsSwitch g.heap root v ↔ v ∈ l ∧ (g.heap v).id ≠ "" ∧ ¬ IsLeaf g.heap v := by
  constructor
  · rintro ⟨hne, hunder, hleaf⟩
    have hv := hunder.mem ht ht.root_mem
    exact ⟨hv, id_ne_empty ht hroot hv hne, hleaf⟩
  · rintro ⟨hv, hid, hleaf⟩
    exact ⟨fun heq => hid (heq ▸ hroot), exists_under_root ht hv, hleaf⟩

omit hroot in
/-- A vertex that is no node has a child. -/
theorem exists_child {v : ρ} (hv : v ∈ l) (hleaf : ¬ IsLeaf g.heap v) :
    ∃ w, w ∈ childList g.heap v := by
  obtain ⟨e, he⟩ := List.exists_mem_of_ne_nil _ hleaf
  obtain ⟨w, hw⟩ := ht.noNil v hv e he
  exact ⟨w, List.mem_filterMap.mpr ⟨e, he, hw⟩⟩

/-- The lines that declare a vertex: none unless it is a switch of the name, and one unless it is
mixed. -/
theorem countP_switchName_cases {v : ρ} (hv : v ∈ l) (s : String) :
    ((writeVertex g.heap false (g.heap v)).countP (fun line => line.switchName = s) = 0 ↔
      ¬ (IsSwitch g.heap root v ∧ displayName (g.heap v) = s)) ∧
    ((writeVertex g.heap false (g.heap v)).countP (fun line => line.switchName = s) = 1 ↔
      (IsSwitch g.heap root v ∧ displayName (g.heap v) = s) ∧ Unmixed g.heap v) := by
  simp only [isSwitch_iff ht hroot, countP_switchName_writeVertex, childSwitches_eq_nil_iff,
    childNodes_eq_nil_iff, Unmixed]
  by_cases hleaf : IsLeaf g.heap v
  · have hnone : ∀ w, w ∉ childList g.heap v := fun w hw => not_isLeaf hw hleaf
    simp [hnone, hleaf]
  · obtain ⟨w, hw⟩ := exists_child ht hv hleaf
    by_cases hw' : IsLeaf g.heap w
    · grind
    · grind

variable {lines : List SwitchLine}
  (hlines : lines.Perm (l.flatMap fun v => writeVertex g.heap false (g.heap v)))

include hlines

/-- A node is listed once if it hangs below one switch. -/
theorem countP_nodes_iff (n : String) : lines.countP (fun line => n ∈ line.nodes) = 1 ↔
    ∃! v, IsSwitch g.heap root v ∧ HasNode g.heap v n := by
  have hwritten : ∀ v, (IsSwitch g.heap root v ∧ HasNode g.heap v n) ↔
      v ∈ l ∧ (g.heap v).id ≠ "" ∧ n ∈ childNodes g.heap (g.heap v) := by
    intro v
    rw [isSwitch_iff ht hroot, mem_childNodes]
    constructor
    · rintro ⟨⟨hv, hid, -⟩, hn⟩
      exact ⟨hv, hid, hn⟩
    · rintro ⟨hv, hid, w, hw, hn⟩
      exact ⟨⟨hv, hid, not_isLeaf hw⟩, w, hw, hn⟩
  rw [hlines.countP_eq, countP_flatMap_eq_one ht.nodup_list]
  simp only [hwritten, countP_nodes_writeVertex]
  grind [ExistsUnique]

/-- Switches are declared once if none is mixed and their names are distinct. -/
theorem countP_switchName_iff :
    (∀ v, IsSwitch g.heap root v →
      lines.countP (fun line => line.switchName = displayName (g.heap v)) = 1) ↔
    (∀ v, IsSwitch g.heap root v → Unmixed g.heap v) ∧
      ∀ v w, IsSwitch g.heap root v → IsSwitch g.heap root w →
        displayName (g.heap v) = displayName (g.heap w) → v = w := by
  simp only [hlines.countP_eq, countP_flatMap_eq_one ht.nodup_list]
  have hmem {v : ρ} (hv : IsSwitch g.heap root v) : v ∈ l := ((isSwitch_iff ht hroot).mp hv).1
  constructor
  · intro h
    -- The vertex that is declared once is the only switch of the name.
    have honly : ∀ v, IsSwitch g.heap root v → ∃ u, Unmixed g.heap u ∧
        ∀ w, IsSwitch g.heap root w → displayName (g.heap w) = displayName (g.heap v) → w = u := by
      intro v hv
      obtain ⟨u, hu, hone, hrest⟩ := h v hv
      refine ⟨u, ((countP_switchName_cases ht hroot hu _).2.mp hone).2, fun w hw hname => ?_⟩
      by_contra hne
      exact (countP_switchName_cases ht hroot (hmem hw) _).1.mp (hrest w (hmem hw) hne) ⟨hw, hname⟩
    constructor
    · intro v hv
      obtain ⟨u, hunmixed, hu⟩ := honly v hv
      rwa [hu v hv rfl]
    · intro v w hv hw hname
      obtain ⟨u, -, hu⟩ := honly v hv
      rw [hu v hv rfl, hu w hw hname.symm]
  · rintro ⟨hunmixed, hapart⟩ v hv
    have hone := (countP_switchName_cases ht hroot (hmem hv) _).2.mpr ⟨⟨hv, rfl⟩, hunmixed v hv⟩
    refine ⟨v, hmem hv, hone, fun w hw hne => ?_⟩
    exact (countP_switchName_cases ht hroot hw _).1.mpr fun ⟨hsw, hname⟩ =>
      hne (hapart w v hsw hv hname)

/-- Listed sub-switches are declared. -/
theorem declared {line : SwitchLine} (hline : line ∈ lines) {s : String} (hs : s ∈ line.switches) :
    ∃ line' ∈ lines, line'.switchName = s := by
  obtain ⟨v, hv, hline⟩ := List.mem_flatMap.mp (hlines.mem_iff.mp hline)
  obtain ⟨w, hw, hleaf, rfl⟩ :
      ∃ w ∈ childList g.heap v, ¬ IsLeaf g.heap w ∧ displayName (g.heap w) = s := by
    obtain ⟨-, -, -, ⟨hswitches, -⟩ | ⟨hswitches, -⟩⟩ := mem_writeVertex_iff.mp hline
    · rw [hswitches] at hs
      grind [childSwitches, childList, IsLeaf]
    · exact absurd (hswitches ▸ hs) List.not_mem_nil
  have hwl := ht.child_mem hv hw
  have hid := id_ne_empty ht hroot hwl fun heq => ht.root_not_child hv (heq ▸ hw)
  -- The sub-switch is no node, so it has a line of its own.
  have hdeclared : 0 < (writeVertex g.heap false (g.heap w)).countP
      (fun line => line.switchName = displayName (g.heap w)) := by
    refine Nat.pos_of_ne_zero fun hzero => ?_
    exact (countP_switchName_cases ht hroot hwl _).1.mp hzero
      ⟨(isSwitch_iff ht hroot).mpr ⟨hwl, hid, hleaf⟩, rfl⟩
  obtain ⟨line', hline', hname⟩ := List.countP_pos_iff.mp hdeclared
  exact ⟨line', hlines.mem_iff.mpr (List.mem_flatMap.mpr ⟨w, hwl, hline'⟩),
    of_decide_eq_true hname⟩

end Tree

/-- Three instances below `core`, the second through the given tiers. -/
def belowCore (tiers : List FabricTier) : ClusterTopology :=
  [⟨"i1", [⟨"a", ""⟩, ⟨"core", ""⟩], "", ""⟩, ⟨"i2", tiers, "", ""⟩,
    ⟨"i3", [⟨"a", ""⟩, ⟨"core", ""⟩], "", ""⟩]

/-- The vertices at or below a vertex of a closed list are in the list. -/
theorem AtOrUnder.mem_of_closed {ρ : Type} {heap : ρ → Vertex (Option ρ)} {vs : List ρ} {v u : ρ}
    (hv : v ∈ vs) (hclosed : ∀ x ∈ vs, ∀ w ∈ childList heap x, w ∈ vs) (h : AtOrUnder heap v u) :
    u ∈ vs := by
  induction h with
  | refl => exact hv
  | tail _ hw ih => exact hclosed _ ih _ hw

end Topograph.Translate
