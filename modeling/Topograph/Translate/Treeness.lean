import Topograph.Translate.Acceptance

/-! # `initTree` decides treeness

On a finite graph whose children stand under their IDs, `initTree` ends, and it succeeds exactly on
trees: no child is nil, there is one way to every vertex, and different vertices have different IDs
(`initTree_decides`). A vertex with an empty ID cuts the switches recorded below it: they start
afresh there. Producers leave only the root without an ID, and then the switches are the whole way
down. -/

namespace Topograph.Topology

variable {ρ : Type}

/-- A tree: no reachable child is nil, and every reachable vertex is reached in one way, with an ID
of its own. -/
structure Graph.OneWay (g : Graph ρ) : Prop where
  noNil : ∀ keys v key, g.Walk keys v → (g.heap v).vertices.lookup key ≠ some none
  once : ∀ keys keys' v, g.Walk keys v → g.Walk keys' v → keys = keys'
  distinct : ∀ keys keys' v w, g.Walk keys v → g.Walk keys' w → (g.heap v).id = (g.heap w).id →
    v = w

/-- The IDs of the vertices above the end of a way down, the root first. -/
def Graph.ancestors (g : Graph ρ) (keys : List String) : List String :=
  ((g.tiers.map fun r => (g.heap r).id).toList ++ keys).dropLast

/-- Every reachable child stands under its ID. -/
def Graph.ChildKeyed (g : Graph ρ) : Prop :=
  ∀ keys v key w, g.Walk keys v → (g.heap v).vertices.lookup key = some (some w) →
    (g.heap w).id = key

/-- The switches above the end of a longer walk. -/
theorem Graph.ancestors_snoc {g : Graph ρ} (hkeyed : g.ChildKeyed) {keys : List String} {v : ρ}
    (h : g.Walk keys v) (key : String) :
    g.ancestors (keys ++ [key]) = g.ancestors keys ++ [(g.heap v).id] := by
  rw [ancestors, ← List.append_assoc, List.dropLast_concat]
  cases h with
  | nil hroot => simp [ancestors, hroot]
  | snoc hv hw => rw [ancestors, ← List.append_assoc, List.dropLast_concat, hkeyed _ _ _ _ hv hw]

/-- A finite graph with one way to every vertex is tree shaped. -/
theorem Graph.OneWay.treeShaped {g : Graph ρ} (h : g.OneWay) (hkeyed : g.ChildKeyed) {all : List ρ}
    (hall : ∀ keys v, g.Walk keys v → v ∈ all) : g.TreeShaped := by
  classical
  refine ⟨h.noNil, hkeyed, ?_, ?_⟩
  · intro keys keys' v w hv hw hid
    obtain rfl := h.distinct keys keys' v w hv hw hid
    exact h.once keys keys' v hv hw
  · refine ⟨all.map fun v => if hv : ∃ keys, g.Walk keys v then hv.choose else [], ?_⟩
    intro keys v hv
    have hex : ∃ keys, g.Walk keys v := ⟨keys, hv⟩
    refine List.mem_map.mpr ⟨v, hall keys v hv, ?_⟩
    rw [dif_pos hex]
    exact h.once _ _ v hex.choose_spec hv

end Topograph.Topology

namespace Topograph.Translate

open Topograph.Topology

variable {ρ : Type} {g : Graph ρ} {root : ρ}

/-- The switches on a way down: the IDs above its end, from the last empty one on. -/
def switchesAbove (g : Graph ρ) (keys : List String) : List String :=
  (g.ancestors keys).rtakeWhile (· ≠ "")

/-- Without an empty ID below the root, the switches are the ancestors with an ID. -/
theorem switchesAbove_eq_filter {keys : List String} (h : ∀ x ∈ (g.ancestors keys).tail, x ≠ "") :
    switchesAbove g keys = (g.ancestors keys).filter (· ≠ "") := by
  rw [switchesAbove]
  cases hanc : g.ancestors keys with
  | nil => rfl
  | cons x xs =>
    rw [hanc, List.tail_cons] at h
    have hxs : ∀ y ∈ xs.reverse, decide (y ≠ "") = true :=
      fun y hy => decide_eq_true (h y (List.mem_reverse.mp hy))
    have hall : xs.filter (fun y => !decide (y = "")) = xs :=
      List.filter_eq_self.mpr fun y hy => by simpa using h y hy
    rw [List.rtakeWhile, List.reverse_cons, List.takeWhile_append_of_pos hxs, List.reverse_append,
      List.reverse_reverse]
    by_cases hx : x = "" <;> simp [hx, hall]

/-- A way down is a path of `initTree`, with the switches on it. -/
theorem path_of_walk (hroot : g.tiers = some root) (hkeyed : g.ChildKeyed) {keys : List String}
    {v : ρ} (h : g.Walk keys v) : Path g.heap root v (switchesAbove g keys) := by
  induction h with
  | nil hr =>
    obtain rfl := Option.some.inj (hroot.symm.trans hr)
    rw [switchesAbove, Graph.ancestors, hroot]
    exact .root
  | @snoc keys v w key hv hw ih =>
    have hstep := Path.child ih (mem_childList.mpr ⟨key, hw⟩)
    rw [switchesAbove, Graph.ancestors_snoc hkeyed hv, List.rtakeWhile_concat]
    by_cases hid : (g.heap v).id = ""
    · rw [if_pos hid] at hstep
      rwa [if_neg (by simpa using hid)]
    · rw [if_neg hid] at hstep
      rwa [if_pos (by simpa using hid)]

/-- What `initTree` records of a tree. -/
structure TreeRecord (g : Graph ρ) (st : TreeState ρ) : Prop where
  /-- The adjacency map has the reachable vertices, with their children sorted. -/
  tree : ∀ x children, st.tree.lookup x = some children ↔
    ∃ keys v, g.Walk keys v ∧ (g.heap v).id = x ∧
    children = (g.heap v).vertices.keys.insertionSort (· ≤ ·)
  /-- A node with a name of its own has the switches above it. -/
  switches : ∀ keys v, g.Walk keys v → IsLeaf g.heap v →
    (∀ keys' w, g.Walk keys' w → IsLeaf g.heap w → (g.heap w).name = (g.heap v).name → w = v) →
    ∃ info, st.nodeInfo.lookup (g.heap v).name = some info ∧ info.instanceID = (g.heap v).id ∧
    info.switches = switchesAbove g keys ∧
      ((∀ x ∈ (g.ancestors keys).tail, x ≠ "") → info.switches = (g.ancestors keys).filter (· ≠ ""))

section Accepted

variable {l : List ρ} {st : TreeState ρ} (hroot : g.tiers = some root) (hkeyed : g.ChildKeyed)

include hroot hkeyed

theorem IsTree.mem_of_walk (h : IsTree g.heap root l) {keys : List String} {v : ρ}
    (hv : g.Walk keys v) : v ∈ l :=
  h.mem_of_path (path_of_walk hroot hkeyed hv)

/-- **An accepted graph is a tree.** -/
theorem IsTree.oneWay (h : IsTree g.heap root l) : g.OneWay where
  noNil keys v key hv hnil := by
    obtain ⟨w, hw⟩ := h.noNil v (h.mem_of_walk hroot hkeyed hv) _ (GoMap.lookup_eq_some_iff.mp hnil)
    exact absurd hw (by simp)
  once keys keys' v hv hv' := by
    -- By induction on the first way: a vertex has one parent, and its key is its ID.
    induction hv generalizing keys' with
    | nil hr =>
      obtain rfl := Option.some.inj (hroot.symm.trans hr)
      cases hv' with
      | nil => rfl
      | snoc hu hw =>
        exact absurd (mem_childList.mpr ⟨_, hw⟩) (h.root_not_child (h.mem_of_walk hroot hkeyed hu))
    | @snoc keys u w key hu hw ih =>
      cases hv' with
      | nil hr =>
        obtain rfl := Option.some.inj (hroot.symm.trans hr)
        exact absurd (mem_childList.mpr ⟨_, hw⟩) (h.root_not_child (h.mem_of_walk hroot hkeyed hu))
      | @snoc keys' u' _ key' hu' hw' =>
        obtain rfl := h.parent_unique (h.mem_of_walk hroot hkeyed hu)
          (h.mem_of_walk hroot hkeyed hu')
          (mem_childList.mpr ⟨_, hw⟩) (mem_childList.mpr ⟨_, hw'⟩)
        rw [ih _ hu', ← hkeyed _ _ _ _ hu hw, hkeyed _ _ _ _ hu' hw']
  distinct keys keys' v w hv hw hid :=
    h.eq_of_id (h.mem_of_walk hroot hkeyed hv) (h.mem_of_walk hroot hkeyed hw) hid

/-- **What is recorded of an accepted graph.** -/
theorem TreeSpec.treeRecord (h : TreeSpec g.heap root l st) : TreeRecord g st where
  tree x children := by
    rw [h.tree, Option.map_eq_some_iff]
    constructor
    · rintro ⟨v, hv, rfl⟩
      have hmem := List.mem_of_find?_eq_some hv
      obtain ⟨p, hp⟩ := h.path v hmem
      obtain ⟨keys, hkeys⟩ := exists_walk_of_path hroot hp
      exact ⟨keys, v, hkeys, by simpa using List.find?_some hv, rfl⟩
    · rintro ⟨keys, v, hv, rfl, rfl⟩
      exact ⟨v, h.findID_eq_some (h.mem_of_walk hroot hkeyed hv), rfl⟩
  switches keys v hv hleaf hname := by
    have hmem := h.mem_of_walk hroot hkeyed hv
    have hfind : findLeaf g.heap l (g.heap v).name = some v := by
      cases hfind : findLeaf g.heap l (g.heap v).name with
      | none =>
        have := List.find?_eq_none.mp hfind v (List.mem_reverse.mpr hmem)
        simp [hleaf] at this
      | some w =>
        obtain ⟨hw, hwleaf, hwname⟩ := mem_of_findLeaf hfind
        obtain ⟨p, hp⟩ := h.path w hw
        obtain ⟨keys', hkeys'⟩ := exists_walk_of_path hroot hp
        rw [hname keys' w hkeys' hwleaf hwname]
    exact ⟨_, (h.nodeInfo _ _).mpr ⟨v, _, hfind, path_of_walk hroot hkeyed hv, rfl⟩, rfl, rfl,
      switchesAbove_eq_filter⟩

end Accepted

/-- **`initTree` decides treeness.** It ends on every finite graph and succeeds on the trees. -/
theorem initTree_decides (g : Graph ρ) (all : List ρ) (hall : ∀ keys v, g.Walk keys v → v ∈ all)
    (hkeyed : g.ChildKeyed) :
    ∃ r, (∃ fuel, ∀ fuel' ≥ fuel, initTree fuel' (some g) = some r) ∧
    ((∃ st, r = .ok st) ↔ g.OneWay) ∧
      ∀ st, r = .ok st → TreeRecord g st := by
  cases hroot : g.tiers with
  | none =>
    have hwalk : ∀ keys v, ¬ g.Walk keys v := by
      intro keys v hv
      induction hv with
      | nil hr => exact absurd (hroot.symm.trans hr) (by simp)
      | snoc _ _ ih => exact ih
    refine ⟨.ok ⟨∅, ∅, ∅, ∅, [], []⟩, ⟨0, fun fuel _ => by simp only [initTree, hroot]⟩, ?_, ?_⟩
    · exact ⟨fun _ => ⟨fun keys v _ hv => absurd hv (hwalk keys v),
        fun keys _ v hv => absurd hv (hwalk keys v),
        fun keys _ v _ hv => absurd hv (hwalk keys v)⟩, fun _ => ⟨_, rfl⟩⟩
    · rintro st hst
      obtain rfl := Except.ok.inj hst
      refine ⟨fun x children => ⟨fun h => absurd h (by simp), ?_⟩,
        fun keys v hv => absurd hv (hwalk keys v)⟩
      rintro ⟨keys, v, hv, -⟩
      exact absurd hv (hwalk keys v)
  | some root =>
    have hpath : ∀ v p, Path g.heap root v p → v ∈ all := by
      intro v p hp
      obtain ⟨keys, hkeys⟩ := exists_walk_of_path hroot hp
      exact hall keys v hkeys
    obtain ⟨r, hr⟩ := TreeInvariant.start.treeLoop_ends hpath (Nat.lt_succ_self all.length)
    -- One turn for each vertex is enough: the loop stops at the first repeated ID.
    have hmore : ∀ fuel ≥ all.length.succ, treeLoop g.heap fuel (treeStart g.heap root) = some r :=
      fun fuel hfuel => treeLoop_of_le hfuel hr
    cases r with
    | error err =>
      have hinit : ∀ fuel ≥ all.length.succ, initTree fuel (some g) = some (.error err) :=
        fun fuel hfuel => by simp only [initTree, hroot, hmore fuel hfuel]
      refine ⟨.error err, ⟨_, hinit⟩, ?_, by simp⟩
      constructor
      · rintro ⟨st, hst⟩
        exact absurd hst (by simp)
      · intro hone
        exact absurd hr (TreeInvariant.start.treeLoop_ne_error hroot (hone.treeShaped hkeyed hall)
          err)
    | ok st =>
      have hinit : ∀ fuel ≥ all.length.succ, initTree fuel (some g) =
          some (.ok { st with tree := sortTree st.tree }) :=
        fun fuel hfuel => by simp only [initTree, hroot, hmore fuel hfuel]
      obtain ⟨l, hspec⟩ := initTree_spec hroot (hinit _ le_rfl)
      refine ⟨_, ⟨_, hinit⟩, ⟨fun _ => hspec.toIsTree.oneWay hroot hkeyed, fun _ => ⟨_, rfl⟩⟩, ?_⟩
      rintro st' hst'
      obtain rfl := Except.ok.inj hst'
      exact hspec.treeRecord hroot hkeyed

/-- A node below a switch below the root, with the IDs of both. -/
def chainGraph (top switch : String) : Graph (Option Bool) where
  heap
    | none =>
      { name := "", id := top,
        vertices := (∅ : GoMap String (Option (Option Bool))).insert switch (some (some false)) }
    | some false =>
      { name := "", id := switch,
        vertices := (∅ : GoMap String (Option (Option Bool))).insert "i1" (some (some true)) }
    | some true => { name := "n1", id := "i1", vertices := ∅ }
  tiers := some none
  domains := none

theorem chainGraph_childKeyed (top switch : String) : (chainGraph top switch).ChildKeyed := by
  -- The only child of a vertex is the one inserted.
  have hsingle : ∀ {a key : String} {v w : Option Bool},
      ((∅ : GoMap String (Option (Option Bool))).insert a (some v)).lookup key
      = some (some w) → key = a ∧ w = v := by
    intro a key v w h
    rw [GoMap.lookup_insert_eq_ite] at h
    split_ifs at h with hkey
    · exact ⟨hkey, (Option.some.inj (Option.some.inj h)).symm⟩
    · exact absurd h (by simp)
  intro keys v key w _ hw
  rcases v with _ | _ | _
  · obtain ⟨hkey, hchild⟩ := hsingle hw
    rw [hkey, hchild]
    rfl
  · obtain ⟨hkey, hchild⟩ := hsingle hw
    rw [hkey, hchild]
    rfl
  · exact absurd hw (by simp [chainGraph])

theorem chainGraph_decided : (chainGraph "" "s1").OneWay ∧ ∃ st,
    (∃ fuel, ∀ fuel' ≥ fuel, initTree fuel' (some (chainGraph "" "s1")) = some (.ok st)) ∧
    TreeRecord (chainGraph "" "s1") st := by
  have hkeyed := chainGraph_childKeyed "" "s1"
  obtain ⟨st₀, hst₀⟩ : ∃ st, initTree 4 (some (chainGraph "" "s1")) = some (.ok st) := ⟨_, rfl⟩
  obtain ⟨l, hspec⟩ := initTree_spec rfl hst₀
  have hone := hspec.toIsTree.oneWay rfl hkeyed
  obtain ⟨r, hfuel, hok, hrecord⟩ :=
    initTree_decides (chainGraph "" "s1") [none, some false, some true]
    (fun _ v _ => by rcases v with _ | _ | _ <;> simp) hkeyed
  obtain ⟨st, rfl⟩ := hok.mpr hone
  exact ⟨hone, st, hfuel, hrecord st rfl⟩

/-- **A switch without an ID hides those above it.** The graph is a tree, but the node has no
switches, and its ancestor with an ID is `r`. -/
theorem unnamedSwitch_hides : (chainGraph "r" "").ChildKeyed ∧ (chainGraph "r" "").OneWay ∧
    (chainGraph "r" "").Walk ["", "i1"] (some true) ∧
    ((chainGraph "r" "").ancestors ["", "i1"]).filter (· ≠ "") = ["r"] ∧
    ∃ st info, initTree 4 (some (chainGraph "r" "")) = some (.ok st) ∧
      st.nodeInfo.lookup "n1" = some info ∧ info.switches = [] := by
  have hkeyed := chainGraph_childKeyed "r" ""
  obtain ⟨st, hst, hinfo⟩ : ∃ st, initTree 4 (some (chainGraph "r" "")) = some (.ok st) ∧
      ∃ info, st.nodeInfo.lookup "n1" = some info ∧ info.switches = [] := ⟨_, rfl, _, rfl, rfl⟩
  obtain ⟨l, hspec⟩ := initTree_spec rfl hst
  obtain ⟨info, hlook, hswitches⟩ := hinfo
  have hroot : (chainGraph "r" "").Walk [] none := .nil rfl
  have hswitch : (chainGraph "r" "").Walk [""] (some false) := .snoc hroot rfl
  exact ⟨hkeyed, hspec.toIsTree.oneWay rfl hkeyed, .snoc hswitch rfl,
    by decide, st, info, hst, hlook, hswitches⟩

end Topograph.Translate
