import Topograph.Translate.TreePaths
import Topograph.Translate.Yaml

/-! # The partition tree

`dfs` keeps the IDs that lead to a target, so `getPartitionTree` is the part of the tree above the
selected nodes: a vertex has an entry when a target lies below it, with the children that lead there
(`PartitionOf`). -/

namespace Topograph.Translate

open Topograph.Topology

variable {pkg : RegexpPackage} {ρ : Type}

/-! ## Depth-first search -/

section Search

variable (tree : GoMap String (List String)) (leaves : List String)

/-- The IDs at or below an ID. -/
def Reaches : String → String → Prop :=
  Relation.ReflTransGen fun x y => y ∈ (tree.lookup x).getD []

/-- A target lies at or below the ID. -/
def LeadsTo (x : String) : Prop := ∃ y ∈ leaves, Reaches tree x y

/-- What `dfs` returns: whether the ID leads to a target, and the IDs below it that do. -/
structure DfsResult (x : String) (required : List String) (r : Bool × List String) : Prop where
  keep : r.1 = true ↔ LeadsTo tree leaves x
  required : ∀ y, y ∈ r.2 ↔ y ∈ required ∨ Reaches tree x y ∧ LeadsTo tree leaves y

variable {tree leaves}

/-- To reach an ID takes no step, or a first one. -/
theorem reaches_iff {x y : String} :
    Reaches tree x y ↔ x = y ∨ ∃ z ∈ (tree.lookup x).getD [], Reaches tree z y := by
  rw [Reaches, Relation.ReflTransGen.cases_head_iff]

variable {x : String}

theorem leadsTo_iff :
    LeadsTo tree leaves x ↔ x ∈ leaves ∨ ∃ z ∈ (tree.lookup x).getD [], LeadsTo tree leaves z := by
  constructor
  · rintro ⟨y, hy, hxy⟩
    rcases reaches_iff.mp hxy with rfl | ⟨z, hz, hzy⟩
    · exact Or.inl hy
    · exact Or.inr ⟨z, hz, y, hy, hzy⟩
  · rintro (hx | ⟨z, hz, y, hy, hzy⟩)
    · exact ⟨x, hx, .refl⟩
    · exact ⟨y, hy, reaches_iff.mpr (Or.inr ⟨z, hz, hzy⟩)⟩

variable {fuel : Nat}

/-- The loop of `dfs` over the children. -/
theorem foldlM_dfs (ih : ∀ x required r, dfs tree leaves fuel x required = some r →
      DfsResult tree leaves x required r)
    {children : List String} {st r : Bool × List String}
    (h : children.foldlM (fun (st : Bool × List String) child =>
      (dfs tree leaves fuel child st.2).map fun r => (st.1 || r.1, r.2)) st = some r) :
    (r.1 = true ↔ st.1 = true ∨ ∃ x ∈ children, LeadsTo tree leaves x) ∧
      ∀ y, y ∈ r.2 ↔ y ∈ st.2 ∨ ∃ x ∈ children, Reaches tree x y ∧ LeadsTo tree leaves y := by
  induction children generalizing st with
  | nil =>
    obtain rfl : st = r := Option.some.inj h
    simp
  | cons child children ihc =>
    rw [List.foldlM_cons] at h
    obtain ⟨st', hst', hrest⟩ := Option.bind_eq_some_iff.mp h
    obtain ⟨r', hr', rfl⟩ := Option.map_eq_some_iff.mp hst'
    have hdfs := ih _ _ _ hr'
    obtain ⟨hkeep, hreq⟩ := ihc hrest
    constructor
    · rw [hkeep, Bool.or_eq_true, hdfs.keep, or_assoc, List.exists_mem_cons_iff]
    · intro y
      rw [hreq, hdfs.required, or_assoc, List.exists_mem_cons_iff]

/-- **What `dfs` keeps.** -/
theorem dfs_spec {required : List String} {r : Bool × List String}
    (h : dfs tree leaves fuel x required = some r) : DfsResult tree leaves x required r := by
  induction fuel generalizing x required r with
  | zero => exact absurd h (by simp [dfs])
  | succ fuel ih =>
    rw [dfs] at h
    obtain ⟨st, hfold, rfl⟩ := Option.map_eq_some_iff.mp h
    obtain ⟨hkeep, hreq⟩ := foldlM_dfs (fun _ _ _ => ih) hfold
    have hlead : st.1 = true ↔ LeadsTo tree leaves x := by
      rw [hkeep, leadsTo_iff, decide_eq_true_iff]
    refine ⟨hlead, fun y => ?_⟩
    -- The ID itself is required when it leads to a target.
    have hself : y ∈ (if st.1 then x :: st.2 else st.2) ↔
        y ∈ st.2 ∨ x = y ∧ LeadsTo tree leaves y := by
      by_cases hst : st.1 = true
      · rw [if_pos hst, List.mem_cons]
        constructor
        · rintro (rfl | hy)
          · exact Or.inr ⟨rfl, hlead.mp hst⟩
          · exact Or.inl hy
        · rintro (hy | ⟨rfl, -⟩)
          · exact Or.inr hy
          · exact Or.inl rfl
      · rw [if_neg hst]
        constructor
        · exact Or.inl
        · rintro (hy | ⟨rfl, hl⟩)
          · exact hy
          · exact absurd (hlead.mpr hl) hst
    rw [hself, hreq, reaches_iff]
    constructor
    · rintro ((hy | ⟨z, hz, hzy, hl⟩) | ⟨hxy, hl⟩)
      · exact Or.inl hy
      · exact Or.inr ⟨Or.inr ⟨z, hz, hzy⟩, hl⟩
      · exact Or.inr ⟨Or.inl hxy, hl⟩
    · rintro (hy | ⟨hxy | ⟨z, hz, hzy⟩, hl⟩)
      · exact Or.inl (Or.inl hy)
      · exact Or.inr ⟨hxy, hl⟩
      · exact Or.inl (Or.inr ⟨z, hz, hzy, hl⟩)

/-- `dfs` returns when it does for the children. -/
theorem exists_dfs_succ
    (h : ∀ child ∈ (tree.lookup x).getD [], ∀ required, ∃ r, dfs tree leaves fuel child required =
      some r)
    (required : List String) : ∃ r, dfs tree leaves (fuel + 1) x required = some r := by
  obtain ⟨r, hr, -⟩ :=
    Loops.exists_foldlM (l := (tree.lookup x).getD []) (s := (decide (x ∈ leaves), required))
    (I := fun _ _ => True)
    (f := fun (st : Bool × List String) child => (dfs tree leaves fuel child st.2).map fun r =>
      (st.1 || r.1, r.2)) trivial
    fun done child rest st heq _ => by
      obtain ⟨r, hr⟩ := h child (heq ▸ List.mem_append_cons_self) st.2
      exact ⟨(st.1 || r.1, r.2), by rw [hr]; rfl, trivial⟩
  exact ⟨_, by rw [dfs, hr]; rfl⟩

end Search

/-! ## Paths of an accepted tree -/

section Tree

variable {g : Graph ρ} {root : ρ} {l : List ρ} {v : ρ}

/-- A vertex has one list of switches above it. -/
theorem SwitchPath.unique (ht : IsTree g.heap root l) {p q : List ρ}
    (hp : SwitchPath g.heap root v p) (hq : SwitchPath g.heap root v q) : p = q := by
  induction hp generalizing q with
  | top hw =>
    cases hq with
    | top _ => rfl
    | under h hw' => exact absurd (ht.parent_unique (h.mem ht) ht.root_mem hw' hw) (h.ne_root ht)
  | under h hw ih =>
    cases hq with
    | top hw' => exact absurd (ht.parent_unique (h.mem ht) ht.root_mem hw hw') (h.ne_root ht)
    | under h' hw' =>
      obtain rfl := ht.parent_unique (h.mem ht) (h'.mem ht) hw hw'
      rw [ih h']

/-- The switches above a switch of the list stand in front of it. -/
theorem SwitchPath.of_append {v s : ρ} {p q : List ρ} (h : SwitchPath g.heap root v (p ++ s :: q)) :
    SwitchPath g.heap root s p := by
  generalize hr : p ++ s :: q = r at h
  induction h generalizing q with
  | top _ => exact absurd hr (by simp)
  | under h hw ih =>
    rcases List.eq_nil_or_concat q with rfl | ⟨q, t, rfl⟩
    · obtain ⟨rfl, hs⟩ := List.append_inj' hr rfl
      obtain rfl := (List.cons.inj hs).1
      exact h
    · rw [List.concat_eq_append, ← List.cons_append, ← List.append_assoc] at hr
      exact ih (List.append_inj' hr rfl).1

variable {p : List ρ}

section

variable (ht : IsTree g.heap root l) (h : SwitchPath g.heap root v p)

include ht h

/-- **No switch repeats on a path.** -/
theorem SwitchPath.notMem : v ∉ p := by
  intro hv
  obtain ⟨a, b, rfl⟩ := List.append_of_mem hv
  have hlen := congrArg List.length (h.of_append.unique ht h)
  rw [List.length_append, List.length_cons] at hlen
  omega

theorem SwitchPath.nodup : (root :: p ++ [v]).Nodup ∧ ∀ s ∈ root :: p ++ [v], s ∈ l := by
  induction h with
  | top hw =>
    rename_i w
    have h : SwitchPath g.heap root w [] := .top hw
    refine ⟨?_, ?_⟩
    · simpa using (h.ne_root ht).symm
    · simpa using And.intro ht.root_mem (h.mem ht)
  | under h hw ih =>
    rename_i v w p
    have hw' : SwitchPath g.heap root w (p ++ [v]) := h.under hw
    have hne := hw'.ne_root ht
    have hnot := hw'.notMem ht
    rw [List.cons_append] at ih
    refine ⟨?_, ?_⟩
    · refine List.Nodup.append ih.1 (List.nodup_singleton w) ?_
      intro s hs hsw
      obtain rfl := List.mem_singleton.mp hsw
      rcases List.mem_cons.mp hs with rfl | hs
      · exact hne rfl
      · exact hnot hs
    · intro s hs
      rcases List.mem_append.mp hs with hs | hs
      · exact ih.2 s hs
      · rw [List.mem_singleton.mp hs]
        exact hw'.mem ht

/-- Paths are shorter than the tree. -/
theorem SwitchPath.length_lt : p.length + 1 < l.length := by
  obtain ⟨hnodup, hmem⟩ := h.nodup ht
  have hle := (List.subperm_of_subset hnodup hmem).length_le
  simp only [List.cons_append, List.length_cons, List.length_append, List.length_nil] at hle
  omega

end

end Tree

/-! ## The part above the targets -/

section Partition

variable {g : Graph ρ} {root : ρ} {l : List ρ} {nt : NetworkTopology pkg ρ}

/-- A target lies at or below the vertex. -/
def Needed (heap : ρ → Vertex (Option ρ)) (ids : List String) (v : ρ) : Prop :=
  ∃ u, AtOrUnder heap v u ∧ (heap u).id ∈ ids

/-- A target lies below a child of the vertex. -/
def Branches (heap : ρ → Vertex (Option ρ)) (ids : List String) (v : ρ) : Prop :=
  ∃ w ∈ childList heap v, Needed heap ids w

variable {ids : List String} {v : ρ}

theorem Branches.needed (h : Branches g.heap ids v) : Needed g.heap ids v := by
  obtain ⟨w, hw, u, hwu, hu⟩ := h
  exact ⟨u, .head hw hwu, hu⟩

section

variable (ht : TreeOf g.heap root l nt) (hk : g.Keyed) (hv : v ∈ l)

include ht hk hv

theorem lookup_tree_getD {x : String} :
    x ∈ (nt.tree.lookup (g.heap v).id).getD [] ↔ ∃ w ∈ childList g.heap v, (g.heap w).id = x :=
  mem_nextIDs ht hk hv

/-- IDs reach what their vertices reach. -/
theorem reaches_id_iff {y : String} :
    Reaches nt.tree (g.heap v).id y ↔ ∃ u, AtOrUnder g.heap v u ∧
    (g.heap u).id = y := by
  constructor
  · intro h
    induction h with
    | refl => exact ⟨v, .refl, rfl⟩
    | tail _ hz ih =>
      obtain ⟨u, hu, rfl⟩ := ih
      obtain ⟨w, hw, rfl⟩ := (lookup_tree_getD ht hk (hu.mem ht.toIsTree hv)).mp hz
      exact ⟨w, hu.tail hw, rfl⟩
  · rintro ⟨u, hu, rfl⟩
    induction hu with
    | refl => exact .refl
    | tail hvu hw ih =>
      exact ih.tail ((lookup_tree_getD ht hk (AtOrUnder.mem ht.toIsTree hv hvu)).mpr ⟨_, hw, rfl⟩)

/-- In the tree of a graph, what leads to the nodes is needed. -/
theorem leadsTo_id_iff : LeadsTo nt.tree ids (g.heap v).id ↔ Needed g.heap ids v := by
  constructor
  · rintro ⟨y, hy, hxy⟩
    obtain ⟨u, hu, rfl⟩ := (reaches_id_iff ht hk hv).mp hxy
    exact ⟨u, hu, hy⟩
  · rintro ⟨u, hu, hid⟩
    exact ⟨_, hid, (reaches_id_iff ht hk hv).mpr ⟨u, hu, rfl⟩⟩

end

/-- What a partition tree holds. -/
structure PartitionOf (heap : ρ → Vertex (Option ρ)) (l : List ρ) (ids : List String)
    (tree : GoMap String (List String)) : Prop where
  lookup : ∀ x connects, tree.lookup x = some connects → ∃ v ∈ l, (heap v).id = x ∧
    Branches heap ids v ∧
    ∀ y, y ∈ connects ↔ ∃ w ∈ childList heap v, (heap w).id = y ∧ Needed heap ids w
  isSome : ∀ v ∈ l, Branches heap ids v → (tree.lookup (heap v).id).isSome

/-- **The partition tree** is the part of the tree above the targets. -/
theorem partitionOf (ht : TreeOf g.heap root l nt) (hk : g.Keyed) (htiers : g.tiers = some root)
    {fuel : Nat} {tree : GoMap String (List String)}
    (h : getPartitionTree nt fuel ids = some tree) :
    PartitionOf g.heap l ids tree := by
  obtain ⟨required, hreq, rfl⟩ := Option.map_eq_some_iff.mp h
  obtain ⟨r, hr, rfl⟩ := Option.map_eq_some_iff.mp hreq
  have hroot := hk.root root htiers
  -- The search marks what leads to a listed ID; all of the tree is reached from the root.
  have hrequired : ∀ v ∈ l, (g.heap v).id ∈ r.2 ↔ Needed g.heap ids v := by
    intro v hv
    have hreach : Reaches nt.tree "" (g.heap v).id := by
      rw [← hroot]
      exact (reaches_id_iff ht hk ht.root_mem).mpr ⟨v, exists_under_root ht.toIsTree hv, rfl⟩
    rw [(dfs_spec hr).required, leadsTo_id_iff ht hk hv]
    simp [hreach]
  have hfilter : ∀ v ∈ l, ∀ y, y ∈ ((nt.tree.lookup (g.heap v).id).getD []).filter (· ∈ r.2) ↔
      ∃ w ∈ childList g.heap v, (g.heap w).id = y ∧ Needed g.heap ids w := by
    intro v hv y
    rw [List.mem_filter, lookup_tree_getD ht hk hv]
    constructor
    · rintro ⟨⟨w, hw, rfl⟩, hy⟩
      exact ⟨w, hw, rfl, (hrequired w (ht.child_mem hv hw)).mp (by simpa using hy)⟩
    · rintro ⟨w, hw, rfl, hneed⟩
      exact ⟨⟨w, hw, rfl⟩, by simpa using (hrequired w (ht.child_mem hv hw)).mpr hneed⟩
  have hlook : ∀ x, (buildSubTree nt r.2).lookup x = (nt.tree.lookup x).bind fun children =>
      if x ∈ r.2 ∧ children.filter (· ∈ r.2) ≠ [] then some (children.filter (· ∈ r.2)) else none :=
    fun x => GoMap.lookup_filterMap _ _ x
  constructor
  · intro x connects hx
    rw [hlook] at hx
    obtain ⟨children, hchildren, hif⟩ := Option.bind_eq_some_iff.mp hx
    rw [ht.tree] at hchildren
    obtain ⟨v, hv, -⟩ := Option.map_eq_some_iff.mp hchildren
    have hvl : v ∈ l := List.mem_of_find?_eq_some hv
    obtain rfl : (g.heap v).id = x := by simpa using List.find?_some hv
    have hmem := hfilter v hvl
    rw [ht.tree, hchildren, Option.getD_some] at hmem
    split_ifs at hif with hcond
    obtain rfl := Option.some.inj hif
    refine ⟨v, hvl, rfl, ?_, hmem⟩
    obtain ⟨y, hy⟩ := List.exists_mem_of_ne_nil _ hcond.2
    obtain ⟨w, hw, -, hneed⟩ := (hmem y).mp hy
    exact ⟨w, hw, hneed⟩
  · intro v hv hbranch
    have hmem := hfilter v hv
    have hsome : nt.tree.lookup (g.heap v).id =
        some ((g.heap v).vertices.keys.insertionSort (· ≤ ·)) := by
      rw [ht.tree, ht.toIsTree.findID_eq_some hv, Option.map_some]
    obtain ⟨w, hw, hneed⟩ := id hbranch
    rw [hsome, Option.getD_some] at hmem
    rw [hlook, hsome, Option.bind_some, if_pos, Option.isSome_some]
    exact ⟨(hrequired v hv).mpr hbranch.needed,
      List.ne_nil_of_mem ((hmem _).mpr ⟨w, hw, rfl, hneed⟩)⟩

/-- **`findRequiredNodes` returns** once the fuel exceeds the number of vertices. -/
theorem exists_getPartitionTree (ht : TreeOf g.heap root l nt) (hk : g.Keyed)
    (htiers : g.tiers = some root) (ids : List String) {fuel : Nat} (hfuel : l.length < fuel) :
    ∃ tree, getPartitionTree nt fuel ids = some tree := by
  -- Below a path of length `n` at most `l.length - n` levels are left.
  have hrun : ∀ fuel (v : ρ) (p : List ρ), SwitchPath g.heap root v p →
      l.length < fuel + p.length + 2 →
      ∀ required, ∃ r, dfs nt.tree ids fuel (g.heap v).id required = some r := by
    intro fuel
    induction fuel with
    | zero =>
      intro v p hp hlt
      have := hp.length_lt ht.toIsTree
      omega
    | succ fuel ih =>
      intro v p hp hlt
      apply exists_dfs_succ
      intro child hchild
      obtain ⟨w, hw, rfl⟩ := (lookup_tree_getD ht hk (hp.mem ht.toIsTree)).mp hchild
      exact ih w _ (hp.under hw) (by rw [List.length_append, List.length_singleton]; omega)
  obtain ⟨fuel, rfl⟩ : ∃ n, fuel = n + 1 := ⟨fuel - 1, by omega⟩
  obtain ⟨r, hr⟩ : ∃ r, dfs nt.tree ids (fuel + 1) "" [] = some r := by
    apply exists_dfs_succ
    intro child hchild
    rw [← hk.root root htiers] at hchild
    obtain ⟨w, hw, rfl⟩ := (lookup_tree_getD ht hk ht.root_mem).mp hchild
    exact hrun fuel w [] (.top hw) (by rw [List.length_nil]; omega)
  exact ⟨_, by rw [getPartitionTree, findRequiredNodes, hr, Option.map_some, Option.map_some]⟩

end Partition

end Topograph.Translate
