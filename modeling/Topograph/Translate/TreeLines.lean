import Topograph.Lib.Worklist
import Topograph.Translate.InitBlocks
import Topograph.Translate.Tree

/-! # The lines of an accepted tree

On an accepted graph `toTreeTopology` comes to an end. It succeeds when every ID that it comes to
has a vertex (`exists_writes_iff`), as on graphs whose child maps are keyed by ID, and writes the
lines of these vertices (`mem_writes_iff`). What the lines say is then read off from the
vertices. -/

namespace Topograph.Translate

open Topograph.Topology

variable {pkg : RegexpPackage} {ρ : Type}

/-- What an accepted graph with tiers leaves in its topology; `l` lists the vertices of the tree. -/
structure TreeOf (heap : ρ → Vertex (Option ρ)) (root : ρ) (l : List ρ)
    (nt : NetworkTopology pkg ρ) : Prop extends IsTree heap root l where
  tree : ∀ x, nt.tree.lookup x =
    (findID heap l x).map fun v => (heap v).vertices.keys.insertionSort (· ≤ ·)
  vertices : ∀ x, nt.vertices.lookup x = findID heap l x
  nodeInfo : ∀ n i, nt.nodeInfo.lookup n = some i → ∃ v p, findLeaf heap l n = some v ∧
    Path heap root v p ∧ i.instanceID = (heap v).id ∧ i.switches = p
  known : ∀ n v, findLeaf heap l n = some v → (nt.nodeInfo.lookup n).isSome

/-- **Accepted tiers form a tree.** -/
theorem Accepts.treeOf {g : Graph ρ} {root : ρ} {cfg : Config pkg} {nt : NetworkTopology pkg ρ}
    (h : Accepts (some g) cfg nt) (htiers : g.tiers = some root) :
    ∃ l, TreeOf g.heap root l nt := by
  obtain ⟨fuel, config, st, r, -, htree, hr, rfl⟩ := h.parts
  obtain ⟨l, hspec⟩ := initTree_spec htiers htree
  -- Whatever `initBlocks` does, nodes keep their places.
  have hplace : ∀ n, (r.2.nodeInfo.lookup n).map NodeInfo.place = (st.nodeInfo.lookup n).map
      NodeInfo.place := by
    intro n
    rcases initBlocks_cases hr with rfl | ⟨g', domains, hg, -, -, -, ⟨hnone, -⟩ | ⟨root', -, hloop⟩⟩
    · rfl
    · obtain rfl := Option.some.inj hg
      exact absurd (htiers.symm.trans hnone) (by simp)
    · rw [map_place_blockLoop hloop, map_place_setBlockIDs]
  refine ⟨l, hspec.toIsTree, hspec.tree, hspec.vertices, ?_, ?_⟩
  · intro n i hi
    have hsame := hplace n
    rw [show r.2.nodeInfo.lookup n = some i from hi, Option.map_some] at hsame
    obtain ⟨i₀, hi₀, hpl⟩ := Option.map_eq_some_iff.mp hsame.symm
    obtain ⟨v, p, hv, hpath, rfl⟩ := (hspec.nodeInfo n i₀).mp hi₀
    obtain ⟨hid, hsw⟩ := Prod.mk.inj hpl
    exact ⟨v, p, hv, hpath, hid.symm, hsw.symm⟩
  · intro n v hv
    obtain ⟨p, hp⟩ := hspec.path v (mem_of_findLeaf hv).1
    have hi₀ := (hspec.nodeInfo n _).mpr ⟨v, p, hv, hp, rfl⟩
    have hsame := hplace n
    rw [hi₀, Option.map_some] at hsame
    obtain ⟨i, hi, -⟩ := Option.map_eq_some_iff.mp hsame
    exact Option.isSome_iff_exists.mpr ⟨i, hi⟩

/-! ## The loop -/

/-- **The loop writes what it visits.** -/
theorem treeLinesLoop_eq_ok_iff (heap : ρ → Vertex (Option ρ)) (nt : NetworkTopology pkg ρ)
    (skeletonOnly : Bool) {fuel : Nat} {visited queue : List String} {lines : List SwitchLine} :
    treeLinesLoop heap nt skeletonOnly fuel visited queue = some (.ok lines) ↔
      ∃ out, visitOrder (nextIDs nt skeletonOnly) fuel visited queue = some out ∧
        (∀ id ∈ out, (nt.vertices.lookup id).isSome) ∧
        lines = out.flatMap fun id =>
          (nt.vertices.lookup id).elim [] fun v => writeVertex heap skeletonOnly (heap v) := by
  induction fuel generalizing visited queue lines with
  | zero => simp [treeLinesLoop, visitOrder]
  | succ fuel ih =>
    cases queue with
    | nil =>
      constructor
      · intro h
        obtain rfl := Except.ok.inj (Option.some.inj h)
        exact ⟨[], rfl, by simp, rfl⟩
      · rintro ⟨out, hout, -, rfl⟩
        obtain rfl := Option.some.inj hout
        rfl
    | cons id queue =>
      rw [treeLinesLoop, visitOrder]
      split_ifs with hid
      · exact ih
      · cases hv : nt.vertices.lookup id with
        | none =>
          constructor
          · intro h
            exact absurd (Option.some.inj h) (by simp)
          · rintro ⟨out, hout, hall, -⟩
            obtain ⟨out, -, rfl⟩ := Option.map_eq_some_iff.mp hout
            have := hall id List.mem_cons_self
            rw [hv] at this
            exact absurd this (by simp)
        | some v =>
          constructor
          · intro h
            obtain ⟨rest, hrest, hlines⟩ := Option.map_eq_some_iff.mp h
            cases rest with
            | error err => exact absurd hlines (by simp [Except.map])
            | ok rest =>
              obtain ⟨out, hout, hall, rfl⟩ := ih.mp hrest
              refine ⟨id :: out, by rw [hout, Option.map_some], ?_, ?_⟩
              · exact List.forall_mem_cons.mpr ⟨by rw [hv]; rfl, hall⟩
              · rw [List.flatMap_cons, hv, Option.elim_some]
                exact (Except.ok.inj hlines).symm
          · rintro ⟨out, hout, hall, rfl⟩
            obtain ⟨out, hnext, rfl⟩ := Option.map_eq_some_iff.mp hout
            have hrest := ih.mpr ⟨out, hnext, (List.forall_mem_cons.mp hall).2, rfl⟩
            show Option.map _ _ = _
            rw [hrest, Option.map_some, List.flatMap_cons, hv, Option.elim_some]
            rfl

/-! ## The order of the visit -/

/-- The IDs that `toTreeTopology` comes to: it starts at the empty ID and follows the keys. -/
def Reached (nt : NetworkTopology pkg ρ) : String → Prop :=
  Relation.ReflTransGen (fun x y => y ∈ nextIDs nt false x) ""

section Lines

variable {g : Graph ρ} {root : ρ} {l : List ρ} {nt : NetworkTopology pkg ρ}

/-- The loop visits the IDs that it can reach. -/
theorem mem_visitOrder_iff {fuel : Nat} {out : List String}
    (hout : visitOrder (nextIDs nt false) fuel [] [""] = some out) {x : String} :
    x ∈ out ↔ Reached nt x := by
  have hspec := visitOrder_spec hout
  constructor
  · intro hx
    obtain ⟨r, hr, hreach⟩ := hspec.reachable hx
    rwa [List.mem_singleton.mp hr] at hreach
  · exact fun hx => hspec.mem_of_reachable List.mem_cons_self hx

section

variable (ht : TreeOf g.heap root l nt)

include ht

/-- The IDs queued behind an ID are the keys of the vertex that has it. -/
theorem mem_nextIDs_iff {x y : String} :
    y ∈ nextIDs nt false x ↔ ∃ v ∈ l, (g.heap v).id = x ∧ y ∈ (g.heap v).vertices.keys := by
  rw [nextIDs, if_neg (by simp), ht.tree]
  constructor
  · intro hy
    cases hfind : findID g.heap l x with
    | none => exact absurd hy (by simp [hfind])
    | some v =>
      rw [hfind, Option.map_some, Option.getD_some, List.mem_insertionSort] at hy
      exact ⟨v, List.mem_of_find?_eq_some hfind, by simpa using List.find?_some hfind, hy⟩
  · rintro ⟨v, hv, rfl, hy⟩
    rw [ht.toIsTree.findID_eq_some hv, Option.map_some, Option.getD_some, List.mem_insertionSort]
    exact hy

/-- The loop comes to an end: all it can queue are keys. -/
theorem exists_visited : ∃ fuel out, visitOrder (nextIDs nt false) fuel [] [""] = some out := by
  have hclosed : ∀ x ∈ "" :: l.flatMap (fun v => (g.heap v).vertices.keys),
      ∀ y ∈ nextIDs nt false x,
      y ∈ "" :: l.flatMap fun v => (g.heap v).vertices.keys := by
    intro x _ y hy
    obtain ⟨v, hv, -, hkey⟩ := (mem_nextIDs_iff ht).mp hy
    exact List.mem_cons_of_mem _ (List.mem_flatMap.mpr ⟨v, hv, hkey⟩)
  exact exists_visitOrder (fun x hx => List.mem_singleton.mp hx ▸ List.mem_cons_self) hclosed

/-- **`toTreeTopology` succeeds** exactly when every ID that it comes to has a vertex. -/
theorem exists_writes_iff :
    (∃ lines, Writes g.heap nt lines) ↔ ∀ id, Reached nt id → (nt.vertices.lookup id).isSome := by
  constructor
  · rintro ⟨lines, fuel, hrun⟩ id hid
    obtain ⟨out, hout, hall, -⟩ := (treeLinesLoop_eq_ok_iff g.heap nt false).mp hrun
    exact hall id ((mem_visitOrder_iff hout).mpr hid)
  · intro hall
    obtain ⟨fuel, out, hout⟩ := exists_visited ht
    exact ⟨_, fuel, (treeLinesLoop_eq_ok_iff g.heap nt false).mpr
      ⟨out, hout, fun id hid => hall id ((mem_visitOrder_iff hout).mp hid), rfl⟩⟩

/-- **The lines are those of the vertices that the loop comes to.** -/
theorem mem_writes_iff {lines : List SwitchLine} (h : Writes g.heap nt lines) {line : SwitchLine} :
    line ∈ lines ↔ ∃ v ∈ l, Reached nt (g.heap v).id ∧
      line ∈ writeVertex g.heap false (g.heap v) := by
  obtain ⟨fuel, hrun⟩ := h
  obtain ⟨out, hout, -, rfl⟩ := (treeLinesLoop_eq_ok_iff g.heap nt false).mp hrun
  rw [List.mem_flatMap]
  constructor
  · rintro ⟨id, hid, hline⟩
    rw [ht.vertices] at hline
    cases hfind : findID g.heap l id with
    | none => exact absurd hline (by simp [hfind])
    | some v =>
      rw [hfind, Option.elim_some] at hline
      obtain rfl : (g.heap v).id = id := by simpa using List.find?_some hfind
      exact ⟨v, List.mem_of_find?_eq_some hfind, (mem_visitOrder_iff hout).mp hid, hline⟩
  · rintro ⟨v, hv, hreached, hline⟩
    refine ⟨_, (mem_visitOrder_iff hout).mpr hreached, ?_⟩
    rwa [ht.vertices, ht.toIsTree.findID_eq_some hv, Option.elim_some]

variable (hk : g.Keyed)

include hk

/-- The IDs queued behind a vertex of a keyed graph are those of its children. -/
theorem mem_nextIDs {v : ρ} (hv : v ∈ l) {x : String} :
    x ∈ nextIDs nt false (g.heap v).id ↔ ∃ w ∈ childList g.heap v, (g.heap w).id = x := by
  rw [mem_nextIDs_iff ht]
  constructor
  · rintro ⟨u, hu, hid, hx⟩
    obtain rfl := ht.eq_of_id hu hv hid
    obtain ⟨o, ho⟩ := GoMap.mem_iff_lookup.mp (AList.mem_keys.mp hx)
    have hentry := GoMap.lookup_eq_some_iff.mp ho
    obtain ⟨w, hw⟩ := ht.noNil u hu _ hentry
    obtain rfl : o = some w := hw
    exact ⟨w, List.mem_filterMap.mpr ⟨_, hentry, rfl⟩, hk.child u x w ho⟩
  · rintro ⟨w, hw, rfl⟩
    obtain ⟨⟨key, o⟩, hentry, ho⟩ := List.mem_filterMap.mp hw
    obtain rfl : o = some w := ho
    have hlook := GoMap.lookup_eq_some_iff.mpr hentry
    rw [hk.child v key w hlook]
    exact ⟨v, hv, rfl, AList.mem_keys.mpr (GoMap.mem_iff_lookup.mpr ⟨_, hlook⟩)⟩

/-- On a keyed graph the loop comes to the IDs of the vertices. -/
theorem reached_iff (htiers : g.tiers = some root) {x : String} :
    Reached nt x ↔ x ∈ l.map fun v => (g.heap v).id := by
  have hroot := hk.root root htiers
  constructor
  · intro h
    induction h with
    | refl => exact List.mem_map.mpr ⟨root, ht.root_mem, hroot⟩
    | tail _ hyz ih =>
      obtain ⟨v, hv, rfl⟩ := List.mem_map.mp ih
      obtain ⟨w, hw, rfl⟩ := (mem_nextIDs ht hk hv).mp hyz
      exact List.mem_map.mpr ⟨w, ht.child_mem hv hw, rfl⟩
  · intro hx
    obtain ⟨v, hv, rfl⟩ := List.mem_map.mp hx
    obtain ⟨p, hp⟩ := ht.path v hv
    clear hx hv
    induction hp with
    | root =>
      rw [hroot]
      exact .refl
    | child hp hw ih => exact ih.tail ((mem_nextIDs ht hk (ht.mem_of_path hp)).mpr ⟨_, hw, rfl⟩)

/-- On a keyed graph every ID that the loop comes to has a vertex. -/
theorem isSome_of_reached (htiers : g.tiers = some root) {x : String} (h : Reached nt x) :
    (nt.vertices.lookup x).isSome := by
  obtain ⟨v, hv, rfl⟩ := List.mem_map.mp ((reached_iff ht hk htiers).mp h)
  rw [ht.vertices, ht.toIsTree.findID_eq_some hv, Option.isSome_some]

/-- **The lines of a keyed graph are those of its vertices**, each vertex written once. -/
theorem writes_perm (htiers : g.tiers = some root) {lines : List SwitchLine}
    (h : Writes g.heap nt lines) :
    lines.Perm (l.flatMap fun v => writeVertex g.heap false (g.heap v)) := by
  obtain ⟨fuel, hrun⟩ := h
  obtain ⟨out, hout, -, rfl⟩ := (treeLinesLoop_eq_ok_iff g.heap nt false).mp hrun
  have hids : out.Perm (l.map fun v => (g.heap v).id) :=
    (List.perm_ext_iff_of_nodup (visitOrder_spec hout).nodup ht.nodup).mpr fun x =>
      (mem_visitOrder_iff hout).trans (reached_iff ht hk htiers)
  refine (hids.flatMap_right _).trans (List.Perm.of_eq ?_)
  rw [List.flatMap_map]
  refine List.flatMap_congr fun v hv => ?_
  rw [ht.vertices, ht.toIsTree.findID_eq_some hv, Option.elim_some]

end

end Lines

end Topograph.Translate
