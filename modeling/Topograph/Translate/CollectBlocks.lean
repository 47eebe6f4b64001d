import Topograph.Translate.BlockOrder
import Topograph.Translate.Layout

/-! # The blocks of a partition

`getBlockTopologyUnit` groups the listed nodes by the index of their block. The groups are read off
from the list (`collectBlocks_eq`): block `k` of the topology appears, in its place, with the listed
nodes of index `k`, if there are any. On an accepted topology these are hosts of the domain the
block is named after (`Accepts.lookupHost_collectBlocks`). -/

namespace Topograph.Translate

open Topograph.Topology

variable {pkg : RegexpPackage} {ρ : Type} {nt : NetworkTopology pkg ρ}

/-- The index of the block of a node. -/
def NetworkTopology.indexOf (nt : NetworkTopology pkg ρ) (n : String) : Option Nat :=
  (nt.nodeInfo.lookup n).bind (·.blockIndx)

/-- Block `k` of the topology with the listed nodes of it. -/
def listedBlock (nt : NetworkTopology pkg ρ) (names : List String) (k : Nat) : BlockInfo where
  id := ""
  name := ((nt.blocks[k]?).map (·.name)).getD ""
  indx := k
  nodes := names.filter fun n => nt.indexOf n = some k

/-- One more listed node joins its block. -/
theorem listedBlock_concat (nt : NetworkTopology pkg ρ) (names : List String) (n : String)
    (k : Nat) :
    listedBlock nt (names ++ [n]) k =
      if nt.indexOf n = some k then
      { listedBlock nt names k with nodes := (listedBlock nt names k).nodes ++ [n] }
      else listedBlock nt names k := by
  by_cases hk : nt.indexOf n = some k <;> simp [listedBlock, hk]

variable {names : List String} {n : String}

/-- The block of a node is found or begun, and has the node at the end in both cases. -/
theorem collectBlock_of_indexOf {m : GoMap Nat BlockInfo} {indx : Nat}
    (hindx : nt.indexOf n = some indx)
    (hm : m.lookup indx = if (listedBlock nt names indx).nodes = [] then none
      else some (listedBlock nt names indx)) :
    collectBlock nt m n = m.insert indx (listedBlock nt (names ++ [n]) indx) := by
  rw [collectBlock, show (nt.nodeInfo.lookup n).bind (·.blockIndx) = some indx from hindx,
    listedBlock_concat, if_pos hindx]
  dsimp only
  rw [hm]
  split_ifs with hnil
  · rw [hnil]
    rfl
  · rfl

/-- **The groups of the loop.** -/
theorem lookup_foldl_collectBlock (nt : NetworkTopology pkg ρ) (names : List String) (k : Nat) :
    (names.foldl (collectBlock nt) ∅).lookup k =
      if (listedBlock nt names k).nodes = [] then none else some (listedBlock nt names k) := by
  induction names using List.reverseRecOn generalizing k with
  | nil => rfl
  | append_singleton names n ih =>
    rw [List.foldl_append, List.foldl_cons, List.foldl_nil]
    cases hindx : nt.indexOf n with
    | none =>
      have hsame : listedBlock nt (names ++ [n]) k = listedBlock nt names k := by
        rw [listedBlock_concat, if_neg (by simp [hindx])]
      rw [hsame, ← ih k, collectBlock, show (nt.nodeInfo.lookup n).bind (·.blockIndx) =
        none from hindx]
    | some indx =>
      rw [collectBlock_of_indexOf hindx (ih indx), GoMap.lookup_insert_eq_ite]
      by_cases hk : k = indx
      · subst hk
        rw [if_pos rfl, listedBlock_concat, if_pos hindx, if_neg (by simp)]
      · rw [if_neg hk, ih k, listedBlock_concat,
          if_neg fun h => hk (Option.some.inj (hindx.symm.trans h)).symm]

variable {b : BlockInfo}

/-- The groups of a list are ordered by index. -/
theorem mem_collectBlocks :
    b ∈ collectBlocks nt names ↔ ∃ k, b = listedBlock nt names k ∧
    b.nodes ≠ [] := by
  rw [collectBlocks, List.mem_insertionSort, GoMap.mem_values]
  constructor
  · rintro ⟨k, hk⟩
    have hlook := GoMap.lookup_eq_some_iff.mpr hk
    rw [lookup_foldl_collectBlock] at hlook
    split_ifs at hlook with hnil
    obtain rfl := Option.some.inj hlook
    exact ⟨k, rfl, hnil⟩
  · rintro ⟨k, rfl, hne⟩
    refine ⟨k, GoMap.lookup_eq_some_iff.mp ?_⟩
    rw [lookup_foldl_collectBlock, if_neg hne]

/-- The indices of the groups increase. -/
theorem pairwise_collectBlocks (nt : NetworkTopology pkg ρ) (names : List String) :
    (collectBlocks nt names).Pairwise fun a b => a.indx < b.indx := by
  have hsorted : (collectBlocks nt names).Pairwise fun a b => a.indx ≤ b.indx :=
    List.pairwise_insertionSort (fun a b : BlockInfo => a.indx ≤ b.indx) _
  have hkeys : (names.foldl (collectBlock nt) ∅).values.map (·.indx) =
      (names.foldl (collectBlock nt) ∅).keys := by
    rw [GoMap.values, List.map_map]
    apply List.map_congr_left
    intro e he
    have hlook := GoMap.lookup_eq_some_iff.mpr he
    rw [lookup_foldl_collectBlock] at hlook
    split_ifs at hlook with hnil
    rw [Function.comp_apply, ← Option.some.inj hlook]
    rfl
  have hnodup : (collectBlocks nt names).Pairwise fun a b => a.indx ≠ b.indx := by
    refine List.pairwise_map.mp (((List.perm_insertionSort _ _).map _).nodup_iff.mpr ?_)
    rw [hkeys]
    exact (names.foldl (collectBlock nt) ∅).nodupKeys
  exact (hsorted.and hnodup).imp fun h => lt_of_le_of_ne h.1 h.2

/-- **The blocks of a partition** are the blocks of the topology, in their order, with the listed
nodes of each. -/
theorem collectBlocks_eq (hindx : ∀ n k, nt.indexOf n = some k → k < nt.blocks.length)
    (names : List String) :
    collectBlocks nt names = ((List.range nt.blocks.length).map (listedBlock nt names)).filter
      fun b => b.nodes ≠ [] := by
  have hright : (((List.range nt.blocks.length).map (listedBlock nt names)).filter fun b =>
      b.nodes ≠ []).Pairwise
      fun a b => a.indx < b.indx := by
    apply List.Pairwise.filter
    rw [List.pairwise_map]
    exact List.pairwise_lt_range
  refine List.Perm.eq_of_pairwise (fun a b _ _ h h' => absurd h (by omega))
    (pairwise_collectBlocks nt names) hright ?_
  refine (List.perm_ext_iff_of_nodup ?_ ?_).mpr fun b => ?_
  · exact (pairwise_collectBlocks nt names).imp fun h heq => by rw [heq] at h; omega
  · exact hright.imp fun h heq => by rw [heq] at h; omega
  · rw [mem_collectBlocks, List.mem_filter, List.mem_map]
    constructor
    · rintro ⟨k, rfl, hne⟩
      obtain ⟨n, hn⟩ := List.exists_mem_of_ne_nil _ hne
      have hk : nt.indexOf n = some k := by simpa using (List.mem_filter.mp hn).2
      exact ⟨⟨k, List.mem_range.mpr (hindx n k hk), rfl⟩, by simpa using hne⟩
    · rintro ⟨⟨k, -, rfl⟩, hne⟩
      exact ⟨k, rfl, by simpa using hne⟩

/-! ## Accepted topologies -/

variable {graph : Option (Graph ρ)} {cfg : Config pkg}

/-- Without domains there are no blocks. -/
theorem Accepts.blocks_eq_nil (h : Accepts graph cfg nt) (hd : nt.domains = none) :
    nt.blocks = [] := by
  obtain ⟨fuel, config, st, r, -, -, hr, rfl⟩ := h.parts
  rcases initBlocks_cases hr with rfl | ⟨g, domains, -, -, -, hr1, -⟩
  · rfl
  · exact absurd (hr1.symm.trans hd) (by simp)

/-- An index leads to a block. -/
theorem Accepts.exists_block_of_indexOf (h : Accepts graph cfg nt) {k : Nat}
    (hk : nt.indexOf n = some k) : ∃ b, nt.blocks[k]? = some b ∧ n ∈ b.nodes := by
  obtain ⟨i, hi, hindx⟩ := Option.bind_eq_some_iff.mp hk
  exact h.indexed.listed n i k hi hindx

/-- The index of a node is that of a block. -/
theorem Accepts.indexOf_lt (h : Accepts graph cfg nt) (n : String) (k : Nat)
    (hk : nt.indexOf n = some k) : k < nt.blocks.length := by
  obtain ⟨b, hb, -⟩ := h.exists_block_of_indexOf hk
  exact (List.getElem?_eq_some_iff.mp hb).1

variable {all : DomainMap}

section

variable (h : Accepts graph cfg nt) (hd : nt.domains = some all)

include h hd

/-- **The blocks of a partition list hosts** of the domain they are named after. -/
theorem Accepts.lookupHost_collectBlocks (hb : b ∈ collectBlocks nt names) (hn : n ∈ b.nodes) :
    (all.lookupHost b.name n).isSome := by
  obtain ⟨k, rfl, -⟩ := mem_collectBlocks.mp hb
  have hk : nt.indexOf n = some k := by simpa using (List.mem_filter.mp hn).2
  obtain ⟨c, hc, hnc⟩ := h.exists_block_of_indexOf hk
  have hname : (listedBlock nt names k).name = c.name := by rw [listedBlock, hc]; rfl
  rw [hname]
  exact ((h.ownBlocks hd).mem_nodes_iff (List.mem_of_getElem? hc) n).mp hnc

/-- The hosts of a topology that its blocks list. -/
theorem Accepts.lookupHost_blocks (hb : b ∈ nt.blocks) (hn : n ∈ b.nodes) :
    (all.lookupHost b.name n).isSome := ((h.ownBlocks hd).mem_nodes_iff hb n).mp hn

/-- The blocks of a topology have nodes. -/
theorem Accepts.nodes_ne_nil (hb : b ∈ nt.blocks) : b.nodes ≠ [] := by
  obtain ⟨hosts, hhosts, hperm⟩ := (h.ownBlocks hd).named b hb
  intro hnil
  rw [hnil] at hperm
  have hkeys : hosts.keys = [] := hperm.nil_eq.symm
  exact (all.filed b.name hosts hhosts).nonempty (List.map_eq_nil_iff.mp hkeys)

end

end Topograph.Translate
