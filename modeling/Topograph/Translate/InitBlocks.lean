import Topograph.Lib.LevelOrder
import Topograph.Translate.InitTree
import Topograph.Cluset.Numerals

/-! # What `initBlocks` leaves behind

The blocks of a topology are blocks of its domains, each at most once (`OwnBlocks`), and a node that
is given a block ID or a block index belongs to one of them (`BlockInvariant`). -/

namespace Topograph.Translate

open Topograph.Topology

/-- The blocks are those of domains, each domain at most once, and have IDs. -/
structure OwnBlocks (domains : DomainMap) (blocks : List BlockInfo) : Prop where
  named : ∀ b ∈ blocks, ∃ hosts, domains.hosts.lookup b.name = some hosts ∧ b.nodes.Perm hosts.keys
  nodup : (blocks.map (·.name)).Nodup
  id_ne : ∀ b ∈ blocks, b.id ≠ ""

/-! ## Block IDs -/

theorem blockID_injective : Function.Injective blockID := by
  intro m n h
  unfold blockID at h
  have hpad : Cluset.zeroPad 3 m = Cluset.zeroPad 3 n :=
    String.ofList_injective (by simpa using h)
  rw [← Cluset.numeralValue_zeroPad 3 m, hpad, Cluset.numeralValue_zeroPad]

theorem blockID_ne_empty (n : Nat) : blockID n ≠ "" := by
  intro h
  have := congrArg String.length h
  simp [blockID] at this

variable {domains : DomainMap}

/-- The blocks of the domains, with their places in the sorted list of names. -/
theorem mem_toBlockInfos {b : BlockInfo} :
    b ∈ toBlockInfos domains ↔ ∃ i, ∃ h : i < (domains.hosts.keys.insertionSort (· ≤ ·)).length,
      b = toBlockInfo domains ((domains.hosts.keys.insertionSort (· ≤ ·))[i]) i := by
  rw [toBlockInfos, List.mem_mapIdx]
  exact ⟨fun ⟨i, h, he⟩ => ⟨i, h, he.symm⟩, fun ⟨i, h, he⟩ => ⟨i, h, he.symm⟩⟩

/-- The blocks list the hosts of their own domains. -/
theorem ownBlocks_toBlockInfos (domains : DomainMap) :
    OwnBlocks domains (toBlockInfos domains) where
  named b hb := by
    obtain ⟨i, hi, rfl⟩ := mem_toBlockInfos.mp hb
    have hkey : (domains.hosts.keys.insertionSort (· ≤ ·))[i] ∈ domains.hosts.keys :=
      (List.mem_insertionSort _).mp (List.getElem_mem hi)
    obtain ⟨hosts, hhosts⟩ := GoMap.mem_iff_lookup.mp (AList.mem_keys.mp hkey)
    refine ⟨hosts, hhosts, ?_⟩
    simp only [toBlockInfo, hhosts, Option.getD_some]
    exact List.perm_insertionSort _ _
  nodup := by
    have hnames : (toBlockInfos domains).map (·.name) =
        domains.hosts.keys.insertionSort (· ≤ ·) := by
      apply List.ext_getElem (by simp [toBlockInfos])
      intro i h1 h2
      simp [toBlockInfos, toBlockInfo]
    rw [hnames, (List.perm_insertionSort _ _).nodup_iff]
    exact domains.hosts.nodupKeys
  id_ne b hb := by
    obtain ⟨i, hi, rfl⟩ := mem_toBlockInfos.mp hb
    exact blockID_ne_empty (i + 1)

/-- Two blocks of the domains with one ID are the same block. -/
theorem eq_of_mem_toBlockInfos {b c : BlockInfo} (hb : b ∈ toBlockInfos domains)
    (hc : c ∈ toBlockInfos domains) (h : b.id = c.id) : b = c := by
  obtain ⟨i, hi, rfl⟩ := mem_toBlockInfos.mp hb
  obtain ⟨j, hj, rfl⟩ := mem_toBlockInfos.mp hc
  obtain rfl : i = j := by
    have := blockID_injective h
    omega
  rfl

/-! ## Updates of node infos -/

theorem lookup_updateNode (f : NodeInfo → NodeInfo) (info : GoMap String NodeInfo)
    (node n : String) :
    (updateNode f info node).lookup n =
      (info.lookup n).map fun i => if n = node then f i else i := by
  unfold updateNode
  cases h : info.lookup node with
  | none =>
    by_cases hn : n = node
    · rw [hn, h, Option.map_none]
    · simp [hn]
  | some nInfo =>
    dsimp only
    rw [GoMap.lookup_insert_eq_ite]
    by_cases hn : n = node
    · rw [if_pos hn, hn, h, Option.map_some, if_pos rfl]
    · simp [hn]

/-- A loop that makes the same idempotent update at some nodes. -/
theorem lookup_foldl_updateNode (f : NodeInfo → NodeInfo) (hf : ∀ i, f (f i) = f i)
    (nodes : List String) (info : GoMap String NodeInfo) (n : String) :
    (nodes.foldl (updateNode f) info).lookup n =
      (info.lookup n).map fun i => if n ∈ nodes then f i else i := by
  induction nodes generalizing info with
  | nil => simp
  | cons node nodes ih =>
    rw [List.foldl_cons, ih, lookup_updateNode, Option.map_map]
    congr 1
    funext i
    by_cases h1 : n = node
    · by_cases h2 : n ∈ nodes
      · simp [h1, hf]
      · simp [h1, hf]
    · by_cases h2 : n ∈ nodes
      · simp [h1, h2]
      · simp [h1, h2]

/-! ## The walk -/

section Walk

variable {ρ : Type} {heap : ρ → Vertex (Option ρ)} {root : ρ}

/-- The children of a vertex in the order of their keys. -/
def sortedChildren (heap : ρ → Vertex (Option ρ)) (v : ρ) : List ρ :=
  ((heap v).vertices.keys.insertionSort (· ≤ ·)).filterMap fun key =>
    ((heap v).vertices.lookup key).join

/-- What the walk of `initBlocks` does at a vertex. -/
def visitBlock (heap : ρ → Vertex (Option ρ)) (domainBlocks : List BlockInfo) (st : BlockState)
    (v : ρ) : BlockState :=
  if (heap v).vertices.entries = [] then visitLeaf domainBlocks (heap v).name st else st

/-- The names of the leaves of a list. -/
def leafNames (heap : ρ → Vertex (Option ρ)) (vs : List ρ) : List String :=
  (vs.filter fun v => IsLeaf heap v).map fun v => (heap v).name

/-- The loop is a breadth-first walk. -/
theorem blockLoop_eq_queueLoop (domainBlocks : List BlockInfo) (fuel : Nat) (queue : List ρ)
    (st : BlockState) :
    blockLoop heap domainBlocks fuel queue st = queueLoop (sortedChildren heap)
      (visitBlock heap domainBlocks) fuel queue st := by
  induction fuel generalizing queue st with
  | zero => rfl
  | succ fuel ih =>
    cases queue with
    | nil => rfl
    | cons v queue =>
      rw [blockLoop, queueLoop, visitBlock]
      by_cases hleaf : (heap v).vertices.entries = []
      · have hnone : sortedChildren heap v = [] := by
          rw [sortedChildren, AList.keys, List.keys, hleaf]
          rfl
        rw [if_pos hleaf, if_pos hleaf, hnone, List.append_nil, ih]
      · rw [if_neg hleaf, if_neg hleaf, ih]
        rfl

/-- Only the names of the leaves matter to the walk. -/
theorem foldl_visitBlock (domainBlocks : List BlockInfo) (vs : List ρ) (st : BlockState) :
    vs.foldl (visitBlock heap domainBlocks) st = (leafNames heap vs).foldl
      (fun st name => visitLeaf domainBlocks name st) st := by
  induction vs generalizing st with
  | nil => rfl
  | cons v vs ih =>
    rw [List.foldl_cons, ih, visitBlock, leafNames, leafNames]
    by_cases hleaf : IsLeaf heap v
    · rw [List.filter_cons_of_pos (by simpa using hleaf), List.map_cons, List.foldl_cons,
        if_pos (show (heap v).vertices.entries = [] from hleaf)]
    · rw [List.filter_cons_of_neg (by simpa using hleaf),
        if_neg (show ¬ (heap v).vertices.entries = [] from hleaf)]

/-- **The loop of `initBlocks` visits the leaves in breadth first order.** -/
theorem blockLoop_order {domainBlocks : List BlockInfo} {fuel : Nat} {st st' : BlockState}
    (h : blockLoop heap domainBlocks fuel [root] st = some st') :
    ∃ vs, BreadthFirst (sortedChildren heap) [root] vs ∧
      st' = (leafNames heap vs).foldl (fun st name => visitLeaf domainBlocks name st) st := by
  rw [blockLoop_eq_queueLoop] at h
  obtain ⟨vs, hvs, rfl⟩ := queueLoop_eq h
  exact ⟨vs, hvs, foldl_visitBlock domainBlocks vs st⟩

/-- The vertices queued behind a switch are its children. -/
theorem mem_sorted_children {v w : ρ} :
    w ∈ ((heap v).vertices.keys.insertionSort (· ≤ ·)).filterMap
        (fun key => ((heap v).vertices.lookup key).join) ↔ w ∈ childList heap v := by
  rw [List.mem_filterMap, childList, List.mem_filterMap]
  refine ⟨?_, ?_⟩
  · rintro ⟨key, -, hkey⟩
    have hlook : (heap v).vertices.lookup key = some (some w) := Option.join_eq_some_iff.mp hkey
    exact ⟨_, GoMap.lookup_eq_some_iff.mp hlook, rfl⟩
  · rintro ⟨⟨key, o⟩, he, ho⟩
    have hlook : (heap v).vertices.lookup key = some o := GoMap.lookup_eq_some_iff.mpr he
    refine ⟨key, ?_, by rw [hlook, Option.join_some]; exact ho⟩
    rw [List.mem_insertionSort]
    exact AList.mem_keys.mp (GoMap.mem_iff_lookup.mpr ⟨o, hlook⟩)

theorem mem_breadthFirst {vs : List ρ} (h : BreadthFirst (sortedChildren heap) [root] vs) {v : ρ} :
    v ∈ vs ↔ Relation.ReflTransGen (fun a b => b ∈ childList heap a) root v := by
  have hnext : (fun a b => b ∈ sortedChildren heap a) = fun a b => b ∈ childList heap a := by
    funext a b
    exact propext mem_sorted_children
  rw [h.mem_iff, hnext]
  simp

end Walk

/-- The node infos behind `markBlockNodes`. -/
theorem lookup_markBlockNodes (st : BlockState) (block : BlockInfo) (n : String) :
    (markBlockNodes st block).nodeInfo.lookup n = (st.nodeInfo.lookup n).map fun i =>
      if n ∈ block.nodes then { i with blockIndx := some st.blocks.length } else i :=
  lookup_foldl_updateNode (fun i => { i with blockIndx := some st.blocks.length }) (fun _ => rfl)
    block.nodes st.nodeInfo n

/-! ## The loop over the tier graph -/

/-- What holds of the nodes and blocks at every turn of the loop of `initBlocks`. -/
structure BlockInvariant (domainBlocks : List BlockInfo) (st : BlockState) : Prop where
  /-- Every block is a block of a domain with a new index. -/
  drawn : ∀ b ∈ st.blocks, ∃ d ∈ domainBlocks, b = { d with indx := b.indx }
  nodup : (st.blocks.map (·.id)).Nodup
  /-- A block ID names a block of the node. -/
  member : ∀ n i, st.nodeInfo.lookup n = some i → i.blockID ≠ "" →
    ∃ d ∈ domainBlocks, d.id = i.blockID ∧ n ∈ d.nodes
  /-- The nodes of a numbered block have an index. -/
  indexed : ∀ n i, st.nodeInfo.lookup n = some i → (∃ b ∈ st.blocks, b.id = i.blockID) →
    i.blockIndx ≠ none
  /-- A node with an index is listed in a numbered block. -/
  listed : ∀ n i, st.nodeInfo.lookup n = some i → i.blockIndx ≠ none → ∃ b ∈ st.blocks, n ∈ b.nodes

section Loop

variable {domainBlocks : List BlockInfo}
  (hunique : ∀ b ∈ domainBlocks, ∀ c ∈ domainBlocks, b.id = c.id → b = c)

include hunique

/-- Numbering the block of an unnumbered node keeps the invariant. -/
theorem BlockInvariant.mark {st : BlockState} (h : BlockInvariant domainBlocks st) {name : String}
    {nInfo : NodeInfo} (hlook : st.nodeInfo.lookup name = some nInfo)
    (hnone : nInfo.blockIndx = none) {block : BlockInfo} (hblock : block ∈ domainBlocks)
    (hid : block.id = nInfo.blockID) (hne : nInfo.blockID ≠ "") :
    BlockInvariant domainBlocks (markBlockNodes st block) := by
  have hblocks : (markBlockNodes st block).blocks = st.blocks ++
      [{ block with indx := st.blocks.length }] :=
    rfl
  refine ⟨?_, ?_, ?_, ?_, ?_⟩
  · intro b hb
    rw [hblocks] at hb
    rcases List.mem_append.mp hb with hb | hb
    · exact h.drawn b hb
    · exact ⟨block, hblock, by rw [List.mem_singleton.mp hb]⟩
  · -- A block that is already numbered has given its nodes an index.
    rw [hblocks, List.map_append, List.nodup_append]
    refine ⟨h.nodup, List.nodup_singleton _, ?_⟩
    intro a ha c hc hac
    obtain ⟨b, hb, rfl⟩ := List.mem_map.mp ha
    rw [List.map_singleton, List.mem_singleton] at hc
    exact h.indexed name nInfo hlook ⟨b, hb, by rw [hac, hc, ← hid]⟩ hnone
  · intro n i hi hid'
    rw [lookup_markBlockNodes] at hi
    obtain ⟨i', hi', rfl⟩ := Option.map_eq_some_iff.mp hi
    have hsame : (if n ∈ block.nodes then { i' with blockIndx := some st.blocks.length }
        else i').blockID = i'.blockID := by
      split_ifs <;> rfl
    rw [hsame] at hid' ⊢
    exact h.member n i' hi' hid'
  · intro n i hi hex
    rw [lookup_markBlockNodes] at hi
    obtain ⟨i', hi', rfl⟩ := Option.map_eq_some_iff.mp hi
    by_cases hn : n ∈ block.nodes
    · rw [if_pos hn]
      exact Option.some_ne_none _
    · rw [if_neg hn] at hex ⊢
      obtain ⟨b, hb, hbid⟩ := hex
      rw [hblocks] at hb
      rcases List.mem_append.mp hb with hb | hb
      · exact h.indexed n i' hi' ⟨b, hb, hbid⟩
      · -- The new block lists every node with its ID.
        rw [List.mem_singleton.mp hb] at hbid
        have hbid : block.id = i'.blockID := hbid
        obtain ⟨d, hd, hdid, hnd⟩ := h.member n i' hi' (by rw [← hbid, hid]; exact hne)
        rw [hunique d hd block hblock (by rw [hdid, hbid])] at hnd
        exact absurd hnd hn
  · intro n i hi hindx
    rw [lookup_markBlockNodes] at hi
    obtain ⟨i', hi', rfl⟩ := Option.map_eq_some_iff.mp hi
    rw [hblocks]
    by_cases hn : n ∈ block.nodes
    · exact ⟨_, List.mem_append_cons_self, hn⟩
    · rw [if_neg hn] at hindx
      obtain ⟨b, hb, hnb⟩ := h.listed n i' hi' hindx
      exact ⟨b, List.mem_append_left _ hb, hnb⟩

/-- One leaf keeps the invariant. -/
theorem BlockInvariant.visitLeaf {st : BlockState} (h : BlockInvariant domainBlocks st)
    (name : String) : BlockInvariant domainBlocks (Translate.visitLeaf domainBlocks name st) := by
  unfold Translate.visitLeaf
  cases hlook : st.nodeInfo.lookup name with
  | none => exact h
  | some nInfo =>
    dsimp only
    split_ifs with hc
    · cases hfind : domainBlocks.find? fun block => block.id = nInfo.blockID with
      | none => exact h
      | some block =>
        have hid : block.id = nInfo.blockID := by simpa using List.find?_some hfind
        exact h.mark hunique hlook hc.2 (List.mem_of_find?_eq_some hfind) hid hc.1
    · exact h

/-- **The whole loop keeps the invariant.** -/
theorem BlockInvariant.blockLoop {ρ : Type} {heap : ρ → Vertex (Option ρ)} {fuel : Nat} {root : ρ}
    {st st' : BlockState} (h : BlockInvariant domainBlocks st)
    (hloop : Translate.blockLoop heap domainBlocks fuel [root] st = some st') :
    BlockInvariant domainBlocks st' := by
  obtain ⟨vs, -, rfl⟩ := blockLoop_order hloop
  exact List.foldlRecOn _ _ h fun st hst name _ => hst.visitLeaf hunique name

end Loop

/-! ## The node infos of the tree -/

/-- Nodes that no block has touched. -/
def Blank (info : GoMap String NodeInfo) : Prop :=
  ∀ n i, info.lookup n = some i → i.blockID = "" ∧ i.blockIndx = none

theorem blank_empty : Blank ∅ := fun n i h => absurd h (by simp)

/-- The nodes of the tree are blank. -/
theorem blank_initTree {ρ : Type} {fuel : Nat} {graph : Option (Graph ρ)} {st : TreeState ρ}
    (h : initTree fuel graph = some (.ok st)) : Blank st.nodeInfo := by
  cases graph with
  | none =>
    rw [← Except.ok.inj (Option.some.inj h)]
    exact blank_empty
  | some graph =>
    cases htiers : graph.tiers with
    | none =>
      unfold initTree at h
      simp only [htiers] at h
      rw [← Except.ok.inj (Option.some.inj h)]
      exact blank_empty
    | some root =>
      obtain ⟨l, hspec⟩ := initTree_spec htiers h
      intro n i hi
      obtain ⟨v, p, -, -, rfl⟩ := (hspec.nodeInfo n i).mp hi
      exact ⟨rfl, rfl⟩

variable {info : GoMap String NodeInfo} {n : String} {i : NodeInfo}

/-- The block IDs that the blocks of the domains give to blank nodes. -/
theorem lookup_setBlockIDs {blocks : List BlockInfo}
    (h : (setBlockIDs blocks info).lookup n = some i) :
    ∃ i₀, info.lookup n = some i₀ ∧ i.blockIndx = i₀.blockIndx ∧
      (i.blockID = i₀.blockID ∨ ∃ d ∈ blocks, d.id = i.blockID ∧ n ∈ d.nodes) := by
  induction blocks generalizing info with
  | nil => exact ⟨i, h, rfl, Or.inl rfl⟩
  | cons block blocks ih =>
    obtain ⟨i₁, hi₁, hindx, hid⟩ := ih h
    have hstep := lookup_foldl_updateNode (fun i => { i with blockID := block.id }) (fun _ => rfl)
      block.nodes info n
    rw [hstep] at hi₁
    obtain ⟨i₀, hi₀, rfl⟩ := Option.map_eq_some_iff.mp hi₁
    refine ⟨i₀, hi₀, ?_, ?_⟩
    · rw [hindx]
      split_ifs <;> rfl
    · rcases hid with hid | ⟨d, hd, hdid, hnd⟩
      · by_cases hn : n ∈ block.nodes
        · rw [if_pos hn] at hid
          exact Or.inr ⟨block, List.mem_cons_self, hid.symm, hn⟩
        · rw [if_neg hn] at hid
          exact Or.inl hid
      · exact Or.inr ⟨d, List.mem_cons_of_mem block hd, hdid, hnd⟩

/-- The invariant holds when the loop begins. -/
theorem BlockInvariant.start {domainBlocks : List BlockInfo} (h : Blank info) :
    BlockInvariant domainBlocks ⟨setBlockIDs domainBlocks info, []⟩ where
  drawn b hb := by simp at hb
  nodup := List.nodup_nil
  member n i hi hne := by
    obtain ⟨i₀, hi₀, -, hid | hmem⟩ := lookup_setBlockIDs hi
    · rw [hid, (h n i₀ hi₀).1] at hne
      exact absurd rfl hne
    · exact hmem
  indexed n i _ hex := by
    obtain ⟨b, hb, -⟩ := hex
    simp at hb
  listed n i hi hindx := by
    obtain ⟨i₀, hi₀, hsame, -⟩ := lookup_setBlockIDs hi
    rw [hsame, (h n i₀ hi₀).2] at hindx
    exact absurd rfl hindx

/-! ## Every node is met -/

/-- A node whose block ID is settled: its block, or another one that lists it, has been numbered. -/
def Settled (st : BlockState) (n : String) : Prop :=
  ∀ i, st.nodeInfo.lookup n = some i → i.blockID ≠ "" → i.blockIndx ≠ none

/-- Numbering a block keeps nodes settled and settles its own. -/
theorem settled_markBlockNodes {st : BlockState} {block : BlockInfo}
    (h : Settled st n ∨ n ∈ block.nodes) : Settled (markBlockNodes st block) n := by
  intro i hi hne
  rw [lookup_markBlockNodes] at hi
  obtain ⟨i', hi', rfl⟩ := Option.map_eq_some_iff.mp hi
  by_cases hn : n ∈ block.nodes
  · rw [if_pos hn]
    exact Option.some_ne_none _
  · rw [if_neg hn] at hne ⊢
    exact h.resolve_right hn i' hi' hne

theorem settled_visitLeaf {domainBlocks : List BlockInfo} {st : BlockState}
    (hinv : BlockInvariant domainBlocks st)
    (hunique : ∀ b ∈ domainBlocks, ∀ c ∈ domainBlocks, b.id = c.id → b = c) {name n : String}
    (h : Settled st n ∨ n = name) : Settled (visitLeaf domainBlocks name st) n := by
  unfold visitLeaf
  cases hlook : st.nodeInfo.lookup name with
  | none =>
    rcases h with h | rfl
    · exact h
    · intro i hi
      rw [show st.nodeInfo.lookup n = none from hlook] at hi
      exact absurd hi (by simp)
  | some nInfo =>
    dsimp only
    split_ifs with hc
    · cases hfind : domainBlocks.find? fun block => block.id = nInfo.blockID with
      | none =>
        -- The block ID of a node names one of the blocks.
        obtain ⟨d, hd, hdid, -⟩ := hinv.member name nInfo hlook hc.1
        have := List.find?_eq_none.mp hfind d hd
        simp [hdid] at this
      | some block =>
        have hid : block.id = nInfo.blockID := by simpa using List.find?_some hfind
        obtain ⟨d, hd, hdid, hnd⟩ := hinv.member name nInfo hlook hc.1
        obtain rfl := hunique d hd block (List.mem_of_find?_eq_some hfind) (by rw [hdid, hid])
        apply settled_markBlockNodes
        rcases h with h | rfl
        · exact Or.inl h
        · exact Or.inr hnd
    · rcases h with h | rfl
      · exact h
      · intro i hi hne hnone
        rw [show st.nodeInfo.lookup n = some nInfo from hlook] at hi
        obtain rfl := Option.some.inj hi
        exact hc ⟨hne, hnone⟩

/-- **The loop settles every leaf below the root.** -/
theorem settled_blockLoop {ρ : Type} {heap : ρ → Vertex (Option ρ)} {domainBlocks : List BlockInfo}
    (hunique : ∀ b ∈ domainBlocks, ∀ c ∈ domainBlocks, b.id = c.id → b = c) {fuel : Nat} {root : ρ}
    {st st' : BlockState} (hinv : BlockInvariant domainBlocks st)
    (hloop : blockLoop heap domainBlocks fuel [root] st = some st') {w : ρ}
    (hroot : Relation.ReflTransGen (fun a b => b ∈ childList heap a) root w) (hw : IsLeaf heap w) :
    Settled st' (heap w).name := by
  obtain ⟨vs, hvs, rfl⟩ := blockLoop_order hloop
  refine (Loops.foldl_rule (I := fun done st => BlockInvariant domainBlocks st ∧
    ∀ n ∈ done, Settled st n) ⟨hinv, by simp⟩ ?_).2 _
    (List.mem_map.mpr ⟨w, List.mem_filter.mpr ⟨(mem_breadthFirst hvs).mpr hroot, by simpa using hw⟩,
      rfl⟩)
  intro done name rest st _ hst
  refine ⟨hst.1.visitLeaf hunique name, fun n hn => settled_visitLeaf hst.1 hunique ?_⟩
  exact (List.mem_append.mp hn).imp (hst.2 n) List.mem_singleton.mp

theorem reaches_of_path {ρ : Type} {heap : ρ → Vertex (Option ρ)} {root v : ρ} {p : List String}
    (h : Path heap root v p) : Relation.ReflTransGen (fun a b => b ∈ childList heap a) root v := by
  induction h with
  | root => exact Relation.ReflTransGen.refl
  | child _ hw ih => exact ih.tail hw

/-! ## What blocks leave alone -/

/-- The place of a node in the tree. -/
def NodeInfo.place (i : NodeInfo) : String × List String := (i.instanceID, i.switches)

/-- An update that keeps places. -/
theorem map_place_foldl_updateNode (f : NodeInfo → NodeInfo) (hf : ∀ i, f (f i) = f i)
    (hplace : ∀ i, (f i).place = i.place) (nodes : List String) (info : GoMap String NodeInfo)
    (n : String) :
    ((nodes.foldl (updateNode f) info).lookup n).map NodeInfo.place =
      (info.lookup n).map NodeInfo.place := by
  rw [lookup_foldl_updateNode f hf, Option.map_map]
  congr 1
  funext i
  show NodeInfo.place (if n ∈ nodes then f i else i) = i.place
  split_ifs
  · exact hplace i
  · rfl

theorem map_place_setBlockIDs (blocks : List BlockInfo) (info : GoMap String NodeInfo)
    (n : String) :
    ((setBlockIDs blocks info).lookup n).map NodeInfo.place =
      (info.lookup n).map NodeInfo.place := by
  induction blocks generalizing info with
  | nil => rfl
  | cons block blocks ih =>
    refine (ih _).trans ?_
    exact map_place_foldl_updateNode (fun i => { i with blockID := block.id }) (fun _ => rfl)
      (fun _ => rfl) block.nodes info n

/-- A leaf changes blocks, and no places in the tree. -/
theorem map_place_visitLeaf (domainBlocks : List BlockInfo) (name : String) (st : BlockState)
    (n : String) :
    ((visitLeaf domainBlocks name st).nodeInfo.lookup n).map NodeInfo.place =
      (st.nodeInfo.lookup n).map NodeInfo.place := by
  unfold visitLeaf
  cases st.nodeInfo.lookup name with
  | none => rfl
  | some nInfo =>
    dsimp only
    split_ifs
    · cases domainBlocks.find? fun block => block.id = nInfo.blockID with
      | none => rfl
      | some block =>
        exact map_place_foldl_updateNode (fun i => { i with blockIndx := some st.blocks.length })
          (fun _ => rfl) (fun _ => rfl) block.nodes st.nodeInfo n
    · rfl

/-- **Blocks do not move nodes** in the tree. -/
theorem map_place_blockLoop {ρ : Type} {heap : ρ → Vertex (Option ρ)}
    {domainBlocks : List BlockInfo} {fuel : Nat} {root : ρ} {st st' : BlockState}
    (hloop : blockLoop heap domainBlocks fuel [root] st = some st') (n : String) :
    (st'.nodeInfo.lookup n).map NodeInfo.place = (st.nodeInfo.lookup n).map NodeInfo.place := by
  obtain ⟨vs, -, rfl⟩ := blockLoop_order hloop
  refine List.foldlRecOn (motive := fun st' => (BlockState.nodeInfo st' |>.lookup n).map
    NodeInfo.place = _) _ _ rfl fun st hst name _ => ?_
  rw [map_place_visitLeaf, hst]

/-! ## The blocks of a topology -/

variable {pkg : RegexpPackage} {cfg : Config pkg}

/-- The parts of an accepted topology. -/
theorem Accepts.parts {ρ : Type} {graph : Option (Graph ρ)} {nt : NetworkTopology pkg ρ}
    (h : Accepts graph cfg nt) :
    ∃ fuel config st r, cfg.validate graph = .ok config ∧ initTree fuel graph = some (.ok st) ∧
      initBlocks fuel graph st.nodeInfo = some r ∧
      nt = { config := config, tree := st.tree, domains := r.1, blocks := r.2.blocks
             vertices := st.vertices, nodeInfo := r.2.nodeInfo } := by
  obtain ⟨fuel, h⟩ := h
  unfold newNetworkTopology at h
  split at h
  · exact absurd h (by simp)
  · rename_i config hvalid
    split at h
    · exact absurd h (by simp)
    · exact absurd h (by simp)
    · rename_i st htree
      obtain ⟨r, hr, hnt⟩ := Option.map_eq_some_iff.mp h
      exact ⟨fuel, config, st, r, hvalid, htree, hr, (Except.ok.inj hnt).symm⟩

/-- A cluster-wide topology keeps its plugin and has no partitions. -/
theorem Accepts.config_plugin {ρ : Type} {graph : Option (Graph ρ)} {nt : NetworkTopology pkg ρ}
    (h : Accepts graph cfg nt) (hplugin : cfg.plugin ≠ "") :
    nt.config.topologies.entries = [] ∧ nt.config.plugin = cfg.plugin := by
  obtain ⟨fuel, config, st, r, hvalid, -, -, rfl⟩ := h.parts
  obtain ⟨blockName, topologies, rfl, -, ⟨-, hempty, -⟩ | ⟨htop, rfl, -⟩⟩ :=
    Config.validate_eq_ok hvalid
  · exact absurd hempty hplugin
  · exact ⟨htop, rfl⟩

/-- The two ways in which blocks come about. -/
theorem initBlocks_cases {ρ : Type} {fuel : Nat} {graph : Option (Graph ρ)}
    {r : Option DomainMap × BlockState} (h : initBlocks fuel graph info = some r) :
    (r = (none, ⟨info, []⟩)) ∨
      ∃ g domains, graph = some g ∧ g.domains = some domains ∧ domains.hosts.entries ≠ [] ∧
        r.1 = some domains ∧
        ((g.tiers = none ∧ r.2 = (toBlockInfos domains).foldl (addBlock domains) ⟨info, []⟩) ∨
          ∃ root, g.tiers = some root ∧ blockLoop g.heap (toBlockInfos domains) fuel [root]
            ⟨setBlockIDs (toBlockInfos domains) info, []⟩ = some r.2) := by
  unfold initBlocks at h
  cases graph with
  | none => exact Or.inl (Option.some.inj h).symm
  | some g =>
    cases hd : g.domains with
    | none =>
      simp only [hd] at h
      exact Or.inl (Option.some.inj h).symm
    | some domains =>
      simp only [hd] at h
      split_ifs at h with hempty
      · exact Or.inl (Option.some.inj h).symm
      · right
        refine ⟨g, domains, rfl, hd, hempty, ?_⟩
        cases htiers : g.tiers with
        | none =>
          simp only [htiers] at h
          obtain rfl := Option.some.inj h
          exact ⟨rfl, Or.inl ⟨rfl, rfl⟩⟩
        | some root =>
          simp only [htiers] at h
          obtain ⟨st, hst, rfl⟩ := Option.map_eq_some_iff.mp h
          exact ⟨rfl, Or.inr ⟨root, rfl, hst⟩⟩

/-- Without tiers the blocks of all domains are taken over. -/
theorem blocks_foldl_addBlock (domains : DomainMap) (bs : List BlockInfo) (st : BlockState) :
    (bs.foldl (addBlock domains) st).blocks.map (fun b => (b.id, b.name, b.nodes)) =
      st.blocks.map (fun b => (b.id, b.name, b.nodes)) ++ bs.map fun b =>
        (b.id, b.name, b.nodes) := by
  induction bs generalizing st with
  | nil => simp
  | cons b bs ih =>
    rw [List.foldl_cons, ih]
    simp [addBlock]

/-- A block adds node infos for its own nodes only. -/
theorem lookup_addBlock {st : BlockState} {b : BlockInfo} (hn : n ∉ b.nodes) :
    (addBlock domains st b).nodeInfo.lookup n = st.nodeInfo.lookup n := by
  unfold addBlock
  dsimp only
  generalize st.nodeInfo = info
  revert hn info
  generalize b.nodes = nodes
  intro hn info
  induction nodes generalizing info with
  | nil => rfl
  | cons node nodes ih =>
    obtain ⟨hne, hn⟩ := not_or.mp (List.mem_cons.not.mp hn)
    rw [List.foldl_cons, ih hn]
    split
    · rfl
    · rw [GoMap.lookup_insert_eq_ite, if_neg hne]

/-- Without tiers only the nodes of the blocks are known. -/
theorem mem_foldl_addBlock {bs : List BlockInfo} {st : BlockState}
    (h : (bs.foldl (addBlock domains) st).nodeInfo.lookup n = some i) :
    (∃ b ∈ bs, n ∈ b.nodes) ∨ st.nodeInfo.lookup n = some i := by
  induction bs generalizing st with
  | nil => exact Or.inr h
  | cons b bs ih =>
    rcases ih h with ⟨c, hc, hn⟩ | hold
    · exact Or.inl ⟨c, List.mem_cons_of_mem b hc, hn⟩
    · by_cases hn : n ∈ b.nodes
      · exact Or.inl ⟨b, List.mem_cons_self, hn⟩
      · exact Or.inr (by rw [← lookup_addBlock hn]; exact hold)

/-- Blocks that are drawn from those of the domains, each at most once. -/
theorem ownBlocks_of_drawn {blocks : List BlockInfo}
    (hdrawn : ∀ b ∈ blocks, ∃ d ∈ toBlockInfos domains, b = { d with indx := b.indx })
    (hnodup : (blocks.map (·.id)).Nodup) : OwnBlocks domains blocks where
  named b hb := by
    obtain ⟨d, hd, hbd⟩ := hdrawn b hb
    rw [hbd]
    exact (ownBlocks_toBlockInfos domains).named d hd
  nodup := by
    -- Blocks with one name are drawn from one block of the domains, so they have one ID.
    apply List.Nodup.map_on _ (List.Nodup.of_map _ hnodup)
    intro b hb c hc hname
    obtain ⟨d, hd, hbd⟩ := hdrawn b hb
    obtain ⟨e, he, hce⟩ := hdrawn c hc
    have hde : d = e := by
      apply List.inj_on_of_nodup_map (ownBlocks_toBlockInfos domains).nodup hd he
      rw [hbd, hce] at hname
      exact hname
    apply List.inj_on_of_nodup_map hnodup hb hc
    rw [hbd, hce, hde]
  id_ne b hb := by
    obtain ⟨d, hd, hbd⟩ := hdrawn b hb
    rw [hbd]
    exact (ownBlocks_toBlockInfos domains).id_ne d hd

theorem nodup_id_toBlockInfos (domains : DomainMap) :
    ((toBlockInfos domains).map (·.id)).Nodup := by
  refine List.Nodup.map_on (fun b hb c hc => eq_of_mem_toBlockInfos hb hc) ?_
  exact List.Nodup.of_map _ (ownBlocks_toBlockInfos domains).nodup

/-- The blocks of an accepted topology are drawn from those of its domains, each at most once. -/
theorem Accepts.drawn {ρ : Type} {graph : Option (Graph ρ)} {nt : NetworkTopology pkg ρ}
    (h : Accepts graph cfg nt) :
    nt.blocks = [] ∨ ∃ domains, nt.domains = some domains ∧
      (∀ b ∈ nt.blocks, ∃ d ∈ toBlockInfos domains, b = { d with indx := b.indx }) ∧
      (nt.blocks.map (·.id)).Nodup := by
  obtain ⟨fuel, config, st, r, -, htree, hr, rfl⟩ := h.parts
  rcases initBlocks_cases hr with rfl | ⟨g, domains, -, -, -, hr1, ⟨-, hr2⟩ | ⟨root, -, hloop⟩⟩
  · exact Or.inl rfl
  · have hmap := blocks_foldl_addBlock domains (toBlockInfos domains) ⟨st.nodeInfo, []⟩
    rw [← hr2, List.map_nil, List.nil_append] at hmap
    refine Or.inr ⟨domains, hr1, fun b hb => ?_, ?_⟩
    · obtain ⟨d, hd, hbd⟩ := List.mem_map.mp (hmap ▸ List.mem_map_of_mem hb)
      obtain ⟨hid, hname, hnodes⟩ := by simpa only [Prod.mk.injEq] using hbd
      exact ⟨d, hd, by rw [hid, hname, hnodes]⟩
    · have hids := congrArg (List.map fun t : String × String × List String => t.1) hmap
      rw [List.map_map, List.map_map] at hids
      exact (show r.2.blocks.map (·.id) = (toBlockInfos domains).map (·.id) from hids) ▸
        nodup_id_toBlockInfos domains
  · have hinv := (BlockInvariant.start (blank_initTree htree)).blockLoop (fun b hb c hc =>
      eq_of_mem_toBlockInfos hb hc) hloop
    exact Or.inr ⟨domains, hr1, hinv.drawn, hinv.nodup⟩

/-- **The blocks of an accepted topology are blocks of its domains**, each domain at most once. -/
theorem Accepts.ownBlocks {ρ : Type} {graph : Option (Graph ρ)} {nt : NetworkTopology pkg ρ}
    (h : Accepts graph cfg nt) (hd : nt.domains = some domains) : OwnBlocks domains nt.blocks := by
  rcases h.drawn with hnil | ⟨domains', hd', hdrawn, hnodup⟩
  · rw [hnil]
    exact ⟨by simp, List.nodup_nil, by simp⟩
  · obtain rfl : domains' = domains := Option.some.inj (hd'.symm.trans hd)
    exact ownBlocks_of_drawn hdrawn hnodup

/-- The blocks of an accepted topology have different IDs. -/
theorem Accepts.nodup_id {ρ : Type} {graph : Option (Graph ρ)} {nt : NetworkTopology pkg ρ}
    (h : Accepts graph cfg nt) : (nt.blocks.map (·.id)).Nodup := by
  rcases h.drawn with hnil | ⟨-, -, -, hnodup⟩
  · rw [hnil]
    exact List.nodup_nil
  · exact hnodup

/-- **A node with a block ID is listed** in one of the blocks. -/
theorem Accepts.mem_blocks {ρ : Type} {graph : Option (Graph ρ)} {nt : NetworkTopology pkg ρ}
    (h : Accepts graph cfg nt) (hi : nt.nodeInfo.lookup n = some i) (hne : i.blockID ≠ "") :
    ∃ b ∈ nt.blocks, n ∈ b.nodes := by
  obtain ⟨fuel, config, st, r, -, htree, hr, rfl⟩ := h.parts
  have hblank := blank_initTree htree
  rcases initBlocks_cases hr with rfl | ⟨g, domains, rfl, -, -, -,
    ⟨htiers, hr2⟩ | ⟨root, htiers, hloop⟩⟩
  · exact absurd (hblank n i hi).1 hne
  · have hmap := blocks_foldl_addBlock domains (toBlockInfos domains) ⟨st.nodeInfo, []⟩
    rw [← hr2] at hmap
    have hlook : r.2.nodeInfo.lookup n = some i := hi
    rw [hr2] at hlook
    rcases mem_foldl_addBlock hlook with ⟨b, hb, hn⟩ | hold
    · have hb' : (b.id, b.name, b.nodes) ∈ r.2.blocks.map fun b => (b.id, b.name, b.nodes) := by
        rw [hmap]
        exact List.mem_append_right _ (List.mem_map_of_mem hb)
      obtain ⟨c, hc, hcb⟩ := List.mem_map.mp hb'
      obtain ⟨-, -, hnodes⟩ := by simpa only [Prod.mk.injEq] using hcb
      exact ⟨c, hc, hnodes ▸ hn⟩
    · exact absurd (hblank n i hold).1 hne
  · have hunique : ∀ b ∈ toBlockInfos domains, ∀ c ∈ toBlockInfos domains, b.id = c.id → b = c :=
      fun b hb c hc => eq_of_mem_toBlockInfos hb hc
    have hstart : BlockInvariant (toBlockInfos domains) _ := .start hblank
    apply (hstart.blockLoop hunique hloop).listed n i hi
    -- The node is a leaf below the root, so the loop has met it.
    obtain ⟨l, hspec⟩ := initTree_spec htiers htree
    have hplace := map_place_blockLoop hloop n
    rw [show r.2.nodeInfo.lookup n = some i from hi, map_place_setBlockIDs, Option.map_some]
      at hplace
    obtain ⟨i₀, hi₀, -⟩ := Option.map_eq_some_iff.mp hplace.symm
    obtain ⟨v, p, hv, hpath, -⟩ := (hspec.nodeInfo n i₀).mp hi₀
    obtain ⟨hleaf, rfl⟩ : IsLeaf g.heap v ∧ (g.heap v).name = n := by
      simpa using List.find?_some hv
    exact settled_blockLoop hunique hstart hloop (reaches_of_path hpath) hleaf i hi hne

end Topograph.Translate
