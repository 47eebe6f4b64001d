import Topograph.Translate.BlockSpec
import Topograph.Translate.PartitionTree

/-! # The order of blocks

`initBlocks` walks the tree level by level, the children of a switch by key, and numbers the block
of a domain when it meets the first host of it. So the blocks stand in the order of their first
hosts, and a node has the index of its block (`blocks_follow_tree`). That an index leads to a block
with the node holds for overlapping domains as well (`Accepts.indexed`). -/

namespace Topograph.Translate

open Topograph.Topology

variable {pkg : RegexpPackage} {ρ : Type} {heap : ρ → Vertex (Option ρ)}

/-! ## The walk -/

variable {root : ρ} {n : String}

/-- The walk meets the leaves below the root. -/
theorem mem_leafNames {vs : List ρ} (h : BreadthFirst (sortedChildren heap) [root] vs) :
    n ∈ leafNames heap vs ↔ ∃ v, AtOrUnder heap root v ∧ IsLeaf heap v ∧ (heap v).name = n := by
  simp only [leafNames, List.mem_map, List.mem_filter, mem_breadthFirst h,
    decide_eq_true_eq, and_assoc]
  rfl

/-! ## Indices -/

/-- A block has its place as index, and the index of a node leads to a block that lists it. -/
structure Indexed (st : BlockState) : Prop where
  indx : ∀ i (b : BlockInfo), st.blocks[i]? = some b → b.indx = i
  listed : ∀ n info k, st.nodeInfo.lookup n = some info → info.blockIndx = some k →
    ∃ b, st.blocks[k]? = some b ∧ n ∈ b.nodes

/-- An index below the end is kept when a block is appended. -/
theorem getElem?_append_some {α : Type} {l l' : List α} {i : Nat} {a : α} (h : l[i]? = some a) :
    (l ++ l')[i]? = some a := by
  rw [List.getElem?_append_left (List.getElem?_eq_some_iff.mp h).1, h]

theorem indx_concat {blocks : List BlockInfo} (h : ∀ i (b : BlockInfo), blocks[i]? = some b →
      b.indx = i) (block : BlockInfo) (i : Nat) (b : BlockInfo)
    (hb : (blocks ++ [{ block with indx := blocks.length }])[i]? = some b) : b.indx = i := by
  rcases Nat.lt_or_ge i blocks.length with hi | hi
  · rw [List.getElem?_append_left hi] at hb
    exact h i b hb
  · rw [List.getElem?_append_right hi] at hb
    obtain ⟨hlt, rfl⟩ := List.getElem?_eq_some_iff.mp hb
    rw [List.length_singleton] at hlt
    simp only [List.getElem_singleton]
    omega

variable {st : BlockState}

/-- Marking nodes keeps blocks indexed by their places. -/
theorem Indexed.mark (h : Indexed st) (block : BlockInfo) : Indexed (markBlockNodes st block) where
  indx i b hb := indx_concat h.indx block i b hb
  listed n info k hlook hk := by
    rw [lookup_markBlockNodes] at hlook
    obtain ⟨i, hi, rfl⟩ := Option.map_eq_some_iff.mp hlook
    by_cases hn : n ∈ block.nodes
    · rw [if_pos hn] at hk
      obtain rfl := Option.some.inj hk
      exact ⟨_, List.getElem?_concat_length, hn⟩
    · rw [if_neg hn] at hk
      obtain ⟨b, hb, hnb⟩ := h.listed n i k hi hk
      exact ⟨b, getElem?_append_some hb, hnb⟩

theorem Indexed.visitLeaf (h : Indexed st) (domainBlocks : List BlockInfo) (name : String) :
    Indexed (Translate.visitLeaf domainBlocks name st) := by
  unfold Translate.visitLeaf
  split
  · exact h
  · split_ifs
    · split
      · exact h.mark _
      · exact h
    · exact h

variable {domains : DomainMap} {b : BlockInfo}

/-- Without tiers a block brings its nodes along. -/
theorem lookup_addBlock_eq {i : NodeInfo} (h : (addBlock domains st b).nodeInfo.lookup n = some i) :
    (n ∈ b.nodes ∧ i.blockIndx = some st.blocks.length) ∨ st.nodeInfo.lookup n = some i := by
  unfold addBlock at h
  dsimp only at h
  revert h
  generalize st.nodeInfo = info
  generalize b.nodes = nodes
  induction nodes generalizing info with
  | nil => exact Or.inr
  | cons node nodes ih =>
    intro h
    rw [List.foldl_cons] at h
    rcases ih _ h with ⟨hn, hindx⟩ | hold
    · exact Or.inl ⟨List.mem_cons_of_mem node hn, hindx⟩
    · split at hold
      · exact Or.inr hold
      · rw [GoMap.lookup_insert_eq_ite] at hold
        split_ifs at hold with heq
        · rw [← Option.some.inj hold]
          exact Or.inl ⟨heq ▸ List.mem_cons_self, rfl⟩
        · exact Or.inr hold

/-- A new block is indexed by its place. -/
theorem Indexed.addBlock (h : Indexed st) (domains : DomainMap) (b : BlockInfo) :
    Indexed (Translate.addBlock domains st b) where
  indx i c hc := indx_concat h.indx b i c hc
  listed n info k hlook hk := by
    rcases lookup_addBlock_eq hlook with ⟨hn, hindx⟩ | hold
    · obtain rfl := Option.some.inj (hindx.symm.trans hk)
      exact ⟨_, List.getElem?_concat_length, hn⟩
    · obtain ⟨c, hc, hnc⟩ := h.listed n info k hold hk
      exact ⟨c, getElem?_append_some hc, hnc⟩

variable {info : GoMap String NodeInfo}

/-- Nodes that no block has touched have no index. -/
theorem Indexed.start (h : ∀ n i, info.lookup n = some i → i.blockIndx = none) :
    Indexed ⟨info, []⟩ where
  indx i b hb := absurd hb (by simp)
  listed n i k hi hk := absurd ((h n i hi).symm.trans hk) (by simp)

theorem blockIndx_setBlockIDs (h : Blank info) (blocks : List BlockInfo) (n : String) (i : NodeInfo)
    (hi : (setBlockIDs blocks info).lookup n = some i) : i.blockIndx = none := by
  obtain ⟨i₀, hi₀, hsame, -⟩ := lookup_setBlockIDs hi
  rw [hsame, (h n i₀ hi₀).2]

variable {nt : NetworkTopology pkg ρ}

/-- **The index of a node leads to a block that lists it**, for every accepted graph. -/
theorem Accepts.indexed {graph : Option (Graph ρ)} {cfg : Config pkg} (h : Accepts graph cfg nt) :
    Indexed ⟨nt.nodeInfo, nt.blocks⟩ := by
  obtain ⟨fuel, config, st, r, -, htree, hr, rfl⟩ := h.parts
  have hblank := blank_initTree htree
  show Indexed r.2
  rcases initBlocks_cases hr with rfl | ⟨g, domains, rfl, -, -, -,
    ⟨htiers, hr2⟩ | ⟨root, htiers, hloop⟩⟩
  · exact Indexed.start fun n i hi => (hblank n i hi).2
  · rw [hr2]
    refine List.foldlRecOn _ _ (Indexed.start fun n i hi => (hblank n i hi).2) fun st hst b _ => ?_
    exact hst.addBlock domains b
  · obtain ⟨vs, -, hvs⟩ := blockLoop_order hloop
    rw [hvs]
    refine List.foldlRecOn _ _ (Indexed.start (blockIndx_setBlockIDs hblank _)) fun st hst name _ =>
      ?_
    exact hst.visitLeaf _ name

/-! ## First hosts -/

/-- What holds when the leaves `done` are met, for blocks of disjoint domains. -/
structure Met (domainBlocks : List BlockInfo) (done : List String) (st : BlockState) :
    Prop extends Indexed st where
  drawn : ∀ b ∈ st.blocks, ∃ d ∈ domainBlocks, b = { d with indx := b.indx }
  /-- The block IDs are those of the domains. -/
  owner : ∀ n i, st.nodeInfo.lookup n = some i → ∀ d ∈ domainBlocks, n ∈ d.nodes → i.blockID = d.id
  member : ∀ n i, st.nodeInfo.lookup n = some i → i.blockID ≠ "" →
    ∃ d ∈ domainBlocks, d.id = i.blockID ∧ n ∈ d.nodes
  /-- The blocks are those of which a host is met. -/
  met : ∀ d ∈ domainBlocks, (∃ b ∈ st.blocks, b.id = d.id) ↔ ∃ n ∈ done, n ∈ d.nodes
  ordered : st.blocks.Pairwise fun a b => done.findIdx (· ∈ a.nodes) < done.findIdx (· ∈ b.nodes)
  marked : ∀ n i k b, st.nodeInfo.lookup n = some i → st.blocks[k]? = some b → n ∈ b.nodes →
    i.blockIndx = some k

variable {done : List String} {name : String}

/-- Once a host of a block is met, the place of the first one stays. -/
theorem findIdx_concat_of_met {nodes : List String} (h : ∃ n ∈ done, n ∈ nodes) :
    (done ++ [name]).findIdx (· ∈ nodes) = done.findIdx (· ∈ nodes) := by
  obtain ⟨n, hn, hmem⟩ := h
  rw [List.findIdx_append, if_pos]
  exact List.findIdx_lt_length_of_exists ⟨n, hn, by simpa using hmem⟩

/-- A host of every block is met. -/
theorem Met.exists_host {domainBlocks : List BlockInfo} (h : Met domainBlocks done st)
    (hb : b ∈ st.blocks) : ∃ n ∈ done, n ∈ b.nodes := by
  obtain ⟨d, hd, hbd⟩ := h.drawn b hb
  obtain ⟨n, hn, hmem⟩ := (h.met d hd).mp ⟨b, hb, by rw [hbd]⟩
  exact ⟨n, hn, by rw [hbd]; exact hmem⟩

/-- The order of the blocks does not change when another leaf is met. -/
theorem Met.ordered_concat {domainBlocks : List BlockInfo} (h : Met domainBlocks done st)
    (name : String) :
    st.blocks.Pairwise fun a b => (done ++ [name]).findIdx (· ∈ a.nodes) < (done ++ [name]).findIdx
      (· ∈ b.nodes) := by
  refine h.ordered.imp_of_mem fun {a b} ha hb hlt => ?_
  rwa [findIdx_concat_of_met (h.exists_host ha), findIdx_concat_of_met (h.exists_host hb)]

/-- A leaf of a numbered block, or of no block, changes nothing. -/
theorem Met.skip {domainBlocks : List BlockInfo} (h : Met domainBlocks done st)
    (hname : ∀ d ∈ domainBlocks, name ∈ d.nodes → ∃ b ∈ st.blocks, b.id = d.id) :
    Met domainBlocks (done ++ [name]) st where
  toIndexed := h.toIndexed
  drawn := h.drawn
  owner := h.owner
  member := h.member
  met d hd := by
    rw [h.met d hd]
    constructor
    · rintro ⟨n, hn, hmem⟩
      exact ⟨n, List.mem_append_left _ hn, hmem⟩
    · rintro ⟨n, hn, hmem⟩
      rcases List.mem_append.mp hn with hn | hn
      · exact ⟨n, hn, hmem⟩
      · obtain rfl := List.mem_singleton.mp hn
        exact (h.met d hd).mp (hname d hd hmem)
  ordered := h.ordered_concat name
  marked := h.marked

/-- Marking changes the index of the block's nodes. -/
theorem exists_of_lookup_mark {block : BlockInfo} {n : String} {i : NodeInfo}
    (hi : (markBlockNodes st block).nodeInfo.lookup n = some i) :
    ∃ i₀, st.nodeInfo.lookup n = some i₀ ∧
      i = if n ∈ block.nodes then { i₀ with blockIndx := some st.blocks.length } else i₀ := by
  rw [lookup_markBlockNodes] at hi
  obtain ⟨i₀, hi₀, heq⟩ := Option.map_eq_some_iff.mp hi
  exact ⟨i₀, hi₀, heq.symm⟩

/-- Marking keeps the block IDs. -/
theorem blockID_of_lookup_mark {block : BlockInfo} {n : String} {i : NodeInfo}
    (hi : (markBlockNodes st block).nodeInfo.lookup n = some i) :
    ∃ i₀, st.nodeInfo.lookup n = some i₀ ∧ i.blockID = i₀.blockID := by
  obtain ⟨i₀, hi₀, rfl⟩ := exists_of_lookup_mark hi
  exact ⟨i₀, hi₀, by split_ifs <;> rfl⟩

/-- A block of which no host was met comes last. -/
theorem Met.ordered_mark {domainBlocks : List BlockInfo} (h : Met domainBlocks done st)
    {block : BlockInfo} (hunmet : ¬ ∃ n ∈ done, n ∈ block.nodes) :
    (markBlockNodes st block).blocks.Pairwise fun a b =>
      (done ++ [name]).findIdx (· ∈ a.nodes) < (done ++ [name]).findIdx (· ∈ b.nodes) := by
  refine List.pairwise_append.mpr
    ⟨h.ordered_concat name, List.pairwise_singleton _ _, fun a ha b hb => ?_⟩
  rw [List.mem_singleton.mp hb, findIdx_concat_of_met (h.exists_host ha),
    List.findIdx_append, if_neg]
  · obtain ⟨n, hn, hmem⟩ := h.exists_host ha
    have hlt : done.findIdx (· ∈ a.nodes) < done.length :=
      List.findIdx_lt_length_of_exists ⟨n, hn, by simpa using hmem⟩
    omega
  · intro hlt
    obtain ⟨n, hn, hmem⟩ := List.findIdx_lt_length.mp hlt
    exact hunmet ⟨n, hn, by simpa using hmem⟩

/-- The nodes carry the indices of their blocks, if the nodes of the new block are in no older
one. -/
theorem Met.marked_mark {domainBlocks : List BlockInfo} (h : Met domainBlocks done st)
    {block : BlockInfo} (hold : ∀ b ∈ st.blocks, ∀ n ∈ b.nodes, n ∉ block.nodes) {n : String}
    {i : NodeInfo} {k : Nat} (hi : (markBlockNodes st block).nodeInfo.lookup n = some i)
    (hb : (markBlockNodes st block).blocks[k]? = some b) (hn : n ∈ b.nodes) :
    i.blockIndx = some k := by
  have hblocks : (markBlockNodes st block).blocks = st.blocks ++
      [{ block with indx := st.blocks.length }] := rfl
  obtain ⟨i₀, hi₀, rfl⟩ := exists_of_lookup_mark hi
  rw [hblocks] at hb
  rcases Nat.lt_or_ge k st.blocks.length with hk | hk
  · rw [List.getElem?_append_left hk] at hb
    rw [if_neg (hold b (List.mem_of_getElem? hb) n hn)]
    exact h.marked n i₀ k b hi₀ hb hn
  · rw [List.getElem?_append_right hk] at hb
    obtain ⟨hlt, hbk⟩ := List.getElem?_eq_some_iff.mp hb
    rw [List.length_singleton] at hlt
    rw [List.getElem_singleton] at hbk
    rw [if_pos (by rw [← hbk] at hn; exact hn)]
    exact congrArg some (by omega)

section Disjoint

variable {domainBlocks : List BlockInfo}
  (hunique : ∀ b ∈ domainBlocks, ∀ c ∈ domainBlocks, b.id = c.id → b = c)
  (hdisjoint : ∀ b ∈ domainBlocks, ∀ c ∈ domainBlocks, ∀ n, n ∈ b.nodes → n ∈ c.nodes → b = c)

include hunique hdisjoint

/-- The first host of a block numbers it. -/
theorem Met.mark (h : Met domainBlocks done st) {block : BlockInfo} (hblock : block ∈ domainBlocks)
    (hname : name ∈ block.nodes) (hnew : ¬ ∃ b ∈ st.blocks, b.id = block.id) :
    Met domainBlocks (done ++ [name]) (markBlockNodes st block) := by
  have hblocks : (markBlockNodes st block).blocks = st.blocks ++
      [{ block with indx := st.blocks.length }] := rfl
  -- No host of the block is met before.
  have hunmet : ¬ ∃ n ∈ done, n ∈ block.nodes := fun hmet => hnew ((h.met block hblock).mpr hmet)
  -- The nodes of an older block are not those of the new one.
  have hold : ∀ b ∈ st.blocks, ∀ n ∈ b.nodes, n ∉ block.nodes := by
    intro b hb n hn hmem
    obtain ⟨d, hd, hbd⟩ := h.drawn b hb
    rw [hbd] at hn
    refine hnew ⟨b, hb, ?_⟩
    rw [hbd, ← hdisjoint d hd block hblock n hn hmem]
  constructor
  case toIndexed => exact h.toIndexed.mark block
  case drawn =>
    intro b hb
    rw [hblocks] at hb
    rcases List.mem_append.mp hb with hb | hb
    · exact h.drawn b hb
    · exact ⟨block, hblock, by rw [List.mem_singleton.mp hb]⟩
  case owner =>
    intro n i hi d hd hn
    obtain ⟨i₀, hi₀, heq⟩ := blockID_of_lookup_mark hi
    rw [heq]
    exact h.owner n i₀ hi₀ d hd hn
  case member =>
    intro n i hi hne
    obtain ⟨i₀, hi₀, heq⟩ := blockID_of_lookup_mark hi
    rw [heq] at hne ⊢
    exact h.member n i₀ hi₀ hne
  case met =>
    intro d hd
    rw [hblocks]
    constructor
    · rintro ⟨b, hb, hbd⟩
      rcases List.mem_append.mp hb with hb | hb
      · obtain ⟨n, hn, hmem⟩ := (h.met d hd).mp ⟨b, hb, hbd⟩
        exact ⟨n, List.mem_append_left _ hn, hmem⟩
      · obtain rfl := hunique block hblock d hd (by rw [← hbd, List.mem_singleton.mp hb])
        exact ⟨name, List.mem_append_cons_self, hname⟩
    · rintro ⟨n, hn, hmem⟩
      rcases List.mem_append.mp hn with hn | hn
      · obtain ⟨b, hb, hbd⟩ := (h.met d hd).mpr ⟨n, hn, hmem⟩
        exact ⟨b, List.mem_append_left _ hb, hbd⟩
      · obtain rfl := List.mem_singleton.mp hn
        exact ⟨_, List.mem_append_cons_self, by rw [hdisjoint block hblock d hd _ hname hmem]⟩
  case ordered => exact h.ordered_mark hunmet
  case marked =>
    intro n i k b hi hb hn
    exact h.marked_mark hold hi hb hn

/-- **One leaf.** -/
theorem Met.visitLeaf (hid : ∀ b ∈ domainBlocks, b.id ≠ "") (h : Met domainBlocks done st)
    (hknown : (st.nodeInfo.lookup name).isSome) :
    Met domainBlocks (done ++ [name]) (Translate.visitLeaf domainBlocks name st) := by
  obtain ⟨i, hi⟩ := Option.isSome_iff_exists.mp hknown
  rw [Translate.visitLeaf, hi]
  dsimp only
  by_cases hmem : ∃ d ∈ domainBlocks, name ∈ d.nodes
  · obtain ⟨d, hd, hn⟩ := hmem
    have howner := h.owner name i hi d hd hn
    by_cases hnew : ∃ b ∈ st.blocks, b.id = d.id
    · obtain ⟨b, hb, hbd⟩ := hnew
      obtain ⟨k, hk⟩ := List.mem_iff_getElem?.mp hb
      obtain ⟨d', hd', hbd'⟩ := h.drawn b hb
      obtain rfl := hunique d' hd' d hd (by rw [← hbd, hbd'])
      have hindx := h.marked name i k b hi hk (by rw [hbd']; exact hn)
      rw [if_neg (by simp [hindx])]
      refine h.skip fun c hc hnc => ⟨b, hb, ?_⟩
      rw [hbd, hdisjoint d' hd c hc name hn hnc]
    · have hnone : i.blockIndx = none := by
        by_contra hsome
        obtain ⟨k, hk⟩ := Option.ne_none_iff_exists'.mp hsome
        obtain ⟨b, hb, hnb⟩ := h.listed name i k hi hk
        obtain ⟨d', hd', hbd'⟩ := h.drawn b (List.mem_of_getElem? hb)
        rw [hbd'] at hnb
        exact hnew ⟨b, List.mem_of_getElem? hb, by rw [hbd', hdisjoint d' hd' d hd name hnb hn]⟩
      have hfind : domainBlocks.find? (fun block => block.id = i.blockID) = some d := by
        cases hfind : domainBlocks.find? fun block => block.id = i.blockID with
        | none => exact absurd (List.find?_eq_none.mp hfind d hd) (by simp [howner])
        | some block =>
          have hblock : block.id = i.blockID := by simpa using List.find?_some hfind
          rw [hunique block (List.mem_of_find?_eq_some hfind) d hd (hblock.trans howner)]
      rw [if_pos ⟨howner ▸ hid d hd, hnone⟩, hfind]
      exact h.mark hunique hdisjoint hd hn hnew
  · have hempty : ¬ i.blockID ≠ "" := fun hne => by
      obtain ⟨d, hd, -, hn⟩ := h.member name i hi hne
      exact hmem ⟨d, hd, hn⟩
    rw [if_neg fun hc => hempty hc.1]
    exact h.skip fun d hd hn => absurd ⟨d, hd, hn⟩ hmem

/-- **All leaves.** -/
theorem Met.foldl_visitLeaf (hid : ∀ b ∈ domainBlocks, b.id ≠ "") {names done : List String}
    (h : Met domainBlocks done st) (hknown : ∀ n ∈ names, (st.nodeInfo.lookup n).isSome) :
    Met domainBlocks (done ++ names)
      (names.foldl (fun st name => Translate.visitLeaf domainBlocks name st) st) := by
  induction names generalizing done st with
  | nil => rwa [List.append_nil]
  | cons name names ih =>
    have hstep := h.visitLeaf hunique hdisjoint hid (hknown name List.mem_cons_self)
    have hrest := ih hstep fun n hn => by
      have hplace := congrArg Option.isSome (map_place_visitLeaf domainBlocks name st n)
      rw [Option.isSome_map, Option.isSome_map] at hplace
      rw [hplace]
      exact hknown n (List.mem_cons_of_mem name hn)
    rwa [List.append_assoc, List.singleton_append] at hrest

omit hunique in
/-- The block IDs before the walk. -/
theorem Met.start (h : Blank info) : Met domainBlocks [] ⟨setBlockIDs domainBlocks info, []⟩ := by
  have hstart : BlockInvariant domainBlocks ⟨setBlockIDs domainBlocks info, []⟩ := .start h
  have hassign : setBlockIDs domainBlocks info =
      (domainBlocks.map fun b => (b.nodes, b.id)).foldl (fun info b => assignBlockID b.2 info b.1)
      info := by
    rw [List.foldl_map]
    rfl
  constructor
  case toIndexed => exact Indexed.start (blockIndx_setBlockIDs h domainBlocks)
  case owner =>
    intro n i hi d hd hn
    rw [hassign, lookup_foldl_assignBlockID] at hi
    obtain ⟨i₀, -, rfl⟩ := Option.map_eq_some_iff.mp hi
    cases hfind : (domainBlocks.map fun b => (b.nodes, b.id)).reverse.find? (n ∈ ·.1) with
    | some b =>
      obtain ⟨c, hc, rfl⟩ := List.mem_map.mp (List.mem_reverse.mp (List.mem_of_find?_eq_some hfind))
      exact congrArg BlockInfo.id (hdisjoint c hc d hd n (by simpa using List.find?_some hfind) hn)
    | none => exact absurd hn (find?_reverse_eq_none.mp hfind _ (List.mem_map_of_mem hd))
  case member => exact hstart.member
  case drawn => exact fun b hb => absurd hb (by simp)
  case met => exact fun d hd => by simp
  case ordered => exact .nil
  case marked => exact fun n i k b hi hb => absurd hb (by simp)

end Disjoint

/-! ## The blocks of an accepted graph -/

/-- No host is in two domains. -/
def DisjointDomains (m : DomainMap) : Prop :=
  ∀ d d' n, (m.lookupHost d n).isSome → (m.lookupHost d' n).isSome → d = d'

variable {m : DomainMap}

/-- The host of a domain is among its entries. -/
theorem exists_entry_of_lookupHost {d n : String} (h : (m.lookupHost d n).isSome) :
    ∃ hosts, (⟨d, hosts⟩ : Σ _ : String, Hosts) ∈ m.hosts.entries ∧ n ∈ hosts.keys := by
  obtain ⟨host, hhost⟩ := Option.isSome_iff_exists.mp h
  obtain ⟨hosts, hhosts, hlook⟩ := Option.bind_eq_some_iff.mp hhost
  exact ⟨hosts, GoMap.lookup_eq_some_iff.mp hhosts,
    AList.mem_keys.mp (GoMap.mem_iff_lookup.mpr ⟨host, hlook⟩)⟩

/-- The hosts of the domains, by name. -/
theorem mem_hostNames_iff : n ∈ m.hostNames ↔ ∃ d, (m.lookupHost d n).isSome := by
  rw [DomainMap.hostNames, List.mem_flatMap]
  constructor
  · rintro ⟨e, he, hn⟩
    refine ⟨e.1, ?_⟩
    rw [DomainMap.lookupHost, GoMap.lookup_eq_some_iff.mpr he, Option.bind_some,
      AList.lookup_isSome]
    exact AList.mem_keys.mpr hn
  · rintro ⟨d, hhost⟩
    obtain ⟨hosts, hmem, hn⟩ := exists_entry_of_lookupHost hhost
    exact ⟨_, hmem, hn⟩

/-- Different host names: no host is in two domains. -/
theorem disjointDomains_of_nodup (h : m.hostNames.Nodup) : DisjointDomains m := by
  intro d d' n hd hd'
  obtain ⟨hosts, hmem, hn⟩ := exists_entry_of_lookupHost hd
  obtain ⟨hosts', hmem', hn'⟩ := exists_entry_of_lookupHost hd'
  have : Std.Symm (Function.onFun List.Disjoint fun e : Σ _ : String, Hosts => e.2.keys) :=
    ⟨fun _ _ hdis _ h1 h2 => hdis h2 h1⟩
  by_contra hne
  exact (List.nodup_flatMap.mp h).2.forall hmem hmem' (fun heq => hne (congrArg Sigma.fst heq)) hn
    hn'

/-- The blocks of a topology follow the tree, whose leaves are met in the order `order`. -/
structure BlocksInTreeOrder (heap : ρ → Vertex (Option ρ)) (root : ρ) (domains : DomainMap)
    (nt : NetworkTopology pkg ρ) (order : List String) : Prop where
  /-- A block lists the hosts of the domain of its name. -/
  hosts : ∀ b ∈ nt.blocks, ∀ n, n ∈ b.nodes ↔ (domains.lookupHost b.name n).isSome
  once : (nt.blocks.map (·.name)).Nodup
  /-- The blocks are those of the domains with a host in the tree. -/
  met : ∀ d, d ∈ nt.blocks.map (·.name) ↔
    ∃ v, AtOrUnder heap root v ∧ IsLeaf heap v ∧ (domains.lookupHost d (heap v).name).isSome
  /-- A block stands in front of another one if a host of it is met first. -/
  ordered : nt.blocks.Pairwise fun a b => order.findIdx (· ∈ a.nodes) < order.findIdx (· ∈ b.nodes)
  indx : ∀ i (b : BlockInfo), nt.blocks[i]? = some b → b.indx = i
  /-- A node of a domain has the index of its block. -/
  inside : ∀ v, AtOrUnder heap root v → IsLeaf heap v →
    ∀ d, (domains.lookupHost d (heap v).name).isSome →
    ∃ i k b, nt.nodeInfo.lookup (heap v).name = some i ∧ i.blockIndx = some k ∧
    nt.blocks[k]? = some b ∧ b.name = d
  /-- A node of no domain has no index. -/
  outside : ∀ v, AtOrUnder heap root v → IsLeaf heap v →
    (∀ d, domains.lookupHost d (heap v).name = none) →
    ∃ i, nt.nodeInfo.lookup (heap v).name = some i ∧ i.blockIndx = none

/-- The nodes of a block are the hosts of its domain. -/
theorem OwnBlocks.mem_nodes_iff {blocks : List BlockInfo} (h : OwnBlocks domains blocks)
    (hb : b ∈ blocks) (n : String) : n ∈ b.nodes ↔ (domains.lookupHost b.name n).isSome := by
  obtain ⟨hosts, hhosts, hperm⟩ := h.named b hb
  rw [hperm.mem_iff, DomainMap.lookupHost, hhosts, Option.bind_some, AList.lookup_isSome]
  exact AList.mem_keys.symm

/-- A domain with a host has a block. -/
theorem exists_mem_toBlockInfos {d n : String} (h : (domains.lookupHost d n).isSome) :
    ∃ b ∈ toBlockInfos domains, b.name = d := by
  obtain ⟨host, hhost⟩ := Option.isSome_iff_exists.mp h
  obtain ⟨hosts, hhosts, -⟩ := Option.bind_eq_some_iff.mp hhost
  have hkey : d ∈ domains.hosts.keys.insertionSort (· ≤ ·) :=
    (List.mem_insertionSort _).mpr (AList.mem_keys.mp (GoMap.mem_iff_lookup.mpr ⟨hosts, hhosts⟩))
  obtain ⟨i, hi, heq⟩ := List.mem_iff_getElem.mp hkey
  exact ⟨_, mem_toBlockInfos.mpr ⟨i, hi, rfl⟩, heq⟩

/-- Disjoint domains have disjoint blocks. -/
theorem DisjointDomains.blocks (h : DisjointDomains domains) :
    ∀ b ∈ toBlockInfos domains, ∀ c ∈ toBlockInfos domains, ∀ n, n ∈ b.nodes →
      n ∈ c.nodes → b = c := by
  intro b hb c hc n hnb hnc
  have hown := ownBlocks_toBlockInfos domains
  apply List.inj_on_of_nodup_map hown.nodup hb hc
  exact h b.name c.name n ((hown.mem_nodes_iff hb n).mp hnb) ((hown.mem_nodes_iff hc n).mp hnc)

variable {g : Graph ρ}

/-- A leaf of an accepted tree is known. -/
theorem TreeSpec.known {st : TreeState ρ} (h : TreeSpec g.heap root l st) {v : ρ}
    (hv : AtOrUnder g.heap root v) (hleaf : IsLeaf g.heap v) :
    (st.nodeInfo.lookup (g.heap v).name).isSome := by
  have hmem : v ∈ l.reverse := List.mem_reverse.mpr (hv.mem h.toIsTree h.root_mem)
  obtain ⟨w, hw⟩ : ∃ w, findLeaf g.heap l (g.heap v).name = some w := by
    refine Option.isSome_iff_exists.mp (List.find?_isSome.mpr ⟨v, hmem, ?_⟩)
    simpa using hleaf
  have hwl : w ∈ l := List.mem_reverse.mp (List.mem_of_find?_eq_some hw)
  obtain ⟨p, hp⟩ := h.path w hwl
  exact Option.isSome_iff_exists.mpr ⟨_, (h.nodeInfo _ _).mpr ⟨w, p, hw, hp, rfl⟩⟩

/-- Without domains there is no host. -/
theorem lookupHost_of_initBlocks_none {fuel : Nat}
    (h : initBlocks fuel (some g) info = some (none, st)) (d n : String) :
    (g.domains.getD DomainMap.new).lookupHost d n = none := by
  cases hd : g.domains with
  | none => rfl
  | some domains =>
    have hempty : domains.hosts.entries = [] := by
      by_contra hne
      rw [initBlocks] at h
      simp only [hd, if_neg hne] at h
      split at h
      · exact absurd (congrArg Prod.fst (Option.some.inj h)) (by simp)
      · obtain ⟨_, -, heq⟩ := Option.map_eq_some_iff.mp h
        exact absurd (congrArg Prod.fst heq) (by simp)
    rw [Option.getD_some, DomainMap.lookupHost, GoMap.entries_eq_nil_iff.mp hempty,
      Option.bind_none]

/-- Without hosts there are no blocks, and the nodes of the tree stay as they are. -/
theorem TreeSpec.inTreeOrder {st : TreeState ρ} (h : TreeSpec g.heap root l st)
    (hblank : Blank st.nodeInfo) (hnohost : ∀ d n, domains.lookupHost d n = none)
    (hinfo : nt.nodeInfo = st.nodeInfo) (hblocks : nt.blocks = []) (order : List String) :
    BlocksInTreeOrder g.heap root domains nt order := by
  have hno : ∀ d n, ¬ (domains.lookupHost d n).isSome := fun d n => by rw [hnohost]; decide
  constructor
  case hosts => exact fun b hb => absurd hb (by simp [hblocks])
  case once => exact hblocks ▸ List.nodup_nil
  case met =>
    intro d
    refine iff_of_false (by simp [hblocks]) ?_
    rintro ⟨v, -, -, hhost⟩
    exact hno d _ hhost
  case ordered => exact hblocks ▸ .nil
  case indx => exact fun i b hb => absurd hb (by simp [hblocks])
  case inside => exact fun v _ _ d hhost => absurd hhost (hno d _)
  case outside =>
    intro v hv hleaf _
    obtain ⟨i, hi⟩ := Option.isSome_iff_exists.mp (h.known hv hleaf)
    exact ⟨i, hinfo ▸ hi, (hblank _ i hi).2⟩

/-- When all leaves of the tree are met, the blocks follow it. -/
theorem Met.inTreeOrder {order : List String} (h : Met (toBlockInfos domains) order st)
    (hown : OwnBlocks domains st.blocks)
    (horder : ∀ n, n ∈ order ↔ ∃ v, AtOrUnder heap root v ∧ IsLeaf heap v ∧ (heap v).name = n)
    (hknown : ∀ n ∈ order, (st.nodeInfo.lookup n).isSome) (hinfo : nt.nodeInfo = st.nodeInfo)
    (hblocks : nt.blocks = st.blocks) : BlocksInTreeOrder heap root domains nt order := by
  have hdomain := ownBlocks_toBlockInfos domains
  -- The domain of a leaf has a block.
  have hexists : ∀ v, AtOrUnder heap root v → IsLeaf heap v →
      ∀ d, (domains.lookupHost d (heap v).name).isSome →
      ∃ b ∈ st.blocks, b.name = d := by
    intro v hv hleaf d hhost
    obtain ⟨c, hc, rfl⟩ := exists_mem_toBlockInfos hhost
    obtain ⟨b, hb, hbc⟩ := (h.met c hc).mpr
      ⟨_, (horder _).mpr ⟨v, hv, hleaf, rfl⟩, (hdomain.mem_nodes_iff hc _).mpr hhost⟩
    obtain ⟨d, hd, hbd⟩ := h.drawn b hb
    obtain rfl := eq_of_mem_toBlockInfos hd hc (by rw [← hbc, hbd])
    exact ⟨b, hb, by rw [hbd]⟩
  constructor
  case hosts =>
    rw [hblocks]
    exact fun b hb => hown.mem_nodes_iff hb
  case once => exact hblocks ▸ hown.nodup
  case met =>
    intro d
    rw [hblocks, List.mem_map]
    constructor
    · rintro ⟨b, hb, rfl⟩
      obtain ⟨n, hn, hmem⟩ := h.exists_host hb
      obtain ⟨v, hv, hleaf, rfl⟩ := (horder n).mp hn
      exact ⟨v, hv, hleaf, (hown.mem_nodes_iff hb _).mp hmem⟩
    · rintro ⟨v, hv, hleaf, hhost⟩
      exact hexists v hv hleaf d hhost
  case ordered => exact hblocks ▸ h.ordered
  case indx => exact hblocks ▸ h.indx
  case inside =>
    intro v hv hleaf d hhost
    obtain ⟨i, hi⟩ := Option.isSome_iff_exists.mp (hknown _ ((horder _).mpr ⟨v, hv, hleaf, rfl⟩))
    obtain ⟨b, hb, rfl⟩ := hexists v hv hleaf d hhost
    obtain ⟨k, hk⟩ := List.mem_iff_getElem?.mp hb
    exact ⟨i, k, b, hinfo ▸ hi, h.marked _ i k b hi hk ((hown.mem_nodes_iff hb _).mpr hhost),
      hblocks ▸ hk, rfl⟩
  case outside =>
    intro v hv hleaf hnone
    obtain ⟨i, hi⟩ := Option.isSome_iff_exists.mp (hknown _ ((horder _).mpr ⟨v, hv, hleaf, rfl⟩))
    refine ⟨i, hinfo ▸ hi, Option.eq_none_iff_forall_not_mem.mpr fun k hk => ?_⟩
    obtain ⟨b, hb, hmem⟩ := h.listed _ i k hi hk
    have hhost := (hown.mem_nodes_iff (List.mem_of_getElem? hb) _).mp hmem
    rw [hnone] at hhost
    exact absurd hhost (by decide)

/-- **The blocks follow the tree**, for every accepted graph with tiers and disjoint domains. -/
theorem blocks_follow_tree {g : Graph ρ} {cfg : Config pkg} {nt : NetworkTopology pkg ρ}
    (h : Accepts (some g) cfg nt) {root : ρ} (htiers : g.tiers = some root)
    (hdisjoint : DisjointDomains (g.domains.getD DomainMap.new)) :
    ∃ vs, BreadthFirst (sortedChildren g.heap) [root] vs ∧
      BlocksInTreeOrder g.heap root (g.domains.getD DomainMap.new) nt (leafNames g.heap vs) := by
  obtain ⟨fuel, config, st, r, -, htree, hr, hnt⟩ := h.parts
  obtain ⟨l, hspec⟩ := initTree_spec htiers htree
  have hblank := blank_initTree htree
  rcases initBlocks_cases hr with rfl | ⟨g', domains, hg, hd, -, hr1,
    ⟨hnone, -⟩ | ⟨root', hroot', hloop⟩⟩
  · obtain ⟨vs, hvs⟩ := hspec.toIsTree.exists_breadthFirst fun v w hw => mem_sorted_children.mp hw
    refine ⟨vs, hvs, hspec.inTreeOrder hblank (lookupHost_of_initBlocks_none hr) ?_ ?_ _⟩
    · rw [hnt]
    · rw [hnt]
  · obtain rfl := Option.some.inj hg
    exact absurd (hnone.symm.trans htiers) (by simp)
  · obtain rfl := Option.some.inj hg
    obtain rfl := Option.some.inj (hroot'.symm.trans htiers)
    rw [hd, Option.getD_some] at hdisjoint ⊢
    obtain ⟨vs, hvs, hst⟩ := blockLoop_order hloop
    -- No step adds or removes a node record.
    have hsame : ∀ n, (r.2.nodeInfo.lookup n).isSome = (st.nodeInfo.lookup n).isSome ∧
        ((setBlockIDs (toBlockInfos domains) st.nodeInfo).lookup n).isSome =
        (st.nodeInfo.lookup n).isSome := by
      intro n
      have hrun := congrArg Option.isSome (map_place_blockLoop hloop n)
      have hset := congrArg Option.isSome (map_place_setBlockIDs (toBlockInfos domains)
        st.nodeInfo n)
      simp only [Option.isSome_map] at hrun hset
      exact ⟨hrun.trans hset, hset⟩
    have hknown : ∀ n ∈ leafNames g.heap vs, (st.nodeInfo.lookup n).isSome := by
      intro n hn
      obtain ⟨v, hv, hleaf, rfl⟩ := (mem_leafNames hvs).mp hn
      exact hspec.known hv hleaf
    have hmet := (Met.start hdisjoint.blocks hblank).foldl_visitLeaf (fun b hb c hc =>
      eq_of_mem_toBlockInfos hb hc) hdisjoint.blocks
      (ownBlocks_toBlockInfos domains).id_ne fun n hn => (hsame n).2.trans (hknown n hn)
    rw [List.nil_append, ← hst] at hmet
    have hown : OwnBlocks domains r.2.blocks := by
      have hblocks := h.ownBlocks (show nt.domains = some domains by rw [hnt]; exact hr1)
      rwa [hnt] at hblocks
    refine ⟨vs, hvs, hmet.inTreeOrder hown (fun n => mem_leafNames hvs) (fun n hn =>
      (hsame n).1.trans (hknown n hn)) ?_ ?_⟩
    · rw [hnt]
    · rw [hnt]

/-- Two nodes below the root, whose domains have the names in the other order. -/
def crossedGraph : Graph (Option Bool) where
  heap
    | none =>
      { name := "", id := ""
        vertices := ((∅ : GoMap String (Option (Option Bool))).insert "i2"
          (some (some true))).insert "i1" (some (some false)) }
    | some false => { name := "n1", id := "i1", vertices := ∅ }
    | some true => { name := "n2", id := "i2", vertices := ∅ }
  tiers := some none
  domains := some ([("x", "n2"), ("y", "n1"), ("z", "n3")].foldl (fun m h =>
    m.addHostInfo { domain := h.1, instanceID := h.2, hostName := h.2, subDomain := "" })
      DomainMap.new)

theorem crossedGraph_blocksInTreeOrder : ∃ nt vs, Accepts (some crossedGraph) blockPlugin nt ∧
    nt.blocks.map (·.name) = ["y", "x"] ∧
    BlocksInTreeOrder crossedGraph.heap none (crossedGraph.domains.getD DomainMap.new) nt
      (leafNames crossedGraph.heap vs) := by
  have hdisjoint : DisjointDomains (crossedGraph.domains.getD DomainMap.new) :=
    disjointDomains_of_nodup (by decide)
  obtain ⟨nt, hnt, hblocks⟩ :
      ∃ nt, newNetworkTopology 5 (some crossedGraph) blockPlugin = some (.ok nt) ∧
      nt.blocks.map (·.name) = ["y", "x"] := ⟨_, rfl, rfl⟩
  obtain ⟨vs, -, hblock⟩ := blocks_follow_tree ⟨5, hnt⟩ rfl hdisjoint
  exact ⟨nt, vs, ⟨5, hnt⟩, hblocks, hblock⟩

/-- **Blocks and nodes agree**, however the domains overlap: block `i` has index `i` and lists all
hosts of a domain of its own, an index leads to a block that lists the node, and a node with a block
ID is listed. -/
theorem blocks_agree {graph : Option (Graph ρ)} {cfg : Config pkg} {domains : DomainMap}
    (h : Accepts graph cfg nt) (hd : nt.domains = some domains) :
    Indexed ⟨nt.nodeInfo, nt.blocks⟩ ∧ OwnBlocks domains nt.blocks ∧ (nt.blocks.map (·.id)).Nodup ∧
      ∀ n i, nt.nodeInfo.lookup n = some i → i.blockID ≠ "" → ∃ b ∈ nt.blocks, n ∈ b.nodes :=
  ⟨h.indexed, h.ownBlocks hd, h.nodup_id, fun _ _ => h.mem_blocks⟩

/-- Two domains that share a host. -/
def overlapDomains : DomainMap :=
  [("x", "n2"), ("y", "n1"), ("y", "n2")].foldl (fun m h =>
    m.addHostInfo { domain := h.1, instanceID := h.2, hostName := h.2, subDomain := "" })
      DomainMap.new

theorem overlapDomains_blocks_agree :
    ∃ nt, Accepts (some { crossedGraph with domains := some overlapDomains }) blockPlugin nt ∧
      nt.domains = some overlapDomains ∧ Indexed ⟨nt.nodeInfo, nt.blocks⟩ ∧
      OwnBlocks overlapDomains nt.blocks ∧
      (nt.blocks.map (·.id)).Nodup ∧
      ∀ n i, nt.nodeInfo.lookup n = some i → i.blockID ≠ "" → ∃ b ∈ nt.blocks, n ∈ b.nodes := by
  obtain ⟨nt, hnt, hd⟩ :
      ∃ nt, newNetworkTopology 5 (some { crossedGraph with domains := some overlapDomains })
      blockPlugin =
      some (.ok nt) ∧ nt.domains = some overlapDomains := ⟨_, rfl, rfl⟩
  exact ⟨nt, ⟨5, hnt⟩, hd, blocks_agree ⟨5, hnt⟩ hd⟩

end Topograph.Translate
