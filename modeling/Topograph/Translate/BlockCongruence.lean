import Topograph.Translate.DroppedBlocks

/-! # Blocks that agree

`complementBlocks` reads of a block its name and which hosts it lists, and only a host without a
name brings the list itself into the result. So two lists of blocks that agree in this are
complemented to lists that agree as well (`complementBlocks_agree`). How two node lists agree is a
parameter: they have the same members, or are permutations of each other. -/

namespace Topograph.Translate

open Topograph.Topology

variable {pkg : RegexpPackage} {ρ : Type} {R : List String → List String → Prop}

/-- Two blocks of one name whose nodes are related. -/
structure BlocksAgree (R : List String → List String → Prop) (a b : BlockInfo) : Prop where
  name : a.name = b.name
  nodes : R a.nodes b.nodes

section Complement

variable (hR : ∀ l l', R l l' → ∀ n, n ∈ l ↔ n ∈ l') {as bs : List BlockInfo}

include hR in
/-- Blocks that agree have the same domains. -/
theorem domainsForBlocks_agree (h : List.Forall₂ (BlocksAgree R) as bs) (all : DomainMap) :
    domainsForBlocks all as = domainsForBlocks all bs := by
  rw [domainsForBlocks, domainsForBlocks]
  generalize DomainMap.new = m
  induction h generalizing m with
  | nil => rfl
  | @cons a b as bs hab _ ih =>
    have hstep : addOwned all m a = addOwned all m b := by
      rw [addOwned, addOwned, hab.name]
      simp only [hR _ _ hab.nodes]
    rw [List.foldl_cons, List.foldl_cons, hstep, ih]

/-- Blocks are found by name in both lists or in none. -/
theorem lookup_blocksByName_agree (h : List.Forall₂ (BlocksAgree R) as bs) (d : String) :
    Option.Rel (BlocksAgree R) ((blocksByName as).lookup d) ((blocksByName bs).lookup d) := by
  have hfold : ∀ m m' : GoMap String BlockInfo, Option.Rel (BlocksAgree R) (m.lookup d)
      (m'.lookup d) →
      Option.Rel (BlocksAgree R)
        ((as.foldl (fun m b => if b.name = "" then m else m.insert b.name b) m).lookup d)
        ((bs.foldl (fun m b => if b.name = "" then m else m.insert b.name b) m').lookup d) := by
    induction h with
    | nil => exact fun m m' hm => hm
    | @cons a b as bs hab _ ih =>
      intro m m' hm
      rw [List.foldl_cons, List.foldl_cons]
      refine ih _ _ ?_
      rw [hab.name]
      split_ifs with hempty
      · exact hm
      · rw [GoMap.lookup_insert_eq_ite, GoMap.lookup_insert_eq_ite]
        split_ifs
        · exact .some hab
        · exact hm
  exact hfold ∅ ∅ .none

/-- The slots of the block tree, where one is built. -/
def treeSlots (domains : Option DomainMap) (blocks : List BlockInfo) (blockSizes : List Nat) :
    Option (List BaseBlockNode) :=
  domains.bind fun all =>
    let domains := domainsForBlocks all blocks
    if domains.hosts.entries = [] then none
    else (buildBlockTree domains (if blockSizes = [] then domains.inferTwoLevelBlockSizes
      else blockSizes)).map collectBaseBlockSlots

/-- Complementing returns the blocks of the slots, and without a tree the blocks themselves. -/
theorem complementBlocks_eq_elim (domains : Option DomainMap) (blocks : List BlockInfo)
    (sizes : List Nat) :
    (complementBlocks domains blocks sizes).1 =
      (treeSlots domains blocks sizes).elim blocks (slotBlocks (blocksByName blocks)) := by
  cases domains with
  | none => rfl
  | some all =>
    simp only [complementBlocks, treeSlots, Option.bind_some]
    generalize (if sizes = [] then _ else sizes) = effective
    split_ifs with hempty hsizes
    · rfl
    · rw [hsizes]
      rfl
    · cases buildBlockTree (domainsForBlocks all blocks) effective with
      | none => rfl
      | some tree => rfl

/-- The block whose nodes a slot without host names takes over. -/
def takenBlock (byName : GoMap String BlockInfo) (bb : BaseBlockNode) : Option BlockInfo :=
  if hostNamesFromLeaves bb.leaves ≠ [] then none
  else (domainIDsFromLeaves bb.leaves).findSome? byName.lookup

/-- A slot has its host names, or the nodes it takes over. -/
theorem map_nodes_slotBlocks_eq (byName : GoMap String BlockInfo) (slots : List BaseBlockNode) :
    (slotBlocks byName slots).map (·.nodes) = slots.map fun bb =>
      ((takenBlock byName bb).map (·.nodes)).getD (hostNamesFromLeaves bb.leaves) := by
  have hslot : ∀ bb seq, (baseBlockToBlockInfo bb byName seq).nodes =
      ((takenBlock byName bb).map (·.nodes)).getD (hostNamesFromLeaves bb.leaves) := by
    intro bb seq
    rw [takenBlock, baseBlockToBlockInfo]
    by_cases hnodes : hostNamesFromLeaves bb.leaves = []
    · simp only [hnodes, ne_eq, not_true_eq_false, if_false]
      induction domainIDsFromLeaves bb.leaves with
      | nil => rfl
      | cons d ds ih =>
        rw [List.findSome?_cons, List.findSome?_cons]
        cases byName.lookup d with
        | none => exact ih
        | some b => rfl
    · simp only [if_pos hnodes, ne_eq]
      rfl
  refine List.ext_getElem (by simp [slotBlocks]) fun i _ _ => ?_
  simp only [slotBlocks, List.getElem_map, List.getElem_mapIdx, hslot]

/-- The blocks taken over agree. -/
theorem takenBlock_agree (h : List.Forall₂ (BlocksAgree R) as bs) (bb : BaseBlockNode) :
    Option.Rel (BlocksAgree R) (takenBlock (blocksByName as) bb)
      (takenBlock (blocksByName bs) bb) := by
  unfold takenBlock
  split_ifs
  · exact .none
  · induction domainIDsFromLeaves bb.leaves with
    | nil => exact .none
    | cons d ds ih =>
      rw [List.findSome?_cons, List.findSome?_cons]
      have hd := lookup_blocksByName_agree h d
      revert hd
      generalize (blocksByName as).lookup d = x
      generalize (blocksByName bs).lookup d = y
      rintro (hab | -)
      · exact .some hab
      · exact ih

include hR in
theorem treeSlots_agree (h : List.Forall₂ (BlocksAgree R) as bs) (domains : Option DomainMap)
    (sizes : List Nat) : treeSlots domains as sizes = treeSlots domains bs sizes := by
  simp only [treeSlots, domainsForBlocks_agree hR h]

include hR in
/-- **Complementing keeps agreement.** -/
theorem complementBlocks_agree (hrefl : ∀ l, R l l) (h : List.Forall₂ (BlocksAgree R) as bs)
    (domains : Option DomainMap) (sizes : List Nat) :
    (complementBlocks domains as sizes).2 = (complementBlocks domains bs sizes).2 ∧
      List.Forall₂ R ((complementBlocks domains as sizes).1.map (·.nodes))
        ((complementBlocks domains bs sizes).1.map (·.nodes)) := by
  constructor
  · cases domains with
    | none => rfl
    | some all =>
      simp only [complementBlocks, domainsForBlocks_agree hR h all]
      generalize (if sizes = [] then _ else sizes) = effective
      split_ifs
      · rfl
      · rfl
      · cases buildBlockTree (domainsForBlocks all bs) effective <;> rfl
  · rw [complementBlocks_eq_elim, complementBlocks_eq_elim, treeSlots_agree hR h]
    cases treeSlots domains bs sizes with
    | none =>
      rw [List.forall₂_map_left_iff, List.forall₂_map_right_iff]
      exact h.imp fun a b hab => hab.nodes
    | some slots =>
      simp only [Option.elim_some, map_nodes_slotBlocks_eq, List.forall₂_map_left_iff,
        List.forall₂_map_right_iff, List.forall₂_same]
      intro bb _
      have hbb := takenBlock_agree h bb
      revert hbb
      generalize takenBlock (blocksByName as) bb = x
      generalize takenBlock (blocksByName bs) bb = y
      rintro (hab | -)
      · exact hab.nodes
      · exact hrefl _

end Complement

/-! ## Sizes and names -/

/-- `getBlockSizes` reads the number of nodes of every block. -/
theorem getBlockSizes_agree {as bs : List BlockInfo}
    (h : as.map (·.nodes.length) = bs.map (·.nodes.length)) (sizes : List Nat) :
    getBlockSizes as sizes = getBlockSizes bs sizes := by
  have hfold : ∀ (l : List BlockInfo) (m : Nat), l.foldl (fun minDomainSize b =>
      min minDomainSize b.nodes.length) m =
      (l.map (·.nodes.length)).foldl min m := fun l m => (List.foldl_map).symm
  have hlen : as.length = bs.length := by simpa using congrArg List.length h
  have hmin : findMinDomainSize as = findMinDomainSize bs := by
    cases as with
    | nil => rw [List.eq_nil_of_length_eq_zero hlen.symm]
    | cons a as =>
      cases bs with
      | nil => exact absurd hlen (by simp)
      | cons b bs =>
        obtain ⟨hhead, htail⟩ : a.nodes.length = b.nodes.length ∧
            as.map (·.nodes.length) = bs.map (·.nodes.length) := List.cons.inj h
        rw [findMinDomainSize, findMinDomainSize, hfold, hfold, hhead, htail]
  rw [getBlockSizes, getBlockSizes, hmin, hlen]

variable {blocks : List BlockInfo}

/-- Without configured or inferred sizes the blocks stay as they are. -/
theorem complementBlocks_of_sizes_nil {domains : Option DomainMap} {sizes : List Nat}
    (h : (complementBlocks domains blocks sizes).2 = []) :
    (complementBlocks domains blocks sizes).1 = blocks := by
  cases domains with
  | none => rfl
  | some all =>
    rcases complementBlocks_cases all blocks sizes with ⟨effective, heq⟩ | ⟨effective, hpos, heq⟩
    · rw [heq]
    · rw [heq] at h
      rw [show effective = [] from h] at hpos
      exact absurd hpos (by simp)

/-- **Without a formatter every block is kept** under its ID. -/
theorem formatBlockNames_none (pkg : RegexpPackage) (h : (blocks.map (·.id)).Nodup) :
    ∃ st, formatBlockNames blocks (none : Option (BlockNameFormatter pkg)) = .ok st ∧
    st.kept = blocks.map fun b => (b, b.id) := by
  -- The names so far are those of the blocks in front.
  obtain ⟨st, hst, hkept, -⟩ :=
    Loops.exists_foldlM (f := formatBlock (none : Option (BlockNameFormatter pkg)))
    (I := fun done st => st.kept = done.map (fun b => (b, b.id)) ∧ ∀ x, x ∉ done.map (·.id) →
      st.seen.lookup x = none)
    (s := { kept := [], dropped := [], seen := ∅ }) (l := blocks) ⟨rfl,
      fun x _ => AList.lookup_empty x⟩
    fun done block rest st heq ⟨hkept, hseen⟩ => by
      have hnew : block.id ∉ done.map (·.id) := by
        rw [← heq, List.map_append, List.nodup_append] at h
        exact fun hmem => h.2.2 _ hmem _ List.mem_cons_self rfl
      refine ⟨{ st with kept := st.kept ++ [(block, block.id)],
                        seen := st.seen.insert block.id block.id }, ?_, ?_, fun x hx => ?_⟩
      · rw [formatBlock, formatBlockName]
        dsimp only
        rw [hseen block.id hnew]
        rfl
      · rw [List.map_append, hkept]
        rfl
      · rw [List.map_append, List.mem_append, not_or] at hx
        rw [GoMap.lookup_insert_eq_ite, if_neg (by simpa using hx.2), hseen x hx.1]
  exact ⟨st, hst, hkept⟩

/-- Blocks with numbered IDs have different ones. -/
theorem nodup_id_mapIdx {α : Type} (f : Nat → α → BlockInfo) (id : Nat → String)
    (hid : Function.Injective id) (hf : ∀ i a, (f i a).id = id i) (l : List α) :
    ((l.mapIdx f).map (·.id)).Nodup := by
  have hmap : (l.mapIdx f).map (·.id) = (List.range l.length).map id := by
    apply List.ext_getElem?
    intro i
    rw [List.getElem?_map, List.getElem?_mapIdx, List.getElem?_map]
    rcases Nat.lt_or_ge i l.length with hi | hi
    · rw [List.getElem?_range hi, List.getElem?_eq_getElem hi]
      simp [hf]
    · rw [List.getElem?_eq_none hi, List.getElem?_eq_none (by simpa using hi)]
      rfl
  rw [hmap]
  exact List.nodup_range.map hid

theorem nodup_id_renumber (blocks : List BlockInfo) : ((renumber blocks).map (·.id)).Nodup := by
  refine nodup_id_mapIdx _ (fun i => "block" ++ toString (i + 1)) ?_ (fun _ _ => rfl) blocks
  intro i j h
  have hlist := congrArg String.toList h
  rw [String.toList_append, String.toList_append, List.append_cancel_left_eq, String.toList_inj]
    at hlist
  have := Cluset.toString_nat_injective hlist
  omega

/-- The IDs of complemented blocks are different, if those of the blocks are. -/
theorem nodup_id_complementBlocks (h : (blocks.map (·.id)).Nodup) (domains : Option DomainMap)
    (sizes : List Nat) : ((complementBlocks domains blocks sizes).1.map (·.id)).Nodup := by
  cases domains with
  | none => exact h
  | some all =>
    rcases complementBlocks_cases all blocks sizes with ⟨effective, heq⟩ | ⟨effective, -, heq⟩
    · rw [heq]
      exact h
    · rw [heq]
      refine nodup_id_mapIdx _ (fun i => blockID (i + 1)) (fun i j hij => ?_) (fun i bb => ?_) _
      · have := blockID_injective hij
        omega
      · unfold baseBlockToBlockInfo
        dsimp only
        split_ifs
        · rfl
        · split <;> rfl
        · split <;> rfl

/-! ## Units without block names -/

/-- There are block sizes if sizes are given or there is a block. -/
theorem exists_getBlockSizes {sizes : List Nat} (h : sizes = [] → blocks ≠ []) :
    ∃ blockSizes, getBlockSizes blocks sizes = .ok blockSizes := by
  rw [getBlockSizes]
  split_ifs with hsizes
  · exact ⟨_, rfl⟩
  · cases hblocks : blocks with
    | nil => exact absurd hblocks (h (not_not.mp hsizes))
    | cons block rest => exact ⟨_, rfl⟩

/-- The sizes of complemented blocks can be determined. -/
theorem exists_getBlockSizes_complementBlocks (h : blocks ≠ []) (domains : Option DomainMap)
    (sizes : List Nat) :
    ∃ blockSizes, getBlockSizes (complementBlocks domains blocks sizes).1
      (complementBlocks domains blocks sizes).2 = .ok blockSizes :=
  exists_getBlockSizes fun hnil => by rwa [complementBlocks_of_sizes_nil hnil]

variable {nt : NetworkTopology pkg ρ}

/-- **A block unit without block names** has the complemented blocks of its nodes. -/
theorem getBlockTopologyUnit_unnamed {spec : TopologySpec pkg} (hname : spec.blockName = none)
    {names : List String} (hexpand : Cluset.expandWithLimit spec.nodes = .ok names)
    (hne : collectBlocks nt names ≠ []) (topoName : String) :
    ∃ tu block, getBlockTopologyUnit nt topoName spec = .ok tu ∧ tu.block = some block ∧
      getBlockSizes (complementBlocks nt.domains (collectBlocks nt names) spec.blockSizes).1
        (complementBlocks nt.domains (collectBlocks nt names) spec.blockSizes).2 =
          .ok block.blockSizes ∧
      block.blocks.map (·.nodes) =
        (complementBlocks nt.domains (collectBlocks nt names) spec.blockSizes).1.map (·.nodes) := by
  obtain ⟨blockSizes, hsizes⟩ :=
    exists_getBlockSizes_complementBlocks hne nt.domains spec.blockSizes
  obtain ⟨st, hst, hkept⟩ := formatBlockNames_none pkg
    (nodup_id_renumber (complementBlocks nt.domains (collectBlocks nt names) spec.blockSizes).1)
  have hfst : st.kept.map (·.1) = renumber (complementBlocks nt.domains (collectBlocks nt names)
      spec.blockSizes).1 := by
    rw [hkept, List.map_map]
    exact List.map_id _
  have hlen : (renumber (complementBlocks nt.domains (collectBlocks nt names)
      spec.blockSizes).1).map (·.nodes.length) =
      (complementBlocks nt.domains (collectBlocks nt names) spec.blockSizes).1.map
      (·.nodes.length) := by
    have hnodes := congrArg (List.map List.length)
      (map_nodes_renumber (complementBlocks nt.domains (collectBlocks nt names) spec.blockSizes).1)
    rwa [List.map_map, List.map_map] at hnodes
  refine ⟨{ name := topoName, clusterDefault := spec.clusterDefault, flat := false, tree := none
            block := some { blockSizes := blockSizes, parents := blockParents st.kept
                            blocks := st.kept.map fun b => { name := b.2, nodes := b.1.nodes } } },
                              _, ?_, rfl, hsizes, ?_⟩
  · simp only [getBlockTopologyUnit, hexpand, if_neg hne, hname, compileBlockNameFormatter,
      Option.bind_none, hst, hfst,
      and_not_self, if_false, getBlockSizes_agree hlen, hsizes]
  · rw [List.map_map, ← map_nodes_renumber, ← hfst, List.map_map]
    rfl

/-- **The topology file without block names** has the complemented blocks of the topology. -/
theorem toBlockTopology_unnamed (hname : nt.config.blockName = none)
    (hid : (nt.blocks.map (·.id)).Nodup) (hne : nt.blocks ≠ []) :
    ∃ out, (toBlockTopology nt false).2 = .ok out ∧
      getBlockSizes (complementBlocks nt.domains nt.blocks nt.config.blockSizes).1
        (complementBlocks nt.domains nt.blocks nt.config.blockSizes).2 = .ok out.blockSizes ∧
      out.lines.map (·.nodes) = (complementBlocks nt.domains nt.blocks nt.config.blockSizes).1.map
        (·.nodes) := by
  obtain ⟨blockSizes, hsizes⟩ :=
    exists_getBlockSizes_complementBlocks hne nt.domains nt.config.blockSizes
  obtain ⟨st, hst, hkept⟩ :=
    formatBlockNames_none pkg (nodup_id_complementBlocks hid nt.domains nt.config.blockSizes)
  have hfst : st.kept.map (·.1) =
      (complementBlocks nt.domains nt.blocks nt.config.blockSizes).1 := by
    rw [hkept, List.map_map]
    exact List.map_id _
  have hnamed : st.kept.map (fun b => ({ b.1 with id := b.2 } : BlockInfo)) =
      (complementBlocks nt.domains nt.blocks nt.config.blockSizes).1 := by
    rw [hkept, List.map_map]
    exact List.map_id _
  refine ⟨{ lines :=
              (complementBlocks nt.domains nt.blocks nt.config.blockSizes).1.map (blockLine false)
            blockSizes := blockSizes }, ?_, hsizes, ?_⟩
  · simp only [toBlockTopology, hname, compileBlockNameFormatter, Option.bind_none, hst, hfst,
      and_not_self, if_false]
    rw [hnamed, hsizes]
  · rw [List.map_map]
    rfl

end Topograph.Translate
