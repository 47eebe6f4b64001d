import Topograph.Translate.BlockCongruence

/-! # Legal block sizes

The block sizes of an emitted topology are the configured ones, those inferred from the sub-domains,
or doublings of the smallest emitted block. All three are legal for Slurm (`blockSizes_legal`):
positive, and each a larger power-of-two multiple of the one before. The last kind needs that no
block without nodes is emitted when the sizes are neither configured nor inferred. -/

namespace Topograph.Translate

open Topograph.Topology

variable {pkg : RegexpPackage} {ρ : Type} {nt : NetworkTopology pkg ρ}

/-- Block sizes that Slurm accepts. -/
structure LegalSizes (sizes : List Nat) : Prop where
  nonempty : sizes ≠ []
  pos : ∀ size ∈ sizes, 0 < size
  step : ∀ i a b, sizes[i]? = some a → sizes[i + 1]? = some b → ∃ k, 0 < k ∧ b = 2 ^ k * a

/-- Doublings of the smallest count, as many as the number of counts allows. -/
structure DerivedSizes (counts sizes : List Nat) (D k : Nat) : Prop where
  smallest : D ∈ counts ∧ ∀ c ∈ counts, D ≤ c
  lower : 2 ^ k ≤ counts.length
  upper : counts.length < 2 ^ (k + 1)
  sizes_eq : sizes = (List.range (k + 1)).map fun i => 2 ^ i * D

/-! ## Sizes of powers -/

/-- Powers of a positive base in increasing order are legal. -/
theorem PowerSizes.legal {sizes : List Nat} (h : PowerSizes sizes) : LegalSizes sizes where
  nonempty := by
    rintro rfl
    exact absurd h.pos (by simp)
  pos size hsize := (h.powMul size hsize).pos h.pos
  step i a b ha hb := by
    obtain ⟨m, hm⟩ := h.powMul a (List.mem_of_getElem? ha)
    obtain ⟨n, hn⟩ := h.powMul b (List.mem_of_getElem? hb)
    have hlt : a < b := by
      obtain ⟨hi, rfl⟩ := List.getElem?_eq_some_iff.mp ha
      obtain ⟨hi', rfl⟩ := List.getElem?_eq_some_iff.mp hb
      exact List.pairwise_iff_getElem.mp h.increasing i (i + 1) hi hi' (Nat.lt_succ_self i)
    have hmn : m < n := by
      rw [hm, hn] at hlt
      exact (Nat.pow_lt_pow_iff_right (by decide)).mp (Nat.lt_of_mul_lt_mul_left hlt)
    refine ⟨n - m, Nat.sub_pos_of_lt hmn, ?_⟩
    rw [hn, hm, ← mul_assoc, mul_comm (2 ^ (n - m)), mul_assoc, ← pow_add,
      Nat.sub_add_cancel hmn.le]

/-- Derived sizes are legal. -/
theorem DerivedSizes.legal {counts sizes : List Nat} {D k : Nat} (h : DerivedSizes counts sizes D k)
    (hpos : ∀ c ∈ counts, 0 < c) : LegalSizes sizes where
  nonempty := by
    rw [h.sizes_eq]
    simp
  pos size hsize := by
    rw [h.sizes_eq] at hsize
    obtain ⟨i, -, rfl⟩ := List.mem_map.mp hsize
    exact Nat.mul_pos (Nat.two_pow_pos i) (hpos D h.smallest.1)
  step i a b ha hb := by
    have hentry : ∀ j c, sizes[j]? = some c → c = 2 ^ j * D := by
      intro j c hc
      rw [h.sizes_eq, List.getElem?_map] at hc
      obtain ⟨m, hm, rfl⟩ := Option.map_eq_some_iff.mp hc
      obtain ⟨hj, rfl⟩ := List.getElem?_eq_some_iff.mp hm
      rw [List.getElem_range]
    refine ⟨1, Nat.one_pos, ?_⟩
    rw [hentry i a ha, hentry (i + 1) b hb, pow_succ', pow_one, mul_assoc]

/-! ## The sizes in effect -/

/-- **Configured and inferred sizes are legal.** -/
theorem legal_of_snd_ne_nil {domains : Option DomainMap} {blocks : List BlockInfo}
    {sizes : List Nat} (hvalid : Slurm.validateBlockSizes (sizes.map Int.ofNat) = .ok ())
    (hne : (complementBlocks domains blocks sizes).2 ≠ []) :
    LegalSizes (complementBlocks domains blocks sizes).2 := by
  cases domains with
  | none => exact (powerSizes_of_validate hne hvalid).legal
  | some all =>
    by_cases hentries : (domainsForBlocks all blocks).hosts.entries = []
    · have heq : (complementBlocks (some all) blocks sizes).2 = sizes := by
        simp [complementBlocks, hentries]
      rw [heq] at hne ⊢
      exact (powerSizes_of_validate hne hvalid).legal
    · exact (complementBlocks_of_snd_ne_nil hvalid hne hentries).1.legal

/-- The minimum is attained, and no block is smaller. -/
theorem findMinDomainSize_eq_ok {blocks : List BlockInfo} {D : Nat}
    (h : findMinDomainSize blocks = .ok D) :
    D ∈ blocks.map (·.nodes.length) ∧ ∀ c ∈ blocks.map (·.nodes.length), D ≤ c := by
  cases blocks with
  | nil => exact absurd h (by simp [findMinDomainSize])
  | cons block blocks =>
    have hfold : (blocks.map (·.nodes.length)).foldl min block.nodes.length = D := by
      rw [List.foldl_map]
      exact Except.ok.inj h
    rw [List.map_cons, ← List.min?_eq_some_iff, List.min?_cons', hfold]

/-- **Sizes derived from blocks** double the smallest one. -/
theorem getBlockSizes_derived {blocks : List BlockInfo} {out : List Nat}
    (h : getBlockSizes blocks [] = .ok out) :
    ∃ D k, DerivedSizes (blocks.map (·.nodes.length)) out D k := by
  rw [getBlockSizes, if_neg (by simp)] at h
  split at h
  · exact absurd h (by simp)
  · rename_i D hD
    obtain ⟨hmem, hle⟩ := findMinDomainSize_eq_ok hD
    have hne : blocks.length ≠ 0 := by
      intro hzero
      rw [List.length_eq_zero_iff.mp hzero] at hmem
      exact absurd hmem List.not_mem_nil
    refine ⟨D, Nat.log2 blocks.length, ⟨hmem, hle⟩, ?_, ?_, ?_⟩
    · rw [List.length_map]
      exact Nat.log2_self_le hne
    · rw [List.length_map]
      exact Nat.lt_log2_self
    · rw [← Except.ok.inj h, List.range_succ_eq_map, List.map_cons, List.map_map, pow_zero, one_mul]
      rfl

/-! ## Emitted topologies -/

/-- The emitted blocks as node lists: the complemented blocks that can be named. -/
def emittedNodes (nt : NetworkTopology pkg ρ) (blocks : List BlockInfo) (sizes : List Nat)
    (blockName : Option (BlockNameConfig pkg)) : List (List String) :=
  ((complementBlocks nt.domains blocks sizes).1.map (·.nodes)).filter
  (keeps (compileBlockNameFormatter blockName))

/-- The sizes that go with emitted blocks: legal, and doublings of the smallest block if they are
neither configured nor inferred. -/
structure SizesFor (nt : NetworkTopology pkg ρ) (blocks : List BlockInfo) (sizes : List Nat)
    (blockName : Option (BlockNameConfig pkg)) (out : List Nat) : Prop where
  legal : LegalSizes out
  derived : (complementBlocks nt.domains blocks sizes).2 = [] →
    ∃ D k, DerivedSizes ((emittedNodes nt blocks sizes blockName).map List.length) out D k

/-- What `getBlockSizes` returns for the kept blocks. -/
theorem sizesFor_of_kept {blocks kept : List BlockInfo} {sizes out : List Nat}
    {blockName : Option (BlockNameConfig pkg)}
    (hvalid : Slurm.validateBlockSizes (sizes.map Int.ofNat) = .ok ())
    (hblocks : ∀ b ∈ blocks, b.nodes ≠ [])
    (hkept : kept.map (·.nodes) = emittedNodes nt blocks sizes blockName)
    (hout : getBlockSizes kept (complementBlocks nt.domains blocks sizes).2 = .ok out) :
    SizesFor nt blocks sizes blockName out := by
  by_cases hnil : (complementBlocks nt.domains blocks sizes).2 = []
  · rw [hnil] at hout
    obtain ⟨D, k, hderived⟩ := getBlockSizes_derived hout
    have hcounts : kept.map (·.nodes.length) = (emittedNodes nt blocks sizes blockName).map
        List.length := by
      rw [← hkept, List.map_map]
      rfl
    rw [hcounts] at hderived
    refine ⟨hderived.legal ?_, fun _ => ⟨D, k, hderived⟩⟩
    -- The blocks were left as they are, so none of them is empty.
    intro c hc
    obtain ⟨nodes, hnodes, rfl⟩ := List.mem_map.mp hc
    rw [emittedNodes, complementBlocks_of_sizes_nil hnil] at hnodes
    obtain ⟨b, hb, rfl⟩ := List.mem_map.mp (List.mem_filter.mp hnodes).1
    exact List.length_pos_iff.mpr (hblocks b hb)
  · refine ⟨?_, fun h => absurd h hnil⟩
    rw [getBlockSizes, if_pos hnil] at hout
    rw [← Except.ok.inj hout]
    exact legal_of_snd_ne_nil hvalid hnil

/-- The block sizes that `toBlockTopology` writes are those of the blocks it writes. -/
theorem sizes_toBlockTopology {skeletonOnly : Bool} {info : GoMap String NodeInfo}
    {out : BlockOutput} (h : toBlockTopology nt skeletonOnly = (info, .ok out)) :
    ∃ kept : List BlockInfo, out.lines = kept.map (blockLine skeletonOnly) ∧
      kept.map (·.nodes) = emittedNodes nt nt.blocks nt.config.blockSizes nt.config.blockName ∧
      getBlockSizes kept (complementBlocks nt.domains nt.blocks nt.config.blockSizes).2 =
        .ok out.blockSizes := by
  obtain ⟨formatted, hformat, -, hlines, hsizes⟩ := toBlockTopology_eq_ok h
  refine ⟨_, by rw [hlines, List.map_map]; rfl, ?_, hsizes⟩
  rw [emittedNodes, ← map_nodes_filter_keeps, ← formatBlockNames_kept hformat,
    List.map_map, List.map_map]
  rfl

/-- An accepted topology has no empty blocks. -/
theorem Accepts.blocks_nodes_ne_nil {graph : Option (Graph ρ)} {cfg : Config pkg}
    (h : Accepts graph cfg nt) : ∀ b ∈ nt.blocks, b.nodes ≠ [] := by
  intro b hb
  cases hd : nt.domains with
  | none =>
    rw [h.blocks_eq_nil hd] at hb
    exact absurd hb List.not_mem_nil
  | some all => exact h.nodes_ne_nil hd hb

/-- **Emitted block sizes are legal**, for the cluster and for partitions, and derived ones double
the smallest emitted block. -/
theorem blockSizes_legal {graph : Option (Graph ρ)} {cfg : Config pkg} (h : Accepts graph cfg nt) :
    (Slurm.validateBlockSizes (cfg.blockSizes.map Int.ofNat) = .ok () →
      ∀ skeletonOnly info out, toBlockTopology nt skeletonOnly = (info, .ok out) →
        SizesFor nt nt.blocks nt.config.blockSizes nt.config.blockName out.blockSizes ∧
        out.lines.length =
          (emittedNodes nt nt.blocks nt.config.blockSizes nt.config.blockName).length ∧
        (skeletonOnly = false → out.lines.map (·.nodes) = emittedNodes nt nt.blocks
          nt.config.blockSizes nt.config.blockName)) ∧
    ∀ topoName spec tu block, Slurm.validateBlockSizes (spec.blockSizes.map Int.ofNat) = .ok () →
      getBlockTopologyUnit nt topoName spec = .ok tu → tu.block = some block →
        ∃ names, Cluset.expandWithLimit spec.nodes = .ok names ∧
          SizesFor nt (collectBlocks nt names) spec.blockSizes spec.blockName block.blockSizes ∧
          block.blocks.map (·.nodes) = emittedNodes nt (collectBlocks nt names) spec.blockSizes
            spec.blockName := by
  refine ⟨fun hvalid skeletonOnly info out hrun => ?_,
    fun topoName spec tu block hvalid hrun hblock => ?_⟩
  · have hconfig : nt.config.blockSizes = cfg.blockSizes := by
      obtain ⟨fuel, config, st, r, hcfg, -, -, rfl⟩ := h.parts
      obtain ⟨blockName, topologies, rfl, -⟩ := Config.validate_eq_ok hcfg
      rfl
    obtain ⟨kept, hlines, hkept, hsizes⟩ := sizes_toBlockTopology hrun
    rw [← hconfig] at hvalid
    refine ⟨sizesFor_of_kept hvalid h.blocks_nodes_ne_nil hkept hsizes, ?_, ?_⟩
    · rw [hlines, ← hkept, List.length_map, List.length_map]
    · rintro rfl
      rw [hlines, ← hkept, List.map_map]
      rfl
  · obtain ⟨names, formatted, hexpand, -, hformat, hsizes, hblocks⟩ :=
      getBlockTopologyUnit_eq_ok hrun hblock
    have hkept : (formatted.kept.map (·.1)).map (·.nodes) = emittedNodes nt (collectBlocks nt names)
        spec.blockSizes spec.blockName := by
      rw [formatBlockNames_kept hformat, map_nodes_filter_keeps, map_nodes_renumber, emittedNodes]
    refine ⟨names, hexpand, sizesFor_of_kept hvalid ?_ hkept hsizes, ?_⟩
    · intro b hb
      obtain ⟨k, -, hne⟩ := mem_collectBlocks.mp hb
      exact hne
    · rw [hblocks, ← hkept, List.map_map, List.map_map]
      rfl

/-- A block partition of `mixedGraph` with the given block sizes and nodes. -/
def hostPartition (sizes : List Nat) (nodes : List String) : TopologySpec noRegexp where
  plugin := topologyBlock
  blockSizes := sizes
  blockName := none
  clusterDefault := false
  nodes := nodes

/-- The configuration of two partitions. -/
def twoPartitions (spec spec' : TopologySpec noRegexp) : Config noRegexp where
  plugin := ""
  blockSizes := []
  blockName := none
  topologies := (AList.singleton "p1" spec).insert "p2" spec'

theorem mixedGraph_sizes_legal : ∃ nt info out tu block,
    Accepts (some mixedGraph) (twoPartitions (hostPartition [2, 4] ["a1", "b1"])
      (hostPartition [] ["b1"])) nt ∧
    toBlockTopology nt false = (info, .ok out) ∧ LegalSizes out.blockSizes ∧
    getBlockTopologyUnit nt "p" (hostPartition [] ["b1"]) = .ok tu ∧ tu.block = some block ∧
    LegalSizes block.blockSizes := by
  obtain ⟨nt, hnt, info, out, hout, tu, htu, block, hblock⟩ :
      ∃ nt, newNetworkTopology 1 (some mixedGraph)
      (twoPartitions (hostPartition [2, 4] ["a1", "b1"]) (hostPartition [] ["b1"])) =
      some (.ok nt) ∧
      ∃ info out, toBlockTopology nt false = (info, .ok out) ∧
      ∃ tu, getBlockTopologyUnit nt "p" (hostPartition [] ["b1"]) = .ok tu ∧
      ∃ block, tu.block = some block :=
    ⟨_, rfl, _, _, rfl, _, rfl, _, rfl⟩
  have haccepts : Accepts (some mixedGraph) _ nt := ⟨1, hnt⟩
  obtain ⟨hcluster, hunits⟩ := blockSizes_legal haccepts
  obtain ⟨names, -, hsizes, -⟩ := hunits "p" _ tu block rfl htu hblock
  exact ⟨nt, info, out, tu, block, haccepts, hout, (hcluster rfl false info out hout).1.legal, htu,
    hblock, hsizes.legal⟩

end Topograph.Translate
