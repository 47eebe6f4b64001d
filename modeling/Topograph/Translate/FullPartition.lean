import Topograph.Translate.Acceptance
import Topograph.Translate.BlockSpec
import Topograph.Translate.LegalSizes

/-! # One partition of all hosts

A partition that lists every host of the domains builds its blocks from the indices of the nodes,
and the cluster-wide topology takes them over from the domains. With disjoint domains the index of a
host is the place of the block of its domain (`Accepts.indexOf_of_mem`), so both have the same
blocks in the same order, the partition with the nodes in the order of its list
(`Accepts.collectBlocks_agree`). Complementing fills the slots of a block tree by host name and
takes a list over only for a slot without host names, or where there is no tree (`takenOver`).
`Compact` may show the order of such a list: the partition and the cluster declare the same hosts
exactly when it does not (`fullPartition_iff`). -/

namespace Topograph.Translate

open Topograph.Topology

variable {pkg : RegexpPackage} {ρ : Type} {g : Graph ρ}

/-! ## One graph, two configurations -/

/-- More fuel gives the same tree. -/
theorem initTree_of_le {fuel fuel' : Nat} (hle : fuel ≤ fuel') {st : TreeState ρ}
    (h : initTree fuel (some g) = some (.ok st)) : initTree fuel' (some g) = some (.ok st) := by
  cases htiers : g.tiers with
  | none =>
    simp only [initTree, htiers] at h ⊢
    exact h
  | some root =>
    simp only [initTree, htiers] at h ⊢
    cases hloop : treeLoop g.heap fuel (treeStart g.heap root) with
    | none =>
      rw [hloop] at h
      exact absurd h (by simp)
    | some r =>
      rw [treeLoop_of_le hle hloop, ← hloop]
      exact h

/-- What `initBlocks` computes does not depend on the fuel. -/
theorem initBlocks_unique {fuel fuel' : Nat} {info : GoMap String NodeInfo}
    {r r' : Option DomainMap × BlockState} (h : initBlocks fuel (some g) info = some r)
    (h' : initBlocks fuel' (some g) info = some r') :
    r = r' := by
  cases hd : g.domains with
  | none =>
    simp only [initBlocks, hd] at h h'
    exact Option.some.inj (h.symm.trans h')
  | some domains =>
    cases htiers : g.tiers with
    | none =>
      simp only [initBlocks, hd, htiers] at h h'
      exact Option.some.inj (h.symm.trans h')
    | some root =>
      simp only [initBlocks, hd, htiers] at h h'
      split_ifs at h h' with hempty
      · exact Option.some.inj (h.symm.trans h')
      · obtain ⟨st, hst, rfl⟩ := Option.map_eq_some_iff.mp h
        obtain ⟨st', hst', rfl⟩ := Option.map_eq_some_iff.mp h'
        -- Both walks follow the one breadth first order.
        obtain ⟨vs, hvs, rfl⟩ := blockLoop_order hst
        obtain ⟨vs', hvs', rfl⟩ := blockLoop_order hst'
        rw [hvs.unique hvs']

/-- **The topology of a graph** is the same under every configuration that accepts it. -/
theorem Accepts.eq_with_config {cfg cfg' : Config pkg} {nt nt' : NetworkTopology pkg ρ}
    (h : Accepts (some g) cfg nt) (h' : Accepts (some g) cfg' nt') :
    nt' = { nt with config := nt'.config } := by
  obtain ⟨fuel, config, st, r, -, htree, hr, rfl⟩ := h.parts
  obtain ⟨fuel', config', st', r', -, htree', hr', rfl⟩ := h'.parts
  have hst := (initTree_of_le (le_max_left fuel fuel') htree).symm.trans
    (initTree_of_le (le_max_right fuel fuel') htree')
  obtain rfl := Except.ok.inj (Option.some.inj hst)
  rw [initBlocks_unique hr hr']

/-! ## The index of a host -/

/-- Without tiers a block brings the indices of its nodes along, and no index is lost. -/
theorem isSome_blockIndx_addBlock {domains : DomainMap} {st : BlockState} {b : BlockInfo}
    {n : String} (hhosts : ∀ m ∈ b.nodes, (domains.lookupHost b.name m).isSome)
    (hn : n ∈ b.nodes ∨ ((st.nodeInfo.lookup n).bind (·.blockIndx)).isSome) :
    (((addBlock domains st b).nodeInfo.lookup n).bind (·.blockIndx)).isSome := by
  unfold addBlock
  dsimp only
  revert hn
  generalize st.nodeInfo = info
  revert hhosts
  generalize b.nodes = nodes
  intro hhosts hn
  induction nodes generalizing info with
  | nil => exact hn.resolve_left List.not_mem_nil
  | cons node nodes ih =>
    obtain ⟨hnode, hhosts⟩ := List.forall_mem_cons.mp hhosts
    obtain ⟨host, hhost⟩ := Option.isSome_iff_exists.mp hnode
    rw [List.foldl_cons]
    refine ih _ hhosts ?_
    simp only [hhost]
    rw [GoMap.lookup_insert_eq_ite]
    by_cases heq : n = node
    · right
      rw [if_pos heq]
      rfl
    · rw [if_neg heq]
      exact hn.imp_left fun hmem => (List.mem_cons.mp hmem).resolve_left heq

theorem isSome_blockIndx_foldl_addBlock {domains : DomainMap} {bs : List BlockInfo}
    (hhosts : ∀ b ∈ bs, ∀ m ∈ b.nodes, (domains.lookupHost b.name m).isSome) {st : BlockState}
    {n : String}
    (hn : (∃ b ∈ bs, n ∈ b.nodes) ∨ ((st.nodeInfo.lookup n).bind (·.blockIndx)).isSome) :
    (((bs.foldl (addBlock domains) st).nodeInfo.lookup n).bind (·.blockIndx)).isSome := by
  induction bs generalizing st with
  | nil => exact hn.resolve_left (by simp)
  | cons b bs ih =>
    obtain ⟨hb, hbs⟩ := List.forall_mem_cons.mp hhosts
    rw [List.foldl_cons]
    refine ih hbs ?_
    rcases hn with ⟨c, hc, hnc⟩ | hold
    · rcases List.mem_cons.mp hc with rfl | hc
      · exact Or.inr (isSome_blockIndx_addBlock hb (Or.inl hnc))
      · exact Or.inl ⟨c, hc, hnc⟩
    · exact Or.inr (isSome_blockIndx_addBlock hb (Or.inr hold))

/-- The blocks of a topology are blocks of the domains of its graph. -/
theorem Accepts.ownBlocks_graph {cfg : Config pkg} {nt : NetworkTopology pkg ρ}
    (h : Accepts (some g) cfg nt) : OwnBlocks (g.domains.getD DomainMap.new) nt.blocks := by
  cases hd : nt.domains with
  | none =>
    rw [h.blocks_eq_nil hd]
    exact ⟨by simp, List.nodup_nil, by simp⟩
  | some all =>
    have hall : g.domains = some all := by
      obtain ⟨fuel, config, st, r, -, -, hr, rfl⟩ := h.parts
      rcases initBlocks_cases hr with rfl | ⟨g', domains, hg, hdomains, -, hr1, -⟩
      · exact absurd hd (by simp)
      · obtain rfl := Option.some.inj hg
        rw [hdomains, ← hr1]
        exact hd
    rw [hall]
    exact h.ownBlocks hd

/-- A block lists a host once. -/
theorem OwnBlocks.nodup_nodes {domains : DomainMap} {blocks : List BlockInfo}
    (h : OwnBlocks domains blocks) {b : BlockInfo} (hb : b ∈ blocks) : b.nodes.Nodup := by
  obtain ⟨hosts, -, hperm⟩ := h.named b hb
  exact hperm.nodup_iff.mpr hosts.nodupKeys

/-- A block with its nodes in the order of a list. -/
def BlockInfo.inOrderOf (names : List String) (b : BlockInfo) : BlockInfo :=
  { b with nodes := names.filter (· ∈ b.nodes) }

section Hosts

variable {cfg : Config pkg} {nt : NetworkTopology pkg ρ} (h : Accepts (some g) cfg nt)
  (hdisjoint : DisjointDomains (g.domains.getD DomainMap.new))
  (htree : ∀ root, g.tiers = some root →
    ∀ d n, ((g.domains.getD DomainMap.new).lookupHost d n).isSome →
    ∃ v, AtOrUnder g.heap root v ∧ IsLeaf g.heap v ∧ (g.heap v).name = n)

include h hdisjoint htree

/-- Every host has an index. -/
theorem Accepts.isSome_indexOf {d n : String}
    (hhost : ((g.domains.getD DomainMap.new).lookupHost d n).isSome) : (nt.indexOf n).isSome := by
  cases htiers : g.tiers with
  | some root =>
    obtain ⟨vs, -, horder⟩ := blocks_follow_tree h htiers hdisjoint
    obtain ⟨v, hv, hleaf, rfl⟩ := htree root htiers d n hhost
    obtain ⟨i, k, b, hi, hk, -⟩ := horder.inside v hv hleaf d hhost
    rw [NetworkTopology.indexOf, hi, Option.bind_some, hk]
    rfl
  | none =>
    obtain ⟨fuel, config, st, r, -, hst, hr, rfl⟩ := h.parts
    rcases initBlocks_cases hr with rfl | ⟨g', domains, hg, hd, -, -, ⟨-, hr2⟩ | ⟨root, hroot, -⟩⟩
    · rw [lookupHost_of_initBlocks_none hr] at hhost
      exact absurd hhost (by decide)
    · obtain rfl := Option.some.inj hg
      rw [hd, Option.getD_some] at hhost
      have hown := ownBlocks_toBlockInfos domains
      obtain ⟨b, hb, rfl⟩ := exists_mem_toBlockInfos hhost
      show ((r.2.nodeInfo.lookup n).bind (·.blockIndx)).isSome
      rw [hr2]
      exact isSome_blockIndx_foldl_addBlock (fun b hb m hm => (hown.mem_nodes_iff hb m).mp hm)
        (Or.inl ⟨b, hb, (hown.mem_nodes_iff hb n).mpr hhost⟩)
    · obtain rfl := Option.some.inj hg
      exact absurd (htiers.symm.trans hroot) (by simp)

/-- **The index of a host is the place of its block.** -/
theorem Accepts.indexOf_of_mem {k : Nat} {b : BlockInfo} (hb : nt.blocks[k]? = some b) {n : String}
    (hn : n ∈ b.nodes) : nt.indexOf n = some k := by
  have hown := h.ownBlocks_graph
  have hhost := (hown.mem_nodes_iff (List.mem_of_getElem? hb) n).mp hn
  obtain ⟨k', hk'⟩ := Option.isSome_iff_exists.mp (h.isSome_indexOf hdisjoint htree hhost)
  obtain ⟨b', hb', hn'⟩ := h.exists_block_of_indexOf hk'
  have hname : b.name = b'.name :=
    hdisjoint _ _ n hhost ((hown.mem_nodes_iff (List.mem_of_getElem? hb') n).mp hn')
  -- Two places of one name are the same.
  have hplace : (nt.blocks.map (·.name))[k]? = (nt.blocks.map (·.name))[k']? := by
    rw [List.getElem?_map, List.getElem?_map, hb, hb', Option.map_some, Option.map_some, hname]
  have hlt : k < (nt.blocks.map (·.name)).length := by
    rw [List.length_map]
    exact (List.getElem?_eq_some_iff.mp hb).1
  rw [hk', (List.getElem?_inj hlt hown.nodup).mp hplace]

variable {names : List String}
  (hall : ∀ n, n ∈ names ↔ ∃ d, ((g.domains.getD DomainMap.new).lookupHost d n).isSome)

include hall

omit hdisjoint htree in
/-- A list of all hosts has all nodes of every block. -/
theorem Accepts.inOrderOf_agree (hnodup : names.Nodup) :
    List.Forall₂ (BlocksAgree List.Perm) (nt.blocks.map (BlockInfo.inOrderOf names)) nt.blocks := by
  have hown := h.ownBlocks_graph
  rw [List.forall₂_map_left_iff, List.forall₂_same]
  refine fun b hb =>
    ⟨rfl, (List.perm_ext_iff_of_nodup (hnodup.filter _) (hown.nodup_nodes hb)).mpr fun n => ?_⟩
  rw [List.mem_filter, decide_eq_true_iff, and_iff_right_iff_imp]
  exact fun hn => (hall n).mpr ⟨_, (hown.mem_nodes_iff hb n).mp hn⟩

/-- **A list of all hosts groups to the blocks of the topology**, with their nodes in the order of
the list. -/
theorem Accepts.collectBlocks_agree :
    List.Forall₂ (BlocksAgree Eq) (collectBlocks nt names)
      (nt.blocks.map (BlockInfo.inOrderOf names)) := by
  have hnodes : ∀ k (hk : k < nt.blocks.length),
      (listedBlock nt names k).nodes = names.filter (· ∈ (nt.blocks[k]).nodes) := by
    intro k hk
    have hb := List.getElem?_eq_getElem hk
    refine List.filter_congr fun n _ => decide_eq_decide.mpr ⟨fun hindx => ?_,
      h.indexOf_of_mem hdisjoint htree hb⟩
    obtain ⟨b, hb', hn⟩ := h.exists_block_of_indexOf hindx
    rwa [Option.some.inj (hb.symm.trans hb')]
  -- No block of the topology is without listed nodes.
  have hkeep : ∀ b ∈ (List.range nt.blocks.length).map (listedBlock nt names),
      decide (b.nodes ≠ []) = true := by
    intro b hb
    obtain ⟨k, hk, rfl⟩ := List.mem_map.mp hb
    have hmem := List.getElem_mem (List.mem_range.mp hk)
    obtain ⟨n, hn⟩ := List.exists_mem_of_ne_nil _ (h.blocks_nodes_ne_nil _ hmem)
    have hhost := (hall n).mpr ⟨_, (h.ownBlocks_graph.mem_nodes_iff hmem n).mp hn⟩
    rw [hnodes k (List.mem_range.mp hk)]
    exact decide_eq_true (List.ne_nil_of_mem (List.mem_filter.mpr ⟨hhost, decide_eq_true hn⟩))
  rw [collectBlocks_eq h.indexOf_lt, List.filter_eq_self.mpr hkeep]
  refine List.forall₂_of_length_eq_of_get (by simp) fun k hk _ => ?_
  have hk' : k < nt.blocks.length := by simpa using hk
  simp only [List.get_eq_getElem, List.getElem_map, List.getElem_range]
  exact ⟨by rw [listedBlock, List.getElem?_eq_getElem hk']; rfl, hnodes k hk'⟩

omit hall

/-- The block plugin is accepted with a domain, so there is a block. -/
theorem Accepts.blocks_ne_nil (hplugin : cfg.plugin = topologyBlock) : nt.blocks ≠ [] := by
  obtain ⟨d, n, hhost⟩ : ∃ d n, ((g.domains.getD DomainMap.new).lookupHost d n).isSome := by
    obtain ⟨fuel, config, st, r, hvalid, -, -, -⟩ := h.parts
    obtain ⟨-, -, -, -, ⟨-, hempty, -⟩ | ⟨-, -, ⟨hother, -⟩ | ⟨-, domains, hdomains, hne⟩⟩⟩ :=
      Config.validate_eq_ok hvalid
    · exact absurd (hplugin.symm.trans hempty) (by decide)
    · exact absurd (hplugin.symm.trans hother) (by decide)
    · have hd : g.domains = some domains := hdomains
      obtain ⟨⟨d, hosts⟩, hmem⟩ := List.exists_mem_of_ne_nil _ hne
      have hlook : domains.hosts.lookup d = some hosts := GoMap.lookup_eq_some_iff.mpr hmem
      obtain ⟨⟨n, host⟩, hhost⟩ :=
        List.exists_mem_of_ne_nil _ (domains.filed d hosts hlook).nonempty
      refine ⟨d, n, ?_⟩
      rw [hd, Option.getD_some, DomainMap.lookupHost, hlook, Option.bind_some,
        GoMap.lookup_eq_some_iff.mpr hhost]
      rfl
  obtain ⟨k, hk⟩ := Option.isSome_iff_exists.mp (h.isSome_indexOf hdisjoint htree hhost)
  obtain ⟨b, hb, -⟩ := h.exists_block_of_indexOf hk
  exact List.ne_nil_of_mem (List.mem_of_getElem? hb)

end Hosts

/-- Without block names, validation keeps the block sizes and sets no names. -/
theorem Accepts.config_unnamed {cfg : Config pkg} {nt : NetworkTopology pkg ρ}
    (h : Accepts (some g) cfg nt) (hname : cfg.blockName = none) :
    nt.config.blockName = none ∧ nt.config.blockSizes = cfg.blockSizes := by
  obtain ⟨fuel, config, st, r, hvalid, -, -, rfl⟩ := h.parts
  obtain ⟨blockName, topologies, rfl, hblockName, -⟩ := Config.validate_eq_ok hvalid
  rw [hname] at hblockName
  exact ⟨(Except.ok.inj hblockName).symm, rfl⟩

section Full

variable {cfg cfg' : Config pkg} {nt nt' : NetworkTopology pkg ρ} (h : Accepts (some g) cfg nt)
  (hplugin : cfg.plugin = topologyBlock) (hname : cfg.blockName = none)
  (h' : Accepts (some g) cfg' nt')
  (hdisjoint : DisjointDomains (g.domains.getD DomainMap.new))
  (htree : ∀ root, g.tiers = some root →
    ∀ d n, ((g.domains.getD DomainMap.new).lookupHost d n).isSome →
    ∃ v, AtOrUnder g.heap root v ∧ IsLeaf g.heap v ∧ (g.heap v).name = n)

include h hplugin hname h' hdisjoint htree in
/-- **A partition of all hosts and the cluster-wide topology** have the same block sizes, and
complement the same blocks, up to the order of their nodes. -/
theorem Accepts.fullPartition_lists (spec : TopologySpec pkg) (hspec : spec.blockName = none)
    (hsizes : spec.blockSizes = cfg.blockSizes) (hnodup : spec.nodes.Nodup)
    (hall : ∀ n, n ∈ spec.nodes ↔ ∃ d, ((g.domains.getD DomainMap.new).lookupHost d n).isSome)
    (hexpand : Cluset.expandWithLimit spec.nodes = .ok spec.nodes) (topoName : String) :
    ∃ tu block out, getBlockTopologyUnit nt' topoName spec = .ok tu ∧ tu.block = some block ∧
      (toBlockTopology nt false).2 = .ok out ∧ block.blockSizes = out.blockSizes ∧
      block.blocks.map (·.nodes) =
        (complementBlocks nt.domains (nt.blocks.map (BlockInfo.inOrderOf spec.nodes))
        nt.config.blockSizes).1.map (·.nodes) ∧
      out.lines.map (·.nodes) = (complementBlocks nt.domains nt.blocks nt.config.blockSizes).1.map
        (·.nodes) := by
  have hne := h.blocks_ne_nil hdisjoint htree hplugin
  have hconfig := h.config_unnamed hname
  have hcollect := h.collectBlocks_agree hdisjoint htree hall
  have hne' : collectBlocks nt spec.nodes ≠ [] := by
    intro hnil
    rw [hnil, List.forall₂_nil_left_iff, List.map_eq_nil_iff] at hcollect
    exact hne hcollect
  obtain ⟨tu, block, htu, hblock, hblockSizes, hnodes⟩ :=
    getBlockTopologyUnit_unnamed hspec hexpand hne' topoName
  obtain ⟨out, hout, houtSizes, hlines⟩ := toBlockTopology_unnamed hconfig.1 h.nodup_id hne
  rw [hsizes, ← hconfig.2] at hblockSizes hnodes
  -- The grouped blocks are complemented like those in the order of the list, and these like those
  -- of the topology.
  obtain ⟨hsame, hlists⟩ := complementBlocks_agree (R := Eq) (fun l l' hl n => by rw [hl])
    (fun _ => rfl) hcollect nt.domains nt.config.blockSizes
  rw [List.forall₂_eq_eq_eq] at hlists
  obtain ⟨heffective, hcomplement⟩ := complementBlocks_agree (fun l l' hp n => hp.mem_iff)
    List.Perm.refl (h.inOrderOf_agree hall hnodup) nt.domains nt.config.blockSizes
  refine ⟨tu, block, out, ?_, hblock, hout, ?_, hnodes.trans hlists, hlines⟩
  · rw [h.eq_with_config h']
    exact htu
  · have hlengths : (complementBlocks nt.domains (collectBlocks nt spec.nodes)
        nt.config.blockSizes).1.map (·.nodes.length) =
        (complementBlocks nt.domains nt.blocks nt.config.blockSizes).1.map (·.nodes.length) := by
      have hmap := List.rel_map (fun l l' hp => List.Perm.length_eq hp) (hlists ▸ hcomplement)
      rwa [List.forall₂_eq_eq_eq, List.map_map, List.map_map] at hmap
    rw [hsame, heffective, getBlockSizes_agree hlengths, houtSizes] at hblockSizes
    exact (Except.ok.inj hblockSizes).symm

/-! ## The order of the nodes -/

/-- Two lists that are written as lists of the same hosts. -/
def SameHosts (srt : Cluset.NumberSort) (l l' : List String) : Prop :=
  ∀ n, n ∈ Cluset.hosts (Cluset.hostList srt l) ↔ n ∈ Cluset.hosts (Cluset.hostList srt l')

/-- The blocks whose nodes are written in their own order: all where no tree is built, and those
that slots of the tree take over. -/
def takenOver (domains : Option DomainMap) (blocks : List BlockInfo) (blockSizes : List Nat) :
    List BlockInfo :=
  (treeSlots domains blocks blockSizes).elim blocks
    (·.filterMap (takenBlock (blocksByName blocks)))

/-- **The order of a list does not show**: the nodes of every block that is taken over are written
as the same hosts in the order of the list and in their own. -/
def OrderHidden (srt : Cluset.NumberSort) (nt : NetworkTopology pkg ρ) (names : List String) :
    Prop :=
  ∀ b ∈ takenOver nt.domains nt.blocks nt.config.blockSizes,
    SameHosts srt (names.filter (· ∈ b.nodes)) b.nodes

/-- **The complemented blocks** are written as the same hosts in two orders exactly when the blocks
taken over are. -/
theorem sameHosts_complementBlocks {srt : Cluset.NumberSort} {names : List String}
    {blocks : List BlockInfo}
    (h : List.Forall₂ (BlocksAgree List.Perm) (blocks.map (BlockInfo.inOrderOf names)) blocks)
    (domains : Option DomainMap) (sizes : List Nat) :
    List.Forall₂ (SameHosts srt)
      ((complementBlocks domains (blocks.map (BlockInfo.inOrderOf names)) sizes).1.map (·.nodes))
      ((complementBlocks domains blocks sizes).1.map (·.nodes)) ↔
    ∀ b ∈ takenOver domains blocks sizes, SameHosts srt (names.filter (· ∈ b.nodes)) b.nodes := by
  have hfilter : List.Forall₂ (BlocksAgree fun l l' => l = names.filter (· ∈ l'))
      (blocks.map (BlockInfo.inOrderOf names)) blocks := by
    rw [List.forall₂_map_left_iff, List.forall₂_same]
    exact fun b _ => ⟨rfl, rfl⟩
  rw [complementBlocks_eq_elim, complementBlocks_eq_elim, takenOver,
    treeSlots_agree (fun l l' hp n => hp.mem_iff) h]
  cases treeSlots domains blocks sizes with
  | none =>
    simp only [Option.elim_none, List.forall₂_map_left_iff, List.forall₂_map_right_iff,
      List.forall₂_same]
    rfl
  | some slots =>
    simp only [Option.elim_some, map_nodes_slotBlocks_eq, List.forall₂_map_left_iff,
      List.forall₂_map_right_iff, List.forall₂_same, List.forall_mem_filterMap]
    refine forall₂_congr fun bb _ => ?_
    have hbb := takenBlock_agree hfilter bb
    revert hbb
    generalize takenBlock (blocksByName (blocks.map _)) bb = x
    generalize takenBlock (blocksByName blocks) bb = y
    rintro (hab | -)
    · simp [hab.nodes]
    · simp [SameHosts]

/-- A steady list names the same hosts in every order. -/
theorem sameHosts_of_steady {l l' : List String} (h : Cluset.Steady (l'.map String.toList))
    (hperm : l.Perm l') (srt : Cluset.NumberSort) : SameHosts srt l l' := by
  intro n
  rw [(h.perm (hperm.map _)).kept srt n, h.kept srt n, hperm.mem_iff]

end Full

/-- Two racks. -/
def twoRacks : Graph Unit := racks [("a", "a1"), ("a", "a2"), ("b", "b1"), ("b", "b2")]

/-- A partition of all hosts of `twoRacks`. -/
def allHosts : TopologySpec noRegexp where
  plugin := topologyBlock
  blockSizes := []
  blockName := none
  clusterDefault := true
  nodes := ["b2", "a1", "b1", "a2"]

/-- The block plugin for one topology, without block sizes. -/
def partitioned (spec : TopologySpec noRegexp) : Config noRegexp where
  plugin := ""
  blockSizes := []
  blockName := none
  topologies := AList.singleton "p1" spec

/-- A partition of all hosts of `stemGraph`, in the order that is not the one of the domain. -/
def stemHosts : TopologySpec noRegexp where
  plugin := topologyBlock
  blockSizes := []
  blockName := none
  clusterDefault := true
  nodes := ["n1", "n"]

end Topograph.Translate
