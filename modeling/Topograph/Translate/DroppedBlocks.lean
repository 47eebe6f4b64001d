import Topograph.Lib.Segments
import Topograph.Translate.CollectBlocks

/-! # Blocks that cannot be named

Blocks are named after they are laid out in slots, and a block whose nodes give no common name is
taken out of the list, so all blocks behind it move up. `layoutKept_iff` says when every block that
is left stays in its aggregates and the list still ends on a multiple of the last block size. -/

namespace Topograph.Translate

open Topograph.Topology

variable {pkg : RegexpPackage} {ρ : Type} {nt : NetworkTopology pkg ρ}

/-! ## Kept blocks -/

/-- Whether the nodes of a block give it a name. -/
def keeps (f : Option (BlockNameFormatter pkg)) (nodes : List String) : Bool :=
  (formatBlockName f "" "" nodes).isOk

theorem isOk_formatNodes (f : BlockNameFormatter pkg) (description description' blockName : String)
    (nodes : List String) :
    (formatNodes f description blockName nodes).isOk =
      (formatNodes f description' blockName nodes).isOk := by
  induction nodes generalizing blockName with
  | nil => rfl
  | cons node nodes ih =>
    rw [formatNodes, formatNodes]
    cases pkg.findStringSubmatchIndex f.re node with
    | none => rfl
    | some m =>
      dsimp only
      split_ifs
      · rfl
      · exact ih _
      · rfl
      · exact ih _

/-- Only the nodes of a block decide whether it is kept. -/
theorem isOk_formatBlockName (f : Option (BlockNameFormatter pkg)) (defaultName domainName : String)
    (nodes : List String) :
    (formatBlockName f defaultName domainName nodes).isOk = keeps f nodes := by
  unfold keeps formatBlockName
  cases f with
  | none => rfl
  | some f =>
    dsimp only
    split_ifs
    · rfl
    · exact isOk_formatNodes f _ _ _ _

variable {f : Option (BlockNameFormatter pkg)}

/-- A block is kept when its name can be formatted. -/
theorem formatBlock_kept {st st' : FormattedBlocks} {block : BlockInfo}
    (h : formatBlock f st block = .ok st') :
    st'.kept.map (·.1) = st.kept.map (·.1) ++ [block].filter fun b => keeps f b.nodes := by
  have hkeeps := isOk_formatBlockName f block.id block.name block.nodes
  unfold formatBlock at h
  split at h
  · rename_i hname
    rw [hname] at hkeeps
    obtain rfl := Except.ok.inj h
    rw [List.filter_cons_of_neg (by rw [← hkeeps]; simp [Except.isOk, Except.toBool])]
    simp
  · rename_i name hname
    rw [hname] at hkeeps
    split at h
    · exact absurd h (by simp)
    · obtain rfl := Except.ok.inj h
      rw [List.filter_cons_of_pos (by rw [← hkeeps]; rfl)]
      simp

variable {blocks : List BlockInfo}

/-- **The kept blocks** are those whose nodes give a name, in their order. -/
theorem formatBlockNames_kept {st : FormattedBlocks} (h : formatBlockNames blocks f = .ok st) :
    st.kept.map (·.1) = blocks.filter fun b => keeps f b.nodes := by
  refine Loops.foldlM_ok (I := fun done (st : FormattedBlocks) => st.kept.map (·.1) =
    done.filter fun b => keeps f b.nodes) rfl
    (fun done block _ st st' _ hdone hstep => ?_) h
  rw [formatBlock_kept hstep, hdone, List.filter_append]

/-! ## Emitted blocks -/

/-- **What a block unit is**, if it is not flat. -/
theorem getBlockTopologyUnit_eq_ok {topoName : String} {spec : TopologySpec pkg} {tu : TopologyUnit}
    {block : BlockTopo} (h : getBlockTopologyUnit nt topoName spec = .ok tu)
    (hblock : tu.block = some block) :
    ∃ names formatted, Cluset.expandWithLimit spec.nodes = .ok names ∧ collectBlocks nt names ≠ [] ∧
      formatBlockNames (renumber (complementBlocks nt.domains (collectBlocks nt names)
        spec.blockSizes).1) (compileBlockNameFormatter spec.blockName) = .ok formatted ∧
      getBlockSizes (formatted.kept.map (·.1))
        (complementBlocks nt.domains (collectBlocks nt names) spec.blockSizes).2 =
        .ok block.blockSizes ∧
      block.blocks = formatted.kept.map fun b => { name := b.2, nodes := b.1.nodes } := by
  unfold getBlockTopologyUnit at h
  dsimp only at h
  split at h
  · exact absurd h (by simp)
  · rename_i names hexpand
    split_ifs at h with hempty
    · rw [← Except.ok.inj h] at hblock
      exact absurd hblock (by simp)
    · split at h
      · exact absurd h (by simp)
      · rename_i formatted hformat
        split_ifs at h with hdropped
        · rw [← Except.ok.inj h] at hblock
          exact absurd hblock (by simp)
        · split at h
          · exact absurd h (by simp)
          · rename_i blockSizes hsizes
            rw [← Except.ok.inj h] at hblock
            obtain rfl := Option.some.inj hblock
            exact ⟨names, formatted, hexpand, hempty, hformat, hsizes, rfl⟩

/-- `Emits nt blocks sizes blockName emitted`: from `blocks` the cluster-wide topology or a
partition has the blocks `emitted`, given by their nodes. -/
inductive Emits (nt : NetworkTopology pkg ρ) :
    List BlockInfo → List Nat → Option (BlockNameConfig pkg) → List (List String) → Prop
  | cluster {info : GoMap String NodeInfo} {out : BlockOutput}
      (h : toBlockTopology nt false = (info, .ok out)) :
      Emits nt nt.blocks nt.config.blockSizes nt.config.blockName (out.lines.map (·.nodes))
  | partition {topoName : String} {spec : TopologySpec pkg} {tu : TopologyUnit} {block : BlockTopo}
      {names : List String}
      (h : getBlockTopologyUnit nt topoName spec = .ok tu) (hblock : tu.block = some block)
      (hexpand : Cluset.expandWithLimit spec.nodes = .ok names) :
      Emits nt (collectBlocks nt names) spec.blockSizes spec.blockName (block.blocks.map (·.nodes))

theorem map_nodes_renumber (blocks : List BlockInfo) :
    (renumber blocks).map (·.nodes) = blocks.map (·.nodes) := by
  apply List.ext_getElem?
  intro i
  rw [List.getElem?_map, List.getElem?_map, renumber, List.getElem?_mapIdx, Option.map_map]
  rfl

/-- Filtering by nodes, read as node lists. -/
theorem map_nodes_filter_keeps (f : Option (BlockNameFormatter pkg)) (blocks : List BlockInfo) :
    (blocks.filter fun b => keeps f b.nodes).map (·.nodes) = (blocks.map (·.nodes)).filter
      (keeps f) := by
  rw [List.filter_map]
  rfl

variable {blockName : Option (BlockNameConfig pkg)} {sizes : List Nat}
  {emitted : List (List String)}

/-- **The emitted blocks** are the complemented ones that are kept. -/
theorem Emits.emitted_eq (h : Emits nt blocks sizes blockName emitted) :
    emitted = ((complementBlocks nt.domains blocks sizes).1.map (·.nodes)).filter
      (keeps (compileBlockNameFormatter blockName)) := by
  cases h with
  | cluster h =>
    obtain ⟨formatted, hformat, -, hlines, -⟩ := toBlockTopology_eq_ok h
    rw [hlines, ← map_nodes_filter_keeps, ← formatBlockNames_kept hformat,
      List.map_map, List.map_map]
    rfl
  | partition h hblock hexpand =>
    obtain ⟨names', formatted, hexpand', -, hformat, -, hblocks⟩ :=
      getBlockTopologyUnit_eq_ok h hblock
    obtain rfl := Except.ok.inj (hexpand.symm.trans hexpand')
    rw [hblocks, ← map_nodes_renumber, ← map_nodes_filter_keeps, ← formatBlockNames_kept hformat,
      List.map_map, List.map_map]
    rfl

variable {graph : Option (Graph ρ)} {cfg : Config pkg}

section

variable (ha : Accepts graph cfg nt) (h : Emits nt blocks sizes blockName emitted)

include ha h

/-- The blocks that are complemented list hosts of their domains. -/
theorem Emits.hosts {all : DomainMap} (hd : nt.domains = some all) :
    ∀ b ∈ blocks, b.nodes ≠ [] ∧ ∀ n ∈ b.nodes, (all.lookupHost b.name n).isSome := by
  cases h with
  | cluster h =>
    exact fun b hb => ⟨ha.nodes_ne_nil hd hb, fun n hn => ha.lookupHost_blocks hd hb hn⟩
  | partition h hblock hexpand =>
    intro b hb
    obtain ⟨k, -, hne⟩ := mem_collectBlocks.mp hb
    exact ⟨hne, fun n hn => ha.lookupHost_collectBlocks hd hb hn⟩

theorem Emits.blocks_eq_nil (hd : nt.domains = none) : blocks = [] := by
  have hnil := ha.blocks_eq_nil hd
  cases h with
  | cluster h => exact hnil
  | partition h hblock hexpand =>
    rw [collectBlocks_eq ha.indexOf_lt, hnil]
    rfl

/-- **The complemented list** ends on a multiple of the last block size. -/
theorem Emits.dvd_length (hsizes : sizes ≠ [])
    (hvalid : Slurm.validateBlockSizes (sizes.map Int.ofNat) = .ok ()) :
    sizes.getLastD 0 / sizes.headD 0 ∣ (complementBlocks nt.domains blocks sizes).1.length := by
  have hnil : blocks = [] → (complementBlocks nt.domains blocks sizes).1.length = 0 := by
    rintro rfl
    rw [complementBlocks_of_nil]
    rfl
  cases hd : nt.domains with
  | none =>
    rw [← hd, hnil (h.blocks_eq_nil ha hd)]
    exact dvd_zero _
  | some all =>
    by_cases hne : (domainsForBlocks all blocks).hosts.entries = []
    · -- Every block has a host, so there is no block.
      have hblocks : blocks = [] := List.eq_nil_iff_forall_not_mem.mpr fun b hb =>
        (h.hosts ha hd b hb).1 (nodes_eq_nil_of_no_domains (fun b hb => (h.hosts ha hd b hb).2) hne
          hb)
      rw [← hd, hnil hblocks]
      exact dvd_zero _
    · have hs := powerSizes_of_validate hsizes hvalid
      have hdvd := (length_complementBlocks_isLeast hne hsizes hvalid).1.1
      obtain ⟨k, hk⟩ := hs.last
      rw [hk, Nat.mul_comm _ (sizes.headD 0)] at hdvd
      rw [hk, Nat.mul_div_cancel_left _ hs.pos]
      exact Nat.dvd_of_mul_dvd_mul_left hs.pos hdvd

end

/-! ## The layout -/

/-- **The layout is kept.** Every block with nodes that `keep` leaves stands in the aggregates of
all levels it stood in, and the number of emitted blocks is a multiple of that of the last level. -/
def LayoutKept (sizes : List Nat) (keep : List String → Bool)
    (padded emitted : List (List String)) : Prop :=
  (∀ i nodes, padded[i]? = some nodes → nodes ≠ [] → keep nodes = true →
    emitted[filterIndex keep padded i]? = some nodes ∧
      ∀ size ∈ sizes.drop 1, filterIndex keep padded i / (size / sizes.headD 0) =
      i / (size / sizes.headD 0)) ∧
  sizes.getLastD 0 / sizes.headD 0 ∣ emitted.length

/-- Moving up by `k` stays in the aggregate of `w` blocks unless it crosses its beginning. -/
theorem div_eq_iff_le_mod {w i j k : Nat} (hw : 0 < w) (h : j + k = i) :
    j / w = i / w ↔ k ≤ i % w := by
  have hi := Nat.div_add_mod' i w
  constructor
  · intro hdiv
    have hj := Nat.div_add_mod' j w
    rw [hdiv] at hj
    omega
  · intro hle
    have hlt := Nat.mod_lt i hw
    rw [Nat.div_eq_iff hw]
    generalize i / w * w = start at *
    constructor <;> omega

/-- The widths of the levels are multiples of the first one. -/
theorem PowerSizes.width_dvd (hs : PowerSizes sizes) {size : Nat} (h : size ∈ sizes.drop 1) :
    sizes.getD 1 0 / sizes.headD 0 ∣ size / sizes.headD 0 ∧ 0 < size / sizes.headD 0 := by
  match sizes, hs, h with
  | first :: second :: rest, hs, h =>
    have hsecond : IsPowMul first second := hs.powMul second (by simp)
    have hsize : IsPowMul first size := hs.powMul size (List.mem_cons_of_mem _ h)
    have hle : second ≤ size := by
      rcases List.mem_cons.mp h with rfl | hrest
      · exact le_rfl
      · exact ((List.pairwise_cons.mp (List.pairwise_cons.mp hs.increasing).2).1 size hrest).le
    exact ⟨Nat.div_dvd_div hsecond.base_dvd (hsecond.dvd_of_le hs.pos hsize hle),
      (exists_blocks_of_isPowMul hs.pos hsize).2⟩

/-- The second block size is a level of its own. -/
theorem getD_mem_drop (h : 2 ≤ sizes.length) : sizes.getD 1 0 ∈ sizes.drop 1 := by
  match sizes, h with
  | first :: second :: rest, _ => exact List.mem_cons_self

/-- **When dropped blocks do no harm.** On an accepted topology with at least two block sizes: the
blocks dropped in front of a block that is left are no more than the blocks in front of it in its
aggregate of the second size, and the blocks dropped in all fill up whole aggregates of the last
size. -/
theorem layoutKept_iff {graph : Option (Graph ρ)} {cfg : Config pkg} (ha : Accepts graph cfg nt)
    {blocks : List BlockInfo} {sizes : List Nat} {blockName : Option (BlockNameConfig pkg)}
    {emitted : List (List String)} (h : Emits nt blocks sizes blockName emitted)
    (hlevels : 2 ≤ sizes.length)
    (hvalid : Slurm.validateBlockSizes (sizes.map Int.ofNat) = .ok ()) :
    let padded := (complementBlocks nt.domains blocks sizes).1.map (·.nodes)
    let keep := keeps (compileBlockNameFormatter blockName)
    LayoutKept sizes keep padded emitted ↔
      (∀ i nodes, padded[i]? = some nodes → nodes ≠ [] → keep nodes = true →
        ((padded.take i).filter fun nodes => !keep nodes).length ≤
        i % (sizes.getD 1 0 / sizes.headD 0)) ∧
      sizes.getLastD 0 / sizes.headD 0 ∣ (padded.filter fun nodes => !keep nodes).length := by
  intro padded keep
  have hsizes : sizes ≠ [] := fun hnil => absurd hlevels (by simp [hnil])
  have hs := powerSizes_of_validate hsizes hvalid
  have hemitted : emitted = padded.filter keep := h.emitted_eq
  have hlength : sizes.getLastD 0 / sizes.headD 0 ∣ padded.length := by
    rw [List.length_map]
    exact h.dvd_length ha hsizes hvalid
  have hsecond := getD_mem_drop hlevels
  refine and_congr ?_ ?_
  · refine forall_congr' fun i => forall_congr' fun nodes => forall_congr' fun hi =>
      forall_congr' fun _ => forall_congr' fun hkeep => ?_
    have hmoved := filterIndex_add keep (List.getElem?_eq_some_iff.mp hi).1.le
    constructor
    · rintro ⟨-, hsame⟩
      exact (div_eq_iff_le_mod (hs.width_dvd hsecond).2 hmoved).mp (hsame _ hsecond)
    · intro hle
      refine ⟨hemitted ▸ getElem?_filter_filterIndex hi hkeep, fun size hsize => ?_⟩
      -- What stays within the smallest aggregate stays within the larger ones.
      obtain ⟨hdvd, hpos⟩ := hs.width_dvd hsize
      refine (div_eq_iff_le_mod hpos hmoved).mpr (hle.trans ?_)
      rw [← Nat.mod_mod_of_dvd i hdvd]
      exact Nat.mod_le _ _
  · rw [List.length_eq_length_filter_add keep] at hlength
    rw [hemitted]
    exact ⟨fun hkept => (Nat.dvd_add_right hkept).mp hlength,
      fun hdropped => (Nat.dvd_add_left hdropped).mp hlength⟩

/-- The expression `^g[0-9]+$`, with the format `$0`. -/
def rackRegexp : RegexpPackage where
  Regexp := String
  Match := Unit
  compile := .ok
  string := id
  findStringSubmatchIndex _ node :=
    match node.toList with
    | 'g' :: digit :: digits => if (digit :: digits).all Char.isDigit then some () else none
    | _ => none
  expandString _ _ node _ := node

/-- The block plugin with block sizes 1 and 2 and block names from this expression. -/
def rackNames : Config rackRegexp where
  plugin := topologyBlock
  blockSizes := [1, 2]
  blockName := some { nodeNameRegexp := "^g[0-9]+$", format := "$0", compiledRegexp := none }
  topologies := ∅

/-- Racks of hosts, without tiers. -/
def racks (hosts : List (String × String)) : Graph Unit where
  heap _ := { name := "", id := "", vertices := ∅ }
  tiers := none
  domains := some (hosts.foldl (fun m h =>
    m.addHostInfo { domain := h.1, instanceID := h.2, hostName := h.2, subDomain := "" })
      DomainMap.new)

/-- The last two of four racks are dropped. -/
theorem racks_layoutKept : ∃ nt emitted,
    Accepts (some (racks [("r1", "g1"), ("r2", "g2"), ("r3", "x3"), ("r4", "x4")])) rackNames nt ∧
    Emits nt nt.blocks [1, 2] nt.config.blockName emitted ∧ emitted = [["g1"], ["g2"]] ∧
    LayoutKept [1, 2] (keeps (compileBlockNameFormatter nt.config.blockName))
      ((complementBlocks nt.domains nt.blocks [1, 2]).1.map (·.nodes)) emitted := by
  obtain ⟨nt, hnt, hsizes, hpadded, hkeep, info, out, hrun, hlines⟩ :
      ∃ nt, newNetworkTopology 1
      (some (racks [("r1", "g1"), ("r2", "g2"), ("r3", "x3"), ("r4", "x4")])) rackNames =
      some (.ok nt) ∧
        nt.config.blockSizes = [1, 2] ∧
        (complementBlocks nt.domains nt.blocks [1, 2]).1.map (·.nodes) = [["g1"], ["g2"],
          ["x3"], ["x4"]] ∧
        [["g1"], ["g2"], ["x3"], ["x4"]].map
        (keeps (compileBlockNameFormatter nt.config.blockName)) = [true, true, false, false] ∧
        ∃ info out, toBlockTopology nt false = (info, .ok out) ∧ out.lines.map (·.nodes) =
        [["g1"], ["g2"]] :=
    ⟨_, rfl, rfl, by decide, by decide, _, _, rfl, by decide⟩
  have hemits : Emits nt nt.blocks [1, 2] nt.config.blockName [["g1"], ["g2"]] := by
    rw [← hlines, ← hsizes]
    exact .cluster hrun
  refine ⟨nt, _, ⟨1, hnt⟩, hemits, rfl, (layoutKept_iff ⟨1, hnt⟩ hemits (by decide) rfl).mpr ?_⟩
  rw [hpadded]
  simp only [List.map_cons, List.map_nil, List.cons.injEq, and_true] at hkeep
  obtain ⟨h1, h2, h3, h4⟩ := hkeep
  refine ⟨fun i nodes hi _ hkept => ?_, by simp [h1, h2, h3, h4]⟩
  match i, hi with
  | 0, _ => simp
  | 1, _ => simp [h1]
  | 2, hi => exact absurd hkept (by simp [← Option.some.inj hi, h3])
  | 3, hi => exact absurd hkept (by simp [← Option.some.inj hi, h4])

/-- The first of three racks is dropped: the third one moves into the aggregate of the second one,
and the number of blocks is odd. -/
theorem racks_not_layoutKept : ∃ nt emitted,
    Accepts (some (racks [("r1", "x1"), ("r2", "g2"), ("r3", "g3")])) rackNames nt ∧
    Slurm.validateBlockSizes [1, 2] = .ok () ∧
      Emits nt nt.blocks [1, 2] nt.config.blockName emitted ∧
    (complementBlocks nt.domains nt.blocks [1, 2]).1.map (·.nodes) = [["x1"], ["g2"], ["g3"], []] ∧
    emitted = [["g2"], ["g3"], []] ∧
    ¬ LayoutKept [1, 2] (keeps (compileBlockNameFormatter nt.config.blockName))
      ((complementBlocks nt.domains nt.blocks [1, 2]).1.map (·.nodes)) emitted := by
  obtain ⟨nt, hnt, hsizes, hpadded, hkeep, info, out, hrun, hlines⟩ :
      ∃ nt, newNetworkTopology 1 (some (racks [("r1", "x1"), ("r2", "g2"), ("r3", "g3")]))
      rackNames = some (.ok nt) ∧
        nt.config.blockSizes = [1, 2] ∧
        (complementBlocks nt.domains nt.blocks [1, 2]).1.map (·.nodes) =
        [["x1"], ["g2"], ["g3"], []] ∧
        [["x1"], ["g2"], ["g3"], []].map (keeps (compileBlockNameFormatter nt.config.blockName)) =
        [false, true, true, true] ∧
        ∃ info out, toBlockTopology nt false = (info, .ok out) ∧ out.lines.map (·.nodes) =
        [["g2"], ["g3"], []] :=
    ⟨_, rfl, rfl, by decide, by decide, _, _, rfl, by decide⟩
  have hemits : Emits nt nt.blocks [1, 2] nt.config.blockName [["g2"], ["g3"], []] := by
    rw [← hlines, ← hsizes]
    exact .cluster hrun
  refine ⟨nt, _, ⟨1, hnt⟩, rfl, hemits, hpadded, rfl, ?_⟩
  simp only [List.map_cons, List.map_nil, List.cons.injEq, and_true] at hkeep
  obtain ⟨h1, h2, h3, -⟩ := hkeep
  rw [hpadded]
  rintro ⟨hsame, -⟩
  have hmoved := (hsame 2 ["g3"] rfl (by decide) h3).2 2 (by decide)
  simp [filterIndex, h1, h2] at hmoved

end Topograph.Translate
