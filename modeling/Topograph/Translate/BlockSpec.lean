import Topograph.Cluset.RoundTrip
import Topograph.Translate.Block
import Topograph.Translate.Conservation

/-! # Block specs and the emitted blocks

After `toBlockTopology` the block ID of a node is the name of the last emitted block that lists it,
and is empty when there is none: every node with a block ID is in some block (`Accepts.mem_blocks`),
complementing keeps it (`complementBlocks_perm`), and a formatted block is kept or dropped. The file
shows the lists compacted, so the specs agree with it as far as the node is read back from them
(`blockSpec_iff`). -/

namespace Topograph.Translate

open Topograph.Topology

variable {pkg : RegexpPackage} {ρ : Type}

/-! ## Block names -/

/-- The name a block is formatted with is not empty. -/
theorem formatNodes_ne_empty {f : BlockNameFormatter pkg} {description blockName name : String}
    {nodes : List String} (h : formatNodes f description blockName nodes = .ok name)
    (hne : blockName ≠ "" ∨ nodes ≠ []) : name ≠ "" := by
  induction nodes generalizing blockName with
  | nil =>
    obtain rfl := Except.ok.inj h
    exact hne.resolve_right (not_not.mpr rfl)
  | cons node nodes ih =>
    rw [formatNodes] at h
    split at h
    · exact absurd h (by simp)
    · dsimp only at h
      split_ifs at h with h1 h2 h3
      · exact ih h (Or.inl h1)
      · exact ih h (Or.inl h2)

variable {f : Option (BlockNameFormatter pkg)}

theorem formatBlockName_ne_empty {defaultName domainName name : String} {nodes : List String}
    (hdefault : defaultName ≠ "") (h : formatBlockName f defaultName domainName nodes = .ok name) :
    name ≠ "" := by
  cases f with
  | none =>
    obtain rfl := Except.ok.inj h
    exact hdefault
  | some f =>
    rw [formatBlockName] at h
    split_ifs at h with hnodes
    · obtain rfl := Except.ok.inj h
      exact hdefault
    · exact formatNodes_ne_empty h (Or.inr hnodes)

/-- What holds of the formatted blocks: they are kept under a name of their own or dropped. -/
structure Formatted (f : Option (BlockNameFormatter pkg)) (blocks : List BlockInfo)
    (st : FormattedBlocks) : Prop where
  nodup : (st.kept.map (·.2)).Nodup
  seen : ∀ b ∈ st.kept, (st.seen.lookup b.2).isSome
  kept : ∀ b ∈ st.kept, b.1 ∈ blocks ∧ formatBlockName f b.1.id b.1.name b.1.nodes = .ok b.2
  dropped : ∀ b ∈ st.dropped, b ∈ blocks
  all : ∀ b ∈ blocks, (∃ name, (b, name) ∈ st.kept) ∨ b ∈ st.dropped

variable {blocks : List BlockInfo}

/-- One more block is formatted. -/
theorem Formatted.step {st st' : FormattedBlocks} {block : BlockInfo} (h : Formatted f blocks st)
    (hstep : formatBlock f st block = .ok st') : Formatted f (blocks ++ [block]) st' := by
  rw [formatBlock] at hstep
  split at hstep
  · obtain rfl := Except.ok.inj hstep
    refine ⟨h.nodup, h.seen, fun b hb => ⟨List.mem_append_left _ (h.kept b hb).1, (h.kept b hb).2⟩,
      ?_, ?_⟩
    · intro b hb
      rcases List.mem_append.mp hb with hb | hb
      · exact List.mem_append_left _ (h.dropped b hb)
      · exact List.mem_append_right _ hb
    · intro b hb
      rcases List.mem_append.mp hb with hb | hb
      · rcases h.all b hb with hk | hd
        · exact Or.inl hk
        · exact Or.inr (List.mem_append_left _ hd)
      · exact Or.inr (List.mem_append_right _ hb)
  · rename_i name hname
    split at hstep
    · exact absurd hstep (by simp)
    · rename_i hunseen
      obtain rfl := Except.ok.inj hstep
      -- A name that was not seen before is none of those kept so far.
      have hnew : ∀ b ∈ st.kept, b.2 ≠ name := by
        rintro b hb rfl
        have hseen := h.seen b hb
        rw [hunseen] at hseen
        exact absurd hseen (by simp)
      refine ⟨?_, ?_, ?_, fun b hb => List.mem_append_left _ (h.dropped b hb), ?_⟩
      · rw [List.map_append, List.map_singleton, List.nodup_append]
        refine ⟨h.nodup, List.nodup_singleton _, fun x hx y hy => ?_⟩
        obtain ⟨b, hb, rfl⟩ := List.mem_map.mp hx
        rw [List.mem_singleton.mp hy]
        exact hnew b hb
      · intro b hb
        rw [GoMap.lookup_insert_eq_ite]
        rcases List.mem_append.mp hb with hb | hb
        · rw [if_neg (hnew b hb)]
          exact h.seen b hb
        · obtain rfl := List.mem_singleton.mp hb
          rw [if_pos rfl]
          rfl
      · intro b hb
        rcases List.mem_append.mp hb with hb | hb
        · exact ⟨List.mem_append_left _ (h.kept b hb).1, (h.kept b hb).2⟩
        · obtain rfl := List.mem_singleton.mp hb
          exact ⟨List.mem_append_cons_self, hname⟩
      · intro b hb
        rcases List.mem_append.mp hb with hb | hb
        · rcases h.all b hb with ⟨n, hk⟩ | hd
          · exact Or.inl ⟨n, List.mem_append_left _ hk⟩
          · exact Or.inr hd
        · obtain rfl := List.mem_singleton.mp hb
          exact Or.inl ⟨name, List.mem_append_cons_self⟩

/-- The loop formats every block. -/
theorem formatted_formatBlockNames {st : FormattedBlocks} (h : formatBlockNames blocks f = .ok st) :
    Formatted f blocks st :=
  Loops.foldlM_ok (I := Formatted f) ⟨by simp, by simp, by simp, by simp, by simp⟩
    (fun _ _ _ _ _ _ hdone hstep => hdone.step hstep) h

/-! ## Block IDs of nodes -/

theorem lookup_assignBlockID (id : String) (info : GoMap String NodeInfo) (nodes : List String)
    (n : String) :
    (assignBlockID id info nodes).lookup n =
      (info.lookup n).map fun i => if n ∈ nodes then { i with blockID := id } else i :=
  lookup_foldl_updateNode (fun i => { i with blockID := id }) (fun _ => rfl) nodes info n

variable {info : GoMap String NodeInfo} {n : String}

/-- **Block IDs after a loop over named blocks**: the name of the last block that lists the node, or
the ID it had before. -/
theorem lookup_foldl_assignBlockID (named : List (List String × String))
    (info : GoMap String NodeInfo) (n : String) :
    (named.foldl (fun info b => assignBlockID b.2 info b.1) info).lookup n =
      (info.lookup n).map fun i =>
        (named.reverse.find? (n ∈ ·.1)).elim i fun b => { i with blockID := b.2 } := by
  induction named using List.reverseRecOn with
  | nil => simp
  | append_singleton named b ih =>
    rw [List.foldl_append, List.foldl_cons, List.foldl_nil, lookup_assignBlockID, ih,
      Option.map_map,
      List.reverse_append, List.reverse_singleton, List.singleton_append, List.find?_cons]
    congr 1
    funext i
    by_cases hn : n ∈ b.1
    · simp only [Function.comp_apply, hn, if_true, decide_true, Option.elim_some]
      cases named.reverse.find? (n ∈ ·.1) <;> rfl
    · simp only [Function.comp_apply, hn, if_false, decide_false]

/-- A search through the blocks that finds nothing. -/
theorem find?_reverse_eq_none {α : Type} {l : List α} {nodes : α → List String} {n : String} :
    l.reverse.find? (n ∈ nodes ·) = none ↔ ∀ a ∈ l, n ∉ nodes a := by
  simp

variable {nt : NetworkTopology pkg ρ} {graph : Option (Graph ρ)} {cfg : Config pkg}

/-! ## The emitted blocks -/

/-- The blocks of a complemented list have IDs. -/
theorem complementBlocks_id_ne {all : DomainMap} (h : OwnBlocks all blocks)
    (blockSizes : List Nat) :
    ∀ b ∈ (complementBlocks (some all) blocks blockSizes).1, b.id ≠ "" := by
  rcases complementBlocks_cases all blocks blockSizes with ⟨sizes, heq⟩ | ⟨sizes, -, heq⟩
  · rw [heq]
    exact h.id_ne
  · rw [heq]
    intro b hb
    obtain ⟨i, hi, rfl⟩ := List.mem_mapIdx.mp hb
    have hid : ∀ bb byName seq, (baseBlockToBlockInfo bb byName seq).id = blockID seq := by
      intro bb byName seq
      unfold baseBlockToBlockInfo
      dsimp only
      split_ifs
      · rfl
      · split <;> rfl
      · split <;> rfl
    rw [hid]
    exact blockID_ne_empty (i + 1)

/-- The blocks of an accepted topology are complemented to blocks with IDs. -/
theorem Accepts.complementBlocks_id_ne (h : Accepts graph cfg nt) (blockSizes : List Nat) :
    ∀ b ∈ (complementBlocks nt.domains nt.blocks blockSizes).1, b.id ≠ "" := by
  cases hd : nt.domains with
  | some all => exact Translate.complementBlocks_id_ne (h.ownBlocks hd) blockSizes
  | none =>
    -- Without domains there are no blocks.
    obtain ⟨fuel, config, st, r, -, -, hr, rfl⟩ := h.parts
    rcases initBlocks_cases hr with rfl | ⟨g, domains, -, -, -, hr1, -⟩
    · intro b hb
      exact absurd hb (by simp [complementBlocks])
    · exact absurd (hr1.symm.trans hd) (by simp)

/-- **What a successful `toBlockTopology` does.** -/
theorem toBlockTopology_eq_ok {skeletonOnly : Bool} {out : BlockOutput}
    (h : toBlockTopology nt skeletonOnly = (info, .ok out)) :
    ∃ formatted, formatBlockNames (complementBlocks nt.domains nt.blocks nt.config.blockSizes).1
        (compileBlockNameFormatter nt.config.blockName) = .ok formatted ∧
      info = (formatted.kept.map fun b => (b.1.nodes, b.2)).foldl
        (fun info b => assignBlockID b.2 info b.1)
        ((formatted.dropped.map fun b => (b.nodes, "")).foldl (fun info b =>
          assignBlockID b.2 info b.1) nt.nodeInfo) ∧
      out.lines = (formatted.kept.map fun b => blockLine skeletonOnly { b.1 with id := b.2 }) ∧
      getBlockSizes (formatted.kept.map fun b => { b.1 with id := b.2 })
        (complementBlocks nt.domains nt.blocks nt.config.blockSizes).2 = .ok out.blockSizes := by
  unfold toBlockTopology at h
  dsimp only at h
  split at h
  · exact absurd (Prod.mk.inj h).2 (by simp)
  · rename_i formatted hformat
    refine ⟨formatted, hformat, ?_⟩
    rw [List.foldl_map, List.foldl_map]
    split_ifs at h
    · exact absurd (Prod.mk.inj h).2 (by simp)
    · split at h
      · exact absurd (Prod.mk.inj h).2 (by simp)
      · rename_i hsizes
        obtain ⟨rfl, hout⟩ := Prod.mk.inj h
        obtain rfl := Except.ok.inj hout
        exact ⟨rfl, List.map_map, hsizes⟩

/-- Complementing keeps the nodes that are in a block. -/
theorem Accepts.mem_complementBlocks (h : Accepts graph cfg nt) (hnames : NamedHosts nt.domains)
    (blockSizes : List Nat) (hn : ∃ b ∈ nt.blocks, n ∈ b.nodes) :
    ∃ b ∈ (complementBlocks nt.domains nt.blocks blockSizes).1, n ∈ b.nodes := by
  cases hd : nt.domains with
  | none => exact hn
  | some all =>
    have hown := h.ownBlocks hd
    have hperm := nodes_complementBlocks_perm hown
      (fun b hb => hown.notMem_nodes (hd ▸ hnames) hb) blockSizes
    exact List.mem_flatMap.mp (hperm.mem_iff.mpr (List.mem_flatMap.mpr hn))

/-- **The block IDs that `toBlockTopology` leaves**: the name of the last emitted block that lists
the node, or none if there is no such block. -/
theorem blockID_toBlockTopology {out : BlockOutput} (h : Accepts graph cfg nt)
    (hnames : NamedHosts nt.domains) (hrun : toBlockTopology nt false = (info, .ok out))
    {i : NodeInfo} (hi : info.lookup n = some i) :
    (out.lines.map (·.blockName)).Nodup ∧
      i.blockID = (out.lines.reverse.find? (n ∈ ·.nodes)).elim "" (·.blockName) ∧
      ∀ line ∈ out.lines, line.blockName ≠ "" := by
  obtain ⟨formatted, hformat, rfl, hlines, -⟩ := toBlockTopology_eq_ok hrun
  have hspec := formatted_formatBlockNames hformat
  have hid := h.complementBlocks_id_ne nt.config.blockSizes
  rw [hlines]
  refine ⟨?_, ?_, ?_⟩
  · rw [List.map_map]
    exact hspec.nodup
  · rw [lookup_foldl_assignBlockID, lookup_foldl_assignBlockID, Option.map_map] at hi
    obtain ⟨i₀, hi₀, rfl⟩ := Option.map_eq_some_iff.mp hi
    -- The lines have the nodes of the kept blocks.
    have hnamed : (formatted.kept.map fun b => (b.1.nodes, b.2)).reverse.find? (n ∈ ·.1) =
        (formatted.kept.reverse.find? (n ∈ ·.1.nodes)).map fun b => (b.1.nodes, b.2) := by
      rw [← List.map_reverse, List.find?_map]
      rfl
    have hwritten : (formatted.kept.map fun b => blockLine false
        { b.1 with id := b.2 }).reverse.find? (n ∈ ·.nodes) =
        (formatted.kept.reverse.find? (n ∈ ·.1.nodes)).map fun b => blockLine false
        { b.1 with id := b.2 } := by
      rw [← List.map_reverse, List.find?_map]
      rfl
    rw [Function.comp_apply, hnamed, hwritten]
    cases hfind : formatted.kept.reverse.find? (n ∈ ·.1.nodes) with
    | some b => rfl
    | none =>
      have hkept := find?_reverse_eq_none.mp hfind
      rw [Option.map_none, Option.elim_none, Option.map_none, Option.elim_none]
      cases hdropped : (formatted.dropped.map fun b => (b.nodes, "")).reverse.find? (n ∈ ·.1) with
      | some b =>
        obtain ⟨d, -, rfl⟩ :=
          List.mem_map.mp (List.mem_reverse.mp (List.mem_of_find?_eq_some hdropped))
        rfl
      | none =>
        -- No formatted block lists the node, so it never had a block ID.
        rw [Option.elim_none]
        by_contra hne
        obtain ⟨b, hb, hn⟩ :=
          h.mem_complementBlocks hnames nt.config.blockSizes (h.mem_blocks hi₀ hne)
        rcases hspec.all b hb with ⟨name, hk⟩ | hd
        · exact hkept _ hk hn
        · exact find?_reverse_eq_none.mp hdropped _ (List.mem_map_of_mem hd) hn
  · intro line hline
    obtain ⟨b, hb, rfl⟩ := List.mem_map.mp hline
    obtain ⟨hblock, hok⟩ := hspec.kept b hb
    exact formatBlockName_ne_empty (hid b.1 hblock) hok

/-- **A node is read back from the emitted blocks**: the last block that lists it shows it, and a
node that no block lists is shown by none. -/
def ReadBack (srt : Cluset.NumberSort) (lines : List BlockLine) (n : String) : Prop :=
  match lines.reverse.find? (n ∈ ·.nodes) with
  | some line => n ∈ Cluset.hosts (line.nodesText srt)
  | none => ∀ line ∈ lines, n ∉ Cluset.hosts (line.nodesText srt)

/-- Every node is read back when all lists are kept. -/
theorem readBack_of_kept {srt : Cluset.NumberSort} {lines : List BlockLine}
    (h : ∀ line ∈ lines, Cluset.Kept srt line.nodes) (n : String) : ReadBack srt lines n := by
  rw [ReadBack]
  cases hfind : lines.reverse.find? (n ∈ ·.nodes) with
  | some line =>
    exact (h line (List.mem_reverse.mp (List.mem_of_find?_eq_some hfind)) n).mpr
      (by simpa using List.find?_some hfind)
  | none =>
    exact fun line hline hn => find?_reverse_eq_none.mp hfind line hline ((h line hline n).mp hn)

/-- One domain with the hosts `n` and `n1`. -/
def stemGraph : Graph Unit where
  heap _ := { name := "", id := "", vertices := ∅ }
  tiers := none
  domains := some (["n", "n1"].foldl (fun m n =>
    m.addHostInfo { domain := "d", instanceID := n, hostName := n, subDomain := "" }) DomainMap.new)

end Topograph.Translate
