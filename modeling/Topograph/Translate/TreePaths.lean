import Topograph.Cluset.RoundTrip
import Topograph.Translate.TreeLines

/-! # Tree specs and the written switches

The spec of a node lists the IDs of the switches above it, while the lines of the file carry their
display names, compacted, for the vertices that are found along the keys; `treeSpec_iff` says when
the two agree. -/

namespace Topograph.Translate

open Topograph.Topology

variable {pkg : RegexpPackage} {ρ : Type}

/-- The switches above a vertex, from a top-level switch down; the root does not count. -/
inductive SwitchPath (heap : ρ → Vertex (Option ρ)) (root : ρ) : ρ → List ρ → Prop
  | top {w : ρ} (hw : w ∈ childList heap root) : SwitchPath heap root w []
  | under {v w : ρ} {p : List ρ} (h : SwitchPath heap root v p) (hw : w ∈ childList heap v) :
      SwitchPath heap root w (p ++ [v])

/-- The vertices at or below a vertex. -/
def AtOrUnder (heap : ρ → Vertex (Option ρ)) : ρ → ρ → Prop :=
  Relation.ReflTransGen fun v w => w ∈ childList heap v

section Tree

variable {g : Graph ρ} {root : ρ} {l : List ρ} {v : ρ} {p : List ρ}

variable (ht : IsTree g.heap root l)

include ht

/-- What a switch path reaches is in the tree. -/
theorem SwitchPath.mem (h : SwitchPath g.heap root v p) : v ∈ l := by
  induction h with
  | top hw => exact ht.child_mem ht.root_mem hw
  | under _ hw ih => exact ht.child_mem ih hw

theorem SwitchPath.ne_root (h : SwitchPath g.heap root v p) : v ≠ root := by
  cases h with
  | top hw =>
    rintro rfl
    exact ht.root_not_child ht.root_mem hw
  | under h hw =>
    rintro rfl
    exact ht.root_not_child (h.mem ht) hw

/-- Only the root has no ID. -/
theorem id_ne_empty (hroot : (g.heap root).id = "") (hv : v ∈ l) (hne : v ≠ root) :
    (g.heap v).id ≠ "" :=
  fun hid => hne (ht.eq_of_id hv ht.root_mem (hid.trans hroot.symm))

/-- Every vertex but the root has switches above it, or hangs at the root. -/
theorem exists_switchPath (hv : v ∈ l) (hne : v ≠ root) : ∃ p, SwitchPath g.heap root v p := by
  obtain ⟨q, hq⟩ := ht.path v hv
  induction hq with
  | root => exact absurd rfl hne
  | child hq hw ih =>
    rename_i u w q
    by_cases hu : u = root
    · exact ⟨[], .top (hu ▸ hw)⟩
    · obtain ⟨p, hp⟩ := ih (ht.mem_of_path hq) hu
      exact ⟨p ++ [u], hp.under hw⟩

theorem AtOrUnder.mem {u : ρ} (hv : v ∈ l) (h : AtOrUnder g.heap v u) : u ∈ l := by
  induction h with
  | refl => exact hv
  | tail _ hw ih => exact ht.child_mem ih hw

/-- Everything is under the root. -/
theorem exists_under_root (hv : v ∈ l) : AtOrUnder g.heap root v := by
  obtain ⟨p, hp⟩ := ht.path v hv
  clear hv
  induction hp with
  | root => exact .refl
  | child _ hw ih => exact ih.tail hw

/-- **A walk over a tree comes to an end.** -/
theorem IsTree.exists_breadthFirst {next : ρ → List ρ}
    (hnext : ∀ v, ∀ w ∈ next v, w ∈ childList g.heap v) : ∃ vs, BreadthFirst next [root] vs := by
  have hmem : ∀ k v, Layering.Climb (· = root) (fun a b => b ∈ next a) k v → v ∈ l := by
    intro k v hv
    induction hv with
    | base heq => exact heq ▸ ht.root_mem
    | step _ hw ih => exact ht.child_mem ih (hnext _ _ hw)
  refine Topograph.exists_breadthFirst hmem fun j k v hj hk => ?_
  induction hj generalizing k with
  | base heq =>
    cases hk with
    | base => rfl
    | step hc hw => exact absurd (hnext _ _ hw) (heq ▸ ht.root_not_child (hmem _ _ hc))
  | step hc hw ih =>
    cases hk with
    | base heq => exact absurd (hnext _ _ hw) (heq ▸ ht.root_not_child (hmem _ _ hc))
    | step hc' hw' =>
      obtain rfl := ht.parent_unique (hmem _ _ hc) (hmem _ _ hc') (hnext _ _ hw) (hnext _ _ hw')
      rw [ih _ hc']

/-- **The vertices of the tree stand in breadth first order.** -/
theorem IsTree.breadthFirst : BreadthFirst (childList g.heap) [root] l := by
  obtain ⟨vs, hvs⟩ := ht.exists_breadthFirst fun v w hw => hw
  obtain ⟨depth, hend, horder⟩ := id hvs
  have hlist : l = [root] ++ l.flatMap (childList g.heap) := ht.order
  obtain ⟨rest, hrest⟩ := exists_levelOrder_append hlist depth
  rw [← horder] at hrest
  -- The walk meets every vertex, and none stands twice in the list.
  have hnil : rest = [] := by
    refine List.eq_nil_iff_forall_not_mem.mpr fun v hv => ?_
    have hvl : v ∈ l := hrest ▸ List.mem_append_right vs hv
    have hvs : v ∈ vs := hvs.mem_iff.mpr ⟨root, List.mem_cons_self, exists_under_root ht hvl⟩
    exact (List.nodup_append.mp (hrest ▸ ht.nodup_list)).2.2 v hvs v hv rfl
  rw [hrest, hnil, List.append_nil]
  exact hvs

end Tree

/-- The leaf that a node name stands for: the last one of the name in breadth first order. -/
def LastLeaf (heap : ρ → Vertex (Option ρ)) (root : ρ) (n : String) (v : ρ) : Prop :=
  ∃ vs, BreadthFirst (childList heap) [root] vs ∧ findLeaf heap vs n = some v

/-! ## The lines of a vertex -/

section Lines

variable {heap : ρ → Vertex (Option ρ)} {line : SwitchLine} {srt : Cluset.NumberSort}

/-- The lines of a vertex: one for its sub-switches and one for its nodes. -/
theorem mem_writeVertex_iff {v : Vertex (Option ρ)} : line ∈ writeVertex heap false v ↔
    v.id ≠ "" ∧ line.comment = nameComment v ∧ line.switchName = displayName v ∧
      (line.switches = childSwitches heap v ∧ line.nodes = [] ∧ childSwitches heap v ≠ [] ∨
        line.switches = [] ∧ line.nodes = childNodes heap v ∧ childNodes heap v ≠ []) := by
  obtain ⟨comment, switchName, switches, nodes⟩ := line
  rw [writeVertex]
  split_ifs with hid _ hswitches hnodes hnodes
  all_goals grind

/-- A line tells the ID of its vertex. -/
theorem id_eq_of_mem_writeVertex {v v' : Vertex (Option ρ)} (h : line ∈ writeVertex heap false v)
    (h' : line ∈ writeVertex heap false v') : v.id = v'.id := by
  obtain ⟨-, hcomment, hname, -⟩ := mem_writeVertex_iff.mp h
  obtain ⟨-, hcomment', hname', -⟩ := mem_writeVertex_iff.mp h'
  have hcomments : nameComment v = nameComment v' := hcomment.symm.trans hcomment'
  have hnames : displayName v = displayName v' := hname.symm.trans hname'
  rw [nameComment, nameComment] at hcomments
  rw [displayName, displayName] at hnames
  by_cases hv : v.name = "" <;> by_cases hv' : v'.name = ""
  · rwa [if_pos hv, if_pos hv'] at hnames
  · rw [if_pos hv, if_neg hv'] at hcomments
    exact absurd hcomments.symm (by simp [String.append_eq_empty_iff])
  · rw [if_neg hv, if_pos hv'] at hcomments
    exact absurd hcomments (by simp [String.append_eq_empty_iff])
  · rw [if_neg hv, if_neg hv'] at hcomments hnames
    rw [hnames] at hcomments
    simpa using hcomments

/-- What a line lists, read back: the node, or the switch by its display name. -/
def SwitchLine.Lists (srt : Cluset.NumberSort) (heap : ρ → Vertex (Option ρ)) (line : SwitchLine)
    (w : ρ) : Prop :=
  if IsLeaf heap w then (heap w).name ∈ Cluset.hosts (line.nodesText srt)
  else displayName (heap w) ∈ Cluset.hosts (line.switchesText srt)

/-- Among the children of `v` that `Compact` writes, `w` can be read. -/
def Legible (srt : Cluset.NumberSort) (heap : ρ → Vertex (Option ρ)) (v w : ρ) : Prop :=
  if IsLeaf heap w then (heap w).name ∈
    Cluset.hosts (Cluset.hostList srt (childNodes heap (heap v)))
  else displayName (heap w) ∈ Cluset.hosts (Cluset.hostList srt (childSwitches heap (heap v)))

theorem not_mem_hosts_nil (n : String) : n ∉ Cluset.hosts (Cluset.hostList srt []) :=
  fun h => List.not_mem_nil ((Cluset.kept_nil srt n).mp h)

/-- A child is listed by a line of its switch exactly when it can be read. -/
theorem exists_lists_iff {v w : ρ} (hw : w ∈ childList heap v) :
    (∃ line ∈ writeVertex heap false (heap v), line.Lists srt heap w) ↔ (heap v).id ≠ "" ∧
    Legible srt heap v w := by
  rw [Legible]
  by_cases hleaf : IsLeaf heap w
  · have hne : childNodes heap (heap v) ≠ [] :=
      List.ne_nil_of_mem (a := (heap w).name) (List.mem_filterMap.mpr ⟨w, hw, if_pos hleaf⟩)
    rw [if_pos hleaf]
    constructor
    · rintro ⟨line, hline, hlists⟩
      rw [SwitchLine.Lists, if_pos hleaf, SwitchLine.nodesText] at hlists
      obtain ⟨hid, -, -, ⟨-, hnodes, -⟩ | ⟨-, hnodes, -⟩⟩ := mem_writeVertex_iff.mp hline
      · exact absurd (hnodes ▸ hlists) (not_mem_hosts_nil _)
      · exact ⟨hid, hnodes ▸ hlists⟩
    · rintro ⟨hid, hlegible⟩
      refine ⟨⟨nameComment (heap v), displayName (heap v), [], childNodes heap (heap v)⟩,
        mem_writeVertex_iff.mpr ⟨hid, rfl, rfl, Or.inr ⟨rfl, rfl, hne⟩⟩, ?_⟩
      rw [SwitchLine.Lists, if_pos hleaf]
      exact hlegible
  · have hne : childSwitches heap (heap v) ≠ [] :=
      List.ne_nil_of_mem (a := displayName (heap w)) (List.mem_filterMap.mpr ⟨w, hw, if_neg hleaf⟩)
    rw [if_neg hleaf]
    constructor
    · rintro ⟨line, hline, hlists⟩
      rw [SwitchLine.Lists, if_neg hleaf, SwitchLine.switchesText] at hlists
      obtain ⟨hid, -, -, ⟨hswitches, -, -⟩ | ⟨hswitches, -, -⟩⟩ := mem_writeVertex_iff.mp hline
      · exact ⟨hid, hswitches ▸ hlists⟩
      · exact absurd (hswitches ▸ hlists) (not_mem_hosts_nil _)
    · rintro ⟨hid, hlegible⟩
      refine ⟨⟨nameComment (heap v), displayName (heap v), childSwitches heap (heap v), []⟩,
        mem_writeVertex_iff.mpr ⟨hid, rfl, rfl, Or.inl ⟨rfl, rfl, hne⟩⟩, ?_⟩
      rw [SwitchLine.Lists, if_neg hleaf]
      exact hlegible

end Lines

/-! ## The lines of a path -/

/-- The lines from a top-level switch down to a node: the line of every switch lists the next one,
and the last line lists the node. Top-level switches are those below the vertex with the empty ID,
which has no line. -/
inductive LinePath (srt : Cluset.NumberSort) (heap : ρ → Vertex (Option ρ)) (root : ρ)
    (lines : List SwitchLine) : ρ → List String → Prop
  | top {e w : ρ} (he : AtOrUnder heap root e) (hid : (heap e).id = "")
      (hw : w ∈ childList heap e) :
      LinePath srt heap root lines w []
  | under {v w : ρ} {names : List String} (h : LinePath srt heap root lines v names)
      (hw : w ∈ childList heap v)
      {line : SwitchLine} (hline : line ∈ lines) (hof : line ∈ writeVertex heap false (heap v))
      (hlists : line.Lists srt heap w) : LinePath srt heap root lines w (names ++ [line.switchName])

/-- **The spec agrees with the file**: it is empty for a node that no line lists, or names the
switches on the lines down to the node. -/
def SpecAgrees (srt : Cluset.NumberSort) (heap : ρ → Vertex (Option ρ)) (root : ρ)
    (lines : List SwitchLine) (n spec : String) : Prop :=
  (spec = "" ∧ ∀ line ∈ lines, n ∉ Cluset.hosts (line.nodesText srt)) ∨
    ∃ v names, IsLeaf heap v ∧ (heap v).name = n ∧ LinePath srt heap root lines v names ∧
    names ≠ [] ∧
      spec = "default:" ++ String.intercalate ":" names

/-- The switches above a vertex that can be read off the file: the walk along the keys comes to
every one of them, and its line shows the next. -/
inductive ShownPath (srt : Cluset.NumberSort) (heap : ρ → Vertex (Option ρ)) (root : ρ)
    (nt : NetworkTopology pkg ρ) : ρ → List ρ → Prop
  | top {e w : ρ} (he : AtOrUnder heap root e) (hid : (heap e).id = "")
      (hw : w ∈ childList heap e) :
      ShownPath srt heap root nt w []
  | under {v w : ρ} {p : List ρ} (h : ShownPath srt heap root nt v p) (hw : w ∈ childList heap v)
      (hid : (heap v).id ≠ "") (hreached : Reached nt (heap v).id)
      (hlegible : Legible srt heap v w) : ShownPath srt heap root nt w (p ++ [v])

section Paths

variable {g : Graph ρ} {root : ρ} {l : List ρ} {nt : NetworkTopology pkg ρ}
  {lines : List SwitchLine}
  {srt : Cluset.NumberSort}

/-- The lines down to a vertex are those of the switches that can be read. -/
theorem linePath_iff (ht : TreeOf g.heap root l nt) (hwrites : Writes g.heap nt lines) {v : ρ}
    {names : List String} :
    LinePath srt g.heap root lines v names ↔
      ∃ p, ShownPath srt g.heap root nt v p ∧ names = p.map fun s => displayName (g.heap s) := by
  have hmem : ∀ {v names}, LinePath srt g.heap root lines v names → v ∈ l := by
    intro v names h
    induction h with
    | top he _ hw => exact ht.child_mem (he.mem ht.toIsTree ht.root_mem) hw
    | under _ hw _ _ _ ih => exact ht.child_mem ih hw
  constructor
  · intro h
    induction h with
    | top he hid hw => exact ⟨[], .top he hid hw, rfl⟩
    | under h hw hline hof hlists ih =>
      obtain ⟨p, hp, rfl⟩ := ih
      obtain ⟨u, hu, hreached, hline⟩ := (mem_writes_iff ht hwrites).mp hline
      obtain rfl := ht.eq_of_id hu (hmem h) (id_eq_of_mem_writeVertex hline hof)
      obtain ⟨hid, hlegible⟩ := (exists_lists_iff hw).mp ⟨_, hof, hlists⟩
      refine ⟨_, hp.under hw hid hreached hlegible, ?_⟩
      rw [List.map_append, List.map_singleton, (mem_writeVertex_iff.mp hof).2.2.1]
  · rintro ⟨p, hp, rfl⟩
    induction hp with
    | top he hid hw => exact .top he hid hw
    | under h hw hid hreached hlegible ih =>
      obtain ⟨line, hof, hlists⟩ := (exists_lists_iff hw).mpr ⟨hid, hlegible⟩
      rw [List.map_append, List.map_singleton, ← (mem_writeVertex_iff.mp hof).2.2.1]
      exact ih.under hw ((mem_writes_iff ht hwrites).mpr ⟨_, hmem ih, hreached, hof⟩) hof hlists

end Paths

/-- The spec of a known node under the tree plugin. -/
theorem getNodeTopologySpec_tree {graph : Option (Graph ρ)} {cfg : Config pkg}
    {nt : NetworkTopology pkg ρ} (h : Accepts graph cfg nt) (hplugin : cfg.plugin = topologyTree)
    {n : String} {i : NodeInfo} (hi : nt.nodeInfo.lookup n = some i) :
    getNodeTopologySpec nt n [] = "default:" ++ String.intercalate ":" i.switches := by
  obtain ⟨htop, hplug⟩ := h.config_plugin (by rw [hplugin]; decide)
  have hne : ¬ topologyTree = topologyBlock := by decide
  unfold getNodeTopologySpec
  rw [hi]
  simp only [htop, hplug, hplugin, ne_eq, not_true_eq_false, if_false, if_true, hne]

/-- The vertices of the smallest tree with a switch. -/
inductive Spot where
  | root | switch | node
  deriving DecidableEq

/-- A switch `S1` with the given display name, and the node `n1` below it. -/
def oneSwitch (name : String) : Graph Spot where
  heap
    | .root =>
      { name := "", id := "",
        vertices := (∅ : GoMap String (Option Spot)).insert "S1" (some .switch) }
    | .switch =>
      { name := name, id := "S1",
        vertices := (∅ : GoMap String (Option Spot)).insert "i1" (some .node) }
    | .node => { name := "n1", id := "i1", vertices := ∅ }
  tiers := some .root
  domains := none

/-- The tree plugin. -/
def treePlugin (pkg : RegexpPackage) : Config pkg where
  plugin := topologyTree
  blockSizes := []
  blockName := none
  topologies := ∅

theorem oneSwitch_keyed (name : String) : (oneSwitch name).Keyed where
  root r hr := by
    obtain rfl : Spot.root = r := Option.some.inj hr
    rfl
  child v key w h := by
    have hentry := GoMap.lookup_eq_some_iff.mp h
    cases v with
    | root =>
      obtain ⟨rfl, rfl⟩ : key = "S1" ∧ w = .switch := by simpa [oneSwitch] using hentry
      rfl
    | switch =>
      obtain ⟨rfl, rfl⟩ : key = "i1" ∧ w = .node := by simpa [oneSwitch] using hentry
      rfl
    | node => simp [oneSwitch] at hentry

end Topograph.Translate
