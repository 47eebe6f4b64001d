import Topograph.Cluset.Canonical
import Topograph.Translate.Block
import Topograph.Translate.Tree

/-! # The order of the children

The children of a vertex come from a Go map, so `writeVertex` lists them in a new order each time.
The text of the line depends on that order only through `Compact`: it is always the same exactly
when the numbers of the sub-switches and those of the nodes are apart (`vertexText_iff`), and then
the whole file is (`fileText_of_apart`). The same holds of the nodes of a block file
(`BlockOutput.text_of_apart`). -/

namespace Topograph.Translate

open Topograph.Topology Topograph.Cluset

variable {pkg : RegexpPackage} {ρ : Type}

/-- The same vertex with its children in another order. -/
structure Reordered {P : Type} (v' v : Vertex P) : Prop where
  name : v'.name = v.name
  id : v'.id = v.id
  perm : v'.vertices.entries.Perm v.vertices.entries

/-- The text that `writeVertex` writes. -/
def vertexText (srt : NumberSort) (heap : ρ → Vertex (Option ρ)) (skeletonOnly : Bool)
    (v : Vertex (Option ρ)) : String :=
  String.join ((writeVertex heap skeletonOnly v).map (·.text srt))

/-- The text of the lines of a walk, if it ends without error. -/
def walkText (srt : NumberSort) (r : Option (Except HTTPError (List SwitchLine))) :
    Option (Except HTTPError String) :=
  r.map fun r => r.map fun lines => String.join (lines.map (·.text srt))

/-- The text that `toTreeTopology` writes. -/
def fileText (srt : NumberSort) (heap : ρ → Vertex (Option ρ)) (nt : NetworkTopology pkg ρ)
    (skeletonOnly : Bool) (fuel : Nat) : Option (Except HTTPError String) :=
  walkText srt (toTreeTopology heap nt skeletonOnly fuel)

/-- The children are listed under host names. -/
def HostChildren (heap : ρ → Vertex (Option ρ)) (v : Vertex (Option ρ)) : Prop :=
  (∀ x ∈ (childSwitches heap v).map String.toList, IsHostName x) ∧
    ∀ x ∈ (childNodes heap v).map String.toList, IsHostName x

/-- The numbers of the sub-switches and those of the nodes are apart. -/
def ChildrenApart (heap : ρ → Vertex (Option ρ)) (v : Vertex (Option ρ)) : Prop :=
  NumbersApart ((childSwitches heap v).map String.toList) ∧
    NumbersApart ((childNodes heap v).map String.toList)

/-! ## The lists of children -/

/-- The name of a sub-switch. -/
def switchOf (heap : ρ → Vertex (Option ρ)) (e : Σ _ : String, Option ρ) : Option String :=
  e.2.bind fun w => if (heap w).vertices.entries = [] then none else some (displayName (heap w))

/-- The name of a node. -/
def nodeOf (heap : ρ → Vertex (Option ρ)) (e : Σ _ : String, Option ρ) : Option String :=
  e.2.bind fun w => if (heap w).vertices.entries = [] then some (heap w).name else none

theorem childSwitches_eq (heap : ρ → Vertex (Option ρ)) (v : Vertex (Option ρ)) :
    childSwitches heap v = v.vertices.entries.filterMap (switchOf heap) := List.filterMap_filterMap

theorem childNodes_eq (heap : ρ → Vertex (Option ρ)) (v : Vertex (Option ρ)) :
    childNodes heap v = v.vertices.entries.filterMap (nodeOf heap) := List.filterMap_filterMap

/-- A child is a sub-switch or a node. -/
theorem switchOf_eq_none_or (heap : ρ → Vertex (Option ρ)) (e : Σ _ : String, Option ρ) :
    switchOf heap e = none ∨ nodeOf heap e = none := by
  cases he : e.2 with
  | none => simp [switchOf, he]
  | some w => by_cases hw : (heap w).vertices.entries = [] <;> simp [switchOf, nodeOf, he, hw]

section Reordered

variable {heap heap' : ρ → Vertex (Option ρ)} {v v' : Vertex (Option ρ)}

theorem Reordered.displayName (h : Reordered v' v) : displayName v' = displayName v := by
  rw [Translate.displayName, Translate.displayName, h.name, h.id]

theorem Reordered.nameComment (h : Reordered v' v) : nameComment v' = nameComment v := by
  rw [Translate.nameComment, Translate.nameComment, h.name, h.id]

theorem Reordered.entries_eq_nil (h : Reordered v' v) :
    v'.vertices.entries = [] ↔ v.vertices.entries = [] :=
  ⟨fun h' => List.perm_nil.mp (h' ▸ h.perm.symm), fun h' => List.perm_nil.mp (h' ▸ h.perm)⟩

section

variable (hheap : ∀ w, Reordered (heap' w) (heap w))

include hheap

theorem switchOf_congr : switchOf heap' = switchOf heap := by
  funext e
  refine congrArg e.2.bind (funext fun w => ?_)
  simp only [(hheap w).entries_eq_nil, (hheap w).displayName]

theorem nodeOf_congr : nodeOf heap' = nodeOf heap := by
  funext e
  refine congrArg e.2.bind (funext fun w => ?_)
  simp only [(hheap w).entries_eq_nil, (hheap w).name]

theorem childSwitches_perm (hv : Reordered v' v) :
    (childSwitches heap' v').Perm (childSwitches heap v) := by
  rw [childSwitches_eq, childSwitches_eq, switchOf_congr hheap]
  exact hv.perm.filterMap _

theorem childNodes_perm (hv : Reordered v' v) : (childNodes heap' v').Perm (childNodes heap v) := by
  rw [childNodes_eq, childNodes_eq, nodeOf_congr hheap]
  exact hv.perm.filterMap _

end

end Reordered

/-- **Every order of one kind of children occurs**, with the other kind in place. -/
theorem exists_reordered {f g : (Σ _ : String, Option ρ) → Option String}
    (hor : ∀ e, f e = none ∨ g e = none) {v : Vertex (Option ρ)} {names : List String}
    (h : names.Perm (v.vertices.entries.filterMap f)) :
    ∃ v', Reordered v' v ∧ v'.vertices.entries.filterMap f = names ∧
      v'.vertices.entries.filterMap g = v.vertices.entries.filterMap g := by
  obtain ⟨l, hl, hnames, hrest⟩ := OptionList.exists_perm_filterMap h
  have hother : ∀ l : List (Σ _ : String, Option ρ), (l.filter fun e => (f e).isNone).filterMap g =
      l.filterMap g := by
    intro l
    rw [List.filterMap_filter]
    refine List.filterMap_congr fun e _ => ?_
    rcases hor e with h | h <;> simp [h]
  refine ⟨{ v with vertices := ⟨l, (List.perm_nodupKeys hl).mpr v.vertices.nodupKeys⟩ },
    ⟨rfl, rfl, hl⟩, hnames, ?_⟩
  rw [← hother l, hrest, hother]

/-! ## The text of a list -/

/-- The line of a vertex with one kind of children, if there are any. -/
def listText (srt : NumberSort) (v : Vertex (Option ρ)) (key : String) (names : List String) :
    String :=
  if names = [] then "" else nameComment v ++ "SwitchName=" ++ displayName v ++
    (key ++ String.ofList (compactList srt (names.map String.toList))) ++ "\n"

/-- A vertex is written as its two lists. -/
theorem vertexText_eq (srt : NumberSort) (heap : ρ → Vertex (Option ρ)) {v : Vertex (Option ρ)}
    (hid : v.id ≠ "") :
    vertexText srt heap false v
      = listText srt v " Switches=" (childSwitches heap v) ++ listText srt v " Nodes="
        (childNodes heap v) := by
  unfold vertexText writeVertex listText
  rw [if_neg hid, if_neg Bool.false_ne_true, List.map_append, String.join_append]
  congr 1
  · split_ifs with h
    · rfl
    · simp [SwitchLine.text, SwitchLine.switchesText, hostList, h, String.join_cons,
        String.append_assoc]
  · split_ifs with h
    · rfl
    · simp [SwitchLine.text, SwitchLine.nodesText, hostList, h, String.join_cons,
        String.append_assoc]

/-- Names that are apart are written alike in every order. -/
theorem listText_of_apart {v v' : Vertex (Option ρ)} {names names' : List String}
    (hv : Reordered v' v) (key : String) (hhost : ∀ x ∈ names.map String.toList, IsHostName x)
    (happart : NumbersApart (names.map String.toList)) (hperm : names'.Perm names)
    (srt srt' : NumberSort) :
    listText srt' v' key names' = listText srt v key names := by
  have hnil : names' = [] ↔ names = [] :=
    ⟨fun h => List.perm_nil.mp (h ▸ hperm.symm), fun h => List.perm_nil.mp (h ▸ hperm)⟩
  have hcompact := compact_of_numbersApart (hperm.map String.toList) (fun x hx => (hhost x hx).2)
    happart srt srt'
  simp only [listText, hnil, hv.nameComment, hv.displayName, compactList, hcompact]

/-- **Names that are written alike in every order are apart.** -/
theorem apart_of_listText {v : Vertex (Option ρ)} {names : List String} (key : String)
    (hhost : ∀ x ∈ names.map String.toList, IsHostName x)
    (hsame : ∀ names', names'.Perm names →
      listText stableSort v key names' = listText stableSort v key names) :
    NumbersApart (names.map String.toList) := by
  refine (compact_perm_iff fun x hx => (hhost x hx).2).mp fun texts hperm => ?_
  have hback : (names.map String.toList).map String.ofList = names := by simp [Function.comp_def]
  have hforth : (texts.map String.ofList).map String.toList = texts := by simp [Function.comp_def]
  have hperm' : (texts.map String.ofList).Perm names := hback ▸ hperm.map String.ofList
  have htext := hsame _ hperm'
  by_cases hnil : names = []
  · have htexts : texts = [] := by
      rw [hnil] at hperm
      exact List.perm_nil.mp hperm
    rw [htexts, hnil]
    rfl
  · have hnil' : texts.map String.ofList ≠ [] := fun h => hnil (List.perm_nil.mp (h ▸ hperm'.symm))
    rw [listText, listText, if_neg hnil, if_neg hnil', String.append_left_inj,
      String.append_right_inj, String.append_right_inj,
      String.ofList_inj, hforth] at htext
    -- The entries are read back from the joined text.
    rw [← splitList_compactList hhost, ← htext, splitList_compactList fun x hx =>
      hhost x (hperm.mem_iff.mp hx)]

/-! ## Vertices and files -/

/-- What a vertex writes does not see the order of children that are apart. -/
theorem vertexText_of_apart {heap heap' : ρ → Vertex (Option ρ)} {v v' : Vertex (Option ρ)}
    (hheap : ∀ w, Reordered (heap' w) (heap w)) (hv : Reordered v' v) {skeletonOnly : Bool}
    (hhost : HostChildren heap v)
    (happart : skeletonOnly = false → v.id ≠ "" → ChildrenApart heap v) (srt srt' : NumberSort) :
    vertexText srt' heap' skeletonOnly v' = vertexText srt heap skeletonOnly v := by
  by_cases hid : v.id = ""
  · have hid' : v'.id = "" := hv.id.trans hid
    simp [vertexText, writeVertex, hid, hid']
  · have hid' : v'.id ≠ "" := hv.id ▸ hid
    cases skeletonOnly with
    | true =>
      simp only [vertexText, writeVertex, hid, hid', if_false, if_true, hv.entries_eq_nil,
        hv.displayName, hv.nameComment]
      split_ifs <;> simp [SwitchLine.text]
    | false =>
      obtain ⟨hswitches, hnodes⟩ := happart rfl hid
      rw [vertexText_eq srt' heap' hid', vertexText_eq srt heap hid,
        listText_of_apart hv _ hhost.1 hswitches (childSwitches_perm hheap hv) srt srt',
        listText_of_apart hv _ hhost.2 hnodes (childNodes_perm hheap hv) srt srt']

theorem Reordered.refl {P : Type} (v : Vertex P) : Reordered v v := ⟨rfl, rfl, .refl _⟩

/-- **A vertex is written alike in every order exactly when its children are apart.** -/
theorem vertexText_iff {heap : ρ → Vertex (Option ρ)} {v : Vertex (Option ρ)}
    (hhost : HostChildren heap v) (skeletonOnly : Bool) :
    (∀ v', Reordered v' v → vertexText stableSort heap skeletonOnly v' = vertexText stableSort heap
      skeletonOnly v) ↔ (skeletonOnly = false → v.id ≠ "" → ChildrenApart heap v) := by
  refine ⟨?_, fun happart v' hv => vertexText_of_apart (fun w => .refl _) hv hhost happart _ _⟩
  rintro hsame rfl hid
  have htext : ∀ v', Reordered v' v → listText stableSort v " Switches=" (childSwitches heap v') ++
      listText stableSort v " Nodes=" (childNodes heap v') = listText stableSort v " Switches="
      (childSwitches heap v) ++
      listText stableSort v " Nodes=" (childNodes heap v) := by
    intro v' hv
    have h := hsame v' hv
    rw [vertexText_eq _ _ hid, vertexText_eq _ _ (hv.id ▸ hid)] at h
    simpa only [listText, hv.nameComment, hv.displayName] using h
  constructor
  · refine apart_of_listText (v := v) " Switches=" hhost.1 fun names hperm => ?_
    rw [childSwitches_eq] at hperm
    obtain ⟨v', hv, hnames, hnodes⟩ := exists_reordered (switchOf_eq_none_or heap) hperm
    have h := htext v' hv
    rwa [childNodes_eq heap v', hnodes, ← childNodes_eq, String.append_left_inj,
      childSwitches_eq heap v', hnames] at h
  · refine apart_of_listText (v := v) " Nodes=" hhost.2 fun names hperm => ?_
    rw [childNodes_eq] at hperm
    obtain ⟨v', hv, hnames, hswitches⟩ :=
      exists_reordered (fun e => (switchOf_eq_none_or heap e).symm) hperm
    have h := htext v' hv
    rwa [childSwitches_eq heap v', hswitches, ← childSwitches_eq, String.append_right_inj,
      childNodes_eq heap v', hnames] at h

/-- Lines written first come first in the text. -/
theorem walkText_append (srt : NumberSort) (lines : List SwitchLine)
    (r : Option (Except HTTPError (List SwitchLine))) :
    walkText srt (r.map fun rest => rest.map (lines ++ ·))
      = (walkText srt r).map fun rest => rest.map (String.join (lines.map (·.text srt)) ++ ·) := by
  cases r with
  | none => rfl
  | some r =>
    cases r with
    | error e => rfl
    | ok rest => simp [walkText, Except.map, String.join_append]

section File

variable {heap heap' : ρ → Vertex (Option ρ)} {nt : NetworkTopology pkg ρ}
  (hheap : ∀ w, Reordered (heap' w) (heap w))
  (happart : ∀ id w, nt.vertices.lookup id = some w → HostChildren heap (heap w) ∧
    ChildrenApart heap (heap w))

include hheap happart

theorem walkText_treeLinesLoop (srt srt' : NumberSort) (skeletonOnly : Bool) (fuel : Nat)
    (visited queue : List String) :
    walkText srt' (treeLinesLoop heap' nt skeletonOnly fuel visited queue)
      = walkText srt (treeLinesLoop heap nt skeletonOnly fuel visited queue) := by
  induction fuel generalizing visited queue with
  | zero => simp only [treeLinesLoop, walkText, Option.map_none]
  | succ fuel ih =>
    cases queue with
    | nil => simp only [treeLinesLoop, walkText, Option.map_some, Except.map, List.map_nil]
    | cons id queue =>
      rw [treeLinesLoop, treeLinesLoop]
      by_cases hvisited : id ∈ visited
      · rw [if_pos hvisited, if_pos hvisited, ih]
      · rw [if_neg hvisited, if_neg hvisited]
        cases hw : nt.vertices.lookup id with
        | none => simp only [walkText, Option.map_some, Except.map]
        | some w =>
          obtain ⟨hhost, hchildren⟩ := happart id w hw
          have htext : vertexText srt' heap' skeletonOnly (heap' w) =
              vertexText srt heap skeletonOnly (heap w) :=
            vertexText_of_apart hheap (hheap w) hhost (fun _ _ => hchildren) srt srt'
          rw [walkText_append, walkText_append, ih, ← vertexText, htext, vertexText]

/-- **The whole file does not see the order** of children that are apart. -/
theorem fileText_of_apart (srt srt' : NumberSort) (skeletonOnly : Bool) (fuel : Nat) :
    fileText srt' heap' nt skeletonOnly fuel = fileText srt heap nt skeletonOnly fuel :=
  walkText_treeLinesLoop hheap happart srt srt' skeletonOnly fuel [] [""]

end File

/-! ## Block files -/

/-- The same block with its nodes in another order. -/
structure SameBlock (line' line : BlockLine) : Prop where
  comment : line'.comment = line.comment
  blockName : line'.blockName = line.blockName
  nodes : line'.nodes.Perm line.nodes

/-- The line of a block does not see the order of nodes that are apart. -/
theorem SameBlock.text {line' line : BlockLine} (h : SameBlock line' line)
    (hhost : ∀ x ∈ line.nodes.map String.toList, IsHostName x)
    (happart : NumbersApart (line.nodes.map String.toList)) (srt srt' : NumberSort) :
    line'.text srt' = line.text srt := by
  have hnil : line'.nodes = [] ↔ line.nodes = [] := by
    rw [← List.length_eq_zero_iff, h.nodes.length_eq, List.length_eq_zero_iff]
  have hcompact := compact_of_numbersApart (h.nodes.map String.toList) (fun x hx => (hhost x hx).2)
    happart srt srt'
  simp only [BlockLine.text, BlockLine.nodesText, hostList, compactList, hcompact, h.comment,
    h.blockName, hnil]

/-- **The whole block file does not see the order** of nodes that are apart. -/
theorem BlockOutput.text_of_apart {lines' lines : List BlockLine}
    (h : List.Forall₂ SameBlock lines' lines)
    (hhost : ∀ line ∈ lines, ∀ x ∈ line.nodes.map String.toList, IsHostName x)
    (happart : ∀ line ∈ lines, NumbersApart (line.nodes.map String.toList)) (blockSizes : List Nat)
    (srt srt' : NumberSort) :
    BlockOutput.text srt' ⟨lines', blockSizes⟩ = BlockOutput.text srt ⟨lines, blockSizes⟩ := by
  have htexts : lines'.map (·.text srt') = lines.map (·.text srt) := by
    induction h with
    | nil => rfl
    | cons hline _ ih =>
      obtain ⟨hhead, hrest⟩ := List.forall_mem_cons.mp hhost
      obtain ⟨hheadApart, hrestApart⟩ := List.forall_mem_cons.mp happart
      rw [List.map_cons, List.map_cons, ih hrest hrestApart, hline.text hhead hheadApart srt srt']
  rw [BlockOutput.text, BlockOutput.text, htexts]

/-! ## Where the output is canonical -/

/-- **`Compact` is canonical exactly on host names whose numbers are apart**, and `writeVertex`
exactly on vertices whose sub-switches and nodes are; then every sort gives the same text, and so
does every order of the maps of a whole file. -/
theorem compact_canonical_iff (names : List Text) (hnames : ∀ x ∈ names, IsHostName x)
    (heap : ρ → Vertex (Option ρ)) (v : Vertex (Option ρ)) (hhost : HostChildren heap v)
    (nt : NetworkTopology pkg ρ) (skeletonOnly : Bool) :
    ((∀ names', names'.Perm names → compact stableSort names' = compact stableSort names) ↔
      NumbersApart names) ∧
    (NumbersApart names → ∀ srt srt' names', names'.Perm names →
      compact srt' names' = compact srt names) ∧
    ((∀ v', Reordered v' v → vertexText stableSort heap skeletonOnly v' = vertexText stableSort heap
      skeletonOnly v) ↔ (skeletonOnly = false → v.id ≠ "" → ChildrenApart heap v)) ∧
    ((skeletonOnly = false → v.id ≠ "" → ChildrenApart heap v) → ∀ srt srt' v', Reordered v' v →
      vertexText srt' heap skeletonOnly v' = vertexText srt heap skeletonOnly v) ∧
    ((∀ id w, nt.vertices.lookup id = some w → HostChildren heap (heap w) ∧
      ChildrenApart heap (heap w)) → ∀ srt srt' heap' fuel, (∀ w, Reordered (heap' w) (heap w)) →
        fileText srt' heap' nt skeletonOnly fuel = fileText srt heap nt skeletonOnly fuel) := by
  have htext : ∀ x ∈ names, IsHostText x := fun x hx => (hnames x hx).2
  refine ⟨compact_perm_iff htext, fun happart srt srt' names' hperm => ?_,
    vertexText_iff hhost skeletonOnly,
    fun happart srt srt' v' hv => ?_, fun happart srt srt' heap' fuel hheap => ?_⟩
  · exact compact_of_numbersApart hperm htext happart srt srt'
  · exact vertexText_of_apart (fun w => .refl _) hv hhost happart srt srt'
  · exact fileText_of_apart hheap happart srt srt' skeletonOnly fuel

/-- A vertex per name, without children. -/
def bareNodes (id : String) : Vertex (Option String) := { name := id, id := id, vertices := ∅ }

/-- A switch over two nodes. -/
def switchOver (x y : String) : Vertex (Option String) :=
  { name := "", id := "s1", vertices := (AList.singleton y (some y)).insert x (some x) }

theorem entries_switchOver {x y : String} (h : x ≠ y) :
    (switchOver x y).vertices.entries = [⟨x, some x⟩, ⟨y, some y⟩] := by
  have hnot : x ∉ (AList.singleton y (some y) : GoMap String (Option String)) :=
    fun hx => h (by simpa [AList.mem_keys] using hx)
  exact AList.entries_insert_of_notMem hnot

theorem children_switchOver {x y : String} (h : x ≠ y) :
    childSwitches bareNodes (switchOver x y) = [] ∧
      childNodes bareNodes (switchOver x y) = [x, y] := by
  rw [childSwitches_eq, childNodes_eq, entries_switchOver h]
  exact ⟨rfl, rfl⟩

theorem uniformHosts_canonical :
    (∀ names', names'.Perm uniformHosts →
      compact stableSort names' = compact stableSort uniformHosts) ∧
      ∀ v', Reordered v' (switchOver "n1" "n2") → vertexText stableSort bareNodes false v'
        = vertexText stableSort bareNodes false (switchOver "n1" "n2") := by
  obtain ⟨hswitches, hnodes⟩ := children_switchOver (show "n1" ≠ "n2" by decide)
  have hhost : HostChildren bareNodes (switchOver "n1" "n2") := by
    rw [HostChildren, hnodes, hswitches]
    decide
  have happart : ChildrenApart bareNodes (switchOver "n1" "n2") := by
    rw [ChildrenApart, hnodes, hswitches]
    unfold NumbersApart
    decide
  have h := compact_canonical_iff uniformHosts (by decide) bareNodes _ hhost
    (⟨{ plugin := "", blockSizes := [], blockName := none, topologies := ∅ }, ∅, none, [], ∅, ∅⟩ :
      NetworkTopology noRegexp String) false
  exact ⟨h.1.mpr (by unfold NumbersApart; decide), h.2.2.1.mpr fun _ _ => happart⟩

/-- **Two orders, two files**: `n1` and `n01` have the same number, and the sort leaves them as the
map lists them. A plain name beside a numbered one is dropped, or takes it along. -/
theorem padded_not_canonical :
    compact stableSort ["n1".toList, "n01".toList] = ["n[1,01]".toList] ∧
    compact stableSort ["n01".toList, "n1".toList] = ["n[01,1]".toList] ∧
    compact stableSort ["n".toList, "n1".toList] = ["n1".toList] ∧
      compact stableSort ["n1".toList, "n".toList] = ["n".toList] ∧
    Reordered (switchOver "n01" "n1") (switchOver "n1" "n01") ∧
    vertexText stableSort bareNodes false (switchOver "n01" "n1") ≠ vertexText stableSort bareNodes
      false (switchOver "n1" "n01") := by
  obtain ⟨hswitches, hnodes⟩ := children_switchOver (show "n1" ≠ "n01" by decide)
  obtain ⟨hswitches', hnodes'⟩ := children_switchOver (show "n01" ≠ "n1" by decide)
  refine ⟨by decide, by decide, by decide, by decide, ⟨rfl, rfl, ?_⟩, fun h => ?_⟩
  · rw [entries_switchOver (by decide), entries_switchOver (by decide)]
    exact List.Perm.swap _ _ _
  · -- Only the compacted names differ, so they would be equal.
    rw [vertexText_eq _ _ (by decide), vertexText_eq _ _ (by decide), hswitches, hswitches',
      hnodes, hnodes'] at h
    have hlist := (String.append_right_inj "").mp h
    have hentries := (String.append_right_inj _).mp ((String.append_left_inj _).mp hlist)
    have hcompact := String.ofList_inj.mp ((String.append_right_inj _).mp hentries)
    revert hcompact
    decide

end Topograph.Translate
