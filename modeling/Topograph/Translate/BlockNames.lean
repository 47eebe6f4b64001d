import Topograph.Translate.Layout

/-! # The names of base blocks

The base blocks of a domain or sub-domain carry its ID as their name, the overflow blocks behind a
`#` and a number that `extractDomainID` takes away again (`keepsIdentity_iff`). It takes away too
much where the ID itself has one of the separators: such a domain loses the rest of its ID, and an
ID that begins with a separator stays whole in the first block only. A block whose only host has no
name is named after the domain, also below a sub-domain. -/

namespace Topograph.Translate

open Topograph.Topology

/-- `isEmptyBlock`. -/
def isEmptyBlock (b : BlockInfo) : Prop := b.name = "" ∧ b.nodes = []

instance (b : BlockInfo) : Decidable (isEmptyBlock b) := inferInstanceAs (Decidable (_ ∧ _))

/-- The characters at which `extractDomainID` cuts. -/
def isSeparator (r : Char) : Bool := r = '/' || r = '#' || r = '+'

/-! ## The domain of a block ID -/

theorem toList_extractDomainID (id : String) :
    (extractDomainID id).toList = id.toList.takeWhile fun r => !isSeparator r := by
  rw [extractDomainID, String.toList_ofList]
  congr 1
  funext r
  simp [isSeparator, Bool.and_assoc]

/-- An ID without separators is kept. -/
theorem extractDomainID_eq_self_iff {id : String} :
    extractDomainID id = id ↔ ∀ r ∈ id.toList, isSeparator r = false := by
  rw [← String.toList_inj, toList_extractDomainID, List.takeWhile_eq_self_iff]
  simp

/-- The domain ID is empty when a separator comes first. -/
theorem extractDomainID_eq_empty_iff {id : String} (h : id ≠ "") :
    extractDomainID id = "" ↔ ∃ r ∈ id.toList.head?, isSeparator r = true := by
  rw [← String.toList_inj, toList_extractDomainID, String.toList_empty]
  cases hid : id.toList with
  | nil => exact absurd (String.toList_inj.mp (hid.trans String.toList_empty.symm)) h
  | cons r l => cases hr : isSeparator r <;> simp [hr]

/-- The ID of an overflow block has the domain of the ID. -/
theorem extractDomainID_overflow (id number : String) :
    extractDomainID (id ++ "#" ++ number) = extractDomainID id := by
  rw [← String.toList_inj, toList_extractDomainID, toList_extractDomainID, String.toList_append,
    String.toList_append, List.append_assoc,
    List.takeWhile_append]
  split_ifs with hall
  · rw [show "#".toList = ['#'] from rfl, List.singleton_append,
      List.takeWhile_cons_of_neg (by decide), List.append_nil]
    exact (List.takeWhile_sublist _).eq_of_length hall |>.symm
  · rfl

/-! ## The blocks of a vertex -/

theorem blockOf_mem_splitLoop {id : String} {b fuel count : Nat} {hosts : List HostInfo}
    (hb : 0 < b) (hcount : 0 < count) {bb : BaseBlockNode}
    (h : bb ∈ splitLoop id b fuel count hosts) :
    (∃ number, bb.id = id ++ "#" ++ number) ∧ bb.domain = extractDomainID bb.id ∧
    bb.leaves.reduceOption ≠ [] ∧
      ∀ host ∈ bb.leaves.reduceOption, host ∈ hosts := by
  induction fuel generalizing count hosts with
  | zero => exact absurd h List.not_mem_nil
  | succ fuel ih =>
    cases hosts with
    | nil => exact absurd h List.not_mem_nil
    | cons host hosts =>
      rw [splitLoop] at h
      rcases List.mem_cons.mp h with rfl | h
      · rw [reduceOption_leaves_newBaseBlock, List.take_take, Nat.min_self]
        refine ⟨⟨_, if_neg hcount.ne'⟩, rfl, ?_, fun other => List.mem_of_mem_take⟩
        simpa using hb.ne'
      · obtain ⟨hid, hdomain, hne, hmem⟩ := ih (Nat.succ_pos _) h
        exact ⟨hid, hdomain, hne, fun other hother => List.mem_of_mem_drop (hmem other hother)⟩

section Names

variable (bb : BaseBlockNode) (byName : GoMap String BlockInfo) (seq : Nat)

/-- A block with a named host shows the domain of its ID. -/
theorem name_of_named (hdomain : bb.domain = extractDomainID bb.id)
    (h : ∃ host ∈ bb.leaves.reduceOption, host.hostName ≠ "") :
    (baseBlockToBlockInfo bb byName seq).name = blockDisplayName bb.id (extractDomainID bb.id) ∧
      ¬ isEmptyBlock (baseBlockToBlockInfo bb byName seq) := by
  have hnodes : hostNamesFromLeaves bb.leaves ≠ [] := by
    obtain ⟨host, hhost, hname⟩ := h
    rw [hostNamesFromLeaves_eq_filter]
    exact List.ne_nil_of_mem (List.mem_filter.mpr ⟨List.mem_map_of_mem hhost, decide_eq_true hname⟩)
  rw [baseBlockToBlockInfo, if_pos hnodes, ← hdomain]
  exact ⟨rfl, fun hempty => hnodes hempty.2⟩

/-- A block of one host without a name shows the domain of the host if there is a block of it, and
the domain of its ID otherwise. -/
theorem name_of_lone (hdomain : bb.domain = extractDomainID bb.id) {host : HostInfo}
    (h : bb.leaves.reduceOption = [host]) (hname : host.hostName = "") (hhost : host.domain ≠ "") :
    (baseBlockToBlockInfo bb byName seq).name = (if host.domain ∈ byName then host.domain
      else extractDomainID bb.id) ∧
      (isEmptyBlock (baseBlockToBlockInfo bb byName seq) ↔ host.domain ∉ byName ∧
        extractDomainID bb.id = "") := by
  have hids : domainIDsFromLeaves bb.leaves = [host.domain] := by
    rw [domainIDsFromLeaves_eq, h]
    simp [hhost]
  have hnodes : hostNamesFromLeaves bb.leaves = [] := by
    simp [hostNamesFromLeaves_eq_filter, h, hname]
  rw [baseBlockToBlockInfo, hnodes, if_neg (not_not.mpr rfl), hids, ← hdomain]
  cases hlook : byName.lookup host.domain with
  | none =>
    have hnot : host.domain ∉ byName := AList.lookup_eq_none.mp hlook
    by_cases hempty : bb.domain = "" <;> simp [hlook, hnot, isEmptyBlock, blockDisplayName, hempty]
  | some block =>
    have hmem : host.domain ∈ byName := AList.lookup_isSome.mp (by rw [hlook]; rfl)
    simp [hlook, hmem, isEmptyBlock, blockDisplayName, hhost]

end Names

/-! ## The identity of a vertex -/

/-- Every block of the hosts of a vertex that is not empty has its ID. -/
def NamedAfter (b : Nat) (byName : GoMap String BlockInfo) (id : String) (hosts : List HostInfo) :
    Prop :=
  ∀ bb ∈ splitIntoBaseBlocks id hosts b, ∀ seq, ¬ isEmptyBlock
    (baseBlockToBlockInfo bb byName seq) →
    (baseBlockToBlockInfo bb byName seq).name = id

/-- The ID has no separator. -/
def Plain (id : String) : Prop := ∀ r ∈ id.toList, isSeparator r = false

/-- The ID has no separator, or one in front. -/
def PlainOrLeading (id : String) : Prop := Plain id ∨ ∃ r ∈ id.toList.head?, isSeparator r = true

/-- What an ID needs so that the blocks keep it: no separator if there is an overflow block; no
separator but in front if the first block has a named host; and if its one host has no name, the
same, or the ID of the domain where there is a block of the domain. -/
structure IDKept (b : Nat) (byName : GoMap String BlockInfo) (id : String) (hosts : List HostInfo) :
    Prop where
  overflow : b < hosts.length → Plain id
  first : (∃ host ∈ hosts.take b, host.hostName ≠ "") → PlainOrLeading id
  lone : ∀ host, hosts.take b = [host] → host.hostName = "" → if host.domain ∈ byName then
    host.domain = id else PlainOrLeading id

theorem plainOrLeading_iff {id : String} (h : id ≠ "") :
    PlainOrLeading id ↔ extractDomainID id = id ∨ extractDomainID id = "" := by
  rw [extractDomainID_eq_empty_iff h, extractDomainID_eq_self_iff]
  rfl

/-- The display name is the ID when nothing, or all, is cut off. -/
theorem blockDisplayName_eq_iff {id : String} (h : id ≠ "") :
    blockDisplayName id (extractDomainID id) = id ↔ extractDomainID id = id ∨
      extractDomainID id = "" := by
  unfold blockDisplayName
  split_ifs with hempty <;> simp [hempty, h]

/-- An overflow block shows the ID only if the ID has no separator. -/
theorem blockDisplayName_overflow_iff {id : String} (h : id ≠ "") (number : String) :
    blockDisplayName (id ++ "#" ++ number) (extractDomainID (id ++ "#" ++ number)) = id ↔
      extractDomainID id = id := by
  rw [extractDomainID_overflow, blockDisplayName]
  split_ifs with hempty
  · refine ⟨fun heq => absurd (congrArg (fun s => s.toList.length) heq) ?_,
      fun heq => absurd (heq.symm.trans hempty) h⟩
    simp only [String.toList_append, List.length_append, show "#".toList.length = 1 from rfl]
    omega
  · exact Iff.rfl

section Vertex

variable {b : Nat} (hb : 0 < b) {byName : GoMap String BlockInfo} {id : String} (hid : id ≠ "")
  {hosts : List HostInfo}
  (hdomains : ∀ host ∈ hosts, host.domain ≠ "")

include hid

include hb in
/-- The overflow blocks, which have named hosts only. -/
theorem overflow_named_iff {fuel : Nat} (hfuel : hosts.length ≤ fuel)
    (hnamed : ∀ host ∈ hosts, host.hostName ≠ "") :
    (∀ bb ∈ splitLoop id b fuel 1 hosts, ∀ seq, ¬ isEmptyBlock
      (baseBlockToBlockInfo bb byName seq) →
      (baseBlockToBlockInfo bb byName seq).name = id) ↔ (hosts ≠ [] → Plain id) := by
  have hblock : ∀ bb ∈ splitLoop id b fuel 1 hosts, ∀ seq, ¬ isEmptyBlock
      (baseBlockToBlockInfo bb byName seq) ∧
      ((baseBlockToBlockInfo bb byName seq).name = id ↔ Plain id) := by
    intro bb hbb seq
    obtain ⟨⟨number, hnumber⟩, hdomain, hne, hmem⟩ := blockOf_mem_splitLoop hb Nat.one_pos hbb
    obtain ⟨host, hhost⟩ := List.exists_mem_of_ne_nil _ hne
    obtain ⟨hname, hfull⟩ :=
      name_of_named bb byName seq hdomain ⟨host, hhost, hnamed host (hmem host hhost)⟩
    refine ⟨hfull, ?_⟩
    rw [hname, hnumber, blockDisplayName_overflow_iff hid, extractDomainID_eq_self_iff]
    rfl
  constructor
  · intro h hne
    obtain ⟨host, rest, rfl⟩ := List.exists_cons_of_ne_nil hne
    obtain ⟨fuel, rfl⟩ :=
      Nat.exists_eq_succ_of_ne_zero (Nat.one_le_iff_ne_zero.mp ((Nat.le_add_left 1 _).trans hfuel))
    rw [splitLoop] at h hblock
    have hfirst := hblock _ List.mem_cons_self 0
    exact hfirst.2.mp (h _ List.mem_cons_self 0 hfirst.1)
  · intro h bb hbb seq _
    refine (hblock bb hbb seq).2.mpr (h fun hnil => ?_)
    rw [hnil] at hbb
    cases fuel <;> exact absurd hbb List.not_mem_nil

include hdomains

/-- The first block. -/
theorem first_named_iff (hlone : (∀ host ∈ hosts.take b, host.hostName = "") →
      ∃ host, hosts.take b = [host]) :
    (∀ seq, ¬ isEmptyBlock (baseBlockToBlockInfo (newBaseBlock id (hosts.take b) b) byName seq) →
      (baseBlockToBlockInfo (newBaseBlock id (hosts.take b) b) byName seq).name = id) ↔
    ((∃ host ∈ hosts.take b, host.hostName ≠ "") → PlainOrLeading id) ∧
      ∀ host, hosts.take b = [host] → host.hostName = "" → if host.domain ∈ byName then
        host.domain = id else PlainOrLeading id := by
  have hleaves : (newBaseBlock id (hosts.take b) b).leaves.reduceOption = hosts.take b := by
    rw [reduceOption_leaves_newBaseBlock, List.take_take, Nat.min_self]
  rw [plainOrLeading_iff hid]
  by_cases hnamed : ∃ host ∈ hosts.take b, host.hostName ≠ ""
  · have hname := fun seq => name_of_named (newBaseBlock id (hosts.take b) b) byName seq
      rfl (by rwa [hleaves])
    have hone : ∀ host, hosts.take b = [host] → host.hostName ≠ "" := by
      intro host hhost
      obtain ⟨other, hother, hne⟩ := hnamed
      rw [hhost] at hother
      exact List.mem_singleton.mp hother ▸ hne
    rw [← blockDisplayName_eq_iff hid]
    constructor
    · exact fun h => ⟨fun _ => (hname 0).1 ▸ h 0 (hname 0).2, fun host hhost hempty =>
        absurd hempty (hone host hhost)⟩
    · exact fun h seq _ => (hname seq).1.trans (h.1 hnamed)
  · obtain ⟨host, hhost⟩ := hlone (by simpa using hnamed)
    have hempty : host.hostName = "" := by simpa [hhost] using hnamed
    have hname := fun seq => name_of_lone (newBaseBlock id (hosts.take b) b) byName seq
      rfl (hleaves.trans hhost) hempty
      (hdomains host (List.mem_of_mem_take (hhost ▸ List.mem_singleton_self host)))
    have hall : (∀ other, hosts.take b = [other] → other.hostName = "" →
        if other.domain ∈ byName then other.domain = id
        else extractDomainID id = id ∨ extractDomainID id = "") ↔
        if host.domain ∈ byName then host.domain = id else extractDomainID id = id ∨
          extractDomainID id = "" := by
      rw [hhost]
      refine ⟨fun h => h host rfl hempty, fun h other hother _ => ?_⟩
      obtain rfl := List.singleton_inj.mp hother
      exact h
    rw [hall]
    simp only [hnamed, false_imp_iff, true_and, (hname _).1, (hname _).2, forall_const]
    show (¬ (_ ∧ extractDomainID id = "") → (if _ then _ else extractDomainID id) = id) ↔ _
    by_cases hmem : host.domain ∈ byName
    · simp [hmem]
    · by_cases hcut : extractDomainID id = "" <;> simp [hmem, hcut]

include hb in
/-- **The blocks of a vertex keep its ID** exactly when the ID is fit for it. -/
theorem namedAfter_iff (hnamed : ∀ host ∈ hosts.drop b, host.hostName ≠ "")
    (hlone : (∀ host ∈ hosts.take b, host.hostName = "") → hosts ≠ [] →
      ∃ host, hosts.take b = [host]) :
    NamedAfter b byName id hosts ↔ IDKept b byName id hosts := by
  rw [NamedAfter, splitIntoBaseBlocks]
  cases hosts with
  | nil => exact ⟨fun _ => ⟨by simp, by simp, by simp⟩, fun _ bb hbb => absurd hbb List.not_mem_nil⟩
  | cons head rest =>
    have hfuel : ((head :: rest).drop b).length ≤ rest.length := by
      rw [List.length_drop, List.length_cons]
      omega
    have hrest : (head :: rest).drop b ≠ [] ↔ b < (head :: rest).length := by
      rw [Ne, List.drop_eq_nil_iff, not_le]
    rw [List.length_cons, splitLoop, List.forall_mem_cons, overflow_named_iff hb hid hfuel hnamed,
      hrest]
    rw [show (if 0 = 0 then id else _) = id from rfl, first_named_iff hid hdomains fun hall =>
      hlone hall (List.cons_ne_nil _ _)]
    exact ⟨fun h => ⟨h.2, h.1.1, h.1.2⟩, fun h => ⟨⟨h.first, h.lone⟩, h.overflow⟩⟩

end Vertex

/-! ## The groups of a domain map -/

/-- The hosts of a vertex are filed under its domain, and the vertex has an ID. -/
theorem filed_of_mem_groups {m : DomainMap} {g : Group} (h : g ∈ groups m) :
    g.hosts.Filed g.domain ∧ g.subDomain ≠ "" := by
  obtain ⟨e, he, hg⟩ := List.mem_flatMap.mp h
  have hfiled := m.filed e.1 e.2 (GoMap.lookup_eq_some_iff.mpr ((List.mem_insertionSort _).mp he))
  unfold domainGroups at hg
  split_ifs at hg
  · obtain ⟨sub, hsub, rfl⟩ := List.mem_map.mp hg
    have hentry := (List.mem_insertionSort _).mp hsub
    have hlook := GoMap.lookup_eq_some_iff.mpr hentry
    have hplaced := placedIn_subDomains hfiled
    obtain ⟨host, hhost, hplace⟩ := (hplaced.mem sub.1).mp (by rw [hlook]; rfl)
    have hmem := (mem_sub_iff hfiled hentry host).mpr ⟨List.mem_reverse.mp hhost, hplace⟩
    refine ⟨⟨hfiled.named, fun hnil => ?_, fun key other hother => ?_⟩, ?_⟩
    · rw [GoMap.values, hnil] at hmem
      exact absurd hmem List.not_mem_nil
    · have hother' := GoMap.mem_values.mpr ⟨key, GoMap.lookup_eq_some_iff.mp hother⟩
      refine ⟨(hfiled.of_mem_values ((mem_sub_iff hfiled hentry other).mp hother').1).1,
        hplaced.keyed sub.1 key other ?_⟩
      rwa [subAt, hlook]
    · show sub.1 ≠ ""
      rw [← hplace, HostInfo.placedIn]
      split_ifs with hempty
      · exact hfiled.named
      · exact hempty
  · rw [List.mem_singleton.mp hg]
    exact ⟨hfiled, hfiled.named⟩

/-- Only the empty name stands in front of all others. -/
theorem eq_empty_of_le {s : String} (h : s ≤ "") : s = "" := by
  by_contra hne
  refine absurd h (not_le.mpr ?_)
  rw [String.lt_iff_toList_lt]
  cases hs : s.toList with
  | nil => exact absurd (String.toList_inj.mp (hs.trans String.toList_empty.symm)) hne
  | cons a l => simp

/-- Sorted hosts begin with the one without a name. -/
theorem exists_hostsSorted_cons {hosts : Hosts}
    (hnodup : ((hostsSorted hosts).map (·.hostName)).Nodup)
    (h : "" ∈ (hostsSorted hosts).map (·.hostName)) :
    ∃ host rest, hostsSorted hosts = host :: rest ∧ host.hostName = "" ∧
    ∀ other ∈ rest, other.hostName ≠ "" := by
  have hsorted : (hostsSorted hosts).Pairwise fun a b => a.hostName ≤ b.hostName :=
    List.pairwise_insertionSort (fun a b : HostInfo => a.hostName ≤ b.hostName) _
  cases heq : hostsSorted hosts with
  | nil =>
    rw [heq] at h
    exact absurd h List.not_mem_nil
  | cons host rest =>
    rw [heq] at h hnodup hsorted
    have hname : host.hostName = "" := by
      rcases List.mem_cons.mp h with hhost | hrest
      · exact hhost.symm
      · obtain ⟨other, hother, hempty⟩ := List.mem_map.mp hrest
        exact eq_empty_of_le (hempty ▸ (List.pairwise_cons.mp hsorted).1 other hother)
    refine ⟨host, rest, rfl, hname, fun other hother hempty => ?_⟩
    rw [List.map_cons, List.nodup_cons] at hnodup
    exact hnodup.1 (List.mem_map.mpr ⟨other, hother, hempty.trans hname.symm⟩)

/-- **The blocks of a group keep its ID** exactly when the ID is fit for it. -/
theorem namedAfter_group_iff {m : DomainMap} {g : Group} (h : g ∈ groups m) {b : Nat} (hb : 0 < b)
    (byName : GoMap String BlockInfo) :
    NamedAfter b byName g.subDomain (hostsSorted g.hosts) ↔
      IDKept b byName g.subDomain (hostsSorted g.hosts) := by
  obtain ⟨hfiled, hid⟩ := filed_of_mem_groups h
  have hperm : (hostsSorted g.hosts).Perm g.hosts.values := List.perm_insertionSort _ _
  have hnodup : ((hostsSorted g.hosts).map (·.hostName)).Nodup :=
    (hperm.map _).nodup_iff.mpr hfiled.nodup_hostNames
  refine namedAfter_iff hb hid (fun host hhost =>
    (hfiled.of_mem_values (hperm.mem_iff.mp hhost)).1 ▸ hfiled.named)
    (fun host hhost hempty => ?_) fun hall hne => ?_
  · -- Only the first host of all may have no name.
    obtain ⟨head, rest, heq, -, hrest⟩ :=
      exists_hostsSorted_cons hnodup (hempty ▸ List.mem_map_of_mem (List.mem_of_mem_drop hhost))
    obtain ⟨b, rfl⟩ := Nat.exists_eq_succ_of_ne_zero hb.ne'
    rw [heq, List.drop_succ_cons] at hhost
    exact hrest host (List.mem_of_mem_drop hhost) hempty
  · have hnames : ((hostsSorted g.hosts).take b).map (·.hostName) =
        List.replicate ((hostsSorted g.hosts).take b).length "" :=
      List.map_eq_replicate_iff.mpr hall
    have hone := List.nodup_replicate.mp (hnames ▸ hnodup.sublist ((List.take_sublist _ _).map _))
    have hpos : (hostsSorted g.hosts).take b ≠ [] := by simp [hne, hb.ne']
    exact List.length_eq_one_iff.mp (le_antisymm hone (List.length_pos_iff.mpr hpos))

/-- **The blocks of the domain tree keep the identity of its vertices**: every block that is not
empty is named after its vertex, and blocks of vertices with different IDs have different names. -/
def KeepsIdentity (m : DomainMap) (b : Nat) (byName : GoMap String BlockInfo) : Prop :=
  (∀ g ∈ groups m, NamedAfter b byName g.subDomain (hostsSorted g.hosts)) ∧
  ∀ g ∈ groups m, ∀ g' ∈ groups m, g.subDomain ≠ g'.subDomain →
    ∀ bb ∈ g.blocks b, ∀ bb' ∈ g'.blocks b, ∀ seq seq', ¬ isEmptyBlock
    (baseBlockToBlockInfo bb byName seq) →
      ¬ isEmptyBlock (baseBlockToBlockInfo bb' byName seq') →
      (baseBlockToBlockInfo bb byName seq).name ≠ (baseBlockToBlockInfo bb' byName seq').name

/-- **When base blocks keep the identity of their vertices**: exactly when every ID is fit for the
blocks of its hosts. -/
theorem keepsIdentity_iff (m : DomainMap) {b : Nat} (hb : 0 < b) (byName : GoMap String BlockInfo) :
    KeepsIdentity m b byName ↔
      ∀ g ∈ groups m, IDKept b byName g.subDomain (hostsSorted g.hosts) := by
  constructor
  · exact fun h g hg => (namedAfter_group_iff hg hb byName).mp (h.1 g hg)
  · intro h
    have hnamed : ∀ g ∈ groups m, NamedAfter b byName g.subDomain (hostsSorted g.hosts) :=
      fun g hg => (namedAfter_group_iff hg hb byName).mpr (h g hg)
    refine ⟨hnamed, fun g hg g' hg' hne bb hbb bb' hbb' seq seq' hfull hfull' heq => hne ?_⟩
    rw [← hnamed g hg bb hbb seq hfull, heq, hnamed g' hg' bb' hbb' seq' hfull']

/-- Two racks whose IDs have no separator. -/
def plainRacks : DomainMap :=
  ((DomainMap.new.addHost "rack-1" "i1" "n1").addHost "rack-1" "i3" "n3").addHost "rack-2" "i2" "n2"

/-- They keep their identity in blocks of one host, the second block of `rack-1` included. -/
theorem plainRacks_keepsIdentity : KeepsIdentity plainRacks 1 ∅ := by
  have hall : ((groups plainRacks).all fun g => g.subDomain.toList.all fun r => !isSeparator r) =
      true := by
    decide
  have hplain : ∀ g ∈ groups plainRacks, ∀ r ∈ g.subDomain.toList, isSeparator r = false := by
    simpa only [List.all_eq_true, Bool.not_eq_true'] using hall
  refine (keepsIdentity_iff plainRacks (by decide) ∅).mpr fun g hg =>
    ⟨fun _ => hplain g hg, fun _ => Or.inl (hplain g hg), fun host _ _ => ?_⟩
  rw [if_neg (AList.notMem_empty _)]
  exact Or.inl (hplain g hg)

/-- Two racks whose IDs have a separator. -/
def rackDomains : DomainMap := (DomainMap.new.addHost "rack/1" "i1" "n1").addHost "rack/2" "i2" "n2"

/-- **Two domains lose their identity**: the blocks of `rack/1` and `rack/2` are both named
`rack`. -/
theorem racks_lose_identity :
    ((groups rackDomains).map fun g => (g.subDomain, (slotBlocks ∅ (g.blocks 2)).map fun b =>
      (b.name, b.nodes))) =
      [("rack/1", [("rack", ["n1"])]), ("rack/2", [("rack", ["n2"])])] ∧
      ¬ KeepsIdentity rackDomains 2 ∅ := by
  refine ⟨by decide, fun h => ?_⟩
  have hname := h.1 ((groups rackDomains).head (by decide)) (List.head_mem _)
    ((((groups rackDomains).head (by decide)).blocks 2).head (by decide))
    (List.head_mem _) 0 (by decide)
  exact absurd hname (by decide)

end Topograph.Translate
