import Topograph.Cluset.Numerals
import Topograph.Lib.Numbering
import Topograph.Topology.ToGraph

/-! # Normalized switch names

`Normalize` sorts the records by their tiers from the top down and numbers the switches of each tier
index in the order in which they come by. Tiers that a record does not have count as empty, so the
order is the lexicographic one of keys of a common length (`hierarchyKey`), and records that it does
not tell apart have the same tiers. Therefore the numbers are the same for every order of the input,
and for every sort (`SortedRecords.map_tierID`, `nameInstances_eq`). -/

namespace Topograph.Topology

open Topograph.Numbering

/-! ## The order of the records -/

/-- The IDs at the tier indices below `level` from the top down, and the instance. -/
def hierarchyKey (inst : InstanceTopology) : Nat → List String
  | 0 => [inst.instanceID]
  | level + 1 => tierID inst level :: hierarchyKey inst level

/-- The order compares keys. -/
theorem hierarchyLess_iff (a b : InstanceTopology) (level : Nat) :
    hierarchyLess a b level = true ↔ hierarchyKey a level < hierarchyKey b level := by
  induction level with
  | zero => simp [hierarchyLess, hierarchyKey, List.cons_lt_cons_iff]
  | succ level ih =>
    rw [hierarchyLess, hierarchyKey, hierarchyKey, List.cons_lt_cons_iff]
    split_ifs with hne
    · simp [hne]
    · obtain heq : tierID a level = tierID b level := not_not.mp hne
      rw [ih, heq]
      simp

variable {level : Nat} {inst : InstanceTopology}

theorem tierID_of_length_le (h : inst.fabricTiers.length ≤ level) : tierID inst level = "" := by
  rw [tierID, List.getElem?_eq_none h]
  rfl

variable {a b : InstanceTopology}

section

variable (ha : a.fabricTiers.length ≤ level) (hb : b.fabricTiers.length ≤ level)

include ha hb

/-- Indices above the tiers of both records do not matter. -/
theorem instanceLess_eq : instanceLess a b = hierarchyLess a b level := by
  have hmax := max_le ha hb
  induction level, hmax using Nat.le_induction with
  | base => rfl
  | succ level hmax ih =>
    have ha' := tierID_of_length_le ((le_max_left _ _).trans hmax : a.fabricTiers.length ≤ level)
    have hb' := tierID_of_length_le ((le_max_right _ _).trans hmax : b.fabricTiers.length ≤ level)
    rw [hierarchyLess, ha', hb', if_neg (by simp)]
    exact ih ((le_max_left _ _).trans hmax) ((le_max_right _ _).trans hmax)

/-- **The order is that of the keys**, at any common length. -/
theorem instanceLess_eq_false_iff :
    instanceLess b a = false ↔ hierarchyKey a level ≤ hierarchyKey b level := by
  rw [instanceLess_eq hb ha, ← Bool.not_eq_true, hierarchyLess_iff, not_lt]

end

theorem tierID_eq_of_hierarchyKey_eq (h : hierarchyKey a level = hierarchyKey b level) :
    a.instanceID = b.instanceID ∧ ∀ i < level, tierID a i = tierID b i := by
  induction level with
  | zero => exact ⟨by simpa [hierarchyKey] using h, by simp⟩
  | succ level ih =>
    obtain ⟨htier, hrest⟩ := List.cons.inj h
    obtain ⟨hid, hall⟩ := ih hrest
    refine ⟨hid, fun i hi => ?_⟩
    rcases Nat.lt_succ_iff_lt_or_eq.mp hi with hi | rfl
    · exact hall i hi
    · exact htier

/-- **The comparison is a total order up to records with the same instance and tiers.** -/
structure HierarchyOrder : Prop where
  total : ∀ a b, instanceLess b a = false ∨ instanceLess a b = false
  trans : ∀ a b c, instanceLess b a = false → instanceLess c b = false → instanceLess c a = false
  antisymm : ∀ a b, instanceLess b a = false → instanceLess a b = false →
    a.instanceID = b.instanceID ∧ ∀ level, tierID a level = tierID b level

/-- The order is linear on records with different IDs. -/
theorem hierarchyOrder : HierarchyOrder where
  total a b := by
    have ha := le_max_left a.fabricTiers.length b.fabricTiers.length
    have hb := le_max_right a.fabricTiers.length b.fabricTiers.length
    rw [instanceLess_eq_false_iff ha hb, instanceLess_eq_false_iff hb ha]
    exact le_total _ _
  trans a b c hab hbc := by
    have ha : a.fabricTiers.length ≤ max (max a.fabricTiers.length b.fabricTiers.length)
        c.fabricTiers.length := by simp
    have hb : b.fabricTiers.length ≤ max (max a.fabricTiers.length b.fabricTiers.length)
        c.fabricTiers.length := by simp
    have hc : c.fabricTiers.length ≤ max (max a.fabricTiers.length b.fabricTiers.length)
        c.fabricTiers.length := by simp
    rw [instanceLess_eq_false_iff ha hb] at hab
    rw [instanceLess_eq_false_iff hb hc] at hbc
    rw [instanceLess_eq_false_iff ha hc]
    exact hab.trans hbc
  antisymm a b hab hba := by
    have ha := le_max_left a.fabricTiers.length b.fabricTiers.length
    have hb := le_max_right a.fabricTiers.length b.fabricTiers.length
    rw [instanceLess_eq_false_iff ha hb] at hab
    rw [instanceLess_eq_false_iff hb ha] at hba
    obtain ⟨hid, htiers⟩ := tierID_eq_of_hierarchyKey_eq (le_antisymm hab hba)
    refine ⟨hid, fun level => ?_⟩
    rcases lt_or_ge level (max a.fabricTiers.length b.fabricTiers.length) with hlt | hge
    · exact htiers level hlt
    · rw [tierID_of_length_le (ha.trans hge), tierID_of_length_le (hb.trans hge)]

/-- What a sort of the records may return: it need not keep the order of records that are equal in
the order. -/
structure SortedRecords (c sorted : ClusterTopology) : Prop where
  perm : sorted.Perm c
  sorted : sorted.Pairwise fun a b => instanceLess b a = false

/-- The sort of the model is one. -/
theorem sortedRecords_insertionSort (c : ClusterTopology) :
    SortedRecords c (c.insertionSort fun a b => instanceLess b a = false) where
  perm := List.perm_insertionSort _ _
  sorted := by
    have htotal : Std.Total fun a b => instanceLess b a = false := ⟨hierarchyOrder.total⟩
    have htrans : IsTrans InstanceTopology fun a b => instanceLess b a = false :=
      ⟨hierarchyOrder.trans⟩
    exact List.pairwise_insertionSort _ _

theorem exists_tier_bound (l : ClusterTopology) :
    ∃ bound, ∀ a ∈ l, a.fabricTiers.length ≤ bound := by
  induction l with
  | nil => exact ⟨0, by simp⟩
  | cons a l ih =>
    obtain ⟨bound, h⟩ := ih
    refine ⟨max a.fabricTiers.length bound, List.forall_mem_cons.mpr ⟨le_max_left _ _,
      fun b hb => ?_⟩⟩
    exact (h b hb).trans (le_max_right _ _)

/-- **All sorts of all orders of the records** list the same tiers. -/
theorem SortedRecords.map_tierID {c c' s s' : ClusterTopology} (h : SortedRecords c s)
    (h' : SortedRecords c' s') (hperm : c.Perm c') (level : Nat) :
    s.map (tierID · level) = s'.map (tierID · level) := by
  have hss : s.Perm s' := h.perm.trans (hperm.trans h'.perm.symm)
  obtain ⟨bound, hbound⟩ := exists_tier_bound s
  have hbound' : ∀ a ∈ s', a.fabricTiers.length ≤ bound := fun a ha => hbound a (hss.mem_iff.mpr ha)
  -- The keys of the two lists are sorted and the same ones.
  have hsorted : ∀ l : ClusterTopology, (∀ a ∈ l, a.fabricTiers.length ≤ bound) →
      (l.Pairwise fun a b => instanceLess b a = false) →
      (l.map (hierarchyKey · bound)).Pairwise (· ≤ ·) := by
    intro l hl hpair
    refine List.pairwise_map.mpr (hpair.imp_of_mem fun ha hb hab => ?_)
    exact (instanceLess_eq_false_iff (hl _ ha) (hl _ hb)).mp hab
  have hkeys : s.map (hierarchyKey · bound) = s'.map (hierarchyKey · bound) :=
    (hss.map _).eq_of_pairwise (fun _ _ _ _ => le_antisymm) (hsorted s hbound h.sorted)
      (hsorted s' hbound' h'.sorted)
  have hlength : s.length = s'.length := hss.length_eq
  refine List.ext_getElem (by simpa using hlength) fun i hi hi' => ?_
  rw [List.length_map] at hi hi'
  have hkey : hierarchyKey s[i] bound = hierarchyKey s'[i] bound := by
    have hget := congrArg (fun keys => keys[i]?) hkeys
    simpa [List.getElem?_eq_getElem hi, List.getElem?_eq_getElem hi'] using hget
  rw [List.getElem_map, List.getElem_map]
  rcases lt_or_ge level bound with hlt | hge
  · exact (tierID_eq_of_hierarchyKey_eq hkey).2 level hlt
  · rw [tierID_of_length_le ((hbound _ (List.getElem_mem hi)).trans hge),
      tierID_of_length_le ((hbound' _ (List.getElem_mem hi')).trans hge)]

/-! ## The numbers -/

/-- The name of the switch with the number `k` at a tier index; indices and numbers are counted from
1. -/
def switchName (level k : Nat) : String :=
  "switch." ++ toString (level + 1) ++ "." ++ toString (k + 1)

/-- A tier comes by; an empty one is skipped. -/
def noteTier (seen : List String) (id : String) : List String :=
  if id = "" then seen else note seen id

/-- The IDs at a tier index in the order in which they come by. -/
def switchOrder (seen : List String) (ids : List String) : List String := ids.foldl noteTier seen

/-- Switches are numbered as they come, without empty IDs. -/
theorem switchOrder_eq (seen ids : List String) :
    switchOrder seen ids = (ids.filter (· ≠ "")).foldl note seen := by
  rw [switchOrder]
  induction ids generalizing seen with
  | nil => rfl
  | cons id ids ih =>
    rw [List.foldl_cons, ih, noteTier]
    split_ifs with hid
    · rw [List.filter_cons_of_neg (by simpa using hid)]
    · rw [List.filter_cons_of_pos (by simpa using hid), List.foldl_cons]

/-- What the loop keeps: for each tier index the number of switches, and their names by number. -/
structure Numbered (st : NameState) (seen : Nat → List String) : Prop where
  counts : ∀ level, (st.levelCounts.lookup level).getD 0 = (seen level).length
  names : ∀ level id, st.switches.lookup (level, id) =
    if id ∈ seen level then some (switchName level ((seen level).idxOf id)) else none

/-- The tier with the name that its ID has in an order of the switches. -/
def renameTier (seen : List String) (level : Nat) (tier : FabricTier) : FabricTier :=
  if tier.id = "" then tier else { tier with name := switchName level (seen.idxOf tier.id) }

variable {seen : Nat → List String} {st : NameState}

/-- **One tier.** -/
theorem Numbered.nameTier (h : Numbered st seen) (level : Nat) (tier : FabricTier) :
    Numbered (nameTier st level tier).1
      (Function.update seen level (noteTier (seen level) tier.id)) ∧
      (Topology.nameTier st level tier).2 = renameTier
        (noteTier (seen level) tier.id) level tier := by
  rw [Topology.nameTier, noteTier, renameTier]
  split_ifs with hid
  · exact ⟨by rwa [Function.update_eq_self], rfl⟩
  · rw [h.names level tier.id]
    by_cases hmem : tier.id ∈ seen level
    · -- The ID has a number.
      simp only [if_pos hmem, note]
      exact ⟨by rwa [Function.update_eq_self], trivial⟩
    · simp only [if_neg hmem, h.counts level]
      refine ⟨⟨fun level' => ?_, fun level' id => ?_⟩, ?_⟩
      · rw [GoMap.lookup_insert_eq_ite, Function.update_apply]
        split_ifs with hlevel
        · rw [note, if_neg hmem]
          simp
        · exact h.counts level'
      · rw [GoMap.lookup_insert_eq_ite, Function.update_apply]
        by_cases hlevel : level' = level
        · subst hlevel
          by_cases heq : id = tier.id
          · subst heq
            rw [if_pos rfl, if_pos rfl, if_pos (mem_note.mpr (Or.inr rfl)), idxOf_note_self hmem]
            rfl
          · have hmem' : id ∈ note (seen level') tier.id ↔ id ∈ seen level' := by
              rw [mem_note, or_iff_left heq]
            rw [if_neg (by simpa using heq), if_pos rfl, h.names level' id]
            simp only [hmem']
            split_ifs with hold
            · rw [idxOf_note hold]
            · rfl
        · rw [if_neg (by simp [hlevel]), if_neg hlevel, h.names level' id]
      · rw [idxOf_note_self hmem]
        rfl

/-- **The tiers of one record**, by induction: each one touches its own tier index. -/
theorem Numbered.nameTiers (h : Numbered st seen) (level : Nat) (tiers : List FabricTier) :
    Numbered (nameTiers st level tiers).1
        (fun i => if level ≤ i then noteTier (seen i) ((tiers[i - level]?.map (·.id)).getD "")
          else seen i) ∧
      (Topology.nameTiers st level tiers).2 =
        tiers.mapIdx fun i tier => renameTier (noteTier (seen (level + i)) tier.id)
          (level + i) tier := by
  induction tiers generalizing st seen level with
  | nil =>
    have hsame : (fun i => if level ≤ i then
        noteTier (seen i) ((([] : List FabricTier)[i - level]?.map (·.id)).getD "") else seen i) =
        seen := by
      funext i
      simp [noteTier]
    exact ⟨by rwa [hsame], rfl⟩
  | cons tier tiers ih =>
    obtain ⟨hfirst, hname⟩ := h.nameTier level tier
    obtain ⟨hrest, hnames⟩ := ih hfirst (level + 1)
    have hseen : (fun i => if level + 1 ≤ i then
          noteTier (Function.update seen level (noteTier (seen level) tier.id) i)
            ((tiers[i - (level + 1)]?.map (·.id)).getD "")
        else Function.update seen level (noteTier (seen level) tier.id) i) =
        fun i => if level ≤ i then
          noteTier (seen i) (((tier :: tiers)[i - level]?.map (·.id)).getD "") else seen i := by
      funext i
      rcases lt_trichotomy i level with hlt | rfl | hgt
      · rw [if_neg (by omega), if_neg (by omega), Function.update_of_ne hlt.ne]
      · simp
      · rw [if_pos (by omega), if_pos hgt.le, Function.update_of_ne hgt.ne',
          show i - level = i - (level + 1) + 1 by omega,
          List.getElem?_cons_succ]
    refine ⟨by rwa [hseen] at hrest, ?_⟩
    rw [Topology.nameTiers, List.mapIdx_cons]
    refine congrArg₂ List.cons hname ?_
    rw [hnames]
    refine List.mapIdx_eq_mapIdx_iff.mpr fun i hi => ?_
    rw [Function.update_of_ne (by omega), Nat.add_right_comm, Nat.add_assoc]

/-- Every switch is numbered. -/
theorem mem_switchOrder {seen ids : List String} {id : String} :
    id ∈ switchOrder seen ids ↔ id ∈ seen ∨ (id ∈ ids ∧ id ≠ "") := by
  rw [switchOrder_eq, mem_foldl_note, List.mem_filter]
  simp

/-- Numbers stay, whatever comes by. -/
theorem renameTier_switchOrder {seen : List String} (level : Nat) {tier : FabricTier}
    (hseen : tier.id ≠ "" → tier.id ∈ seen) (ids : List String) :
    renameTier (switchOrder seen ids) level tier = renameTier seen level tier := by
  rw [renameTier, renameTier]
  split_ifs with hid
  · rfl
  · rw [switchOrder_eq, idxOf_foldl_note (hseen hid)]

/-- **All records**: every tier gets the name that its ID has in the order of all records. -/
theorem nameInstances_eq (h : Numbered st seen) (s : ClusterTopology) :
    nameInstances st s = s.map fun inst =>
      { inst with
        fabricTiers := inst.fabricTiers.mapIdx fun level tier =>
          renameTier (switchOrder (seen level) (s.map (tierID · level))) level tier } := by
  induction s generalizing st seen with
  | nil => rfl
  | cons inst s ih =>
    obtain ⟨hnext, hnames⟩ := h.nameTiers 0 inst.fabricTiers
    rw [nameInstances, List.map_cons]
    refine congrArg₂ List.cons ?_ ?_
    · show { inst with fabricTiers := (nameTiers st 0 inst.fabricTiers).2 } = _
      rw [hnames]
      congr 1
      refine List.mapIdx_eq_mapIdx_iff.mpr fun i hi => ?_
      have htier : tierID inst i = inst.fabricTiers[i].id := by
        rw [tierID, List.getElem?_eq_getElem hi]
        rfl
      rw [Nat.zero_add, List.map_cons, switchOrder, List.foldl_cons, ← switchOrder, htier]
      refine (renameTier_switchOrder i (fun hne => ?_) _).symm
      rw [noteTier, if_neg hne, mem_note]
      exact Or.inr rfl
    · exact ih hnext

/-! ## The names -/

theorem isDigit_of_mem_toString {n : Nat} {c : Char} (h : c ∈ (toString n).toList) : c.isDigit := by
  have hdigits : (toString n).toList = Nat.toDigits 10 n := String.toList_ofList
  rw [hdigits] at h
  exact Nat.isDigit_of_mem_toDigits (by omega) (by omega) h

/-- **A name tells the tier index and the number.** -/
theorem switchName_inj {level level' k k' : Nat} (h : switchName level k = switchName level' k') :
    level = level' ∧ k = k' := by
  have hlist := congrArg String.toList h
  simp only [switchName, String.toList_append, List.append_assoc, List.append_cancel_left_eq]
    at hlist
  -- The digits before the dot, and what is behind it.
  have hdigits : ∀ n m : Nat, ((toString n).toList ++ (".".toList ++ (toString m).toList)).takeWhile
      Char.isDigit =
      (toString n).toList := by
    intro n m
    rw [List.takeWhile_append_of_pos fun c hc => isDigit_of_mem_toString hc]
    simp [show ".".toList = ['.'] from rfl, Char.isDigit]
  have hlevel := congrArg (List.takeWhile Char.isDigit) hlist
  rw [hdigits, hdigits] at hlevel
  rw [hlevel, List.append_cancel_left_eq, List.append_cancel_left_eq] at hlist
  have hl := Cluset.toString_nat_injective (String.toList_injective hlevel)
  have hk := Cluset.toString_nat_injective (String.toList_injective hlist)
  omega

/-- A record of the result has the switch `id` at a tier index, under the name `name`. -/
def Assigned (named : ClusterTopology) (level : Nat) (id name : String) : Prop :=
  ∃ inst ∈ named, ∃ tier, inst.fabricTiers[level]? = some tier ∧ tier.id = id ∧ tier.name = name

/-- `Normalize` behind the sort. -/
def normalizeSorted (sorted : ClusterTopology) : ClusterTopology :=
  nameInstances { levelCounts := ∅, switches := ∅ } sorted

/-- **`Normalize`** names sorted records. -/
theorem ClusterTopology.exists_normalize_eq (c : ClusterTopology) :
    ∃ s, SortedRecords c s ∧ c.normalize = normalizeSorted s :=
  ⟨_, sortedRecords_insertionSort c, rfl⟩

theorem exists_tier_of_tierID {id : String} (hid : id ≠ "") (h : tierID inst level = id) :
    ∃ tier, inst.fabricTiers[level]? = some tier ∧ tier.id = id := by
  rw [tierID] at h
  cases htier : inst.fabricTiers[level]? with
  | none =>
    rw [htier] at h
    exact absurd h.symm hid
  | some tier =>
    rw [htier] at h
    exact ⟨tier, rfl, h⟩

/-- **The name of a switch** is that of its place in the order of the records. -/
theorem assigned_iff (s : ClusterTopology) {id name : String} (hid : id ≠ "") :
    Assigned (normalizeSorted s) level id name ↔
      id ∈ switchOrder [] (s.map (tierID · level)) ∧
        name = switchName level ((switchOrder [] (s.map (tierID · level))).idxOf id) := by
  have hstart : Numbered { levelCounts := ∅, switches := ∅ } fun _ => [] :=
    ⟨fun _ => rfl, fun _ _ => by simp⟩
  have hmem : id ∈ switchOrder [] (s.map (tierID · level)) ↔
      ∃ inst ∈ s, tierID inst level = id := by
    rw [mem_switchOrder, List.mem_map]
    simp [hid]
  rw [Assigned, normalizeSorted, nameInstances_eq hstart, hmem]
  constructor
  · rintro ⟨_, hmap, tier, htier, rfl, rfl⟩
    obtain ⟨inst, hinst, rfl⟩ := List.mem_map.mp hmap
    rw [List.getElem?_mapIdx] at htier
    obtain ⟨old, hold, rfl⟩ := Option.map_eq_some_iff.mp htier
    by_cases hold' : old.id = ""
    · rw [renameTier, if_pos hold'] at hid
      exact absurd hold' hid
    · rw [renameTier, if_neg hold']
      exact ⟨⟨inst, hinst, by rw [tierID, hold]; rfl⟩, rfl⟩
  · rintro ⟨⟨inst, hinst, htier⟩, rfl⟩
    obtain ⟨tier, hget, rfl⟩ := exists_tier_of_tierID hid htier
    refine ⟨_, List.mem_map_of_mem hinst,
      renameTier (switchOrder [] (s.map (tierID · level))) level tier,
      by rw [List.getElem?_mapIdx, hget]; rfl, ?_, ?_⟩ <;> rw [renameTier, if_neg hid]

theorem nodup_switchOrder (ids : List String) : (switchOrder [] ids).Nodup := by
  rw [switchOrder_eq]
  exact nodup_foldl_note List.nodup_nil

/-- **Normalized names are canonical.** Whatever sort is used, the comparison being an order up to
records with the same tiers: every switch ID at a tier index has one name, different ones have
different names, the names at an index are numbered without gaps, and every other order of the
records leads to the same names. -/
theorem normalize_canonical {c s : ClusterTopology} (h : SortedRecords c s) :
    HierarchyOrder ∧
    (∀ level id, id ≠ "" → (∃ inst ∈ c, tierID inst level = id) →
      ∃! name, Assigned (normalizeSorted s) level id name) ∧
    (∀ level id level' id' name, id ≠ "" → id' ≠ "" → Assigned (normalizeSorted s) level id name →
      Assigned (normalizeSorted s) level' id' name → level = level' ∧ id = id') ∧
    (∀ level, ∃ count, ∀ name, (∃ id, id ≠ "" ∧ Assigned (normalizeSorted s) level id name) ↔
      ∃ k < count, name = switchName level k) ∧
    ∀ c' s', c'.Perm c → SortedRecords c' s' → ∀ level id name, id ≠ "" →
      (Assigned (normalizeSorted s') level id name ↔
        Assigned (normalizeSorted s) level id name) := by
  refine ⟨hierarchyOrder, fun level id hid hinst => ?_,
    fun level id level' id' name hid hid' ha ha' => ?_, fun level => ?_,
    fun c' s' hperm hs' level id name hid => ?_⟩
  · obtain ⟨inst, hinst, htier⟩ := hinst
    have hmem : id ∈ switchOrder [] (s.map (tierID · level)) :=
      mem_switchOrder.mpr (Or.inr ⟨List.mem_map.mpr ⟨inst, h.perm.mem_iff.mpr hinst, htier⟩, hid⟩)
    exact ⟨_, (assigned_iff s hid).mpr ⟨hmem, rfl⟩, fun name ha => ((assigned_iff s hid).mp ha).2⟩
  · obtain ⟨hmem, hname⟩ := (assigned_iff s hid).mp ha
    obtain ⟨-, hname'⟩ := (assigned_iff s hid').mp ha'
    obtain ⟨rfl, hk⟩ := switchName_inj (hname.symm.trans hname')
    exact ⟨rfl, (List.idxOf_inj hmem).mp hk⟩
  · refine ⟨(switchOrder [] (s.map (tierID · level))).length, fun name => ⟨?_, ?_⟩⟩
    · rintro ⟨id, hid, ha⟩
      obtain ⟨hmem, rfl⟩ := (assigned_iff s hid).mp ha
      exact ⟨_, List.idxOf_lt_length_of_mem hmem, rfl⟩
    · rintro ⟨k, hk, rfl⟩
      have hmem := List.getElem_mem hk
      have hid := ((mem_switchOrder.mp hmem).resolve_left List.not_mem_nil).2
      refine ⟨_, hid, (assigned_iff s hid).mpr ⟨hmem, ?_⟩⟩
      rw [(nodup_switchOrder _).idxOf_getElem k hk]
  · rw [assigned_iff s hid, assigned_iff s' hid, hs'.map_tierID h hperm level]

/-- Two records in an order that `Normalize` turns around. -/
def pairRecords : ClusterTopology := [⟨"b", [⟨"t2", ""⟩], "", ""⟩, ⟨"a", [⟨"t1", ""⟩], "", ""⟩]

theorem pairRecords_canonical :
    ∃ s, SortedRecords pairRecords s ∧ pairRecords.normalize = normalizeSorted s ∧
    ∃! name, Assigned pairRecords.normalize 0 "t1" name := by
  obtain ⟨s, hs, hnormalize⟩ := pairRecords.exists_normalize_eq
  refine ⟨s, hs, hnormalize, ?_⟩
  rw [hnormalize]
  exact (normalize_canonical hs).2.1 0 "t1" (by decide) ⟨⟨"a", [⟨"t1", ""⟩], "", ""⟩,
    by decide, rfl⟩

end Topograph.Topology
