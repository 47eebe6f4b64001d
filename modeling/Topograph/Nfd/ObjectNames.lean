import Topograph.K8s.LabelFrame
import Topograph.Nfd.Objects

/-! # The names of NFD objects (`pkg/engines/nfd/objects.go`)

`stableObjectName` joins a part of the prefix, a part of the value and a hash of the value. Every
part consists of label characters with dashes between them only (`IsLabelPart`), and the part of the
value is cut to what the prefix and the hash leave of the 63 characters of a DNS label. Case mapping
(`unicode.ToLower`) and SHA-256 belong to libraries: any mapping and any hash of 32 bytes give DNS
labels. The value is given by its runes. -/

namespace Topograph.Nfd

open Topograph.Cluset (Text digitCount digitCount_le_iff)
open Topograph.Nodelabels (hexByte)
open Topograph.K8s
  (keyTopologyXclrDomain keyTopologyXclrSubDomain fabricTierKey cutPrefix_fabricTierKey
    parseInt_toDigits)

/-! ## Parts of a label -/

/-- A lowercase letter or a digit. -/
def isLabelChar (r : Char) : Bool := ('a' ≤ r && r ≤ 'z') || ('0' ≤ r && r ≤ '9')

/-- The loop of `dnsLabelPart`: every run of other characters becomes one dash. -/
def dashOthers : Bool → Text → Text
  | _, [] => []
  | lastDash, r :: rs =>
    if isLabelChar r then r :: dashOthers false rs
    else if lastDash then dashOthers true rs
    else '-' :: dashOthers true rs

/-- `strings.Trim` with the cutset `-`. -/
def trimDashes (s : Text) : Text := (s.dropWhile (· = '-')).rdropWhile (· = '-')

section Names

variable (toLower : Char → Char) (sha256 : Text → Vector UInt8 32)

/-- `dnsLabelPart`. -/
def dnsLabelPart (value : Text) : Text := trimDashes (dashOthers false (value.map toLower))

/-- `shortHash`: the first eight hexadecimal digits. -/
def shortHash (value : Text) : Text := ((sha256 value).toList.flatMap hexByte).take 8

/-- The part of the value in a name, cut to a length. -/
def valuePart (value : Text) (maxPartLen : Nat) : Text :=
  let part := dnsLabelPart toLower value
  let part := if part = [] then "value".toList else part
  if maxPartLen < part.length then
    let part := trimDashes (part.take maxPartLen)
    if part = [] then "value".toList else part
  else part

/-- `stableObjectName`. The length that is left may be negative in the source, which makes it one,
like zero. -/
def stableObjectName (start value : Text) : Text :=
  let start := dnsLabelPart toLower start
  let start := if start = [] then "topograph".toList else start
  let hash := shortHash sha256 value
  let maxPartLen := max (63 - start.length - hash.length - 2) 1
  start ++ '-' :: (valuePart toLower value maxPartLen ++ '-' :: hash)

/-- The name of an object, as a string. -/
def objectName (start value : String) : String :=
  String.ofList (stableObjectName toLower sha256 start.toList value.toList)

end Names

/-! ## What a part looks like -/

/-- Label characters, with dashes between them only. -/
structure IsLabelPart (s : Text) : Prop where
  chars : ∀ r ∈ s, isLabelChar r = true ∨ r = '-'
  first : ∃ r ∈ s.head?, isLabelChar r = true
  last : ∃ r ∈ s.getLast?, isLabelChar r = true

/-- **A DNS label**: at most 63 lowercase letters, digits and dashes that begins and ends with a
letter or digit. -/
structure IsDNSLabel (s : Text) : Prop extends IsLabelPart s where
  nonempty : s ≠ []
  length : s.length ≤ 63

theorem IsLabelPart.ne_nil {s : Text} (h : IsLabelPart s) : s ≠ [] := by
  rintro rfl
  obtain ⟨r, hr, -⟩ := h.first
  exact absurd hr (by simp)

/-- Parts joined by a dash are a part. -/
theorem IsLabelPart.join {s t : Text} (hs : IsLabelPart s) (ht : IsLabelPart t) :
    IsLabelPart (s ++ '-' :: t) where
  chars := by
    intro r hr
    rcases List.mem_append.mp hr with hr | hr
    · exact hs.chars r hr
    · rcases List.mem_cons.mp hr with rfl | hr
      · exact Or.inr rfl
      · exact ht.chars r hr
  first := by
    rw [List.head?_append_of_ne_nil _ hs.ne_nil]
    exact hs.first
  last := by
    rw [List.getLast?_append_of_ne_nil _ (List.cons_ne_nil _ _),
      List.getLast?_cons_of_ne_nil ht.ne_nil]
    exact ht.last

theorem isLabelPart_of_all {s : Text} (hne : s ≠ []) (h : s.all isLabelChar = true) :
    IsLabelPart s where
  chars r hr := Or.inl (List.all_eq_true.mp h r hr)
  first := ⟨_, List.head?_eq_some_head hne, List.all_eq_true.mp h _ (List.head_mem hne)⟩
  last := ⟨_, List.getLast?_eq_some_getLast hne, List.all_eq_true.mp h _ (List.getLast_mem hne)⟩

theorem trimDashes_sublist (s : Text) : (trimDashes s).Sublist s :=
  (List.rdropWhile_prefix _ _).sublist.trans (List.dropWhile_sublist _)

/-- **Trimming leaves a part**, if it leaves anything. -/
theorem isLabelPart_trimDashes {s : Text} (h : ∀ r ∈ s, isLabelChar r = true ∨ r = '-')
    (hne : trimDashes s ≠ []) : IsLabelPart (trimDashes s) := by
  have hchars : ∀ r ∈ trimDashes s, isLabelChar r = true ∨ r = '-' :=
  fun r hr => h r ((trimDashes_sublist s).subset hr)
  have hdash : ∀ r ∈ trimDashes s, r ≠ '-' → isLabelChar r = true :=
    fun r hr hnot => (hchars r hr).resolve_right hnot
  have hdrop : s.dropWhile (· = '-') ≠ [] := by
    intro hnil
    exact hne (by rw [trimDashes, hnil]; rfl)
  refine ⟨hchars, ⟨(trimDashes s).head hne, List.head?_eq_some_head hne,
    hdash _ (List.head_mem hne) ?_⟩,
    ⟨(trimDashes s).getLast hne, List.getLast?_eq_some_getLast hne,
      hdash _ (List.getLast_mem hne) ?_⟩⟩
  · obtain ⟨t, ht⟩ :=
      List.rdropWhile_prefix (fun r : Char => decide (r = '-')) (l := s.dropWhile (· = '-'))
    have hhead := List.head_dropWhile_not (fun r : Char => decide (r = '-')) hdrop
    have hsame : (s.dropWhile (· = '-')).head? = some ((trimDashes s).head hne) := by
      rw [← ht]
      exact (List.head?_append_of_ne_nil _ hne).trans (List.head?_eq_some_head hne)
    rw [List.head?_eq_some_head hdrop] at hsame
    rw [← Option.some.inj hsame]
    simpa using hhead
  · have hlast := List.rdropWhile_last_not (fun r : Char => decide (r = '-')) _ hne
    exact fun heq => hlast (decide_eq_true heq)

/-! ## The parts of a name -/

/-- The loop writes label characters and dashes, and no more than it reads. -/
theorem dashOthers_spec (lastDash : Bool) (s : Text) :
    (∀ r ∈ dashOthers lastDash s, isLabelChar r = true ∨ r = '-') ∧
      (dashOthers lastDash s).length ≤ s.length := by
  induction s generalizing lastDash with
  | nil => simp [dashOthers]
  | cons c s ih =>
    rw [dashOthers]
    split_ifs with hc hlast
    · exact ⟨List.forall_mem_cons.mpr ⟨Or.inl hc, (ih false).1⟩, Nat.succ_le_succ (ih false).2⟩
    · exact ⟨(ih true).1, (ih true).2.trans (Nat.le_succ _)⟩
    · exact ⟨List.forall_mem_cons.mpr ⟨Or.inr rfl, (ih true).1⟩, Nat.succ_le_succ (ih true).2⟩

section Parts

variable (toLower : Char → Char) (sha256 : Text → Vector UInt8 32)

/-- Cleaning never makes a value longer. -/
theorem length_dnsLabelPart_le (value : Text) :
    (dnsLabelPart toLower value).length ≤ value.length := by
  refine (trimDashes_sublist _).length_le.trans ((dashOthers_spec false _).2.trans ?_)
  rw [List.length_map]

/-- `dnsLabelPart`, or a default for nothing, is a part. -/
theorem isLabelPart_dnsLabelPart (value : Text) {default : Text} (hdefault : IsLabelPart default) :
    IsLabelPart (if dnsLabelPart toLower value = [] then default
      else dnsLabelPart toLower value) := by
  split_ifs with hnil
  · exact hdefault
  · exact isLabelPart_trimDashes (dashOthers_spec false _).1 hnil

theorem isLabelPart_value : IsLabelPart "value".toList := isLabelPart_of_all (by decide) (by decide)

/-- **The part of the value** fits, where five characters are left. -/
theorem valuePart_spec (value : Text) {maxPartLen : Nat} (h : 5 ≤ maxPartLen) :
    IsLabelPart (valuePart toLower value maxPartLen) ∧
      (valuePart toLower value maxPartLen).length ≤ maxPartLen := by
  rw [valuePart]
  have hpart := isLabelPart_dnsLabelPart toLower value isLabelPart_value
  generalize (if dnsLabelPart toLower value = [] then "value".toList
    else dnsLabelPart toLower value) = part at hpart
  dsimp only
  split_ifs with hlong hnil
  · exact ⟨isLabelPart_value, h⟩
  · refine ⟨isLabelPart_trimDashes (fun r hr => hpart.chars r (List.mem_of_mem_take hr)) hnil, ?_⟩
    exact (trimDashes_sublist _).length_le.trans (List.length_take_le _ _)
  · exact ⟨hpart, not_lt.mp hlong⟩

/-- The hash is a label part of eight characters. -/
theorem shortHash_spec (value : Text) :
    IsLabelPart (shortHash sha256 value) ∧ (shortHash sha256 value).length = 8 := by
  have hdigit : ∀ n < 16, isLabelChar (Nat.digitChar n) = true := by decide
  have hlength : ((sha256 value).toList.flatMap hexByte).length = 64 := by
    rw [List.length_flatMap]
    simp [hexByte]
  have hshort : (shortHash sha256 value).length = 8 := by
    rw [shortHash, List.length_take, hlength]; rfl
  refine ⟨isLabelPart_of_all (List.length_pos_iff.mp (by omega))
    (List.all_eq_true.mpr fun r hr => ?_), hshort⟩
  obtain ⟨b, -, hb⟩ := List.mem_flatMap.mp (List.mem_of_mem_take hr)
  have hlt := b.toNat_lt
  rcases List.mem_pair.mp hb with rfl | rfl
  · exact hdigit _ (by omega)
  · exact hdigit _ (Nat.mod_lt _ (by omega))

/-- **A name with a short prefix is a DNS label.** A prefix of 48 characters leaves five for the
value. -/
theorem isDNSLabel_stableObjectName {start : Text} (h : start.length ≤ 48) (value : Text) :
    IsDNSLabel (stableObjectName toLower sha256 start value) := by
  have htopograph : IsLabelPart "topograph".toList := isLabelPart_of_all (by decide) (by decide)
  have hstart := isLabelPart_dnsLabelPart toLower start htopograph
  have hlen : (if dnsLabelPart toLower start = [] then "topograph".toList
      else dnsLabelPart toLower start).length ≤ 48 := by
    split_ifs
    · decide
    · exact (length_dnsLabelPart_le toLower start).trans h
  rw [stableObjectName]
  generalize (if dnsLabelPart toLower start = [] then "topograph".toList
    else dnsLabelPart toLower start) = p at hstart hlen
  obtain ⟨hhash, hhashLen⟩ := shortHash_spec sha256 value
  rw [hhashLen]
  obtain ⟨hvalue, hvalueLen⟩ :=
    valuePart_spec toLower value (show 5 ≤ max (63 - p.length - 8 - 2) 1 by omega)
  have hname := hstart.join (hvalue.join hhash)
  refine ⟨hname, hname.ne_nil, ?_⟩
  simp only [List.length_append, List.length_cons, hhashLen]
  omega

/-- **Every object name is a DNS label.** -/
theorem isDNSLabel_objectName {start : String} (h : start.toList.length ≤ 48) (value : String) :
    IsDNSLabel (objectName toLower sha256 start value).toList := by
  rw [objectName, String.toList_ofList]
  exact isDNSLabel_stableObjectName toLower sha256 h value.toList

end Parts

/-! ## The kinds of labels -/

theorem topologyKind_fabricTierKey {tier : Nat} (h : tier < 2 ^ 63) :
    topologyKind (fabricTierKey tier) = some
      (topologyTypeFabric ++ String.ofList (Nat.toDigits 10 tier)) := by
  have hne : ∀ key, key.toList.head? = some 'a' → fabricTierKey tier ≠ key := by
    rintro key hkey rfl
    rw [fabricTierKey, String.toList_append, List.head?_append_of_ne_nil _ (by decide)] at hkey
    exact absurd hkey (by decide)
  rw [topologyKind, if_neg (hne _ (by decide)), if_neg (hne _ (by decide)), cutPrefix_fabricTierKey,
    Option.bind_some, parseInt_toDigits h]
  rfl

/-- **The prefixes of object names are short**: a tier has at most 19 digits. -/
theorem length_kind_le {labelKey kind : String} (hkind : topologyKind labelKey = some kind)
    (hkey : labelKey = keyTopologyXclrDomain ∨ labelKey = keyTopologyXclrSubDomain ∨
      ∃ tier < 2 ^ 63, labelKey = fabricTierKey tier) :
    ("topograph-" ++ kind).toList.length ≤ 48 := by
  rcases hkey with rfl | rfl | ⟨tier, htier, rfl⟩
  · rw [← Option.some.inj (hkind : some topologyTypeAcceleratorDomain = some kind)]
    decide
  · rw [← Option.some.inj (hkind : some topologyTypeAcceleratorSubDomain = some kind)]
    decide
  · rw [topologyKind_fabricTierKey htier] at hkind
    have hdigits : digitCount tier ≤ 19 :=
      (digitCount_le_iff (by omega)).mpr (htier.trans (by decide))
    rw [← Option.some.inj hkind]
    simp only [String.toList_append, String.toList_ofList, List.length_append]
    show 10 + (12 + digitCount tier) ≤ 48
    omega

/-- **The names of NFD objects are DNS labels**, for the nodes and for every kind of an accelerator
key or a numbered fabric key, which all have a kind, whatever the value is. -/
theorem objectNames_isDNSLabel (toLower : Char → Char) (sha256 : Text → Vector UInt8 32)
    (value : Text) :
    IsDNSLabel (stableObjectName toLower sha256 "topograph-node".toList value) ∧
    ∀ labelKey, (labelKey = keyTopologyXclrDomain ∨ labelKey = keyTopologyXclrSubDomain ∨
      ∃ tier < 2 ^ 63, labelKey = fabricTierKey tier) → ∃ kind, topologyKind labelKey = some kind ∧
        IsDNSLabel (stableObjectName toLower sha256 ("topograph-" ++ kind).toList value) := by
  refine ⟨isDNSLabel_stableObjectName toLower sha256 (by decide) value, fun labelKey hkey => ?_⟩
  obtain ⟨kind, hkind⟩ : ∃ kind, topologyKind labelKey = some kind := by
    rcases hkey with rfl | rfl | ⟨tier, htier, rfl⟩
    · exact ⟨_, rfl⟩
    · exact ⟨_, rfl⟩
    · exact ⟨_, topologyKind_fabricTierKey htier⟩
  exact ⟨kind, hkind, isDNSLabel_stableObjectName toLower sha256 (length_kind_le hkind hkey) value⟩

/-- The largest tier, with a value that has to be cut. -/
theorem largestTier_isDNSLabel :
    ∃ kind, topologyKind (fabricTierKey (2 ^ 63 - 1)) = some kind ∧
      IsDNSLabel (stableObjectName Char.toLower (fun _ => Vector.replicate 32 0)
        ("topograph-" ++ kind).toList "Leaf/Switch.0123456789 (row 7)".toList) :=
  (objectNames_isDNSLabel Char.toLower (fun _ => Vector.replicate 32 0)
    "Leaf/Switch.0123456789 (row 7)".toList).2 _
    (Or.inr (Or.inr ⟨2 ^ 63 - 1, by decide, rfl⟩))

end Topograph.Nfd
