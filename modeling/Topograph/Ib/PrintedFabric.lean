import Topograph.Ib.Parse

/-! # Reading back a printed fabric

A document is a list of records of switches and adapters, each with the blank lines behind it;
comment lines may stand anywhere in the text (`Printed`). The parser stores a switch at the blank
line behind its record, so a switch at the end of the text is lost. `parse_printed_iff` says when
all records are found. -/

namespace Topograph.Ib

open Topograph.Pattern Topograph.Pattern.Pat

/-! ## The format -/

/-- The first line of a record, and the lines before it that name its attributes, as in
`vendid=0x2c9`. -/
structure Header where
  attributes : List (List Char)
  keywordSpace : Run space
  ports : Run digit
  portsSpace : Run space
  id : Run unquoted
  idSpace : Run space
  description : List Char
  rest : List Char
  attribute_lower : ∀ line ∈ attributes, ∃ c text, line = c :: text ∧ 'a' ≤ c
  description_unquoted : ∀ c ∈ description, unquoted c = true

/-- The line of a record's header. -/
def Header.line (keyword : List Char) (h : Header) : List Char :=
  keyword ++ (h.keywordSpace.text ++
    (h.ports.text ++ (h.portsSpace.text ++ '"' :: (h.id.text ++ '"' :: (h.idSpace.text ++
    '#' :: ' ' :: '"' :: (h.description ++ '"' :: h.rest))))))

/-- A port of a switch that is connected; the far end has a GUID if it is an adapter. -/
structure Connection where
  port : Run digit
  portSpace : Run space
  id : Run unquoted
  remotePort : Run digit
  guid : Option (Run hexDigit)
  guidSpace : Run space
  description : List Char
  rest : List Char
  description_unquoted : ∀ c ∈ description, unquoted c = true

/-- The GUID of a port in parentheses, if it is printed. -/
def guidText : Option (Run hexDigit) → List Char
  | some guid => '(' :: (guid.text ++ [')'])
  | none => []

/-- The line of a connection. -/
def Connection.line (conn : Connection) : List Char :=
  '[' :: (conn.port.text ++
    ']' :: (conn.portSpace.text ++
    '"' :: (conn.id.text ++ '"' :: '[' :: (conn.remotePort.text ++ ']' ::
    (guidText conn.guid ++
      (conn.guidSpace.text ++ '#' :: ' ' :: '"' :: (conn.description ++ '"' :: conn.rest)))))))

/-- A record of a switch with its connections, or of an adapter with the lines of its ports. -/
inductive Record where
  | switch (header : Header) (connections : List Connection)
  | adapter (header : Header) (ports : List (List Char))
      (hports : ∀ line ∈ ports, ∃ text, line = '[' :: text)

def Record.header : Record → Header
  | switch header _ => header
  | adapter header _ _ => header

/-- The lines of a record. -/
def Record.lines : Record → List (List Char)
  | switch header connections =>
    header.attributes ++ header.line ['S', 'w', 'i', 't', 'c', 'h'] :: connections.map
      Connection.line
  | adapter header ports _ => header.attributes ++ header.line ['C', 'a'] :: ports

/-- Records with the blank lines behind each, of which there is at least one before another
record. -/
structure Document where
  leading : List (List Char)
  blocks : List (Record × List (List Char))
  leading_blank : ∀ line ∈ leading, ∀ c ∈ line, space c = true
  blank : ∀ b ∈ blocks, ∀ line ∈ b.2, ∀ c ∈ line, space c = true
  separated : ∀ b ∈ blocks.dropLast, b.2 ≠ []
  distinct : (blocks.map fun b => b.1.header.id.text).Nodup

/-- The lines of a document. -/
def Document.lines (doc : Document) : List (List Char) :=
  doc.leading ++ doc.blocks.flatMap fun b => b.1.lines ++ b.2

/-- The text of the lines, with or without a newline at its end. -/
def printLines (lines : List (List Char)) (newline : Bool) : List Char :=
  ['\n'].intercalate (if newline then lines ++ [[]] else lines)

/-- The text holds the lines of the document, with comment lines among them. -/
structure Printed (doc : Document) (lines : List (List Char)) (newline : Bool) : Prop where
  lines_eq : lines.filter (fun line => line.head? ≠ some '#') = doc.lines
  ends : ∀ line ∈ lines, '\n' ∉ line ∧ '\r' ∉ line
  last : newline = true ∨ lines.getLast? ≠ some []

/-! ## The scanner -/

variable {lines : List (List Char)} {doc : Document} {newline : Bool}

/-- Printed lines are read back. -/
theorem rawLines_printLines (h : Printed doc lines newline) :
    rawLines (printLines lines newline) = lines := by
  have hends : ∀ line ∈ lines, '\n' ∉ line := fun line hline => (h.ends line hline).1
  cases newline with
  | true =>
    have hsplit : (printLines lines true).splitOn '\n' = lines ++ [[]] := by
      refine List.splitOn_intercalate '\n' (fun line hline => ?_) (by simp)
      rcases List.mem_append.mp hline with hline | hline
      · exact hends line hline
      · rw [List.mem_singleton.mp hline]
        exact List.not_mem_nil
    rw [rawLines, hsplit]
    simp
  | false =>
    by_cases hnil : lines = []
    · subst hnil
      rfl
    · have hsplit : (printLines lines false).splitOn '\n' = lines :=
        List.splitOn_intercalate '\n' hends hnil
      rw [rawLines, hsplit, if_neg (by simpa using h.last)]

/-- Short lines are scanned as they were printed. -/
theorem scanLines_printLines (h : Printed doc lines newline)
    (hshort : ∀ line ∈ lines, (String.ofList line).utf8ByteSize < maxScanTokenSize) :
    scanLines (printLines lines newline) = .ok lines := by
  have hdrop : ∀ line ∈ lines, dropCR line = line := by
    intro line hline
    rw [dropCR, if_neg]
    exact fun hlast => (h.ends line hline).2 (List.mem_of_getLast? hlast)
  rw [scanLines, rawLines_printLines h, if_neg]
  · rw [List.map_congr_left hdrop, List.map_id']
  · rintro ⟨line, hline, hlong⟩
    exact absurd (hshort line hline) (not_lt_of_ge hlong)

/-! ## One line -/

variable {c : Char}

theorem space_of_digit (h : digit c = true) : space c = false := by
  by_contra hspace
  simp only [space, Bool.not_eq_false, decide_eq_true_eq] at hspace
  rcases hspace with rfl | rfl | rfl | rfl | rfl <;> exact absurd h (by decide)

theorem digit_of_space (h : space c = true) : digit c = false := by
  by_contra hdigit
  rw [space_of_digit (by simpa using hdigit)] at h
  exact absurd h (by simp)

variable {description : List Char}

/-- A quoted description, with the group that holds it. -/
theorem readings_description (h : ∀ c ∈ description, unquoted c = true) (rest : List Char) :
    readings [group (plus unquoted), lit ['"']] (description ++ '"' :: rest) =
      if description = [] then [] else [([description], rest)] := by
  split_ifs with hnil
  · subst hnil
    exact readings_group_of_stops (stops_cons.mpr rfl) _
  · rw [readings_group hnil h (stops_cons.mpr rfl) (rejects_lit _ _ rfl)]
    simp

/-- **The first line of a record** is matched if there is a description. -/
theorem submatch_header (keyword : List Char) (h : Header) :
    submatch (reRecord keyword) (h.line keyword) = if h.description = [] then none else some
      [h.id.text, h.description] := by
  rw [submatch, reRecord, Header.line, readings_lit_append,
    h.keywordSpace.readings_plus (h.ports.stops (fun _ => space_of_digit) _)
    (rejects_plus _ fun _ => digit_of_space),
    h.ports.readings_plus (h.portsSpace.stops (fun _ => digit_of_space) _) (rejects_plus _ fun _ =>
      space_of_digit),
    h.portsSpace.readings_plus (stops_cons.mpr rfl) (rejects_lit _ _ rfl), readings_lit_cons,
    readings_lit_nil,
    h.id.readings_group (stops_cons.mpr rfl) (rejects_lit _ _ rfl), readings_lit_cons,
    readings_lit_nil,
    h.idSpace.readings_plus (stops_cons.mpr rfl) (rejects_lit _ _ rfl), readings_lit_cons,
    readings_lit_cons, readings_lit_cons,
    readings_lit_nil, readings_description h.description_unquoted]
  split_ifs <;> rfl

/-- The GUID of the far end, if there is one. -/
theorem readings_guid (guid : Option (Run hexDigit)) {rs : List Pat} {text : List Char}
    (hrs : ∀ text, readings rs ('(' :: text) = []) (htext : Stops (fun c => c = '(') text) :
    readings (opt (group (cat [lit ['('], plus hexDigit, lit [')']])) :: rs)
      (guidText guid ++ text) = (readings rs text).map fun g => (guidText guid :: g.1, g.2) := by
  rw [readings_opt]
  cases guid with
  | none =>
    have hnone : readings [lit ['('], plus hexDigit, lit [')']] text = [] := by
      cases text with
      | nil => rfl
      | cons c text =>
        exact readings_lit_ne (fun heq => of_decide_eq_false (stops_cons.mp htext) heq.symm) _ _ _
    rw [guidText, List.nil_append, readings_group_cat_nil hnone, List.nil_append]
    rfl
  | some guid =>
    have hread : readings [lit ['('], plus hexDigit, lit [')']] ('(' :: (guid.text ++ [')']) ++
        text) = [([], text)] := by
      rw [List.cons_append, readings_lit_cons, readings_lit_nil, List.append_assoc,
        List.singleton_append,
        guid.readings_plus (stops_cons.mpr rfl) (rejects_lit _ _ rfl)]
      simp
    rw [guidText, readings_group_cat hread, List.cons_append, hrs, List.map_nil, List.append_nil]
    rfl

/-- **A connection** is matched if there is a description. -/
theorem readings_connection (conn : Connection) :
    readings reConn conn.line =
      if conn.description = [] then []
        else [([conn.id.text, guidText conn.guid, conn.description], conn.rest)] := by
  have hguid : ∀ rest, Stops (fun c => c = '(') (conn.guidSpace.text ++ rest) := by
    refine conn.guidSpace.stops fun c hc => decide_eq_false ?_
    rintro rfl
    exact absurd hc (by decide)
  rw [reConn, Connection.line, readings_lit_cons, readings_lit_nil,
    conn.port.readings_plus (stops_cons.mpr rfl) (rejects_lit _ _ rfl),
    readings_lit_cons, readings_lit_nil, conn.portSpace.readings_plus (stops_cons.mpr rfl)
    (rejects_lit _ _ rfl),
    readings_lit_cons, readings_lit_nil,
    conn.id.readings_group (stops_cons.mpr rfl) (rejects_lit _ _ rfl),
    readings_lit_cons, readings_lit_cons, readings_lit_nil,
    conn.remotePort.readings_plus (stops_cons.mpr rfl) (rejects_lit _ _ rfl), readings_lit_cons,
    readings_lit_nil,
    readings_guid _ (fun _ => readings_plus_of_stops (stops_cons.mpr rfl) _) (hguid _),
    conn.guidSpace.readings_plus (stops_cons.mpr rfl) (rejects_lit _ _ rfl), readings_lit_cons,
    readings_lit_cons,
    readings_lit_cons, readings_lit_nil, readings_description conn.description_unquoted]
  split_ifs <;> rfl

variable {line : List Char}

theorem submatch_reEmptyLine (h : ∀ c ∈ line, space c = true) :
    (submatch reEmptyLine line).isSome := by
  have hread := readings_star h (stops_nil space) (rejects_eos [] space)
  rw [List.append_nil] at hread
  rw [submatch, reEmptyLine, hread]
  simp

theorem submatch_reEmptyLine_cons (hc : space c = false) (text : List Char) :
    submatch reEmptyLine (c :: text) = none := by
  have hread := readings_star (l := []) (by simp) (stops_cons.mpr hc : Stops space (c :: text))
    (rejects_eos [] space)
  rw [List.nil_append, readings_eos_cons] at hread
  rw [submatch, reEmptyLine, hread]
  rfl

section Line

variable (st : ParseState)

theorem parseLine_comment (h : line.head? = some '#') : parseLine st line = st := if_pos h

/-- A blank line stores the entry. -/
theorem parseLine_blank (h : ∀ c ∈ line, space c = true) : parseLine st line = st.store := by
  have hhead : line.head? ≠ some '#' := by
    intro hhead
    exact absurd (h '#' (List.mem_of_mem_head? hhead)) (by decide)
  rw [parseLine, if_neg hhead, if_pos (submatch_reEmptyLine h)]

/-- A line that starts with another character is matched with the patterns of records and
connections. -/
theorem parseLine_cons (hc : c ≠ '#') (hspace : space c = false) (text : List Char) :
    parseLine st (c :: text) = parseEntry st (c :: text) := by
  rw [parseLine, if_neg (by simpa using hc), if_neg (by simp [submatch_reEmptyLine_cons hspace])]

/-- A line that starts otherwise is no header. -/
theorem submatch_reRecord_ne {c c' : Char} (h : c ≠ c') (keyword text : List Char) :
    submatch (reRecord (c :: keyword)) (c' :: text) = none := by
  rw [submatch, reRecord, readings_lit_ne h]
  rfl

theorem submatch_reConn_ne (h : '[' ≠ c) (text : List Char) :
    submatch reConn (c :: text) = none := by
  rw [submatch, reConn, readings_lit_ne h]
  rfl

/-- Attributes are skipped. -/
theorem parseLine_attribute (hc : 'a' ≤ c) (text : List Char) : parseLine st (c :: text) = st := by
  have hne : ∀ c', c' < 'a' → c' ≠ c := by
    rintro c' hlt rfl
    exact absurd hc (not_le_of_gt hlt)
  have hspace : space c = false := by
    by_contra hspace
    simp only [space, Bool.not_eq_false, decide_eq_true_eq] at hspace
    rcases hspace with rfl | rfl | rfl | rfl | rfl <;> exact absurd hc (by decide)
  rw [parseLine_cons st (hne '#' (by decide)).symm hspace, parseEntry, reHCA, reSwitch,
    submatch_reRecord_ne (hne 'C' (by decide)),
    submatch_reRecord_ne (hne 'S' (by decide)), submatch_reConn_ne (hne '[' (by decide))]

/-- The header of a switch opens an entry, if it has a description. -/
theorem parseLine_switch (h : Header) :
    parseLine st (h.line ['S', 'w', 'i', 't', 'c', 'h']) =
      if h.description = [] then st else st.openSwitch h.id.text h.description := by
  have hsub := submatch_header ['S', 'w', 'i', 't', 'c', 'h'] h
  have hline : h.line ['S', 'w', 'i', 't', 'c', 'h'] =
      'S' :: (h.line ['S', 'w', 'i', 't', 'c', 'h']).tail := rfl
  rw [hline] at hsub ⊢
  rw [parseLine_cons st (by decide) (by decide), parseEntry, reSwitch, hsub, reHCA,
    submatch_reRecord_ne (by decide), submatch_reConn_ne (by decide)]
  split_ifs <;> rfl

/-- A connection is added, if it has a description. -/
theorem parseLine_connection (conn : Connection) :
    parseLine st conn.line = if conn.description = [] then st
      else st.addConn conn.id.text conn.description := by
  have hsub : submatch reConn conn.line =
      if conn.description = [] then none else some [conn.id.text, guidText conn.guid,
        conn.description] := by
    rw [submatch, readings_connection]
    split_ifs <;> rfl
  have hline : conn.line = '[' :: conn.line.tail := rfl
  rw [hline] at hsub ⊢
  rw [parseLine_cons st (by decide) (by decide), parseEntry, hsub, reHCA, reSwitch,
    submatch_reRecord_ne (by decide),
    submatch_reRecord_ne (by decide)]
  split_ifs <;> rfl

/-- An adapter without a description has no node name. -/
theorem parseLine_adapter (h : Header) :
    parseLine st (h.line ['C', 'a']) = st.addHCA h.id.text h.description := by
  have hsub := submatch_header ['C', 'a'] h
  have hline : h.line ['C', 'a'] = 'C' :: (h.line ['C', 'a']).tail := rfl
  rw [hline] at hsub ⊢
  rw [parseLine_cons st (by decide) (by decide), parseEntry, reHCA, hsub, reSwitch,
    submatch_reRecord_ne (by decide), submatch_reConn_ne (by decide)]
  split_ifs with hnil
  · rw [hnil]
    rfl
  · rfl

/-- Ports of an adapter are not recorded. -/
theorem parseLine_port (hst : st.entry = none) (text : List Char) :
    parseLine st ('[' :: text) = st := by
  rw [parseLine_cons st (by decide) (by decide), parseEntry, reHCA, reSwitch,
    submatch_reRecord_ne (by decide), submatch_reRecord_ne (by decide)]
  obtain ⟨switches, hca, entry⟩ := st
  obtain rfl : entry = none := hst
  dsimp only
  split <;> rfl

end Line

/-! ## Records -/

/-- The connections of a switch that are read: those with a description, a later one of a peer in
place of an earlier one. -/
def readConnections (connections : List Connection) : GoMap String String :=
  (connections.filter (·.description ≠ [])).foldl
    (fun conn c => conn.insert (String.ofList c.id.text) (String.ofList c.description)) ∅

/-- The switch of a record, if it has a description. -/
def readSwitch (header : Header) (connections : List Connection) : Option Switch :=
  if header.description = [] then none
  else
    some { id := String.ofList header.id.text, name := extractSwitchName header.description,
           conn := readConnections connections, nodes := ∅ }

/-- The entry that is open behind a record. -/
def Record.entry : Record → Option Switch
  | switch header connections => readSwitch header connections
  | adapter _ _ _ => none

/-- The node name of an adapter. -/
def Record.nodeName : Record → Option String
  | switch _ _ => none
  | adapter header _ _ =>
    if extractNodeName header.description = "" then none
      else some (extractNodeName header.description)

/-- The key under which a record is stored. -/
def Record.key (r : Record) : String := String.ofList r.header.id.text

section Records

variable {st : ParseState}

theorem foldl_parseLine_of_forall (h : ∀ line ∈ lines, parseLine st line = st) :
    lines.foldl parseLine st = st := by
  induction lines with
  | nil => rfl
  | cons line lines ih =>
    obtain ⟨hline, hlines⟩ := List.forall_mem_cons.mp h
    rw [List.foldl_cons, hline, ih hlines]

theorem foldl_parseLine_attributes (header : Header) :
    header.attributes.foldl parseLine st = st := by
  refine foldl_parseLine_of_forall fun line hline => ?_
  obtain ⟨c, text, rfl, hc⟩ := header.attribute_lower line hline
  exact parseLine_attribute st hc text

/-- Connections go to the open switch. -/
theorem foldl_parseLine_connections (connections : List Connection) (sw : Switch) :
    (connections.map Connection.line).foldl parseLine { st with entry := some sw } =
      { st with
        entry := some { sw with
          conn := (connections.filter (·.description ≠ [])).foldl
            (fun conn c => conn.insert (String.ofList c.id.text) (String.ofList c.description))
            sw.conn } } := by
  induction connections generalizing sw with
  | nil => rfl
  | cons conn connections ih =>
    rw [List.map_cons, List.foldl_cons, parseLine_connection]
    by_cases hnil : conn.description = []
    · rw [if_pos hnil, ih, List.filter_cons_of_neg (by simpa using hnil)]
    · rw [if_neg hnil, List.filter_cons_of_pos (by simpa using hnil), List.foldl_cons]
      exact ih _

/-- **One record**, with no entry open before it. -/
theorem foldl_parseLine_record (hst : st.entry = none) (r : Record) :
    r.lines.foldl parseLine st =
      { switches := st.switches
        hca := r.nodeName.elim st.hca (st.hca.insert r.key)
        entry := r.entry } := by
  cases r with
  | switch header connections =>
    rw [Record.lines, List.foldl_append, foldl_parseLine_attributes, List.foldl_cons,
      parseLine_switch, Record.entry, readSwitch]
    by_cases hnil : header.description = []
    · rw [if_pos hnil, if_pos hnil, foldl_parseLine_of_forall, ← hst]
      · rfl
      · intro line hline
        obtain ⟨conn, -, rfl⟩ := List.mem_map.mp hline
        exact parseLine_port st hst _
    · rw [if_neg hnil, if_neg hnil]
      exact foldl_parseLine_connections connections _
  | adapter header ports hports =>
    have hports' : ∀ st' : ParseState, st'.entry = none → ports.foldl parseLine st' = st' := by
      intro st' hst'
      refine foldl_parseLine_of_forall fun line hline => ?_
      obtain ⟨text, rfl⟩ := hports line hline
      exact parseLine_port st' hst' text
    rw [Record.lines, List.foldl_append, foldl_parseLine_attributes, List.foldl_cons,
      parseLine_adapter, ParseState.addHCA,
      Record.nodeName, Record.entry, ← hst]
    by_cases hname : extractNodeName header.description = ""
    · rw [if_neg (by simpa using hname), if_pos hname, hports' st hst]
      rfl
    · rw [if_pos hname, if_neg hname]
      exact hports' _ hst

/-- Blank lines store the open entry, once. -/
theorem foldl_parseLine_blanks {blanks : List (List Char)}
    (h : ∀ line ∈ blanks, ∀ c ∈ line, space c = true) (st : ParseState) :
    blanks.foldl parseLine st = if blanks = [] then st else st.store := by
  induction blanks generalizing st with
  | nil => rfl
  | cons line blanks ih =>
    obtain ⟨hline, hblanks⟩ := List.forall_mem_cons.mp h
    have hstore : st.store.store = st.store := by
      obtain ⟨switches, hca, entry⟩ := st
      cases entry <;> rfl
    rw [List.foldl_cons, parseLine_blank st hline, ih hblanks, hstore,
      if_neg (List.cons_ne_nil _ _), ite_self]

/-- The switch that is stored behind a record. -/
def storedSwitch (b : Record × List (List Char)) : Option Switch :=
  if b.2 = [] then none else b.1.entry

/-- An entry is stored under its own ID. -/
theorem Record.id_of_entry {r : Record} {sw : Switch} (h : r.entry = some sw) : sw.id = r.key := by
  cases r with
  | switch header connections =>
    rw [Record.entry, readSwitch] at h
    split_ifs at h
    rw [← Option.some.inj h]
    rfl
  | adapter _ _ _ => exact absurd h (by simp [Record.entry])

/-- One record with the blank lines behind it. -/
theorem foldl_parseLine_block (hst : st.entry = none) {b : Record × List (List Char)}
    (hblank : ∀ line ∈ b.2, ∀ c ∈ line, space c = true) :
    (b.1.lines ++ b.2).foldl parseLine st =
      { switches := (storedSwitch b).elim st.switches (st.switches.insert b.1.key)
        hca := b.1.nodeName.elim st.hca (st.hca.insert b.1.key)
        entry := if b.2 = [] then b.1.entry else none } := by
  rw [List.foldl_append, foldl_parseLine_record hst, foldl_parseLine_blanks hblank, storedSwitch]
  split_ifs with hnil
  · rfl
  · cases hentry : b.1.entry with
    | none => rfl
    | some sw => simp [ParseState.store, Record.id_of_entry hentry]

/-- **All records**, by induction: no entry is open where a record starts. -/
theorem foldl_parseLine_blocks (hst : st.entry = none) {blocks : List (Record × List (List Char))}
    (hblank : ∀ b ∈ blocks, ∀ line ∈ b.2, ∀ c ∈ line, space c = true)
    (hsep : ∀ b ∈ blocks.dropLast, b.2 ≠ []) :
    ((blocks.flatMap fun b => b.1.lines ++ b.2).foldl parseLine st).switches =
        blocks.foldl (fun m b => (storedSwitch b).elim m (m.insert b.1.key)) st.switches ∧
      ((blocks.flatMap fun b => b.1.lines ++ b.2).foldl parseLine st).hca =
        blocks.foldl (fun m b => b.1.nodeName.elim m (m.insert b.1.key)) st.hca := by
  induction blocks generalizing st with
  | nil => exact ⟨rfl, rfl⟩
  | cons b blocks ih =>
    obtain ⟨hb, hblank⟩ := List.forall_mem_cons.mp hblank
    rw [List.flatMap_cons, List.foldl_append, foldl_parseLine_block hst hb, List.foldl_cons,
      List.foldl_cons]
    cases blocks with
    | nil => exact ⟨rfl, rfl⟩
    | cons b' blocks =>
      rw [List.dropLast_cons_cons] at hsep
      obtain ⟨hne, hsep⟩ := List.forall_mem_cons.mp hsep
      exact ih (by rw [if_neg hne]) hblank hsep

end Records

/-- Comments are skipped. -/
theorem foldl_parseLine_filter (lines : List (List Char)) (st : ParseState) :
    (lines.filter fun line => line.head? ≠ some '#').foldl parseLine st =
      lines.foldl parseLine st := by
  induction lines generalizing st with
  | nil => rfl
  | cons line lines ih =>
    by_cases h : line.head? = some '#'
    · rw [List.filter_cons_of_neg (by simpa using h), ih, List.foldl_cons, parseLine_comment st h]
    · rw [List.filter_cons_of_pos (by simpa using h), List.foldl_cons, List.foldl_cons, ih]

/-! ## What is found -/

/-- The description names a host and a device. -/
def HostDevice (description : List Char) (host : String) : Prop :=
  ∃ (name : Run nonSpace) (c : Char) (device : Run nonSpace), space c = true ∧
    description = name.text ++ c :: device.text ∧
    host = String.ofList name.text

/-- The name of a node is the first of two words. -/
theorem readings_reNodeName {name device : Run nonSpace} (hc : space c = true) :
    readings reNodeName (name.text ++ c :: device.text) = [([name.text], [])] := by
  have hdevice := device.readings_plus (stops_nil nonSpace) (rejects_eos [] nonSpace)
  rw [List.append_nil, readings_eos, readings_nil] at hdevice
  rw [reNodeName, name.readings_group (stops_cons.mpr (by simp [nonSpace, hc]))
    (rejects_one _ fun c hc => by simpa [nonSpace] using hc),
    readings_one, if_pos hc, hdevice]
  rfl

/-- **Node names** are read from descriptions of a host and a device. -/
theorem extractNodeName_eq_iff {host : String} (hne : host ≠ "") :
    extractNodeName description = host ↔ HostDevice description host := by
  constructor
  · intro h
    rw [extractNodeName] at h
    cases hread : readings reNodeName description with
    | nil =>
      rw [submatch, hread] at h
      exact absurd h.symm hne
    | cons g gs =>
      have hmem : g ∈ readings reNodeName description := by
        rw [hread]
        exact List.mem_cons_self
      obtain ⟨name, rest, g', rfl, hname, hall, hg', rfl⟩ := mem_readings_group hmem
      rw [submatch, hread] at h
      cases rest with
      | nil => exact absurd hg' (by simp [readings_cons])
      | cons c rest =>
        rw [readings_one] at hg'
        split_ifs at hg' with hc
        · obtain ⟨device, rest, rfl, hdevice, hall', hend⟩ := mem_readings_plus hg'
          cases rest with
          | nil =>
            rw [List.append_nil]
            exact ⟨⟨name, hname, hall⟩, c, ⟨device, hdevice, hall'⟩, hc, rfl, h.symm⟩
          | cons c' rest => exact absurd hend (by rw [readings_eos_cons]; exact List.not_mem_nil)
        · exact absurd hg' List.not_mem_nil
  · rintro ⟨name, c, device, hc, rfl, rfl⟩
    rw [extractNodeName, submatch, readings_reNodeName hc]
    rfl

/-- The description in the last line for a peer. -/
def lastDescription (connections : List Connection) (id : String) : Option (List Char) :=
  (connections.reverse.find? fun c => String.ofList c.id.text = id).map (·.description)

/-- Every record of a switch is found under its ID with its connections, every adapter of a host
under its ID, and nothing else. -/
structure Recovered (doc : Document) (switches : GoMap String Switch) (hca : GoMap String String) :
    Prop where
  switch : ∀ {header connections blanks}, (Record.switch header connections, blanks) ∈ doc.blocks →
    ∃ sw, switches.lookup (String.ofList header.id.text) = some sw ∧
    sw.id = String.ofList header.id.text ∧
      sw.name = extractSwitchName header.description ∧ sw.nodes = ∅ ∧
      ∀ id, sw.conn.lookup id = (lastDescription connections id).map String.ofList
  only : ∀ {id sw}, switches.lookup id = some sw →
    ∃ header connections blanks, (Record.switch header connections, blanks) ∈ doc.blocks ∧
    String.ofList header.id.text = id
  adapter : ∀ {id host}, hca.lookup id = some host ↔
    ∃ header ports hports blanks, (Record.adapter header ports hports, blanks) ∈ doc.blocks ∧
    String.ofList header.id.text = id ∧
      HostDevice header.description host

/-- Every switch has a description, and so has the last line for each of its peers. -/
def Document.Described (doc : Document) : Prop :=
  ∀ {header connections blanks}, (Record.switch header connections, blanks) ∈ doc.blocks →
    header.description ≠ [] ∧ ∀ id, lastDescription connections id ≠ some []

/-- The document does not end with the record of a switch. -/
def Document.Terminated (doc : Document) : Prop :=
  ∀ header connections, (Record.switch header connections, []) ∉ doc.blocks

/-- **The connections of a switch** are all read exactly if the last line for each peer has a
description. -/
theorem lookup_readConnections_iff (connections : List Connection) :
    (∀ id, (readConnections connections).lookup id = (lastDescription connections id).map
      String.ofList) ↔ ∀ id, lastDescription connections id ≠ some [] := by
  have hlook : ∀ id, (readConnections connections).lookup id =
      (connections.reverse.find? fun c => c.description ≠ [] ∧ String.ofList c.id.text = id).map
        fun c => String.ofList c.description := by
    intro id
    rw [readConnections, GoMap.lookup_foldl_insert_reverse, AList.lookup_empty, Option.or_none,
      ← List.filter_reverse,
      List.find?_filter]
    simp only [Bool.decide_and, Bool.decide_eq_true, ne_eq, decide_not]
  refine forall_congr' fun id => ?_
  rw [hlook, lastDescription]
  constructor
  · intro h hlast
    obtain ⟨c, hc, hnil⟩ := Option.map_eq_some_iff.mp hlast
    rw [hc, Option.map_some, Option.map_some, hnil] at h
    obtain ⟨c', hc', heq⟩ := Option.map_eq_some_iff.mp h
    have hdescribed : c'.description ≠ [] ∧ String.ofList c'.id.text = id := by
      simpa using List.find?_some hc'
    exact hdescribed.1 (String.ofList_injective heq)
  · intro hlast
    cases hc : connections.reverse.find? fun c => String.ofList c.id.text = id with
    | none =>
      rw [List.find?_eq_none.mpr]
      · rfl
      · intro c' hc' hboth
        exact List.find?_eq_none.mp hc c' hc' (decide_eq_true (of_decide_eq_true hboth).2)
    | some c =>
      -- The last line has a description, so it is the one that is read.
      obtain ⟨hid, before, after, hsplit, hbefore⟩ := List.find?_eq_some_iff_append.mp hc
      have hne : c.description ≠ [] := fun hnil => hlast (by rw [hc, Option.map_some, hnil])
      have hread : (connections.reverse.find? fun c => c.description ≠ [] ∧
          String.ofList c.id.text = id) = some c := by
        refine List.find?_eq_some_iff_append.mpr
          ⟨by simpa [hne] using hid, before, after, hsplit, fun c' hc' => ?_⟩
        have hother := hbefore c' hc'
        simp only [Bool.not_eq_true', decide_eq_false_iff_not] at hother ⊢
        exact fun hboth => hother hboth.2
      rw [hread]
      rfl

/-- The result of a printed text with short lines. -/
theorem parse_printed (h : Printed doc lines newline)
    (hshort : ∀ line ∈ lines, (String.ofList line).utf8ByteSize < maxScanTokenSize) :
    parseIbnetdiscoverFile (printLines lines newline) =
      .ok (doc.blocks.foldl (fun m b => (storedSwitch b).elim m (m.insert b.1.key)) ∅,
        doc.blocks.foldl (fun m b => b.1.nodeName.elim m (m.insert b.1.key)) ∅) := by
  have hleading : doc.leading.foldl parseLine { switches := ∅, hca := ∅, entry := none } =
      { switches := ∅, hca := ∅, entry := none } :=
    foldl_parseLine_of_forall fun line hline => parseLine_blank _ (doc.leading_blank line hline)
  have hrun := foldl_parseLine_filter lines { switches := ∅, hca := ∅, entry := none }
  rw [h.lines_eq, Document.lines, List.foldl_append, hleading] at hrun
  have hidle : ({ switches := ∅, hca := ∅, entry := none } : ParseState).entry = none := rfl
  obtain ⟨hswitches, hhca⟩ := foldl_parseLine_blocks hidle doc.blank doc.separated
  rw [parseIbnetdiscoverFile, scanLines_printLines h hshort]
  simp only [Except.map, ← hrun, hswitches, hhca]

/-- The records of a document have different keys. -/
theorem Document.nodup_keys (doc : Document) : (doc.blocks.map fun b => b.1.key).Nodup := by
  have hkeys : (doc.blocks.map fun b => b.1.key) = (doc.blocks.map fun b => b.1.header.id.text).map
      String.ofList := by
    rw [List.map_map]
    rfl
  rw [hkeys]
  exact doc.distinct.map fun _ _ => String.ofList_injective

/-- **Adapters are all found.** -/
theorem lookup_adapters (doc : Document) {id host : String} :
    (doc.blocks.foldl (fun m b => b.1.nodeName.elim m (m.insert b.1.key))
      (∅ : GoMap String String)).lookup id = some host ↔
      ∃ header ports hports blanks, (Record.adapter header ports hports, blanks) ∈ doc.blocks ∧
      String.ofList header.id.text = id ∧
        HostDevice header.description host := by
  rw [GoMap.lookup_foldl_insert_empty (fun b : Record × List (List Char) => b.1.nodeName)
    doc.nodup_keys]
  constructor
  · rintro ⟨⟨r, blanks⟩, hmem, hkey, hname⟩
    cases r with
    | switch => exact absurd hname (by simp [Record.nodeName])
    | adapter header ports hports =>
      rw [Record.nodeName] at hname
      split_ifs at hname with hne
      obtain rfl := Option.some.inj hname
      exact ⟨header, ports, hports, blanks, hmem, hkey, (extractNodeName_eq_iff hne).mp rfl⟩
  · rintro ⟨header, ports, hports, blanks, hmem, hkey, hhost⟩
    have hne : host ≠ "" := by
      obtain ⟨name, -, -, -, -, rfl⟩ := hhost
      exact fun heq => name.ne_nil (String.ofList_injective heq)
    have hextract := (extractNodeName_eq_iff hne).mpr hhost
    refine ⟨_, hmem, hkey, ?_⟩
    rw [Record.nodeName, hextract, if_neg hne]

/-- What is stored under the ID of a switch. -/
theorem lookup_switches (doc : Document) {header : Header} {connections : List Connection}
    {blanks : List (List Char)} (h : (Record.switch header connections, blanks) ∈ doc.blocks)
    (sw : Switch) :
    (doc.blocks.foldl (fun m b => (storedSwitch b).elim m (m.insert b.1.key))
      (∅ : GoMap String Switch)).lookup
        (String.ofList header.id.text) = some sw ↔ blanks ≠ [] ∧
        readSwitch header connections = some sw := by
  rw [GoMap.lookup_foldl_insert_empty storedSwitch doc.nodup_keys]
  constructor
  · rintro ⟨b, hmem, hkey, hstored⟩
    obtain rfl := List.inj_on_of_nodup_map doc.nodup_keys hmem h hkey
    rw [storedSwitch] at hstored
    split_ifs at hstored with hblanks
    exact ⟨hblanks, hstored⟩
  · rintro ⟨hblanks, hread⟩
    refine ⟨_, h, rfl, ?_⟩
    rw [storedSwitch, if_neg hblanks]
    exact hread

/-! ## Main result -/

/-- **Parsing inverts printing exactly if no switch is the last record without a blank line behind
it**, every line fits the buffer of the scanner, and switches and their peers have descriptions. -/
theorem parse_printed_iff {doc : Document} {lines : List (List Char)} {newline : Bool}
    (h : Printed doc lines newline) :
    (∃ switches hca, parseIbnetdiscoverFile (printLines lines newline) = .ok (switches, hca) ∧
      Recovered doc switches hca) ↔
      (∀ line ∈ lines, (String.ofList line).utf8ByteSize < maxScanTokenSize) ∧ doc.Described ∧
      doc.Terminated := by
  by_cases hshort : ∀ line ∈ lines, (String.ofList line).utf8ByteSize < maxScanTokenSize
  · rw [parse_printed h hshort]
    constructor
    · rintro ⟨switches, hca, heq, hrec⟩
      obtain ⟨rfl, rfl⟩ := Prod.mk.inj (Except.ok.inj heq)
      refine ⟨hshort, fun {header connections blanks} hmem => ?_, fun header connections hmem => ?_⟩
      · obtain ⟨sw, hlook, -, -, -, hconn⟩ := hrec.switch hmem
        obtain ⟨-, hread⟩ := (lookup_switches doc hmem sw).mp hlook
        rw [readSwitch] at hread
        split_ifs at hread with hnil
        obtain rfl := Option.some.inj hread
        exact ⟨hnil, (lookup_readConnections_iff connections).mp hconn⟩
      · obtain ⟨sw, hlook, -⟩ := hrec.switch hmem
        exact ((lookup_switches doc hmem sw).mp hlook).1 rfl
    · rintro ⟨-, hdescribed, hterminated⟩
      refine ⟨_, _, rfl, fun {header connections blanks} hmem => ?_, fun {id sw} hlook => ?_,
        lookup_adapters doc⟩
      · obtain ⟨hnil, hlast⟩ := hdescribed hmem
        have hblanks : blanks ≠ [] := by
          rintro rfl
          exact hterminated header connections hmem
        refine ⟨_, (lookup_switches doc hmem _).mpr ⟨hblanks, by rw [readSwitch, if_neg hnil]⟩,
          rfl, rfl, rfl, ?_⟩
        exact (lookup_readConnections_iff connections).mpr hlast
      · rw [GoMap.lookup_foldl_insert_empty storedSwitch doc.nodup_keys] at hlook
        obtain ⟨⟨r, blanks⟩, hmem, hkey, hstored⟩ := hlook
        cases r with
        | switch header connections => exact ⟨header, connections, blanks, hmem, hkey⟩
        | adapter => exact absurd hstored (by simp [storedSwitch, Record.entry])
  · constructor
    · rintro ⟨switches, hca, heq, -⟩
      rw [parseIbnetdiscoverFile, scanLines, rawLines_printLines h, if_pos (by simpa using hshort)]
        at heq
      exact absurd heq (by simp [Except.map])
    · exact fun hall => absurd hall.1 hshort

/-- A switch with one connection, and the blank lines behind it. -/
def spineDocument (blanks : List (List Char))
    (hblanks : ∀ line ∈ blanks, ∀ c ∈ line, space c = true) : Document where
  leading := []
  blocks :=
    [(.switch
      { attributes := []
        keywordSpace := ⟨['\t'], by decide, List.all_eq_true.mp rfl⟩
        ports := ⟨['4', '1'], by decide, List.all_eq_true.mp rfl⟩
        portsSpace := ⟨[' '], by decide, List.all_eq_true.mp rfl⟩
        id := ⟨['S', '-', '1'], by decide, List.all_eq_true.mp rfl⟩
        idSpace := ⟨['\t', '\t'], by decide, List.all_eq_true.mp rfl⟩
        description := ['s', 'p', 'i', 'n', 'e']
        rest := []
        attribute_lower := by simp
        description_unquoted := List.all_eq_true.mp rfl }
      [{ port := ⟨['1'], by decide, List.all_eq_true.mp rfl⟩
         portSpace := ⟨['\t'], by decide, List.all_eq_true.mp rfl⟩
         id := ⟨['S', '-', '2'], by decide, List.all_eq_true.mp rfl⟩
         remotePort := ⟨['2', '3'], by decide, List.all_eq_true.mp rfl⟩
         guid := none
         guidSpace := ⟨['\t', '\t'], by decide, List.all_eq_true.mp rfl⟩
         description := ['l', 'e', 'a', 'f']
         rest := []
         description_unquoted := List.all_eq_true.mp rfl }], blanks)]
  leading_blank := by simp
  blank := by simpa using hblanks
  separated := by simp
  distinct := by simp

/-- A document with one switch. -/
def spineLines : List (List Char) :=
  ["Switch\t41 \"S-1\"\t\t# \"spine\"".toList, "[1]\t\"S-2\"[23]\t\t# \"leaf\"".toList]

/-- With a blank line behind it the switch is found. -/
theorem spine_recovered :
    Printed (spineDocument [[]] (by simp)) (spineLines ++ [[]]) true ∧
      ∃ switches hca, parseIbnetdiscoverFile (printLines (spineLines ++ [[]]) true) = .ok
        (switches, hca) ∧ Recovered (spineDocument [[]] (by simp)) switches hca := by
  have hprinted : Printed (spineDocument [[]] (by simp)) (spineLines ++ [[]]) true :=
  ⟨rfl, by decide, Or.inl rfl⟩
  refine ⟨hprinted, (parse_printed_iff hprinted).mpr
    ⟨by decide, fun hmem => ?_, fun header connections hmem => ?_⟩⟩
  · obtain ⟨hrecord, -⟩ := Prod.mk.inj (List.mem_singleton.mp hmem)
    obtain ⟨rfl, rfl⟩ := Record.switch.inj hrecord
    refine ⟨by decide, fun id hlast => ?_⟩
    obtain ⟨c, hc, hnil⟩ := Option.map_eq_some_iff.mp hlast
    obtain rfl := List.mem_singleton.mp (List.mem_of_find?_eq_some hc)
    exact absurd hnil (by decide)
  · exact absurd (Prod.mk.inj (List.mem_singleton.mp hmem)).2 (by decide)

/-- At the end of the text the switch is lost. -/
theorem spine_lost :
    Printed (spineDocument [] (by simp)) spineLines true ∧
      ¬ ∃ switches hca, parseIbnetdiscoverFile (printLines spineLines true) = .ok (switches, hca) ∧
        Recovered (spineDocument [] (by simp)) switches hca := by
  have hprinted : Printed (spineDocument [] (by simp)) spineLines true :=
    ⟨rfl, by decide, Or.inl rfl⟩
  refine ⟨hprinted, ?_⟩
  rintro ⟨switches, hca, heq, hrec⟩
  rw [parse_printed hprinted (by decide)] at heq
  obtain ⟨rfl, rfl⟩ := Prod.mk.inj (Except.ok.inj heq)
  obtain ⟨sw, hlook, -⟩ := hrec.switch (List.mem_singleton_self _)
  exact absurd hlook (by simp [spineDocument, storedSwitch])

end Topograph.Ib
