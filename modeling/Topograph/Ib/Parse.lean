import Topograph.Lib.Pattern
import Topograph.Ib.BuildTree

/-! # The ibnetdiscover parser (`pkg/ib/ib.go`)

`ParseIbnetdiscoverFile` reads the output of `ibnetdiscover` line by line. A line of a switch opens
an entry, lines of its ports add connections to it, and a blank line stores it. Text is a list of
characters; the regular expressions of the source start with `^`. -/

namespace Topograph.Ib

open Topograph.Pattern Topograph.Pattern.Pat

/-! ## The scanner -/

/-- `bufio.MaxScanTokenSize`. -/
def maxScanTokenSize : Nat := 64 * 1024

/-- The lines of a text, without their ends; there is no line behind the last newline. -/
def rawLines (data : List Char) : List (List Char) :=
  if (data.splitOn '\n').getLast? = some [] then (data.splitOn '\n').dropLast else data.splitOn '\n'

/-- `dropCR`. -/
def dropCR (line : List Char) : List Char :=
  if line.getLast? = some '\r' then line.dropLast else line

/-- What `bufio.Scanner` scans; its buffer has to hold a line and its end. -/
def scanLines (data : List Char) : Except String (List (List Char)) :=
  if ∃ line ∈ rawLines data, maxScanTokenSize ≤ (String.ofList line).utf8ByteSize then
    .error "bufio.Scanner: token too long"
  else .ok ((rawLines data).map dropCR)

/-! ## The line patterns -/

/-- The class `\s`. -/
def space (c : Char) : Bool := c = ' ' ∨ c = '\t' ∨ c = '\n' ∨ c = '\x0c' ∨ c = '\r'

/-- The class `\S`. -/
def nonSpace (c : Char) : Bool := !space c

/-- The class `\d`. -/
def digit (c : Char) : Bool := '0' ≤ c ∧ c ≤ '9'

/-- The class `[0-9a-f]`. -/
def hexDigit (c : Char) : Bool := digit c ∨ ('a' ≤ c ∧ c ≤ 'f')

/-- The class `[^"]`. -/
def unquoted (c : Char) : Bool := c ≠ '"'

/-- The class `[^;:]`. -/
def nameChar (c : Char) : Bool := c ≠ ';' ∧ c ≠ ':'

/-- A line without text. -/
def reEmptyLine : List Pat := [star space, eos]

/-- The first line of a record, with its keyword. -/
def reRecord (keyword : List Char) : List Pat :=
  [lit keyword, plus space, plus digit, plus space, lit ['"'], group (plus unquoted), lit ['"'],
    plus space, lit ['#', ' ', '"'],
    group (plus unquoted), lit ['"']]

/-- The header of an adapter. -/
def reHCA : List Pat := reRecord ['C', 'a']

/-- The header of a switch. -/
def reSwitch : List Pat := reRecord ['S', 'w', 'i', 't', 'c', 'h']

/-- A connection: port, peer, port of the peer and its description. -/
def reConn : List Pat :=
  [lit ['['], plus digit, lit [']'], plus space, lit ['"'], group (plus unquoted), lit ['"', '['],
    plus digit, lit [']'],
    opt (group (cat [lit ['('], plus hexDigit, lit [')']])), plus space, lit ['#', ' ', '"'],
    group (plus unquoted), lit ['"']]

/-- The name in the description of a switch. -/
def reSwitchName : List Pat :=
  [plus nameChar, lit [';'], group (plus nameChar), lit [':'], plus nameChar, eos]

/-- The name in the description of an adapter. -/
def reNodeName : List Pat := [group (plus nonSpace), one space, plus nonSpace, eos]

/-- `extractSwitchName`. -/
def extractSwitchName (name : List Char) : String :=
  match submatch reSwitchName name with
  | some (m :: _) => String.ofList m
  | _ => if name.any fun c => c == ' ' || c == ';' || c == ':' then "" else String.ofList name

/-- `extractNodeName`. -/
def extractNodeName (name : List Char) : String :=
  match submatch reNodeName name with
  | some (m :: _) => String.ofList m
  | _ => ""

/-! ## The loop -/

/-- The maps to be returned, and the switch whose record is open. -/
structure ParseState where
  switches : GoMap String Switch
  hca : GoMap String String
  entry : Option Switch

/-- A blank line stores the open switch. -/
def ParseState.store (st : ParseState) : ParseState :=
  match st.entry with
  | some entry => { st with switches := st.switches.insert entry.id entry, entry := none }
  | none => st

/-- An adapter with a node name. -/
def ParseState.addHCA (st : ParseState) (id description : List Char) : ParseState :=
  if extractNodeName description ≠ "" then
    { st with hca := st.hca.insert (String.ofList id) (extractNodeName description) }
  else st

/-- A switch becomes the open entry. -/
def ParseState.openSwitch (st : ParseState) (id description : List Char) : ParseState :=
  { st with
    entry := some { id := String.ofList id, name := extractSwitchName description, conn := ∅,
                    nodes := ∅ } }

/-- A connection of the open switch. -/
def ParseState.addConn (st : ParseState) (id destName : List Char) : ParseState :=
  { st with
    entry := st.entry.map fun entry =>
      { entry with conn := entry.conn.insert (String.ofList id) (String.ofList destName) } }

/-- A line that is neither a comment nor blank: an adapter, a switch, a connection, or none of
them. -/
def parseEntry (st : ParseState) (line : List Char) : ParseState :=
  match submatch reHCA line with
  | some (id :: description :: _) => st.addHCA id description
  | _ =>
    match submatch reSwitch line with
    | some (id :: description :: _) => st.openSwitch id description
    | _ =>
      match submatch reConn line with
      | some (id :: _ :: destName :: _) => st.addConn id destName
      | _ => st

/-- One line. -/
def parseLine (st : ParseState) (line : List Char) : ParseState :=
  if line.head? = some '#' then st
  else if (submatch reEmptyLine line).isSome then st.store
  else parseEntry st line

/-- `ParseIbnetdiscoverFile`: the switches, and the node names of the adapters. -/
def parseIbnetdiscoverFile (data : List Char) :
    Except String (GoMap String Switch × GoMap String String) :=
  (scanLines data).map fun lines =>
    ((lines.foldl parseLine { switches := ∅, hca := ∅, entry := none }).switches,
      (lines.foldl parseLine { switches := ∅, hca := ∅, entry := none }).hca)

end Topograph.Ib
