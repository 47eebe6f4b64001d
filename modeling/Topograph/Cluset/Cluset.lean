import Topograph.Lib.GoMap
import Topograph.Lib.GoString
import Mathlib.Algebra.Group.Int.Defs
import Mathlib.Algebra.GroupWithZero.Nat
import Mathlib.Data.List.SplitBy

/-! # Compact node lists (`internal/cluset/cluset.go`)

`compact` writes a list of node names as `prefix[ranges]` entries and `expand` reads such entries
back. A string is the list of its characters here (`Text`), since every function of the package
works character by character; `int` is an `Int` kept within 64 bits by `wrapInt`.

The loop of `expand` over a range ends with `i++` past the upper bound, which never happens when the
bound is the largest integer. The loop therefore carries `fuel` and returns `none` when it does not
end. `sort.Slice` promises an order but not what happens to equal elements, so `compact` takes the
sort as a parameter (`NumberSort`). -/

namespace Topograph.Cluset

open GoString (isSpace trimSpace)

/-- A string, as the list of its characters. -/
abbrev Text := List Char

/-! ## Integers and numerals -/

/-- The largest value of `int`. -/
def maxInt : Int := 2 ^ 63 - 1

/-- The smallest value of `int`. -/
def minInt : Int := -2 ^ 63

/-- Two's complement overflow of `int` arithmetic. -/
def wrapInt (n : Int) : Int := Int.bmod n (2 ^ 64)

/-- Whether a text is a non-empty run of decimal digits. -/
def isNumeral (s : Text) : Bool := !s.isEmpty && s.all Char.isDigit

/-- `atoi`: the value of a numeral with an optional sign, saturated to the range of `int`; zero when
the text is not a numeral (the error of `strconv.Atoi` is dropped). This follows the documentation
of `strconv.Atoi`. Its implementation notices an overflow before a later character that is no digit,
and gives the largest `int` for such a text. -/
def atoi : Text → Int
  | '-' :: s => if isNumeral s then max minInt (-(Nat.ofDigitChars 10 s 0 : Int)) else 0
  | '+' :: s => if isNumeral s then min maxInt (Nat.ofDigitChars 10 s 0 : Int) else 0
  | s => if isNumeral s then min maxInt (Nat.ofDigitChars 10 s 0 : Int) else 0

/-- The length of a string in bytes. -/
def byteLen (s : Text) : Nat := (s.map Char.utf8Size).sum

/-- The decimal digits of `n`, filled up with zeros on the left to `width` characters. -/
def zeroPad (width n : Nat) : Text :=
  List.replicate (width - (Nat.toDigits 10 n).length) '0' ++ Nat.toDigits 10 n

/-- The largest width `fmt` accepts. -/
def maxWidth : Nat := 1000000

/-- `fmt.Sprintf("%0*d", width, i)`: the width counts a minus sign, and a width above `maxWidth` is
reported in the output and ignored. -/
def sprintfPadded (width : Nat) (i : Int) : Text :=
  let bad : Text := if width ≤ maxWidth then [] else "%!(BADWIDTH)".toList
  let width := if width ≤ maxWidth then width else 0
  bad ++ if i < 0 then '-' :: zeroPad (width - 1) i.natAbs else zeroPad width i.natAbs

/-! ## Compacting -/

/-- `compactRegexp.FindStringSubmatch`, for `^(.*?)(0*\d+)$`: the prefix is as short as possible, so
the number is the longest run of digits at the end; the dot does not match a line break. -/
def compactMatch (node : Text) : Option (Text × Text) :=
  if node.rtakeWhile Char.isDigit = [] ∨ '\n' ∈ node.rdropWhile Char.isDigit then none
  else some (node.rdropWhile Char.isDigit, node.rtakeWhile Char.isDigit)

/-- One step of the grouping loop: a number joins the group of its prefix, a name without a number
starts a group of its own. -/
def groupNode (groups : GoMap Text (List Text)) (node : Text) : GoMap Text (List Text) :=
  match compactMatch node with
  | some (pre, num) => groups.insert pre ((groups.lookup pre).getD [] ++ [num])
  | none => groups.insert node []

/-- The groups of a node list. -/
def groupNodes (nodes : List Text) : GoMap Text (List Text) := nodes.foldl groupNode ∅

/-- `formatRange`: a range of one number is the number. -/
def formatRange (start stop : Text) : Text :=
  if start = stop then start else start ++ '-' :: stop

/-- The loop of `compressRange`: extend the current range while the numbers are consecutive. -/
def compressLoop (start stop : Text) : List Text → List Text
  | [] => [formatRange start stop]
  | n :: ns =>
    if atoi n = wrapInt (atoi stop + 1) then compressLoop start n ns
    else formatRange start stop :: compressLoop n n ns

/-- `compressRange`: nothing, a single number, or a bracketed list of ranges. -/
def compressRange : List Text → Text
  | [] => []
  | [n] => n
  | n :: ns => '[' :: List.intercalate [','] (compressLoop n n ns) ++ [']']

/-- An outcome of `sort.Slice` by number: a reordering in which the numbers do not decrease. Equal
numbers may come in any order. -/
structure NumberSort where
  sort : List Text → List Text
  perm : ∀ l, (sort l).Perm l
  sorted : ∀ l, (sort l).Pairwise fun a b => atoi a ≤ atoi b

/-- `Compact`: one entry per prefix, in the order of the prefixes. -/
def compact (srt : NumberSort) (nodes : List Text) : List Text :=
  ((groupNodes nodes).keys.insertionSort (· ≤ ·)).map fun pre =>
    pre ++ compressRange (srt.sort (((groupNodes nodes).lookup pre).getD []))

/-! ## Expanding -/

/-- `expandRegexp.FindStringSubmatch`, for `^(.*?)\[(.*?)\]$`: split at the first opening bracket;
the closing one is the last character. -/
def expandMatch (entry : Text) : Option (Text × Text) :=
  if '\n' ∈ entry then none
  else
    match entry.dropWhile (· ≠ '[') with
    | _ :: body =>
      if body.getLast? = some ']' then some (entry.takeWhile (· ≠ '['), body.dropLast) else none
    | [] => none

/-- The loop over one range, `for i := lo; i <= hi; i++`. -/
def expandRange (pre : Text) (width : Nat) (hi : Int) : Nat → Int → Option (List Text)
  | 0, _ => none
  | fuel + 1, i =>
    if i ≤ hi then
      (expandRange pre width hi fuel (wrapInt (i + 1))).map fun rest =>
        (pre ++ sprintfPadded width i) :: rest
    else some []

/-- One part of the bracketed list: a range or a single number. -/
def expandPart (fuel : Nat) (pre part : Text) : Option (List Text) :=
  if '-' ∈ part then
    let bounds := part.splitOn '-'
    expandRange pre (byteLen (bounds.getD 0 [])) (atoi (bounds.getD 1 [])) fuel
      (atoi (bounds.getD 0 []))
  else some [pre ++ part]

/-- One entry: a bracketed list behind a prefix, or a plain name. -/
def expandEntry (fuel : Nat) (entry : Text) : Option (List Text) :=
  match expandMatch entry with
  | some (pre, ranges) => ((ranges.splitOn ',').mapM (expandPart fuel pre)).map List.flatten
  | none => some [entry]

/-- `Expand`: the entries one after the other. -/
def expand (fuel : Nat) (compressed : List Text) : Option (List Text) :=
  (compressed.mapM (expandEntry fuel)).map List.flatten

/-- A finished part of the list, unless nothing but white space is left of it. -/
def keepPart (current : Text) (rest : List Text) : List Text :=
  if trimSpace current = [] then rest else trimSpace current :: rest

/-- The loop of `splitList`: a comma splits only outside brackets. -/
def splitLoop (depth : Nat) (current : Text) : Text → List Text
  | [] => keepPart current []
  | ch :: rest =>
    if ch = '[' then splitLoop (depth + 1) (current ++ [ch]) rest
    else if ch = ']' then splitLoop (depth - 1) (current ++ [ch]) rest
    else if ch = ',' ∧ depth = 0 then keepPart current (splitLoop depth [] rest)
    else splitLoop depth (current ++ [ch]) rest

/-- `splitList`: the entries of a comma separated list. -/
def splitList (list : Text) : List Text := splitLoop 0 [] list

/-- `ExpandList`: the names of a comma separated list of entries. -/
def expandList (fuel : Nat) (compressed : Text) : Option (List Text) :=
  expand fuel (splitList compressed)

/-- `strings.Join(Compact(nodes), ",")`, as the writers print a node list. -/
def compactList (srt : NumberSort) (nodes : List Text) : Text :=
  List.intercalate [','] (compact srt nodes)

end Topograph.Cluset
