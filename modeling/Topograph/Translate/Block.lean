import Topograph.Translate.Complement
import Topograph.Translate.Units

/-! # Block topologies (`pkg/translate/block.go`, `formatBlockNames`)

`toBlockTopology` complements the blocks, names them, brings the block IDs of the nodes up to date
and writes one line for every block that has a name. It changes the node infos even when it fails
later, so it returns them beside its result. -/

namespace Topograph.Translate

open Topograph.Topology

variable {pkg : RegexpPackage} {ρ : Type}

/-! ## Block names -/

/-- `blockNameFormatter`. -/
structure BlockNameFormatter (pkg : RegexpPackage) where
  re : pkg.Regexp
  format : String

/-- `compileBlockNameFormatter`. Validation has compiled the expression, so the formatter has
one. -/
def compileBlockNameFormatter (config : Option (BlockNameConfig pkg)) :
    Option (BlockNameFormatter pkg) :=
  config.bind fun config => config.compiledRegexp.map fun re =>
    { re := re, format := config.format }

/-- `blockDescription`. -/
def blockDescription (id domain : String) : String :=
  "block " ++ goQuote id ++ (if domain = "" then "" else " (domain " ++ goQuote domain ++ ")")

/-- The loop of `formatBlockName` over the nodes; `blockName` is the name so far. -/
def formatNodes (f : BlockNameFormatter pkg) (description : String) (blockName : String) :
    List String → Except String String
  | [] => .ok blockName
  | node :: nodes =>
    match pkg.findStringSubmatchIndex f.re node with
    | none =>
      .error ("node " ++ goQuote node ++ " in " ++ description ++ " does not match nodeNameRegexp "
        ++ goQuote (pkg.string f.re))
    | some m =>
      let nodeBlockName := pkg.expandString f.re f.format node m
      if nodeBlockName = "" then
        .error ("blockName format " ++ goQuote f.format ++ " produces an empty name for node "
          ++ goQuote node ++ " in " ++ description)
      else if blockName = "" then formatNodes f description nodeBlockName nodes
      else if nodeBlockName ≠ blockName then
        .error ("nodes in " ++ description ++ " produce different block names " ++ goQuote blockName
          ++ " and " ++ goQuote nodeBlockName)
      else formatNodes f description blockName nodes

/-- `formatBlockName`: the default name without a formatter or nodes. -/
def formatBlockName (f : Option (BlockNameFormatter pkg)) (defaultName domainName : String)
    (nodes : List String) : Except String String :=
  match f with
  | none => .ok defaultName
  | some f =>
    if nodes = [] then .ok defaultName
    else formatNodes f (blockDescription defaultName domainName) "" nodes

/-- The variables of `formatBlockNames`: the kept blocks with their names, the dropped blocks, and
the block of each name. -/
structure FormattedBlocks where
  kept : List (BlockInfo × String)
  dropped : List BlockInfo
  seen : GoMap String String

/-- One turn of the loop of `formatBlockNames`. -/
def formatBlock (f : Option (BlockNameFormatter pkg)) (st : FormattedBlocks) (block : BlockInfo) :
    Except String FormattedBlocks :=
  match formatBlockName f block.id block.name block.nodes with
  | .error _ => .ok { st with dropped := st.dropped ++ [block] }
  | .ok name =>
    match st.seen.lookup name with
    | some previousBlock =>
      .error ("blocks " ++ goQuote previousBlock ++ " and " ++ goQuote block.id
        ++ " produce duplicate block name " ++ goQuote name)
    | none =>
      .ok { st with kept := st.kept ++ [(block, name)], seen := st.seen.insert name block.id }

/-- `formatBlockNames`. -/
def formatBlockNames (blocks : List BlockInfo) (f : Option (BlockNameFormatter pkg)) :
    Except String FormattedBlocks :=
  blocks.foldlM (formatBlock f) { kept := [], dropped := [], seen := ∅ }

/-! ## Block sizes -/

/-- `anyBlockHasNodes`. -/
def anyBlockHasNodes (blocks : List BlockInfo) : Bool := blocks.any fun b => b.nodes ≠ []

/-- `findMinDomainSize`. -/
def findMinDomainSize : List BlockInfo → Except String Nat
  | [] => .error "cannot determine blockSizes: topology contains no blocks"
  | block :: blocks =>
    .ok (blocks.foldl (fun minDomainSize b => min minDomainSize b.nodes.length) block.nodes.length)

/-- `getBlockSizes`: the requested sizes, or doublings of the smallest block up to the largest that
the number of blocks allows. The logarithm of a list length is exact. -/
def getBlockSizes (blocks : List BlockInfo) (requestedBlockSizes : List Nat) :
    Except String (List Nat) :=
  if requestedBlockSizes ≠ [] then .ok requestedBlockSizes
  else
    match findMinDomainSize blocks with
    | .error err => .error err
    | .ok minDomainSize =>
      .ok (minDomainSize :: (List.range (Nat.log2 blocks.length)).map fun i =>
        2 ^ (i + 1) * minDomainSize)

/-! ## The topology file -/

/-- A line of the file: the block with the list of its nodes, which is compacted when the line is
written (`text`). -/
structure BlockLine where
  comment : String
  blockName : String
  nodes : List String
  deriving DecidableEq, Repr

/-- What `toBlockTopology` writes. -/
structure BlockOutput where
  lines : List BlockLine
  blockSizes : List Nat

/-- The line of a block; a block without nodes is declared by name alone. -/
def blockLine (skeletonOnly : Bool) (bInfo : BlockInfo) : BlockLine where
  comment := if bInfo.name = "" then "" else "# " ++ bInfo.id ++ "=" ++ bInfo.name ++ "\n"
  blockName := bInfo.id
  nodes := if skeletonOnly then [] else bInfo.nodes

/-- The `Nodes` that a line declares. -/
def BlockLine.nodesText (srt : Cluset.NumberSort) (line : BlockLine) : String :=
  Cluset.hostList srt line.nodes

/-- The text of a line. -/
def BlockLine.text (srt : Cluset.NumberSort) (line : BlockLine) : String :=
  line.comment ++ "BlockName=" ++ line.blockName ++
    (if line.nodes = [] then "" else " Nodes=" ++ line.nodesText srt) ++ "\n"

/-- The text of the file. -/
def BlockOutput.text (srt : Cluset.NumberSort) (out : BlockOutput) : String :=
  String.join (out.lines.map (·.text srt)) ++
    "BlockSizes=" ++ String.intercalate "," (out.blockSizes.map toString) ++ "\n"

/-- The block ID of the known nodes of a block. -/
def assignBlockID (id : String) (info : GoMap String NodeInfo) (nodes : List String) :
    GoMap String NodeInfo :=
  nodes.foldl (updateNode fun nInfo => { nInfo with blockID := id }) info

/-- The message of `toBlockTopology` when nothing is left to write. -/
def allBlocksDropped : String :=
  "topology/block: all blocks were dropped due to blockName formatting failures " ++
    "(unmatched hostname, inconsistent derived name, or empty formatted name); " ++
    "check blockName.nodeNameRegexp and blockName.format against the node names"

/-- `toBlockTopology`: the node infos it leaves, and what it writes or the error. -/
def toBlockTopology (nt : NetworkTopology pkg ρ) (skeletonOnly : Bool) :
    GoMap String NodeInfo × Except HTTPError BlockOutput :=
  let (blocks, effectiveBlockSizes) := complementBlocks nt.domains nt.blocks nt.config.blockSizes
  match formatBlockNames blocks (compileBlockNameFormatter nt.config.blockName) with
  | .error err => (nt.nodeInfo, .error { code := 400, message := err })
  | .ok formatted =>
    -- The IDs of dropped blocks are cleared before those of kept blocks are set.
    let cleared := formatted.dropped.foldl (fun info b => assignBlockID "" info b.nodes) nt.nodeInfo
    if anyBlockHasNodes blocks ∧ ¬ anyBlockHasNodes (formatted.kept.map (·.1)) then
      (cleared, .error { code := 400, message := allBlocksDropped })
    else
      let info := formatted.kept.foldl (fun info b => assignBlockID b.2 info b.1.nodes) cleared
      let namedBlocks := formatted.kept.map fun b => { b.1 with id := b.2 }
      match getBlockSizes namedBlocks effectiveBlockSizes with
      | .error err => (info, .error { code := 400, message := err })
      | .ok blockSizes =>
        (info, .ok { lines := namedBlocks.map (blockLine skeletonOnly), blockSizes := blockSizes })

end Topograph.Translate
