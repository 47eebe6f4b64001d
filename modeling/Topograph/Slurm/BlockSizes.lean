import Mathlib.Data.Nat.Bitwise
import Mathlib.Data.List.Basic

/-! # Block size lists (`pkg/engines/slurm/slurm.go`)

`validateBlockSizes` accepts a list whose entries grow by powers of two from a positive first entry.
The bounds on its length and values keep the block tree small. -/

namespace Topograph.Slurm

/-- The largest number of entries of a block size list. -/
def maxBlockSizesLen : Nat := 20

/-- The largest block size. -/
def maxBlockSizeValue : Int := 65536

/-- The checks on the entries behind the first one: `prev` is the entry before index `i`. -/
def validateFrom (i : Nat) (prev : Int) : List Int → Except String Unit
  | [] => .ok ()
  | cur :: rest =>
    if cur ≤ 0 then
      .error s!"blockSizes[{i}]={cur} must be positive"
    else if maxBlockSizeValue < cur then
      .error s!"blockSizes[{i}]={cur} exceeds maximum allowed value {maxBlockSizeValue}"
    else if cur ≤ prev then
      .error s!"blockSizes[{i}]={cur} must be greater than blockSizes[{i - 1}]={prev}"
    else if cur % prev ≠ 0 then
      .error s!"blockSizes[{i}]={cur} must be a multiple of blockSizes[{i - 1}]={prev}"
    else if (cur / prev).toNat &&& ((cur / prev).toNat - 1) ≠ 0 then
      .error s!"blockSizes[{i}]={cur} must be a power-of-two multiple of blockSizes[{i - 1}]={prev}"
    else validateFrom (i + 1) cur rest

/-- `validateBlockSizes`. -/
def validateBlockSizes (blockSizes : List Int) : Except String Unit :=
  match blockSizes with
  | [] => .ok ()
  | first :: rest =>
    if maxBlockSizesLen < blockSizes.length then
      .error
        s!"blockSizes has too many entries ({blockSizes.length}); max allowed is {maxBlockSizesLen}"
    else if first ≤ 0 then
      .error s!"blockSizes[0]={first} must be positive"
    else if maxBlockSizeValue < first then
      .error s!"blockSizes[0]={first} exceeds maximum allowed value {maxBlockSizeValue}"
    else validateFrom 1 first rest

end Topograph.Slurm
