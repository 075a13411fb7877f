import Dynarec.Numerals

/-!
# Options of the recompiler
-/

namespace Dynarec

/-- **Options**, fixed for the lifetime of a recompiler. -/
structure Options where
  /-- Turn block exits into jumps to compiled successors. -/
  linkBlocks : Bool := true
  /-- Keep the downcount in a host register while native code runs. -/
  downcountInRegister : Bool := true
  /-- Most guest instructions in a block, not counting a last delay slot. -/
  maxBlockInstructions : UInt32 := 128
  /-- Size of the code space in bytes. -/
  codeSpaceSize : Nat := 4 * 1024 * 1024
  /-- Most blocks that are stored before the cache is flushed. -/
  maxBlocks : Nat := 16 * 1024
  /-- Let blocks assume, under a guard, that no modifier is pending at their entry. -/
  assumeDefaultModifiers : Bool := true
deriving DecidableEq, Repr, Inhabited

end Dynarec
