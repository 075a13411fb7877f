import Dynarec.Numerals

/-!
# Scalar registers of the guest

The register cache and the delay-slot analysis treat the general registers, the two halves of the
multiply result and the condition word of the vector unit alike: 35 registers with one index each.
-/

namespace Dynarec

/-- A scalar register that native code can hold in a host register. -/
inductive GuestReg where
  /-- General register `n`; register zero reads as zero. -/
  | gpr (n : Fin 32)
  /-- Upper half of a product, or remainder. -/
  | hi
  /-- Lower half of a product, or quotient. -/
  | lo
  /-- Condition word of the vector unit. -/
  | condition
deriving DecidableEq, Repr, Inhabited

namespace GuestReg

/-- Number of scalar registers. -/
def count : Nat := 35

/-- The index of a register, general registers first. -/
def index : GuestReg → Nat
  | gpr n => n.val
  | hi => 32
  | lo => 33
  | condition => 34

/-- The register with a given index. -/
def ofIndex? (index : Nat) : Option GuestReg :=
  if h : index < 32 then some (gpr ⟨index, h⟩)
  else match index with
    | 32 => some hi
    | 33 => some lo
    | 34 => some condition
    | _ => none

/-- The register that is always zero. -/
def isZero : GuestReg → Bool
  | gpr n => n == 0
  | _ => false

/-- Return address register. -/
def returnAddress : GuestReg := gpr 31

/-- Every register, by index. -/
def all : List GuestReg := (List.finRange 32).map gpr ++ [hi, lo, condition]

/-- Names of the general registers under the usual calling convention. -/
def gprNames : List String :=
  ["zero", "at", "v0", "v1", "a0", "a1", "a2", "a3", "t0", "t1", "t2", "t3", "t4", "t5", "t6",
   "t7", "s0", "s1", "s2", "s3", "s4", "s5", "s6", "s7", "t8", "t9", "k0", "k1", "gp", "sp",
   "fp", "ra"]

/-- The name of a register in messages. -/
def name : GuestReg → String
  | gpr n => gprNames.getD n.val ""
  | hi => "hi"
  | lo => "lo"
  | condition => "vfpu_cc"

end GuestReg

end Dynarec
