import Dynarec.Guest.Instruction
import Dynarec.Guest.Register

/-!
# Which scalar registers an instruction reads and writes

The delay-slot analysis asks whether an instruction may change what a branch compares.  The answer
errs on the side of "yes": a register that is not listed as written keeps its value.
-/

namespace Dynarec

/-- **Scalar registers read and written by one instruction.** -/
structure Usage where
  reads : List GuestReg
  writes : List GuestReg
deriving DecidableEq, Repr

namespace Usage

/-- Everything is read and written. -/
def everything : Usage := ⟨GuestReg.all, GuestReg.all⟩

/-- The register may be read. -/
def readsReg (u : Usage) (r : GuestReg) : Bool := u.reads.contains r

/-- The register may change. -/
def writesReg (u : Usage) (r : GuestReg) : Bool := u.writes.contains r

/-- Given reads and writes, except that writes to the zero register have no effect. -/
def of (reads writes : List GuestReg) : Usage := ⟨reads, writes.filter fun r => !r.isZero⟩

end Usage

/-- **The usage of an instruction.**  Requests to the system, stops and unknown words count as
reading and writing everything. -/
def Instr.usage (i : Instr) : Usage :=
  let rs := GuestReg.gpr i.rs
  let rt := GuestReg.gpr i.rt
  let rd := GuestReg.gpr i.rd
  match i.family with
  | .shift =>
    match i.funct.toNat with
    | 0x04 | 0x06 | 0x07 => Usage.of [rs, rt] [rd]
    | _ => Usage.of [rt] [rd]
  | .arithmetic => Usage.of [rs, rt, rd] [rd]
  | .countLeading => Usage.of [rs] [rd]
  | .signExtend => Usage.of [rt] [rd]
  | .bitField => Usage.of [rs, rt] [rt]
  | .multiplyDivide =>
    match i.funct.toNat with
    | 0x10 => Usage.of [.hi] [rd]
    | 0x11 => Usage.of [rs] [.hi]
    | 0x12 => Usage.of [.lo] [rd]
    | 0x13 => Usage.of [rs] [.lo]
    | _ => Usage.of [rs, rt, .hi, .lo] [.hi, .lo]
  | .immediate => Usage.of [rs] [rt]
  | .memory => if i.major ≥ 0x28 then Usage.of [rs, rt] [] else Usage.of [rs] [rt]
  | .elementMemory | .quadMemory => Usage.of [rs] []
  | .vectorMove =>
    if i.rs == 3 then
      if i.moveSelector == 0x83 then Usage.of [.condition] [rt] else Usage.of [] [rt]
    else
      if i.moveSelector == 0x83 then Usage.of [rt] [.condition] else Usage.of [rt] []
  | .vectorCompare => Usage.of [.condition] [.condition]
  | .vectorModifier | .vectorBinary | .vectorUnary | .sync => Usage.of [] []
  | .branch => Usage.of [rs, rt] []
  | .branchSign => Usage.of [rs] (if i.bit 20 then [GuestReg.returnAddress] else [])
  | .jump => Usage.of [] (if i.major == 3 then [GuestReg.returnAddress] else [])
  | .jumpRegister => Usage.of [rs] (if i.funct == 9 then [rd] else [])
  | .vectorBranch => Usage.of [.condition] []
  | .syscall | .breakpoint | .unknown => Usage.everything

end Dynarec
