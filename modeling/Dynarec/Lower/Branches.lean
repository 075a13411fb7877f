import Dynarec.Lower.VectorUnit

/-!
# Lowering of the end of a block

A block ends with a branch and its delay slot, with a request to the system, or with a breakpoint.
A condition is compared after the delay slot when the slot cannot change what it reads; otherwise it
is compared first and the compared words are kept across the slot.  A likely branch runs its slot on
the taken path only.  A branch whose slot holds another terminator is left to the interpreter.
-/

namespace Dynarec

namespace Instr

/-- A branch that skips its delay slot when it is not taken. -/
def isLikely (i : Instr) : Bool :=
  match i.family with
  | .branch => i.major ≥ 0x14
  | .branchSign | .vectorBranch => i.bit 17
  | _ => false

/-- A conditional branch that writes the return address. -/
def linksOnCondition (i : Instr) : Bool :=
  match i.family with
  | .branchSign => i.bit 20
  | _ => false

/-- The scalar registers that the condition of a branch reads. -/
def conditionReads (i : Instr) : List GuestReg :=
  match i.family with
  | .branch =>
    if i.major &&& 2 == 0 then [.gpr i.rs, .gpr i.rt] else [.gpr i.rs]
  | .branchSign => [.gpr i.rs]
  | _ => [.condition]

/-- A branch on equality of a register with itself. -/
def isAlwaysTaken (i : Instr) : Bool :=
  i.family = .branch && i.major &&& 3 == 0 && i.rs = i.rt

end Instr

/-- What is done around a delay slot. -/
inductive SlotPolicy where
  /-- Nothing. -/
  | plain
  /-- Everything is written back after it. -/
  | flushed
  /-- The compared words survive it, and everything is written back after it. -/
  | guarded
deriving DecidableEq, Repr, Inhabited

namespace Lowering

/-- The block ends in front of `stop`. -/
def finish (stop : UInt32) : Lowering Unit := moveTo stop

/-- **Close the block** with an exit to `pc`, the first instruction that is not in it. -/
def endBlock (pc : UInt32) : Lowering Unit := do
  flushAll
  exitHere pc
  finish pc

/-! ### Delay slots -/

/-- The delay slot of a branch at `pc`, unless it ends a block itself. -/
def delaySlot? (memory : Memory) (pc : UInt32) : Option Instr :=
  match memory.fetch? (pc + 4) with
  | some word => if (Instr.mk word).family.isTerminator then none else some ⟨word⟩
  | none => none

/-- Lower the delay slot of a branch at `pc`. -/
def delaySlot (slot : Instr) (pc : UInt32) (policy : SlotPolicy) : Lowering Unit := do
  charge
  if policy = .guarded then emit .saveFlags
  plain slot (pc + 4)
  releaseLocks
  if policy = .guarded then emit .restoreFlags
  if policy ≠ .plain then flushAll

/-- Leave a branch and its delay slot to the interpreter. -/
def leaveToInterpreter (pc : UInt32) : Lowering Unit := do
  flushAll
  subtractProgress
  emit (.exitInterpret pc)
  finish (pc + 8)

/-- Write the return address of a branch at `pc`; register zero takes none. -/
def writeLink (reg : Fin 32) (pc : UInt32) : Lowering Unit := do
  if reg = 0 then return
  let rd ← bindGprForWrite reg
  emit (.movImm rd (pc + 8))

/-! ### Conditional branches -/

/-- Compare what a branch compares; the result is the condition under which it is taken. -/
def compareOperands (i : Instr) : Lowering Condition :=
  match i.family with
  | .branch => do
    let rs ← bindGpr i.rs
    match (i.major &&& 3).toNat with
    | 0 =>
      emit (.compare rs (← bindGpr i.rt))
      return .equal
    | 1 =>
      emit (.compare rs (← bindGpr i.rt))
      return .notEqual
    | 2 =>
      emit (.compareImm rs 0)
      return .lessEqual
    | _ =>
      emit (.compareImm rs 0)
      return .greater
  | .branchSign => do
    let rs ← bindGpr i.rs
    emit (.compareImm rs 0)
    return if i.bit 16 then .greaterEqual else .less
  | _ => do
    let condition ← bind .condition
    emit (.aluImm .srl HostReg.scratch condition (i.bits 18 7))
    emit (.aluImm .and HostReg.scratch HostReg.scratch 1)
    emit (.compareImm HostReg.scratch (i.bits 16 1))
    return .equal

/-- The two exits of a branch. -/
def branchExits (condition : Condition) (target fallthrough : UInt32) : Lowering Unit := do
  let amount := (← get).progress.count
  let taken ← newLabel
  jumpForward condition taken
  exitTo fallthrough amount
  placeLabel taken
  exitTo target amount

/-- Write the return address if the branch links. -/
def writeBranchLink (i : Instr) (pc : UInt32) : Lowering Unit := do
  if i.linksOnCondition then writeLink 31 pc

/-- A likely branch.  The path that skips the slot is charged without it. -/
def likelyBranch (i : Instr) (pc : UInt32) (slot : Instr) : Lowering Unit := do
  let condition ← compareOperands i
  releaseLocks
  writeBranchLink i pc
  flushAll
  let skipped := (← get).progress.count
  let notTaken ← newLabel
  jumpForward condition.invert notTaken
  delaySlot slot pc .flushed
  exitHere (i.branchTarget pc)
  placeLabel notTaken
  exitTo (pc + 8) skipped

/-- The slot may change what the condition reads, or the link does. -/
def compareBeforeSlot (i slot : Instr) : Bool :=
  i.conditionReads.any slot.usage.writesReg || (i.linksOnCondition && i.rs = 31)

/-- A conditional branch that always runs its slot. -/
def ordinaryBranch (i : Instr) (pc : UInt32) (slot : Instr) : Lowering Unit := do
  if i.isAlwaysTaken then
    delaySlot slot pc .plain
    flushAll
    exitHere (i.branchTarget pc)
  else if compareBeforeSlot i slot then
    let condition ← compareOperands i
    releaseLocks
    writeBranchLink i pc
    delaySlot slot pc .guarded
    branchExits condition (i.branchTarget pc) (pc + 8)
  else
    writeBranchLink i pc
    delaySlot slot pc .plain
    flushAll
    let condition ← compareOperands i
    branchExits condition (i.branchTarget pc) (pc + 8)

/-- A conditional branch. -/
def branch (i : Instr) (pc : UInt32) (slot : Instr) : Lowering Unit := do
  charge
  if i.isLikely then likelyBranch i pc slot else ordinaryBranch i pc slot
  finish (pc + 8)

/-! ### Jumps -/

/-- A jump within the region. -/
def jump (i : Instr) (pc : UInt32) (slot : Instr) : Lowering Unit := do
  charge
  if i.major == 3 then writeLink 31 pc
  delaySlot slot pc .plain
  flushAll
  exitHere (i.jumpTarget pc)
  finish (pc + 8)

/-- The register that takes the return address of an indirect jump. -/
def jumpLink (i : Instr) : Fin 32 := if i.funct == 9 then i.rd else 0

/-- The target register of an indirect jump changes before the jump is done. -/
def targetChanges (i slot : Instr) : Bool :=
  slot.usage.writesReg (.gpr i.rs) || (jumpLink i ≠ 0 && jumpLink i = i.rs)

/-- An indirect jump.  The target is copied if it changes in the delay slot. -/
def jumpRegister (i : Instr) (pc : UInt32) (slot : Instr) : Lowering Unit := do
  charge
  let source ← bindGpr i.rs
  if targetChanges i slot then move HostReg.jumpTarget source
  writeLink (jumpLink i) pc
  delaySlot slot pc .plain
  flushAll
  let target ← if targetChanges i slot then pure HostReg.jumpTarget else bindGpr i.rs
  subtractProgress
  emit (.exitDispatchReg target)
  finish (pc + 8)

/-! ### Every instruction that ends a block -/

/-- A request to the system. -/
def syscall (i : Instr) (pc : UInt32) : Lowering Unit := do
  charge
  flushAll
  subtractProgress
  emit (.exitSyscall i.code (pc + 4))
  finish (pc + 4)

/-- A breakpoint. -/
def breakpoint (pc : UInt32) : Lowering Unit := do
  charge
  flushAll
  subtractProgress
  emit (.exitBreak pc)
  finish (pc + 4)

/-- **Translate an instruction that ends a block.** -/
def terminator (i : Instr) (pc : UInt32) : Lowering Unit := do
  match i.family with
  | .syscall => syscall i pc
  | .breakpoint => breakpoint pc
  | family =>
    match delaySlot? (← read).memory pc with
    | none => leaveToInterpreter pc
    | some slot =>
      match family with
      | .jump => jump i pc slot
      | .jumpRegister => jumpRegister i pc slot
      | _ => branch i pc slot

end Lowering

end Dynarec
