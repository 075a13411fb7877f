import Dynarec.Lower.Branches

/-!
# Lowering of a block

`lowerBlock` appends the code of the block at an address to a code space.  A block starts
with a checked entry for linked exits, then the entry of the dispatcher, then a guard if it assumes
that no modifier is pending.  It ends with a terminator, in front of the next block, when it has as
many instructions as the options allow, when the code space runs low, or where memory ends.
-/

namespace Dynarec

namespace Lowering

/-- Words that must be free before another instruction is started: enough for it and for the code
that closes the block. -/
def reserve : Nat := 96

/-- The block has to end in front of `pc`. -/
def mustEndBefore (pc : UInt32) : Lowering Bool := do
  let setting ← read
  let b ← get
  return b.progress.count ≥ setting.options.maxBlockInstructions || setting.limit = some pc ||
    b.code.spaceLeft < reserve

/-- Stop when a word did not fit. -/
def checkSpace : Lowering Unit := do
  if (← get).code.overflowed then throw (.codeSpaceExhausted (← read).start)

/-- A branch is kept out of the block when its delay slot would lie in the next one. -/
def belongsToNext (setting : Setting) (i : Instr) (pc : UInt32) : Bool :=
  i.family.hasDelaySlot && pc ≠ setting.start && setting.limit = some (pc + 4)

/-- One instruction that does not end the block. -/
def bodyInstruction (i : Instr) (pc : UInt32) : Lowering Unit := do
  charge
  plain i pc
  moveTo (pc + 4)
  releaseLocks
  checkSpace

/-- The instruction that ends the block. -/
def lastInstruction (i : Instr) (pc : UInt32) : Lowering Unit := do
  terminator i pc
  releaseLocks
  checkSpace

/-- **The instructions from `pc` on.**  Memory holds at most `room` instructions more. -/
def instructions : (room : Nat) → (pc : UInt32) → Lowering Unit
  | 0, pc => endBlock pc
  | room + 1, pc => do
    let setting ← read
    if pc ≠ setting.start && (← mustEndBefore pc) then endBlock pc
    else
      match setting.memory.fetch? pc with
      | none =>
        if pc = setting.start then throw (.refused setting.start .unmappedStart)
        else endBlock pc
      | some word =>
        let i : Instr := ⟨word⟩
        if i.family.isTerminator then
          if belongsToNext setting i pc then endBlock pc else lastInstruction i pc
        else
          bodyInstruction i pc
          instructions room (pc + 4)

/-- The entries of a block. -/
def entries : Lowering Unit := do
  let setting ← read
  emit (.checkEntry setting.options.downcountInRegister setting.start)
  if setting.entry = .noModifiers then emit (.guardModifiers setting.start)

/-- Number of instructions that memory can hold, and one more. -/
def room (memory : Memory) : Nat := memory.size / 4 + 1

/-- A whole block. -/
def block : Lowering Unit := do
  entries
  let setting ← read
  instructions (room setting.memory) setting.start

end Lowering

/-- The block that a finished lowering describes; `code` is the space that it was started in. -/
def Builder.toBlock (b : Builder) (setting : Setting) (code : CodeSpace) : Block where
  start := setting.start
  stop := b.progress.pc
  checkedEntry := code.offset
  normalEntry := code.offset + 1
  codeStart := code.offset
  codeEnd := b.code.offset
  exits := b.exits
  assumesDefault := setting.entry = .noModifiers
  instructions := b.progress.count

/-- Fill in the forward jumps of a finished lowering. -/
def Builder.close (b : Builder) (setting : Setting) (code : CodeSpace) :
    Except Failure (Block × CodeSpace) :=
  if b.code.overflowed then .error (.codeSpaceExhausted setting.start)
  else
    match b.code.resolve with
    | (.ok _, resolved) => .ok (b.toBlock setting code, resolved)
    | (.error _, _) => .error (.refused setting.start .unboundLabel)

/-- **Lower the block at an address.**  Its code is appended; a failure leaves nothing behind,
neither words nor labels. -/
def lowerBlock (setting : Setting) (code : CodeSpace) : Except Failure Block × CodeSpace :=
  match Lowering.block.run setting (Builder.start code setting) with
  | .error e => (.error e, code.truncate code.offset)
  | .ok (_, b) =>
    match b.close setting code with
    | .error e => (.error e, code.truncate code.offset)
    | .ok (block, resolved) => (.ok block, resolved)

end Dynarec
