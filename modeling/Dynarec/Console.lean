import Dynarec.Emulator
import Dynarec.Text.Decimal
import Dynarec.Text.Unicode

/-!
# Console services

A minimal system for guest programs.  The code of a request chooses the service: 1 prints `a0` as a
signed number, 2 prints the low byte of `a0` as a character, 4 prints the text at `a0` up to a zero
byte or the end of memory, 10 halts the core.  Other requests do nothing.
-/

namespace Dynarec

/-- **The console**: what was printed so far. -/
structure Console where
  output : String := ""
deriving DecidableEq, Repr, Inhabited

namespace Console

/-- Print a text. -/
def print (c : Console) (text : String) : Console := { c with output := c.output ++ text }

/-- How many bytes at an address come before a zero byte or the end of memory, `room` at most, and
`count` more. -/
def textLength (memory : Memory) : (room : Nat) → (address : UInt32) → (count : Nat) → Nat
  | 0, _, count => count
  | room + 1, address, count =>
    if memory.contains address 1 && memory.read8 address != 0 then
      textLength memory room (address + 1) (count + 1)
    else count

/-- The bytes at an address up to a zero byte or the end of memory. -/
def textBytes (memory : Memory) (address : UInt32) : List UInt8 :=
  (List.range (textLength memory memory.size address 0)).map fun n =>
    (memory.read8 (address + UInt32.ofNat n)).toUInt8

/-- The text at an address. -/
def textAt (memory : Memory) (address : UInt32) : String :=
  Unicode.decodeLossy (textBytes memory address)

/-- **Answer a request.** -/
def syscall : SyscallHandler Console := fun code c m =>
  let ⟨core, memory⟩ := m
  let argument := core.gpr 4
  match code.toNat with
  | 1 => (c.print (Decimal.signedText argument.toInt32.toInt), ⟨core, memory⟩)
  | 2 => (c.print (String.singleton (Char.ofNat argument.toUInt8.toNat)), ⟨core, memory⟩)
  | 4 => (c.print (textAt memory argument), ⟨core, memory⟩)
  | 10 => (c, ⟨{ core with runState := .halted }, memory⟩)
  | _ => (c, ⟨core, memory⟩)

end Console

end Dynarec
