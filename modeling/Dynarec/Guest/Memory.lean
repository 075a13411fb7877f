import Dynarec.Guest.Encode
import Dynarec.Single.Basic
import Dynarec.Text.Hex
import Dynarec.Violation

/-!
# Guest memory with tracked code pages

Memory is one window of bytes at a base address.  Reads outside it yield zero and writes outside it
do nothing.  Pages that hold compiled code are marked; a store whose first or last byte lies in a
marked page is queued as a changed range, so that stale code can be dropped before it runs
again.  Loading an image is not tracked.
-/

namespace Dynarec

/-- Size of a page in bytes. -/
def pageSize : Nat := 4096

/-- Changed bytes of code: `length` bytes from `start`. -/
structure ChangedRange where
  start : UInt32
  length : UInt32
deriving DecidableEq, Repr, Inhabited

/-- **The memory window.** -/
structure Memory where
  base : UInt32
  bytes : ByteArray
  /-- One mark per page, counted from the base. -/
  codePages : Array Bool
  /-- Changed ranges since the queue was last taken, oldest first. -/
  changed : Array ChangedRange

namespace Memory

/-- Append `count` zero bytes. -/
def appendZeros (bytes : ByteArray) : (count : Nat) → ByteArray
  | 0 => bytes
  | count + 1 => appendZeros (bytes.push 0) count

/-- A window of `size` zero bytes at `base`. -/
def create (base size : UInt32) : Memory where
  base := base
  bytes := appendZeros ByteArray.empty size.toNat
  codePages := Array.replicate ((size.toNat + (pageSize - 1)) / pageSize) false
  changed := #[]

/-- Size of the window in bytes. -/
def size (m : Memory) : Nat := m.bytes.size

/-- Where `length` bytes at `address` lie in the window, if all of them do. -/
def offset? (m : Memory) (address : UInt32) (length : Nat) : Option Nat :=
  if m.base ≤ address ∧ (address - m.base).toNat + length ≤ m.size then
    some (address - m.base).toNat
  else none

/-- All of `length` bytes at `address` lie in the window. -/
def contains (m : Memory) (address : UInt32) (length : Nat) : Bool :=
  (m.offset? address length).isSome

/-- The page of an address, counted from the base. -/
def page (m : Memory) (address : UInt32) : Nat := (address - m.base).toNat / pageSize

/-! ### Reading -/

/-- The byte at a window offset. -/
def byteAt (m : Memory) (offset : Nat) : UInt32 :=
  if h : offset < m.bytes.size then m.bytes[offset].toUInt32 else 0

/-- `count` bytes at a window offset as a number, lowest byte first. -/
def valueAt (m : Memory) (offset : Nat) : (count : Nat) → UInt32
  | 0 => 0
  | count + 1 => m.byteAt offset ||| m.valueAt (offset + 1) count <<< 8

/-- `count` bytes at an address; zero outside the window. -/
def read (m : Memory) (address : UInt32) (count : Nat) : UInt32 :=
  match m.offset? address count with
  | some offset => m.valueAt offset count
  | none => 0

/-- A byte. -/
def read8 (m : Memory) (address : UInt32) : UInt32 := m.read address 1

/-- A halfword. -/
def read16 (m : Memory) (address : UInt32) : UInt32 := m.read address 2

/-- A word. -/
def read32 (m : Memory) (address : UInt32) : UInt32 := m.read address 4

/-- A vector element. -/
def readSingle (m : Memory) (address : UInt32) : Single := ⟨m.read32 address⟩

/-- The instruction word at an address, if it lies in the window. -/
def fetch? (m : Memory) (address : UInt32) : Option UInt32 :=
  (m.offset? address 4).map fun offset => m.valueAt offset 4

/-! ### Writing -/

/-- Overwrite bytes from a window offset on. -/
def putBytes (bytes : ByteArray) (offset : Nat) : List UInt8 → ByteArray
  | [] => bytes
  | b :: rest => putBytes (bytes.set! offset b) (offset + 1) rest

/-- Queue a changed range.  A range that starts where the newest one ends extends it. -/
def noteChange (changed : Array ChangedRange) (address length : UInt32) : Array ChangedRange :=
  match changed.back? with
  | none => changed.push ⟨address, length⟩
  | some last =>
    if last.start + last.length == address then
      changed.pop.push ⟨last.start, last.length + length⟩
    else changed.push ⟨address, length⟩

/-- The page is marked. -/
def isCodePage (m : Memory) (page : Nat) : Bool := m.codePages.getD page false

/-- **Store bytes.**  Nothing happens outside the window.  The address after the last byte is used
to find the last page, so it has to exist. -/
def store (m : Memory) (address : UInt32) (data : List UInt8) : Except Violation Memory :=
  match m.offset? address data.length with
  | none => .ok m
  | some offset =>
    if address.toNat + data.length ≥ 2 ^ 32 then .error (.storeEnd address)
    else
      let length := UInt32.ofNat data.length
      let marked := m.isCodePage (m.page address) || m.isCodePage (m.page (address + length - 1))
      let ⟨base, bytes, codePages, changed⟩ := m
      let bytes := putBytes bytes offset data
      if marked then .ok ⟨base, bytes, codePages, noteChange changed address length⟩
      else .ok ⟨base, bytes, codePages, changed⟩

/-- Store the low byte of a word. -/
def write8 (m : Memory) (address value : UInt32) : Except Violation Memory :=
  m.store address [value.toUInt8]

/-- Store the low halfword of a word. -/
def write16 (m : Memory) (address value : UInt32) : Except Violation Memory :=
  m.store address [value.toUInt8, (value >>> 8).toUInt8]

/-- Store a word. -/
def write32 (m : Memory) (address value : UInt32) : Except Violation Memory :=
  m.store address (Encode.wordBytes value)

/-- Store a vector element. -/
def writeSingle (m : Memory) (address : UInt32) (value : Single) : Except Violation Memory :=
  m.write32 address value.bits

/-- Store consecutive words. -/
def writeWords (m : Memory) (address : UInt32) : List UInt32 → Except Violation Memory
  | [] => .ok m
  | w :: rest => do
    let m ← m.write32 address w
    m.writeWords (address + 4) rest

/-- An image that does not fit the window. -/
structure ImageMisfit where
  length : Nat
  address : UInt32
deriving DecidableEq, Repr

/-- The message for an image that does not fit. -/
def ImageMisfit.message (e : ImageMisfit) : String :=
  s!"image of {e.length} bytes does not fit at {Hex.word e.address}"

/-- **Load an image.**  The stores are not tracked as changes of code.  The length that is held
against the window is the length modulo 2^32. -/
def loadImage (m : Memory) (address : UInt32) (image : List UInt8) :
    Except Violation (Except ImageMisfit Memory) :=
  match m.offset? address (image.length % 2 ^ 32) with
  | none => .ok (.error ⟨image.length, address⟩)
  | some offset =>
    if offset + image.length ≤ m.size then
      .ok (.ok { m with bytes := putBytes m.bytes offset image })
    else .error (.imageLength image.length)

/-! ### Code tracking -/

/-- Set the marks of the pages from `first` on. -/
def markPages (pages : Array Bool) (first : Nat) : (count : Nat) → Array Bool
  | 0 => pages
  | count + 1 => markPages (pages.setIfInBounds first true) (first + 1) count

/-- Mark the pages of the code in `[start, stop)`, as far as they are in the window. -/
def markCode (m : Memory) (start stop : UInt32) : Memory :=
  if stop ≤ start ∨ !m.contains start 1 then m
  else
    let first := m.page start
    let last := Nat.min (m.page (stop - 1)) (m.codePages.size - 1)
    { m with codePages := markPages m.codePages first (last + 1 - first) }

/-- Forget all marks and all changes. -/
def clearCodeMarks (m : Memory) : Memory :=
  { m with codePages := m.codePages.map fun _ => false, changed := #[] }

/-- A change of code is queued. -/
def hasChangedCode (m : Memory) : Bool := !m.changed.isEmpty

/-- The queue, and the memory with an empty queue. -/
def takeChangedCode (m : Memory) : List ChangedRange × Memory :=
  (m.changed.toList, { m with changed := #[] })

end Memory

end Dynarec
