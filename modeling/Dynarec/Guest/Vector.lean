import Dynarec.Single.Basic
import Dynarec.Violation

/-!
# The vector unit: elements, modifiers and compares

The vector file holds 128 elements.  A register number and a size name up to four of them
(`VectorSize.elements`); columns, rows and single elements overlap.  Three pending modifiers act
on the next vector instruction: the source and target modifiers rearrange and change the operands
lane by lane (`applySource`), the destination modifier clamps results and masks writes
(`applyDestination`, `writeMasked`).  A compare yields one bit per lane, merged into the condition
word together with "any" and "all" (`mergeConditions`).
-/

namespace Dynarec

/-- An element of the vector file. -/
abbrev Element := Fin 128

theorem Element.lt (e : Element) : e.val < 128 := e.isLt

/-- How many elements a vector instruction works on. -/
inductive VectorSize where
  | single
  | pair
  | triple
  | quad
deriving DecidableEq, Repr, Inhabited

namespace VectorSize

/-- The two-bit code of a size. -/
def bits : VectorSize → UInt32
  | single => 0
  | pair => 1
  | triple => 2
  | quad => 3

/-- The size of a two-bit code; higher bits do not count. -/
def ofBits (code : UInt32) : VectorSize :=
  match (code &&& 3).toNat with
  | 0 => single
  | 1 => pair
  | 2 => triple
  | _ => quad

/-- Number of lanes. -/
def lanes : VectorSize → Nat
  | single => 1
  | pair => 2
  | triple => 3
  | quad => 4

/-- The matrix row in which register `reg` starts. -/
def firstRow (size : VectorSize) (reg : UInt8) : Nat :=
  match size with
  | single => (reg >>> 5 &&& 3).toNat
  | pair => (reg >>> 5 &&& 2).toNat
  | triple => (reg >>> 6 &&& 1).toNat
  | quad => (reg >>> 5 &&& 2).toNat

/-- Register `reg` runs along a row instead of down a column. -/
def transposed (size : VectorSize) (reg : UInt8) : Bool :=
  match size with
  | single => false
  | _ => reg >>> 5 &&& 1 != 0

/-- **The element in `lane` of register `reg`.**  An element number is made of a matrix (three
bits above the lowest two), a column (the lowest two) and a row (steps of 32). -/
def element (size : VectorSize) (reg : UInt8) (lane : Nat) : Element :=
  let matrix := (reg >>> 2 &&& 7).toNat
  let fixed := (reg &&& 3).toNat
  let moving := (size.firstRow reg + lane) % 4
  if size.transposed reg then
    Fin.ofNat 128 (matrix * 4 + moving + fixed * 32)
  else
    Fin.ofNat 128 (matrix * 4 + fixed + moving * 32)

/-- The elements of register `reg`, in lane order. -/
def elements (size : VectorSize) (reg : UInt8) : List Element :=
  (List.range size.lanes).map (size.element reg)

end VectorSize

/-! ### Pending modifiers -/

/-- One of the three pending modifiers of the vector unit. -/
inductive ModifierSlot where
  | source
  | target
  | destination
deriving DecidableEq, Repr, Inhabited

namespace ModifierSlot

/-- All slots, in the order of their control registers. -/
def all : List ModifierSlot := [source, target, destination]

/-- The modifier that changes nothing. -/
def identity : ModifierSlot → UInt32
  | source | target => 0xE4
  | destination => 0

/-- The control register that holds the modifier. -/
def control : ModifierSlot → Fin 16
  | source => 0
  | target => 1
  | destination => 2

/-- The slot that a control register holds, if any. -/
def ofControl? (index : Nat) : Option ModifierSlot :=
  match index with
  | 0 => some source
  | 1 => some target
  | 2 => some destination
  | _ => none

end ModifierSlot

/-- **The part of a source or target modifier that concerns one lane.** -/
structure LaneModifier where
  /-- The operand lane read, or half of the number of a constant. -/
  lane : Fin 4
  /-- Take the absolute value, or choose from the upper constants. -/
  abs : Bool
  /-- Read a constant instead of the operand. -/
  constant : Bool
  /-- Negate at the end. -/
  negate : Bool
deriving DecidableEq, Repr

namespace LaneModifier

/-- Bit `n` of a word. -/
def testBit (word : UInt32) (n : Nat) : Bool := word >>> UInt32.ofNat n &&& 1 != 0

/-- The fields of `lane` in a modifier word. -/
def ofWord (word : UInt32) (lane : Nat) : LaneModifier where
  lane := Fin.ofNat 4 (word >>> UInt32.ofNat (lane * 2)).toNat
  abs := testBit word (8 + lane)
  constant := testBit word (12 + lane)
  negate := testBit word (16 + lane)

/-- The lane reads its own element and changes nothing. -/
def isPassthrough (m : LaneModifier) (lane : Nat) : Bool :=
  m.lane.val == lane && !m.abs && !m.constant && !m.negate

/-- The constants 0, 1, 2, 1/2, 3, 1/3, 1/4 and 1/6; `abs` chooses the upper four. -/
def constantValue (m : LaneModifier) : Single :=
  match m.abs, m.lane with
  | false, 0 => ⟨0x00000000⟩
  | false, 1 => ⟨0x3F800000⟩
  | false, 2 => ⟨0x40000000⟩
  | false, 3 => ⟨0x3F000000⟩
  | true, 0 => ⟨0x40400000⟩
  | true, 1 => ⟨0x3EAAAAAB⟩
  | true, 2 => ⟨0x3E800000⟩
  | true, 3 => ⟨0x3E2AAAAB⟩

/-- What the lane delivers when the operand is `operand`.  A lane beyond the operand reads
zero. -/
def apply (m : LaneModifier) (operand : List Single) : Single :=
  let value :=
    if m.constant then m.constantValue
    else
      let x := operand.getD m.lane.val Single.zero
      if m.abs then x.abs else x
  if m.negate then value.neg else value

end LaneModifier

/-- Apply a source or target modifier to an operand. -/
def applySource (word : UInt32) (operand : List Single) : List Single :=
  operand.mapIdx fun lane _ => (LaneModifier.ofWord word lane).apply operand

/-- How a destination modifier clamps one lane. -/
inductive Clamp where
  | none
  | unit
  | signed
deriving DecidableEq, Repr

/-- Apply a clamp. -/
def Clamp.apply : Clamp → Single → Single
  | .none, x => x
  | .unit, x => x.clampUnit
  | .signed, x => x.clampSigned

/-- The two-bit clamp code of `lane` in a destination modifier. -/
def clampCode (word : UInt32) (lane : Nat) : UInt32 := word >>> UInt32.ofNat (lane * 2) &&& 3

/-- The clamp of `lane`; code two clamps nothing. -/
def clampOf (word : UInt32) (lane : Nat) : Clamp :=
  if clampCode word lane == 1 then .unit
  else if clampCode word lane == 3 then .signed
  else .none

/-- A destination modifier keeps `lane` from being written. -/
def writeMasked (word : UInt32) (lane : Nat) : Bool := LaneModifier.testBit word (8 + lane)

/-- The four write-mask bits of a destination modifier. -/
def writeMask (word : UInt32) : UInt32 := word >>> 8 &&& 0xF

/-- Apply the clamps of a destination modifier. -/
def applyDestination (word : UInt32) (result : List Single) : List Single :=
  result.mapIdx fun lane x => (clampOf word lane).apply x

/-! ### Compares -/

/-- One lane of a compare; the low four bits of `condition` choose the test. -/
def compareLane (condition : UInt32) (s t : Single) : Bool :=
  match (condition &&& 0xF).toNat with
  | 0 => false
  | 1 => s.eq t
  | 2 => s.lt t
  | 3 => s.le t
  | 4 => true
  | 5 => !s.eq t
  | 6 => t.le s
  | 7 => t.lt s
  | 8 => s.eq Single.zero
  | 9 => s.isNaN
  | 10 => s.isInfinite
  | 11 => s.isNaN || s.isInfinite
  | 12 => !s.eq Single.zero
  | 13 => !s.isNaN
  | 14 => !s.isInfinite
  | _ => !(s.isNaN || s.isInfinite)

/-- A flag as a word. -/
def flagWord (b : Bool) : UInt32 := if b then 1 else 0

/-- One bit per lane, lane zero lowest. -/
def laneBits : List Bool → UInt32
  | [] => 0
  | hit :: hits => laneBits hits <<< 1 ||| flagWord hit

/-- **Merge a compare into the condition word.**  The bits of the compared lanes are replaced,
bit 4 says whether any lane hit and bit 5 whether all did; other bits stay. -/
def mergeConditions (old : UInt32) (hits : List Bool) : UInt32 :=
  let affected := laneBits (hits.map fun _ => true) ||| 0x30
  let fresh := laneBits hits ||| flagWord (hits.any id) <<< 4 ||| flagWord (hits.all id) <<< 5
  old &&& ~~~affected ||| fresh &&& affected

/-- Merge any number of lanes, as long as each has a bit of its own. -/
def mergeConditions? (old : UInt32) (hits : List Bool) : Except Violation UInt32 :=
  if hits.length ≤ 32 then .ok (mergeConditions old hits) else .error .tooManyLanes

/-- Merge the low `lanes` bits of a word; between one and four lanes count. -/
def mergeConditionBits (old bits : UInt32) (lanes : UInt8) : UInt32 :=
  let count := Nat.max 1 (Nat.min 4 lanes.toNat)
  mergeConditions old ((List.range count).map fun lane => LaneModifier.testBit bits lane)

end Dynarec
