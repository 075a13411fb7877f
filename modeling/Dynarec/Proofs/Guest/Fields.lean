import Dynarec.Guest.Encode
import Dynarec.Guest.Instruction
import Mathlib.Algebra.Group.Nat.Defs
import Mathlib.Tactic.Common

/-!
# Fields of instruction words

A word is made of parts that do not overlap: each is a value under a mask at a position
(`Encode.bitsAt`).  Reading a field of a word reads it in every part (`Instr.bits_or`): the part
that was put there gives its value (`Instr.bits_self`), and every other part gives zero
(`Instr.bits_apart`).  From these two follow the fields of each format: three registers
(`Instr.threeRegisters`), an immediate (`Instr.withImmediate`), a region target, a code, two or
three vector registers, vector memory, moves and vector branches.  The last section does the same
for the data of modifiers, which have a field for every lane.
-/

namespace Dynarec

/-! ### Operands -/

/-- A number as an operand. -/
def operand {n : Nat} (k : Fin n) : UInt32 := UInt32.ofNat k.val

theorem toNat_operand {n : Nat} (hn : n ≤ 2 ^ 32) (k : Fin n) : (operand k).toNat = k.val :=
  UInt32.toNat_ofNat_of_lt' (Nat.lt_of_lt_of_le k.isLt hn)

/-- The lowest bits are a remainder. -/
theorem toNat_and_mask (width : Nat) {mask : UInt32} (hmask : mask.toNat = 2 ^ width - 1) (w : UInt32) :
    (w &&& mask).toNat = w.toNat % 2 ^ width := by
  rw [UInt32.toNat_and, hmask, Nat.and_two_pow_sub_one_eq_mod]

/-- A mask of the lowest bits keeps a number that needs no more. -/
theorem and_mask_of_lt {value mask : UInt32} (width : Nat) (hmask : mask.toNat = 2 ^ width - 1)
    (hvalue : value.toNat < 2 ^ width) : value &&& mask = value := by
  apply UInt32.toNat_inj.mp
  rw [toNat_and_mask width hmask, Nat.mod_eq_of_lt hvalue]

theorem operand_and (width : Nat) (hwidth : width ≤ 32) {mask : UInt32}
    (hmask : mask.toNat = 2 ^ width - 1) (k : Fin (2 ^ width)) :
    operand k &&& mask = operand k := by
  refine and_mask_of_lt width hmask ?_
  rw [toNat_operand (Nat.pow_le_pow_right (by decide) hwidth)]
  exact k.isLt

/-- A number of a vector register as an operand. -/
def vectorOperand {n : Nat} (v : Fin n) : UInt8 := UInt8.ofNat v.val

/-- A signed immediate as an operand: the word that it is extended to. -/
def signedOperand (v : Int16) : UInt32 := v.toInt32.toUInt32

theorem signedOperand_eq (v : Int16) : signedOperand v = UInt32.ofInt v.toInt := by
  apply UInt32.toNat_inj.mp
  show (BitVec.ofInt 32 v.toInt).toNat = (UInt32.ofNat (v.toInt % 2 ^ 32).toNat).toNat
  rw [BitVec.toNat_ofInt, UInt32.toNat_ofNat_of_lt']
  · rfl
  · show (v.toInt % 2 ^ 32).toNat < 2 ^ 32
    omega

/-- The low half of a signed immediate is the immediate. -/
theorem signExtend16_signedOperand (v : Int16) : signExtend16 (signedOperand v) = v.toInt32 := by
  have hlow : (signedOperand v).toUInt16 = v.toUInt16 := by
    apply UInt16.toBitVec_inj.mp
    show (v.toBitVec.signExtend 32).setWidth 16 = v.toBitVec
    ext j hj
    rw [BitVec.getElem_setWidth, BitVec.getLsbD_signExtend]
    simp [hj, show j < 32 by omega]
  rw [signExtend16, hlow]
  rfl

theorem signExtend16_and (w : UInt32) : signExtend16 (w &&& 0xFFFF) = signExtend16 w := by
  rw [signExtend16, signExtend16, UInt32.toUInt16_and]
  exact congrArg (fun x : UInt16 => x.toInt16.toInt32) UInt16.and_neg_one

namespace Instr

open Encode

/-! ### Reading a field -/

theorem or_and (a b m : UInt32) : (a ||| b) &&& m = (a &&& m) ||| (b &&& m) :=
  UInt32.toBitVec_inj.mp BitVec.and_or_distrib_right

theorem bits_or (a b p m : UInt32) : bits ⟨a ||| b⟩ p m = bits ⟨a⟩ p m ||| bits ⟨b⟩ p m := by
  show (a ||| b) >>> p &&& m = (a >>> p &&& m) ||| (b >>> p &&& m)
  rw [UInt32.shiftRight_or, or_and]

/-- A part does not reach into a field that it does not overlap. -/
theorem bits_apart {v mask position p m : UInt32} (h : mask <<< position >>> p &&& m = 0) :
    bits ⟨bitsAt v mask position⟩ p m = 0 := by
  show (v &&& mask) <<< position >>> p &&& m = 0
  rw [UInt32.shiftLeft_and, UInt32.shiftRight_and, UInt32.and_assoc, h, UInt32.and_zero]

/-- A part that is not cut off at the top is read where it was put. -/
theorem bits_self {v mask p m : UInt32} (h : mask <<< p >>> p = mask) :
    bits ⟨bitsAt v mask p⟩ p m = v &&& (mask &&& m) := by
  show (v &&& mask) <<< p >>> p &&& m = v &&& (mask &&& m)
  have hroom : (v &&& mask) <<< p >>> p = v &&& mask := by
    apply UInt32.toBitVec_inj.mp
    have h' := congrArg UInt32.toBitVec h
    simp only [UInt32.toBitVec_shiftRight, UInt32.toBitVec_shiftLeft, UInt32.toBitVec_and] at h' ⊢
    ext j hj
    have hj' := congrArg (·.getLsbD j) h'
    simp [hj] at hj' ⊢
    grind
  rw [hroom, UInt32.and_assoc]

/-- A smaller field inside a field. -/
theorem bits_inside (i : Instr) {p m d n : UInt32} (hd : p.toNat + d.toNat < 32)
    (h : m >>> d &&& n = n) : i.bits (p + d) n = i.bits p m >>> d &&& n := by
  show i.word >>> (p + d) &&& n = (i.word >>> p &&& m) >>> d &&& n
  rw [UInt32.shiftRight_and, UInt32.and_assoc, h]
  congr 1
  apply UInt32.toNat_inj.mp
  rw [UInt32.toNat_shiftRight, UInt32.toNat_shiftRight, UInt32.toNat_shiftRight, UInt32.toNat_add,
    Nat.mod_eq_of_lt (by omega), Nat.mod_eq_of_lt (by omega), Nat.mod_eq_of_lt (by omega),
    Nat.mod_eq_of_lt (by omega), Nat.shiftRight_add]

/-- A bit inside a field. -/
theorem bit_inside (i : Instr) {p m d : UInt32} (hd : p.toNat + d.toNat < 32)
    (h : m >>> d &&& 1 = 1) : i.bit (p + d) = (i.bits p m >>> d &&& 1 != 0) := by
  rw [bit, bits_inside i hd h]

theorem major_eq (i : Instr) : i.major = i.bits 26 0x3F := by
  show i.word >>> 26 = i.word >>> 26 &&& 0x3F
  refine (and_mask_of_lt 6 rfl ?_).symm
  rw [UInt32.toNat_shiftRight, Nat.shiftRight_eq_div_pow]
  have hword := i.word.toNat_lt
  show i.word.toNat / 2 ^ 26 < 2 ^ 6
  omega

theorem register_of_bits {i : Instr} {p : UInt32} {r : Fin 32} (h : i.bits p 0x1F = operand r) :
    Fin.ofNat 32 (i.word >>> p).toNat = r := by
  apply Fin.ext
  calc (i.word >>> p).toNat % 2 ^ 5
      = (i.bits p 0x1F).toNat := (toNat_and_mask 5 rfl _).symm
    _ = r.val := by rw [h, toNat_operand (by decide)]

theorem offset_eq (i : Instr) : i.offset = signExtend16 (i.bits 0 0xFFFF) :=
  (signExtend16_and i.word).symm.trans (congrArg (fun w => signExtend16 (w &&& 0xFFFF))
    UInt32.shiftRight_zero.symm)

/-- A major operation is six bits at the top. -/
theorem major_eq_bitsAt {operation : UInt32} (h : operation &&& 0x3F = operation) :
    Encode.major operation = bitsAt operation 0x3F 26 := by
  rw [bitsAt, h]
  rfl

/-- A function code is six bits at the bottom. -/
theorem bits_funct_apart {funct p m : UInt32} (h : funct &&& 0x3F = funct)
    (hp : (0x3F : UInt32) <<< 0 >>> p &&& m = 0) : bits ⟨funct⟩ p m = 0 := by
  rw [← h, ← UInt32.shiftLeft_zero (a := funct &&& 0x3F)]
  exact bits_apart hp

theorem bits_funct {funct : UInt32} (h : funct &&& 0x3F = funct) : bits ⟨funct⟩ 0 0x3F = funct := by
  show funct >>> 0 &&& 0x3F = funct
  rw [UInt32.shiftRight_zero, h]

/-- Five bits hold a register number or a shift amount. -/
theorem operand_and_five (r : Fin 32) : operand r &&& 0x1F = operand r :=
  operand_and 5 (by decide) rfl r

/-- Four bits hold a condition or a mask of lanes. -/
theorem operand_and_four (mask : Fin 16) : operand mask &&& 0xF = operand mask :=
  operand_and 4 (by decide) rfl mask

/-! ### Scalar formats -/

/-- The fields of three registers, a shift amount and a function code. -/
structure Registers (i : Instr) (operation : UInt32) (rs rt rd shamt : Fin 32) (funct : UInt32) :
    Prop where
  major : i.major = operation
  rsBits : i.bits 21 0x1F = operand rs
  rt : i.rt = rt
  rd : i.rd = rd
  shamt : i.shamt = operand shamt
  funct : i.funct = funct

theorem Registers.rs {i : Instr} {operation funct : UInt32} {s t d a : Fin 32}
    (h : Registers i operation s t d a funct) : i.rs = s := register_of_bits h.rsBits

/-- The function code alone sorts a word of major operation zero. -/
theorem Registers.family_special {i : Instr} {funct : UInt32} {s t d a : Fin 32}
    (h : Registers i 0 s t d a funct) : i.family = familySpecial ⟨funct⟩ := by
  have hfits : funct &&& 0x3F = funct := by
    rw [← h.funct]
    rw [Instr.funct, bits, UInt32.and_assoc, UInt32.and_self]
  have hsame : Instr.funct ⟨funct⟩ = i.funct := (bits_funct hfits).trans h.funct.symm
  rw [family, h.major]
  show i.familySpecial = _
  rw [familySpecial, familySpecial, hsame]

theorem threeRegisters {operation funct : UInt32} (hop : operation &&& 0x3F = operation)
    (hfunct : funct &&& 0x3F = funct) (rs rt rd shamt : Fin 32) :
    Registers ⟨Encode.major operation |||
      register (operand rs) (operand rt) (operand rd) (operand shamt) funct⟩
      operation rs rt rd shamt funct := by
  rw [register, major_eq_bitsAt hop]
  refine ⟨?_, ?_, register_of_bits ?_, register_of_bits ?_, ?_, ?_⟩
  · rw [major_eq]
    simp (disch := first | decide | assumption) [bits_or, bits_apart, bits_self, bits_funct_apart, hop]
  · simp (disch := first | decide | assumption)
      [bits_or, bits_apart, bits_self, bits_funct_apart, operand_and_five]
  · simp (disch := first | decide | assumption)
      [bits_or, bits_apart, bits_self, bits_funct_apart, operand_and_five]
  · simp (disch := first | decide | assumption)
      [bits_or, bits_apart, bits_self, bits_funct_apart, operand_and_five]
  · simp (disch := first | decide | assumption)
      [Instr.shamt, bits_or, bits_apart, bits_self, bits_funct_apart, operand_and_five]
  · simp (disch := first | decide | assumption)
      [Instr.funct, bits_or, bits_apart, bits_funct]

/-- Major operation zero needs no part of its own. -/
theorem specialRegisters {funct : UInt32} (hfunct : funct &&& 0x3F = funct)
    (rs rt rd shamt : Fin 32) :
    Registers ⟨register (operand rs) (operand rt) (operand rd) (operand shamt) funct⟩
      0 rs rt rd shamt funct := by
  have h := threeRegisters (show (0 : UInt32) &&& 0x3F = 0 from rfl) hfunct rs rt rd shamt
  rwa [show Encode.major 0 = 0 from rfl, UInt32.zero_or] at h

/-- The fields of a major operation, two registers and sixteen bits. -/
structure Immediate (i : Instr) (operation : UInt32) (rs rt : Fin 32) (value : UInt32) : Prop where
  major : i.major = operation
  rs : i.rs = rs
  rtBits : i.bits 16 0x1F = operand rt
  immediate : i.immediate = value &&& 0xFFFF

theorem Immediate.rt {i : Instr} {operation value : UInt32} {s t : Fin 32}
    (h : Immediate i operation s t value) : i.rt = t := register_of_bits h.rtBits

theorem Immediate.offset {i : Instr} {operation : UInt32} {s t : Fin 32} {v : Int16}
    (h : Immediate i operation s t (signedOperand v)) : i.offset = v.toInt32 := by
  have himmediate : i.bits 0 0xFFFF = signedOperand v &&& 0xFFFF := h.immediate
  rw [offset_eq, himmediate, signExtend16_and, signExtend16_signedOperand]

/-- A bit of the second register field. -/
theorem Immediate.bit_rt {i : Instr} {operation value : UInt32} {s t : Fin 32}
    (h : Immediate i operation s t value) (d : UInt32) (hd : (0x1F : UInt32) >>> d &&& 1 = 1)
    (hroom : 16 + d.toNat < 32) : i.bit (16 + d) = (operand t >>> d &&& 1 != 0) := by
  rw [bit_inside (p := 16) (m := 0x1F) i hroom hd, h.rtBits]

theorem withImmediate {operation : UInt32} (hop : operation &&& 0x3F = operation) (rs rt : Fin 32)
    (value : UInt32) :
    Immediate ⟨Encode.withImmediate operation (operand rs) (operand rt) value⟩
      operation rs rt value := by
  rw [Encode.withImmediate, major_eq_bitsAt hop]
  refine ⟨?_, register_of_bits ?_, ?_, ?_⟩
  · rw [major_eq]
    simp (disch := decide) [bits_or, bits_apart, bits_self, hop]
  · simp (disch := decide) [bits_or, bits_apart, bits_self, operand_and_five]
  · simp (disch := decide) [bits_or, bits_apart, bits_self, operand_and_five]
  · simp (disch := decide) [Instr.immediate, bits_or, bits_apart, bits_self]

/-- The low half of a word is no larger than an immediate. -/
theorem halfOperand_and (v : UInt16) : v.toUInt32 &&& 0xFFFF = v.toUInt32 := by
  refine and_mask_of_lt 16 rfl ?_
  rw [UInt16.toNat_toUInt32]
  exact v.toNat_lt

theorem toUInt32_toUInt16 (w : UInt32) : w.toUInt16.toUInt32 = w &&& 0xFFFF := by
  apply UInt32.toNat_inj.mp
  rw [UInt16.toNat_toUInt32, UInt32.toNat_toUInt16, UInt32.toNat_and]
  exact (Nat.and_two_pow_sub_one_eq_mod _ 16).symm

/-- The target of a region jump is what was asked for, if it lies at a word of the region. -/
theorem jumpTarget_regionJump {operation target pc : UInt32} (hop : operation &&& 0x3F = operation)
    (hword : target &&& 3 = 0) (hregion : target &&& 0xF0000000 = (pc + 4) &&& 0xF0000000) :
    jumpTarget ⟨regionJump operation target⟩ pc = target := by
  have hfield : bits ⟨regionJump operation target⟩ 0 0x03FFFFFF = target >>> 2 &&& 0x03FFFFFF := by
    rw [regionJump, major_eq_bitsAt hop]
    simp (disch := decide) [bits_or, bits_apart, bits_self]
  have hback : (target >>> 2 &&& 0x03FFFFFF) <<< 2 = target &&& 0x0FFFFFFC := by
    apply UInt32.toBitVec_inj.mp
    show (target.toBitVec >>> 2 &&& 0x03FFFFFF#32) <<< 2 = target.toBitVec &&& 0x0FFFFFFC#32
    rw [BitVec.shiftLeft_and_distrib, BitVec.shiftLeft_ushiftRight, BitVec.and_assoc]
    rfl
  calc jumpTarget ⟨regionJump operation target⟩ pc
      = target &&& 0xF0000000 ||| target &&& 0x0FFFFFFC := by
        rw [jumpTarget, hfield, ← hregion, hback]
    _ = target &&& 0xF0000000 ||| target &&& 0x0FFFFFFC ||| target &&& 3 := by
        rw [hword, UInt32.or_zero]
    _ = target &&& (0xF0000000 ||| 0x0FFFFFFC ||| 3) := by
        apply UInt32.toBitVec_inj.mp
        simp only [UInt32.toBitVec_or, UInt32.toBitVec_and, BitVec.and_or_distrib_left]
    _ = target := UInt32.and_neg_one

/-- The target of a branch lies so many instructions behind its delay slot. -/
theorem branchTarget_eq {i : Instr} {v : Int16} (h : i.offset = v.toInt32) (pc : UInt32) :
    i.branchTarget pc = UInt32.ofInt (pc.toNat + 4 + 4 * v.toInt) := by
  have hpc : UInt32.ofInt pc.toNat = pc := by
    apply UInt32.toNat_inj.mp
    have hlt := pc.toNat_lt
    have hmod : ((pc.toNat : Int) % 2 ^ 32).toNat = pc.toNat := by omega
    show (UInt32.ofNat ((pc.toNat : Int) % 2 ^ 32).toNat).toNat = pc.toNat
    rw [hmod, UInt32.ofNat_toNat]
  calc i.branchTarget pc
      = pc + 4 + signedOperand v * 4 := by
        rw [branchTarget, h]
        rfl
    _ = UInt32.ofInt pc.toNat + 4 + 4 * UInt32.ofInt v.toInt := by
        rw [hpc, signedOperand_eq, UInt32.mul_comm]
    _ = UInt32.ofInt (pc.toNat + 4 + 4 * v.toInt) := by
        rw [UInt32.ofInt_add, UInt32.ofInt_add, UInt32.ofInt_mul]
        rfl

theorem major_regionJump {operation target : UInt32} (hop : operation &&& 0x3F = operation) :
    major ⟨regionJump operation target⟩ = operation := by
  rw [major_eq, regionJump, major_eq_bitsAt hop]
  simp (disch := decide) [bits_or, bits_apart, bits_self, hop]

/-- The code of a system request or a stop. -/
theorem code_withCode (code : Fin (2 ^ 20)) (funct : UInt32) (hfunct : funct &&& 0x3F = funct) :
    major ⟨withCode (operand code) funct⟩ = 0 ∧
      Instr.funct ⟨withCode (operand code) funct⟩ = funct ∧
      Instr.code ⟨withCode (operand code) funct⟩ = operand code := by
  have hcode : operand code &&& 0xFFFFF = operand code :=
    operand_and 20 (by decide) rfl code
  refine ⟨?_, ?_, ?_⟩
  · rw [major_eq, withCode]
    simp (disch := first | decide | assumption) [bits_or, bits_apart, bits_funct_apart]
  · simp (disch := first | decide | assumption)
      [withCode, Instr.funct, bits_or, bits_apart, bits_funct]
  · simp (disch := first | decide | assumption)
      [withCode, Instr.code, bits_or, bits_self, bits_funct_apart, hcode]

/-! ### Vector formats -/

theorem vectorField_operand (v : Fin 128) (p : UInt32) :
    vectorField (vectorOperand v) p = bitsAt (operand v) 0x7F p := by
  rw [vectorField]
  congr 1
  apply UInt32.toNat_inj.mp
  rw [UInt8.toNat_toUInt32, toNat_operand (by decide)]
  exact UInt8.toNat_ofNat_of_lt' (Nat.lt_trans v.isLt (by decide))

theorem toUInt8_operand {n : Nat} (hn : n ≤ 256) (v : Fin n) :
    (operand v).toUInt8 = vectorOperand v := by
  apply UInt8.toNat_inj.mp
  have hlt : v.val < 256 := Nat.lt_of_lt_of_le v.isLt hn
  rw [UInt32.toNat_toUInt8, toNat_operand (Nat.le_trans hn (by decide)), Nat.mod_eq_of_lt hlt]
  exact (UInt8.toNat_ofNat_of_lt' hlt).symm

theorem operand_and_seven (v : Fin 128) : operand v &&& 0x7F = operand v :=
  operand_and 7 (by decide) rfl v

/-- The bits of a size are read together, and by no other field. -/
theorem bits_sizeBits (size : VectorSize) :
    VectorSize.ofBits (bits ⟨sizeBits size⟩ 7 1 ||| bits ⟨sizeBits size⟩ 14 2) = size := by
  cases size <;> rfl

/-- The fields that the vector groups of three operands share. -/
structure VectorRegisters (i : Instr) (operation subop : UInt32) (size : VectorSize)
    (vs vt : Fin 128) : Prop where
  major : i.major = operation
  subop : i.vectorSubop = subop
  size : i.vectorSize = size
  vs : i.vs = vectorOperand vs
  vt : i.vt = vectorOperand vt

theorem vectorThree {operation subop : UInt32} (hop : operation &&& 0x3F = operation)
    (hsubop : subop &&& 7 = subop) (size : VectorSize) (vd vs vt : Fin 128) (condition : UInt32) :
    VectorRegisters ⟨Encode.vectorThree operation subop size (vectorOperand vd) (vectorOperand vs)
      (vectorOperand vt) ||| bitsAt condition 0xF 0⟩ operation subop size vs vt := by
  rw [Encode.vectorThree, major_eq_bitsAt hop, vectorField_operand, vectorField_operand,
    vectorField_operand]
  refine ⟨?_, ?_, ?_, ?_, ?_⟩
  · rw [major_eq]
    simp (disch := decide) [bits_or, bits_apart, bits_self, sizeBits, hop]
  · simp (disch := decide) [vectorSubop, bits_or, bits_apart, bits_self, sizeBits, hsubop]
  · simp (disch := decide) [vectorSize, bits_or, bits_apart, bits_sizeBits]
  · simp (disch := decide) [Instr.vs, bits_or, bits_apart, bits_self, sizeBits,
      operand_and_seven, toUInt8_operand]
  · simp (disch := decide) [Instr.vt, bits_or, bits_apart, bits_self, sizeBits,
      operand_and_seven, toUInt8_operand]

/-- The destination of a vector group of three operands. -/
theorem vd_vectorThree {operation subop : UInt32} (hop : operation &&& 0x3F = operation)
    (size : VectorSize) (vd vs vt : Fin 128) :
    Instr.vd ⟨Encode.vectorThree operation subop size (vectorOperand vd) (vectorOperand vs)
      (vectorOperand vt)⟩ = vectorOperand vd := by
  rw [Encode.vectorThree, major_eq_bitsAt hop, vectorField_operand, vectorField_operand,
    vectorField_operand]
  simp (disch := decide) [Instr.vd, sizeBits, bits_or, bits_apart, bits_self, operand_and_seven,
    toUInt8_operand]

/-- The condition of a compare stands where other groups have their destination. -/
theorem condition_vectorThree {operation subop : UInt32} (hop : operation &&& 0x3F = operation)
    (size : VectorSize) (vs vt : Fin 128) (condition : Fin 16) :
    bits ⟨Encode.vectorThree operation subop size 0 (vectorOperand vs) (vectorOperand vt) |||
      bitsAt (operand condition) 0xF 0⟩ 0 0xF = operand condition := by
  rw [Encode.vectorThree, major_eq_bitsAt hop, vectorField_operand, vectorField_operand, vectorField]
  simp (disch := decide) [sizeBits, bits_or, bits_apart, bits_self, operand_and_four]

/-- The fields of the vector group of two operands. -/
structure VectorPair (i : Instr) (code : UInt32) (size : VectorSize) (vd vs : Fin 128) : Prop where
  major : i.major = 0x34
  rs : i.rs = 0
  code : i.unaryCode = code
  size : i.vectorSize = size
  vd : i.vd = vectorOperand vd
  vs : i.vs = vectorOperand vs

theorem vectorTwo {code : UInt32} (hcode : code &&& 0x1F = code) (size : VectorSize)
    (vd vs : Fin 128) :
    VectorPair ⟨Encode.vectorTwo code size (vectorOperand vd) (vectorOperand vs)⟩ code size vd vs := by
  rw [Encode.vectorTwo, major_eq_bitsAt rfl, vectorField_operand, vectorField_operand]
  refine ⟨?_, register_of_bits (r := 0) ?_, ?_, ?_, ?_, ?_⟩
  · rw [major_eq]
    simp (disch := decide) [sizeBits, bits_or, bits_apart, bits_self]
    rfl
  · simp (disch := decide) [sizeBits, bits_or, bits_apart, operand]
  · simp (disch := decide) [unaryCode, sizeBits, bits_or, bits_apart, bits_self, hcode]
  · simp (disch := decide) [vectorSize, bits_or, bits_apart, bits_sizeBits]
  · simp (disch := decide) [Instr.vd, sizeBits, bits_or, bits_apart, bits_self, operand_and_seven,
      toUInt8_operand]
  · simp (disch := decide) [Instr.vs, sizeBits, bits_or, bits_apart, bits_self, operand_and_seven,
      toUInt8_operand]

/-- The fields of a pending modifier. -/
theorem modifier_fields (slot : UInt32) (hslot : slot &&& 3 = slot) (data : Fin (2 ^ 20)) :
    major ⟨Encode.major 0x37 ||| bitsAt slot 3 24 ||| bitsAt (operand data) 0xFFFFF 0⟩ = 0x37 ∧
      bits ⟨Encode.major 0x37 ||| bitsAt slot 3 24 ||| bitsAt (operand data) 0xFFFFF 0⟩ 24 3 = slot ∧
      bits ⟨Encode.major 0x37 ||| bitsAt slot 3 24 ||| bitsAt (operand data) 0xFFFFF 0⟩ 0 0xFFFFF =
        operand data := by
  have hdata : operand data &&& 0xFFFFF = operand data :=
    operand_and 20 (by decide) rfl data
  rw [major_eq_bitsAt rfl]
  refine ⟨?_, ?_, ?_⟩
  · rw [major_eq]
    simp (disch := decide) [bits_or, bits_apart, bits_self]
    rfl
  · simp (disch := decide) [bits_or, bits_apart, bits_self, hslot]
  · simp (disch := decide) [bits_or, bits_apart, bits_self, hdata]

/-- The fields that loads and stores of vector elements share. -/
structure VectorAccess (i : Instr) (operation : UInt32) (rs : Fin 32) (v : Int16) : Prop where
  major : i.major = operation
  rs : i.rs = rs
  offset : i.vectorOffset = v.toInt32

/-- An aligned offset loses nothing with its two lowest bits. -/
theorem signExtend16_aligned {v : Int16} (hv : v.toInt % 4 = 0) :
    signExtend16 (signedOperand v &&& 0xFFFC) = v.toInt32 := by
  have hlow : signedOperand v &&& 3 = 0 := by
    apply UInt32.toNat_inj.mp
    rw [UInt32.toNat_and, signedOperand_eq]
    show (UInt32.ofNat (v.toInt % 2 ^ 32).toNat).toNat &&& (2 ^ 2 - 1) = 0
    rw [Nat.and_two_pow_sub_one_eq_mod, UInt32.toNat_ofNat_of_lt']
    · omega
    · show (v.toInt % 2 ^ 32).toNat < 2 ^ 32
      omega
  have hwhole : signedOperand v &&& 0xFFFC = signedOperand v &&& 0xFFFF := by
    calc signedOperand v &&& 0xFFFC
        = signedOperand v &&& 0xFFFC ||| signedOperand v &&& 3 := by rw [hlow, UInt32.or_zero]
      _ = signedOperand v &&& (0xFFFC ||| 3) :=
          UInt32.toBitVec_inj.mp BitVec.and_or_distrib_left.symm
  rw [hwhole, signExtend16_and, signExtend16_signedOperand]

theorem vectorAccess {operation low : UInt32} (hop : operation &&& 0x3F = operation)
    (hlow : low = 3 ∨ low = 1) (vt : UInt8) (rs : Fin 32) {v : Int16} (hv : v.toInt % 4 = 0) :
    VectorAccess ⟨vectorMemory operation vt (operand rs) (signedOperand v) low⟩ operation rs v := by
  have hoffset : bits ⟨vectorMemory operation vt (operand rs) (signedOperand v) low⟩ 0 0xFFFC =
      signedOperand v &&& 0xFFFC := by
    rw [vectorMemory, major_eq_bitsAt hop]
    rcases hlow with rfl | rfl <;> simp (disch := decide) [bits_or, bits_apart, bits_self]
  refine ⟨?_, register_of_bits ?_, ?_⟩
  · rw [major_eq, vectorMemory, major_eq_bitsAt hop]
    rcases hlow with rfl | rfl <;> simp (disch := decide) [bits_or, bits_apart, bits_self, hop]
  · rw [vectorMemory, major_eq_bitsAt hop]
    rcases hlow with rfl | rfl <;>
      simp (disch := decide) [bits_or, bits_apart, bits_self, operand_and_five]
  · have hword := (congrArg (· &&& (0xFFFC : UInt32)) UInt32.shiftRight_zero).symm.trans hoffset
    rw [vectorOffset]
    exact (congrArg signExtend16 hword).trans (signExtend16_aligned hv)

/-- A register of a single element, put together from its two fields. -/
theorem elementReg_vectorMemory {operation : UInt32} (hop : operation &&& 0x3F = operation)
    (vt : Fin 128) (rs : Fin 32) (offset : UInt32) :
    elementReg ⟨vectorMemory operation (vectorOperand vt) (operand rs) offset 3⟩ =
      vectorOperand vt := by
  have hjoin : ∀ v : Fin 128, vectorOperand v &&& 0x1F |||
      (((vectorOperand v).toUInt32 >>> (5 : UInt32)).toUInt8 &&& (3 : UInt8)) <<< (5 : UInt8) =
        vectorOperand v := by
    decide +kernel
  refine Eq.trans ?_ (hjoin vt)
  rw [elementReg, vectorMemory, major_eq_bitsAt hop]
  simp (disch := decide) [bits_or, bits_apart, bits_self]

theorem quadReg_vectorMemory {operation : UInt32} (hop : operation &&& 0x3F = operation)
    (vt : Fin 64) (rs : Fin 32) (offset : UInt32) :
    quadReg ⟨vectorMemory operation (vectorOperand vt) (operand rs) offset 1⟩ =
      vectorOperand vt := by
  have hjoin : ∀ v : Fin 64, vectorOperand v &&& 0x1F |||
      (((vectorOperand v).toUInt32 >>> (5 : UInt32)).toUInt8 &&& (1 : UInt8)) <<< (5 : UInt8) =
        vectorOperand v := by
    decide +kernel
  refine Eq.trans ?_ (hjoin vt)
  rw [quadReg, vectorMemory, major_eq_bitsAt hop]
  simp (disch := decide) [bits_or, bits_apart, bits_self]

/-- The fields of a move between the units. -/
structure VectorMove (i : Instr) (direction rt : Fin 32) (selector : UInt32) : Prop where
  major : i.major = 0x12
  rs : i.rs = direction
  rt : i.rt = rt
  selector : i.moveSelector = selector

theorem moveElement (direction rt : Fin 32) (vd : Fin 128) :
    VectorMove ⟨Encode.vectorMove (operand direction) (operand rt) (vectorField (vectorOperand vd) 0)⟩
      direction rt (operand vd) := by
  rw [Encode.vectorMove, major_eq_bitsAt rfl, vectorField_operand]
  refine ⟨?_, register_of_bits ?_, register_of_bits ?_, ?_⟩
  · rw [major_eq]
    simp (disch := decide) [bits_or, bits_apart, bits_self]
    rfl
  · simp (disch := decide) [bits_or, bits_apart, bits_self, operand_and_five]
  · simp (disch := decide) [bits_or, bits_apart, bits_self, operand_and_five]
  · simp (disch := decide) [moveSelector, bits_or, bits_apart, bits_self]
    exact operand_and_seven vd

theorem moveControlWord (direction rt : Fin 32) (control : Fin 128) :
    VectorMove ⟨Encode.vectorMove (operand direction) (operand rt)
      (0x80 ||| bitsAt (operand control) 0x7F 0)⟩ direction rt (0x80 ||| operand control) := by
  have htop : (0x80 : UInt32) = bitsAt 1 1 7 := rfl
  rw [Encode.vectorMove, major_eq_bitsAt rfl, htop]
  refine ⟨?_, register_of_bits ?_, register_of_bits ?_, ?_⟩
  · rw [major_eq]
    simp (disch := decide) [bits_or, bits_apart, bits_self]
    rfl
  · simp (disch := decide) [bits_or, bits_apart, bits_self, operand_and_five]
  · simp (disch := decide) [bits_or, bits_apart, bits_self, operand_and_five]
  · simp (disch := decide) [moveSelector, bits_or, bits_apart, bits_self, ← htop]
    exact congrArg (0x80 ||| ·) (operand_and_seven control)

/-- The fields of a branch on a bit of the condition word. -/
structure ConditionBranch (i : Instr) (bit : Fin 8) (expected likely : UInt32) (v : Int16) : Prop where
  major : i.major = 0x12
  rs : i.rs = 8
  bit : i.bits 18 7 = operand bit
  expected : i.bits 16 1 = expected
  likely : i.bits 17 1 = likely
  offset : i.offset = v.toInt32

theorem conditionBranch {expected likely : UInt32} (hexpected : expected &&& 1 = expected)
    (hlikely : likely &&& 1 = likely) (bit : Fin 8) (v : Int16) :
    ConditionBranch ⟨vectorBranch (operand bit) expected likely (signedOperand v)⟩ bit expected likely
      v := by
  have hbit : operand bit &&& 7 = operand bit := operand_and 3 (by decide) rfl bit
  rw [vectorBranch, major_eq_bitsAt rfl]
  refine ⟨?_, register_of_bits (r := 8) ?_, ?_, ?_, ?_, ?_⟩
  · rw [major_eq]
    simp (disch := decide) [bits_or, bits_apart, bits_self]
    rfl
  · simp (disch := decide) [bits_or, bits_apart, bits_self]
    rfl
  · simp (disch := decide) [bits_or, bits_apart, bits_self, hbit]
  · simp (disch := decide) [bits_or, bits_apart, bits_self, hexpected]
  · simp (disch := decide) [bits_or, bits_apart, bits_self, hlikely]
  · rw [offset_eq, ← signExtend16_signedOperand, ← signExtend16_and (signedOperand v)]
    simp (disch := decide) [bits_or, bits_apart, bits_self]

/-! ### Modifier words -/

/-- A part moves up as a whole. -/
theorem bitsAt_shiftLeft (v mask : UInt32) {p q : UInt32} (h : p.toNat + q.toNat < 32) :
    bitsAt v mask p <<< q = bitsAt v mask (p + q) :=
  (UInt32.shiftLeft_add_of_toNat_lt h).symm

/-- Four lane codes stand one behind the other. -/
theorem lanePairs_ofFn (codes : Fin 4 → Fin 4) :
    lanePairs (List.ofFn fun l => operand (codes l)) =
      bitsAt (operand (codes 3)) 3 6 ||| bitsAt (operand (codes 2)) 3 4 |||
        bitsAt (operand (codes 1)) 3 2 ||| bitsAt (operand (codes 0)) 3 0 := by
  simp only [lanePairs, List.ofFn_succ, List.ofFn_zero, List.foldr_cons, List.foldr_nil,
    UInt32.shiftLeft_or, UInt32.zero_shiftLeft, UInt32.zero_or]
  simp (disch := decide) only [bitsAt_shiftLeft]
  rfl

/-- A part that lies under a mask. -/
theorem bitsAt_and {v mask p m : UInt32} (h : mask <<< p &&& m = mask <<< p) :
    bitsAt v mask p &&& m = bitsAt v mask p := by
  rw [bitsAt, UInt32.shiftLeft_and, UInt32.and_assoc, h]

/-- A word of twenty bits is the data of a modifier. -/
theorem exists_operand {w : UInt32} (h : w &&& 0xFFFFF = w) :
    ∃ data : Fin (2 ^ 20), w = operand data := by
  have hlt : w.toNat < 2 ^ 20 := by
    rw [← h, UInt32.toNat_and]
    exact Nat.lt_of_le_of_lt Nat.and_le_right (by decide)
  exact ⟨⟨w.toNat, hlt⟩, UInt32.ofNat_toNat.symm⟩

theorem sourceModifier_fits (lanes : Fin 4 → Fin 4) (abs constant negate : Fin 16) :
    ∃ data : Fin (2 ^ 20),
      sourceModifier (List.ofFn fun l => operand (lanes l)) (operand abs) (operand constant)
        (operand negate) = operand data := by
  apply exists_operand
  rw [sourceModifier, lanePairs_ofFn]
  simp (disch := decide) only [or_and, bitsAt_and]

theorem destinationModifier_fits (clamps : Fin 4 → Fin 4) (mask : Fin 16) :
    ∃ data : Fin (2 ^ 20),
      destinationModifier (List.ofFn fun l => operand (clamps l)) (operand mask) = operand data := by
  apply exists_operand
  rw [destinationModifier, lanePairs_ofFn]
  simp (disch := decide) only [or_and, bitsAt_and]

/-- One bit of a mask with a bit for every lane. -/
theorem testBit_of_bits {i : Instr} {p : Nat} (hp : p + 4 ≤ 32) {mask : Fin 16}
    (h : i.bits (UInt32.ofNat p) 0xF = operand mask) (lane : Fin 4) :
    LaneModifier.testBit i.word (p + lane.val) = mask.val.testBit lane.val := by
  have hroom : (UInt32.ofNat p).toNat + (UInt32.ofNat lane.val).toNat < 32 := by
    rw [UInt32.toNat_ofNat_of_lt', UInt32.toNat_ofNat_of_lt']
    · omega
    · show lane.val < 2 ^ 32
      omega
    · show p < 2 ^ 32
      omega
  have hmask : ∀ lane : Fin 4, (0xF : UInt32) >>> UInt32.ofNat lane.val &&& 1 = 1 := by decide
  have hbit : ∀ (mask : Fin 16) (lane : Fin 4),
      (operand mask >>> UInt32.ofNat lane.val &&& 1 != 0) = mask.val.testBit lane.val := by
    decide +kernel
  calc LaneModifier.testBit i.word (p + lane.val)
      = i.bit (UInt32.ofNat p + UInt32.ofNat lane.val) := by rw [← UInt32.ofNat_add]; rfl
    _ = (operand mask >>> UInt32.ofNat lane.val &&& 1 != 0) := by
      rw [bit_inside i hroom (hmask lane), h]
    _ = mask.val.testBit lane.val := hbit mask lane

/-- A lane code stands in its place, whatever stands above all four. -/
theorem bits_lanePairs (codes : Fin 4 → Fin 4) {rest : UInt32}
    (hrest : ∀ lane : Fin 4, bits ⟨rest⟩ (UInt32.ofNat (lane.val * 2)) 3 = 0) (lane : Fin 4) :
    bits ⟨lanePairs (List.ofFn fun l => operand (codes l)) ||| rest⟩ (UInt32.ofNat (lane.val * 2)) 3 =
      operand (codes lane) := by
  have hcode : ∀ code : Fin 4, operand code &&& 3 = operand code :=
    operand_and 2 (by decide) rfl
  rw [bits_or, hrest, UInt32.or_zero, lanePairs_ofFn]
  match lane with
  | 0 =>
    show bits ⟨_⟩ 0 3 = _
    simp (disch := decide) [bits_or, bits_apart, bits_self, hcode]
  | 1 =>
    show bits ⟨_⟩ 2 3 = _
    simp (disch := decide) [bits_or, bits_apart, bits_self, hcode]
  | 2 =>
    show bits ⟨_⟩ 4 3 = _
    simp (disch := decide) [bits_or, bits_apart, bits_self, hcode]
  | 3 =>
    show bits ⟨_⟩ 6 3 = _
    simp (disch := decide) [bits_or, bits_apart, bits_self, hcode]

/-- The masks of a modifier do not reach into the lane codes. -/
theorem masks_above (v mask : UInt32) {p : UInt32}
    (h : ∀ lane : Fin 4, mask <<< p >>> UInt32.ofNat (lane.val * 2) &&& 3 = 0) (lane : Fin 4) :
    bits ⟨bitsAt v mask p⟩ (UInt32.ofNat (lane.val * 2)) 3 = 0 :=
  bits_apart (h lane)

/-- **A source modifier gives back, lane by lane, what it was made of.** -/
theorem ofWord_sourceModifier (lanes : Fin 4 → Fin 4) (abs constant negate : Fin 16)
    (lane : Fin 4) :
    LaneModifier.ofWord (sourceModifier (List.ofFn fun l => operand (lanes l)) (operand abs)
      (operand constant) (operand negate)) lane.val =
      ⟨lanes lane, abs.val.testBit lane.val, constant.val.testBit lane.val,
        negate.val.testBit lane.val⟩ := by
  generalize hword : sourceModifier (List.ofFn fun l => operand (lanes l)) (operand abs)
    (operand constant) (operand negate) = w
  have hlane : bits ⟨w⟩ (UInt32.ofNat (lane.val * 2)) 3 = operand (lanes lane) := by
    rw [← hword, sourceModifier, UInt32.or_assoc, UInt32.or_assoc]
    refine bits_lanePairs lanes (fun l => ?_) lane
    rw [bits_or, bits_or, masks_above _ _ (by decide), masks_above _ _ (by decide),
      masks_above _ _ (by decide)]
    rfl
  have habs : bits ⟨w⟩ (UInt32.ofNat 8) 0xF = operand abs := by
    rw [← hword, sourceModifier, lanePairs_ofFn]
    show bits ⟨_⟩ 8 0xF = _
    simp (disch := decide) [bits_or, bits_apart, bits_self, operand_and_four]
  have hconstant : bits ⟨w⟩ (UInt32.ofNat 12) 0xF = operand constant := by
    rw [← hword, sourceModifier, lanePairs_ofFn]
    show bits ⟨_⟩ 12 0xF = _
    simp (disch := decide) [bits_or, bits_apart, bits_self, operand_and_four]
  have hnegate : bits ⟨w⟩ (UInt32.ofNat 16) 0xF = operand negate := by
    rw [← hword, sourceModifier, lanePairs_ofFn]
    show bits ⟨_⟩ 16 0xF = _
    simp (disch := decide) [bits_or, bits_apart, bits_self, operand_and_four]
  have hcode : Fin.ofNat 4 (w >>> UInt32.ofNat (lane.val * 2)).toNat = lanes lane := by
    apply Fin.ext
    calc (w >>> UInt32.ofNat (lane.val * 2)).toNat % 2 ^ 2
        = (bits ⟨w⟩ (UInt32.ofNat (lane.val * 2)) 3).toNat := (toNat_and_mask 2 rfl _).symm
      _ = (lanes lane).val := by rw [hlane, toNat_operand (by decide)]
  rw [LaneModifier.ofWord, hcode, testBit_of_bits (i := ⟨w⟩) (by decide) habs,
    testBit_of_bits (i := ⟨w⟩) (by decide) hconstant, testBit_of_bits (i := ⟨w⟩) (by decide) hnegate]

/-- **A destination modifier gives back, lane by lane, what it was made of.** -/
theorem lane_destinationModifier (clamps : Fin 4 → Fin 4) (mask : Fin 16) (lane : Fin 4) :
    clampCode (destinationModifier (List.ofFn fun l => operand (clamps l)) (operand mask)) lane.val =
        operand (clamps lane) ∧
      writeMasked (destinationModifier (List.ofFn fun l => operand (clamps l)) (operand mask))
        lane.val = mask.val.testBit lane.val := by
  have hmask : bits ⟨destinationModifier (List.ofFn fun l => operand (clamps l)) (operand mask)⟩
      (UInt32.ofNat 8) 0xF = operand mask := by
    rw [destinationModifier, lanePairs_ofFn]
    show bits ⟨_⟩ 8 0xF = _
    simp (disch := decide) [bits_or, bits_apart, bits_self, operand_and_four]
  exact ⟨bits_lanePairs clamps (masks_above _ _ (by decide)) lane,
    testBit_of_bits (by decide) hmask lane⟩

end Instr

end Dynarec
