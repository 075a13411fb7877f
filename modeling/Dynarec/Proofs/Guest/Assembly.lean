import Dynarec.Proofs.Guest.Core
import Dynarec.Proofs.Guest.Mnemonics

/-!
# Mnemonics and their words

An instruction as it is written is a mnemonic with operands of the exact width (`Assembly`).  What
it means is said here a second time, one mnemonic at a time and without any bit of a word: its
family, the operands that the interpreter finds (`Assembly.Reads`), and what it does with them
(`Assembly.Performs`), for a branch when it is taken, where it leads and what it links.

The main result is `Assembly.assembled`: every written instruction has a word, and the word is read
back as the instruction that was written.  Mnemonics with one format share one lemma about its
fields (`Instr.Registers`, `Instr.Immediate` and so on), so that only the function codes are gone
through one by one.
-/

namespace Dynarec

/-! ### Written instructions -/

/-- A field of bits that lies in a word. -/
structure BitRange where
  pos : Fin 32
  size : Nat
  nonempty : 1 ≤ size
  fits : pos.val + size ≤ 32

namespace BitRange

/-- The width less one, as it is encoded for an extraction. -/
def width (r : BitRange) : Fin 32 := ⟨r.size - 1, by have := r.fits; have := r.nonempty; omega⟩

/-- The position of the last bit, as it is encoded for an insertion. -/
def last (r : BitRange) : Fin 32 :=
  ⟨r.pos.val + r.size - 1, by have := r.fits; have := r.nonempty; omega⟩

end BitRange

/-- An offset that leaves the two lowest bits of a word for other uses. -/
structure WordOffset where
  value : Int16
  aligned : value.toInt % 4 = 0

/-- **An instruction as it is written.** -/
inductive Assembly where
  | nop
  | shift (op : Mnemonic.Shift) (rd rt shamt : Fin 32)
  | shiftBy (op : Mnemonic.ShiftBy) (rd rt rs : Fin 32)
  | arithmetic (op : Mnemonic.Arithmetic) (rd rs rt : Fin 32)
  | leading (op : Mnemonic.Leading) (rd rs : Fin 32)
  | product (op : Mnemonic.Product) (rs rt : Fin 32)
  | fromHalf (op : Mnemonic.Half) (rd : Fin 32)
  | toHalf (op : Mnemonic.Half) (rs : Fin 32)
  | ext (rt rs : Fin 32) (range : BitRange)
  | ins (rt rs : Fin 32) (range : BitRange)
  | extend (op : Mnemonic.Extend) (rd rt : Fin 32)
  | signed (op : Mnemonic.Signed) (rt rs : Fin 32) (value : Int16)
  | logic (op : Mnemonic.Logic) (rt rs : Fin 32) (value : UInt16)
  | lui (rt : Fin 32) (value : UInt16)
  | load (op : Mnemonic.Load) (rt rs : Fin 32) (offset : Int16)
  | store (op : Mnemonic.Store) (rt rs : Fin 32) (offset : Int16)
  | compare (op : Mnemonic.Compare) (rs rt : Fin 32) (offset : Int16)
  | compareZero (op : Mnemonic.CompareZero) (rs : Fin 32) (offset : Int16)
  | sign (op : Mnemonic.Sign) (rs : Fin 32) (offset : Int16)
  | j (target : UInt32)
  | jal (target : UInt32)
  | jr (rs : Fin 32)
  | jalr (rd rs : Fin 32)
  | syscall (code : Fin (2 ^ 20))
  | brk (code : Fin (2 ^ 20))
  | sync
  | vectorBinary (op : Mnemonic.VectorBinary) (size : VectorSize) (vd vs vt : Fin 128)
  | vcmp (size : VectorSize) (test : Fin 16) (vs vt : Fin 128)
  | vectorUnary (op : Mnemonic.VectorUnary) (size : VectorSize) (vd vs : Fin 128)
  | vectorConstant (op : Mnemonic.VectorConstant) (size : VectorSize) (vd : Fin 128)
  | modifier (slot : ModifierSlot) (data : Fin (2 ^ 20))
  | lvS (vt : Fin 128) (rs : Fin 32) (offset : WordOffset)
  | svS (vt : Fin 128) (rs : Fin 32) (offset : WordOffset)
  | lvQ (vt : Fin 64) (rs : Fin 32) (offset : WordOffset)
  | svQ (vt : Fin 64) (rs : Fin 32) (offset : WordOffset)
  | mfv (rt : Fin 32) (vd : Fin 128)
  | mtv (rt : Fin 32) (vd : Fin 128)
  | mfvc (rt : Fin 32) (control : Fin 128)
  | mtvc (rt : Fin 32) (control : Fin 128)
  | condition (op : Mnemonic.Condition) (bit : Fin 8) (offset : Int16)

namespace Assembly

/-- The word of a written instruction. -/
def encode : Assembly → Except Violation UInt32
  | nop => .ok Encode.nop
  | shift op rd rt shamt => .ok (op.encode (operand rd) (operand rt) (operand shamt))
  | shiftBy op rd rt rs => .ok (op.encode (operand rd) (operand rt) (operand rs))
  | arithmetic op rd rs rt => .ok (op.encode (operand rd) (operand rs) (operand rt))
  | leading op rd rs => .ok (op.encode (operand rd) (operand rs))
  | product op rs rt => .ok (op.encode (operand rs) (operand rt))
  | fromHalf op rd => .ok (op.encodeFrom (operand rd))
  | toHalf op rs => .ok (op.encodeTo (operand rs))
  | ext rt rs range =>
    Encode.ext (operand rt) (operand rs) (operand range.pos) (UInt32.ofNat range.size)
  | ins rt rs range =>
    Encode.ins (operand rt) (operand rs) (operand range.pos) (UInt32.ofNat range.size)
  | extend op rd rt => .ok (op.encode (operand rd) (operand rt))
  | signed op rt rs value => .ok (op.encode (operand rt) (operand rs) (signedOperand value))
  | logic op rt rs value => .ok (op.encode (operand rt) (operand rs) value.toUInt32)
  | lui rt value => .ok (Encode.lui (operand rt) value.toUInt32)
  | load op rt rs offset => .ok (op.encode (operand rt) (operand rs) (signedOperand offset))
  | store op rt rs offset => .ok (op.encode (operand rt) (operand rs) (signedOperand offset))
  | compare op rs rt offset => .ok (op.encode (operand rs) (operand rt) (signedOperand offset))
  | compareZero op rs offset => .ok (op.encode (operand rs) (signedOperand offset))
  | sign op rs offset => .ok (op.encode (operand rs) (signedOperand offset))
  | j target => .ok (Encode.j target)
  | jal target => .ok (Encode.jal target)
  | jr rs => .ok (Encode.jr (operand rs))
  | jalr rd rs => .ok (Encode.jalr (operand rd) (operand rs))
  | syscall code => .ok (Encode.syscall (operand code))
  | brk code => .ok (Encode.brk (operand code))
  | sync => .ok Encode.sync
  | vectorBinary op size vd vs vt =>
    .ok (op.encode size (vectorOperand vd) (vectorOperand vs) (vectorOperand vt))
  | vcmp size test vs vt =>
    .ok (Encode.vcmp size (operand test) (vectorOperand vs) (vectorOperand vt))
  | vectorUnary op size vd vs => .ok (op.encode size (vectorOperand vd) (vectorOperand vs))
  | vectorConstant op size vd => .ok (op.encode size (vectorOperand vd))
  | modifier slot data => .ok (Mnemonic.setModifier slot (operand data))
  | lvS vt rs offset => .ok (Encode.lvS (vectorOperand vt) (operand rs) (signedOperand offset.value))
  | svS vt rs offset => .ok (Encode.svS (vectorOperand vt) (operand rs) (signedOperand offset.value))
  | lvQ vt rs offset => .ok (Encode.lvQ (vectorOperand vt) (operand rs) (signedOperand offset.value))
  | svQ vt rs offset => .ok (Encode.svQ (vectorOperand vt) (operand rs) (signedOperand offset.value))
  | mfv rt vd => .ok (Encode.mfv (operand rt) (vectorOperand vd))
  | mtv rt vd => .ok (Encode.mtv (operand rt) (vectorOperand vd))
  | mfvc rt control => .ok (Encode.mfvc (operand rt) (operand control))
  | mtvc rt control => .ok (Encode.mtvc (operand rt) (operand control))
  | condition op bit offset => .ok (op.encode (operand bit) (signedOperand offset))

/-- The family of a written instruction. -/
def family : Assembly → Family
  | nop | shift .. | shiftBy .. => .shift
  | arithmetic .. => .arithmetic
  | leading .. => .countLeading
  | product .. | fromHalf .. | toHalf .. => .multiplyDivide
  | ext .. | ins .. => .bitField
  | extend .. => .signExtend
  | signed .. | logic .. | lui .. => .immediate
  | load .. | store .. => .memory
  | compare .. | compareZero .. => .branch
  | sign .. => .branchSign
  | j _ | jal _ => .jump
  | jr _ | jalr .. => .jumpRegister
  | syscall _ => .syscall
  | brk _ => .breakpoint
  | sync => .sync
  | vectorBinary .. => .vectorBinary
  | vcmp .. => .vectorCompare
  | vectorUnary .. | vectorConstant .. => .vectorUnary
  | modifier .. => .vectorModifier
  | lvS .. | svS .. => .elementMemory
  | lvQ .. | svQ .. => .quadMemory
  | mfv .. | mtv .. | mfvc .. | mtvc .. => .vectorMove
  | condition .. => .vectorBranch

/-- Where a branch at `pc` leads: so many instructions behind its delay slot. -/
def branchAddress (offset : Int16) (pc : UInt32) : UInt32 :=
  UInt32.ofInt (pc.toNat + 4 + 4 * offset.toInt)

/-- A jump from `pc` can reach `target`: it lies at a word of the region of the delay slot. -/
def InRegion (target pc : UInt32) : Prop :=
  target &&& 3 = 0 ∧ target &&& 0xF0000000 = (pc + 4) &&& 0xF0000000

/-- **The fields of the word are the operands.** -/
def Reads (i : Instr) : Assembly → Prop
  | nop => i.rd = 0 ∧ i.rt = 0 ∧ i.shamt = 0
  | shift _ rd rt shamt => i.rd = rd ∧ i.rt = rt ∧ i.shamt = operand shamt
  | shiftBy _ rd rt rs => i.rd = rd ∧ i.rt = rt ∧ i.rs = rs
  | arithmetic _ rd rs rt => i.rd = rd ∧ i.rs = rs ∧ i.rt = rt
  | leading _ rd rs => i.rd = rd ∧ i.rs = rs
  | product _ rs rt => i.rs = rs ∧ i.rt = rt
  | fromHalf _ rd => i.rd = rd
  | toHalf _ rs => i.rs = rs
  | ext rt rs range => i.rt = rt ∧ i.rs = rs ∧ i.shamt = operand range.pos ∧ i.rd = range.width
  | ins rt rs range => i.rt = rt ∧ i.rs = rs ∧ i.shamt = operand range.pos ∧ i.rd = range.last
  | extend _ rd rt => i.rd = rd ∧ i.rt = rt
  | signed _ rt rs value => i.rt = rt ∧ i.rs = rs ∧ i.offset = value.toInt32
  | logic _ rt rs value => i.rt = rt ∧ i.rs = rs ∧ i.immediate = value.toUInt32
  | lui rt value => i.rt = rt ∧ i.immediate = value.toUInt32
  | load _ rt rs offset | store _ rt rs offset =>
    i.rt = rt ∧ i.rs = rs ∧ i.offset = offset.toInt32
  | compare _ rs rt offset =>
    i.rs = rs ∧ i.rt = rt ∧ i.offset = offset.toInt32 ∧
      ∀ pc, i.branchTarget pc = branchAddress offset pc
  | compareZero _ rs offset | sign _ rs offset =>
    i.rs = rs ∧ i.offset = offset.toInt32 ∧ ∀ pc, i.branchTarget pc = branchAddress offset pc
  | j target | jal target => ∀ pc, InRegion target pc → i.jumpTarget pc = target
  | jr rs => i.rs = rs
  | jalr rd rs => i.rd = rd ∧ i.rs = rs
  | syscall code | brk code => i.code = operand code
  | sync => True
  | vectorBinary _ size vd vs vt =>
    i.vectorSize = size ∧ i.vd = vectorOperand vd ∧ i.vs = vectorOperand vs ∧
      i.vt = vectorOperand vt
  | vcmp size test vs vt =>
    i.vectorSize = size ∧ i.bits 0 0xF = operand test ∧ i.vs = vectorOperand vs ∧
      i.vt = vectorOperand vt
  | vectorUnary _ size vd vs =>
    i.vectorSize = size ∧ i.vd = vectorOperand vd ∧ i.vs = vectorOperand vs
  | vectorConstant _ size vd => i.vectorSize = size ∧ i.vd = vectorOperand vd
  | modifier _ data => i.bits 0 0xFFFFF = operand data
  | lvS vt rs offset | svS vt rs offset =>
    i.elementReg = vectorOperand vt ∧ i.rs = rs ∧ i.vectorOffset = offset.value.toInt32
  | lvQ vt rs offset | svQ vt rs offset =>
    i.quadReg = vectorOperand vt ∧ i.rs = rs ∧ i.vectorOffset = offset.value.toInt32
  | mfv rt vd | mtv rt vd => i.rt = rt ∧ i.moveSelector = operand vd
  | mfvc rt control | mtvc rt control =>
    i.rt = rt ∧ i.moveSelector = 0x80 ||| operand control ∧
      ∀ k : Fin 16, control.val = k.val → i.moveControl = k
  | condition _ bit offset =>
    i.bits 18 7 = operand bit ∧ i.offset = offset.toInt32 ∧
      ∀ pc, i.branchTarget pc = branchAddress offset pc

/-! ### What a written instruction does -/

/-- Executing the word changes the core in the given way. -/
def ChangesCore (i : Instr) (f : Core → Core) : Prop :=
  ∀ pc m, Machine.execute i pc m = m.withCore f

/-- Executing the word changes core and memory in the given way. -/
def ChangesMachine (i : Instr) (f : Core → Memory → Except Violation Machine) : Prop :=
  ∀ pc m, Machine.execute i pc m = m.withMemory fun m => f m.core m.memory

/-- The word is a branch with the given outcome and link. -/
def Branches (i : Instr) (taken : Core → Bool) (target : Core → UInt32 → UInt32) (likely : Bool)
    (link : Core → UInt32 → Core) : Prop :=
  ∀ c pc, c.branchOutcome i pc = ⟨taken c, target c pc, likely⟩ ∧ c.link i pc = link c pc

/-- **Executing the word does what the mnemonic says.** -/
def Performs (i : Instr) : Assembly → Prop
  | nop => ChangesCore i id
  | shift op rd rt shamt =>
    ChangesCore i fun c => c.setGpr rd (op.apply (c.gpr rt) (operand shamt))
  | shiftBy op rd rt rs =>
    ChangesCore i fun c => c.setGpr rd (op.apply (c.gpr rt) (c.gpr rs &&& 0x1F))
  | arithmetic op rd rs rt =>
    ChangesCore i fun c => ((op.result (c.gpr rs) (c.gpr rt)).map (c.setGpr rd)).getD c
  | leading op rd rs => ChangesCore i fun c => c.setGpr rd (op.apply (c.gpr rs))
  | product op rs rt =>
    ChangesCore i fun c =>
      let halves := op.apply (joinWords c.hi c.lo) (c.gpr rs) (c.gpr rt)
      { c with hi := halves.1, lo := halves.2 }
  | fromHalf op rd => ChangesCore i fun c => c.setGpr rd (c.reg op.reg)
  | toHalf op rs => ChangesCore i fun c => c.setReg op.reg (c.gpr rs)
  | ext rt rs range =>
    ChangesCore i fun c => c.setGpr rt (c.gpr rs >>> operand range.pos &&& lowMask range.size)
  | ins rt rs range =>
    ChangesCore i fun c =>
      let mask := lowMask range.size <<< operand range.pos
      c.setGpr rt (c.gpr rt &&& ~~~mask ||| c.gpr rs <<< operand range.pos &&& mask)
  | extend op rd rt => ChangesCore i fun c => c.setGpr rd (op.apply (c.gpr rt))
  | signed op rt rs value =>
    ChangesCore i fun c => c.setGpr rt (op.apply (c.gpr rs) (signedOperand value))
  | logic op rt rs value =>
    ChangesCore i fun c => c.setGpr rt (op.apply (c.gpr rs) value.toUInt32)
  | lui rt value => ChangesCore i fun c => c.setGpr rt (value.toUInt32 <<< 16)
  | load op rt rs offset =>
    ChangesMachine i fun c memory =>
      .ok ⟨c.setGpr rt (op.read memory (c.gpr rs + signedOperand offset)), memory⟩
  | store op rt rs offset =>
    ChangesMachine i fun c memory =>
      (op.write memory (c.gpr rs + signedOperand offset) (c.gpr rt)).map (Machine.mk c)
  | compare op rs rt offset =>
    Branches i (fun c => op.taken (c.gpr rs) (c.gpr rt)) (fun _ => branchAddress offset) op.likely
      fun c _ => c
  | compareZero op rs offset =>
    Branches i (fun c => op.taken (c.gpr rs)) (fun _ => branchAddress offset) op.likely fun c _ => c
  | sign op rs offset =>
    Branches i (fun c => op.taken (c.gpr rs)) (fun _ => branchAddress offset) op.likely fun c pc =>
      if op.links then c.setGpr 31 (pc + 8) else c
  | j _ => Branches i (fun _ => true) (fun _ => i.jumpTarget) false fun c _ => c
  | jal _ =>
    Branches i (fun _ => true) (fun _ => i.jumpTarget) false fun c pc => c.setGpr 31 (pc + 8)
  | jr rs => Branches i (fun _ => true) (fun c _ => c.gpr rs) false fun c _ => c
  | jalr rd rs =>
    Branches i (fun _ => true) (fun c _ => c.gpr rs) false fun c pc => c.setGpr rd (pc + 8)
  | syscall code => ∀ pc m, Machine.execute i pc m = .ok (.syscall (operand code)) m
  | brk _ => ∀ pc m, Machine.execute i pc m =
      .ok .breakpoint ⟨{ m.core with runState := .stopped pc }, m.memory⟩
  | sync => ∀ pc m, Machine.execute i pc m = .ok .normal m
  | vectorBinary op size vd vs vt =>
    ChangesCore i fun c =>
      (c.writeVector size (vectorOperand vd) (List.zipWith op.apply
        (c.readOperand size (vectorOperand vs) .source)
        (c.readOperand size (vectorOperand vt) .target))).clearModifiers
  | vcmp size test vs vt =>
    ChangesCore i fun c =>
      (c.setControl Core.conditionControl (mergeConditions c.condition
        (List.zipWith (compareLane (operand test))
          (c.readOperand size (vectorOperand vs) .source)
          (c.readOperand size (vectorOperand vt) .target)))).clearModifiers
  | vectorUnary op size vd vs =>
    ChangesCore i fun c =>
      (c.writeVector size (vectorOperand vd)
        ((c.readOperand size (vectorOperand vs) .source).map op.apply)).clearModifiers
  | vectorConstant op size vd =>
    ChangesCore i fun c =>
      (c.writeVector size (vectorOperand vd) (List.replicate size.lanes op.value)).clearModifiers
  | modifier slot data => ChangesCore i fun c => c.setModifier slot (operand data)
  | lvS vt rs offset =>
    ChangesMachine i fun c memory =>
      .ok ⟨Machine.loadElements c memory (c.gpr rs + signedOperand offset.value)
        (VectorSize.single.elements (vectorOperand vt)), memory⟩
  | svS vt rs offset =>
    ChangesMachine i fun c memory =>
      (Machine.storeElements c memory (c.gpr rs + signedOperand offset.value)
        (VectorSize.single.elements (vectorOperand vt))).map (Machine.mk c)
  | lvQ vt rs offset =>
    ChangesMachine i fun c memory =>
      .ok ⟨Machine.loadElements c memory (c.gpr rs + signedOperand offset.value)
        (VectorSize.quad.elements (vectorOperand vt)), memory⟩
  | svQ vt rs offset =>
    ChangesMachine i fun c memory =>
      (Machine.storeElements c memory (c.gpr rs + signedOperand offset.value)
        (VectorSize.quad.elements (vectorOperand vt))).map (Machine.mk c)
  | mfv rt vd =>
    ChangesCore i fun c =>
      c.setGpr rt (c.element (VectorSize.single.element (vectorOperand vd) 0)).bits
  | mtv rt vd =>
    ChangesCore i fun c =>
      c.setElement (VectorSize.single.element (vectorOperand vd) 0) ⟨c.gpr rt⟩
  | mfvc rt control =>
    if h : control.val < 16 then
      ChangesCore i fun c => c.setGpr rt (c.control ⟨control.val, h⟩)
    else ∀ pc m, Machine.execute i pc m = .error (.trap (.unimplemented i.word pc)) m
  | mtvc rt control =>
    if h : control.val < 16 then
      ChangesCore i fun c => c.setControl ⟨control.val, h⟩ (c.gpr rt)
    else ∀ pc m, Machine.execute i pc m = .error (.trap (.unimplemented i.word pc)) m
  | condition op bit offset =>
    Branches i (fun c => (c.condition >>> operand bit &&& 1) == flagWord op.expected)
      (fun _ => branchAddress offset) op.likely fun c _ => c

/-- **The word is read back as the written instruction**: into its family, with its operands, and
executed as its mnemonic says. -/
structure ReadAs (i : Instr) (a : Assembly) : Prop where
  family : i.family = a.family
  reads : a.Reads i
  performs : a.Performs i

/-! ### Words of three registers -/

section

variable {i : Instr} {rs rt rd shamt : Fin 32}

theorem changesCore_of {f g : Core → Core} (hexecute : ∀ pc m, Machine.execute i pc m = m.withCore g)
    (hsame : ∀ c, g c = f c) : ChangesCore i f := by
  intro pc m
  rw [hexecute, funext hsame]

theorem readAs_shift (op : Mnemonic.Shift)
    (h : Instr.Registers i 0 op.selector rt rd shamt op.funct) : ReadAs i (shift op rd rt shamt) := by
  have hfamily : i.family = .shift := h.family_special.trans (by cases op <;> rfl)
  refine ⟨hfamily, ⟨h.rd, h.rt, h.shamt⟩, changesCore_of (g := (·.executeShift i))
    (fun pc m => by simp only [Machine.execute, hfamily]) fun c => ?_⟩
  have hkind : i.bit 2 = false := by
    rw [show (2 : UInt32) = 0 + 2 from rfl, Instr.bit_inside (m := 0x3F) i (by decide) rfl,
      show i.bits 0 0x3F = op.funct from h.funct]
    cases op <;> rfl
  have hrotates : i.bit 21 = (operand op.selector &&& 1 != 0) := by
    rw [show (21 : UInt32) = 21 + 0 from rfl, Instr.bit_inside (m := 0x1F) i (by decide) rfl,
      h.rsBits, UInt32.shiftRight_zero]
  simp only [Core.executeShift, hkind, hrotates, h.rt, h.rd, h.shamt, h.funct]
  cases op <;> rfl

theorem readAs_shiftBy (op : Mnemonic.ShiftBy) (h : Instr.Registers i 0 rs rt rd 0 op.funct) :
    ReadAs i (shiftBy op rd rt rs) := by
  have hfamily : i.family = .shift := h.family_special.trans (by cases op <;> rfl)
  refine ⟨hfamily, ⟨h.rd, h.rt, h.rs⟩, changesCore_of (g := (·.executeShift i))
    (fun pc m => by simp only [Machine.execute, hfamily]) fun c => ?_⟩
  have hkind : i.bit 2 = true := by
    rw [show (2 : UInt32) = 0 + 2 from rfl, Instr.bit_inside (m := 0x3F) i (by decide) rfl,
      show i.bits 0 0x3F = op.funct from h.funct]
    cases op <;> rfl
  have hrotates : i.bit 6 = false := by
    rw [show (6 : UInt32) = 6 + 0 from rfl, Instr.bit_inside (m := 0x1F) i (by decide) rfl,
      show i.bits 6 0x1F = operand 0 from h.shamt]
    rfl
  simp only [Core.executeShift, hkind, hrotates, h.rt, h.rs, h.rd, h.funct]
  cases op <;> rfl

theorem readAs_arithmetic (op : Mnemonic.Arithmetic)
    (h : Instr.Registers i 0 rs rt rd 0 op.funct) : ReadAs i (arithmetic op rd rs rt) := by
  have hfamily : i.family = .arithmetic := h.family_special.trans (by cases op <;> rfl)
  refine ⟨hfamily, ⟨h.rd, h.rs, h.rt⟩, changesCore_of (g := (·.executeArithmetic i))
    (fun pc m => by simp only [Machine.execute, hfamily]) fun c => ?_⟩
  simp only [Core.executeArithmetic, h.rd, h.rs, h.rt, h.funct]
  cases op <;> try rfl
  -- A conditional move decides whether there is a value.
  all_goals
    simp only [Mnemonic.Arithmetic.result, Mnemonic.Arithmetic.funct]
    by_cases hzero : c.gpr rt = 0 <;> simp [hzero]

theorem readAs_leading (op : Mnemonic.Leading) (h : Instr.Registers i 0 rs 0 rd 0 op.funct) :
    ReadAs i (leading op rd rs) := by
  have hfamily : i.family = .countLeading := h.family_special.trans (by cases op <;> rfl)
  refine ⟨hfamily, ⟨h.rd, h.rs⟩, changesCore_of (g := (·.executeCountLeading i))
    (fun pc m => by simp only [Machine.execute, hfamily]) fun c => ?_⟩
  simp only [Core.executeCountLeading, h.rd, h.rs, h.funct]
  cases op <;> rfl

theorem readAs_product (op : Mnemonic.Product) (h : Instr.Registers i 0 rs rt 0 0 op.funct) :
    ReadAs i (product op rs rt) := by
  have hfamily : i.family = .multiplyDivide := h.family_special.trans (by cases op <;> rfl)
  refine ⟨hfamily, ⟨h.rs, h.rt⟩, changesCore_of (g := (·.executeMultiplyDivide i))
    (fun pc m => by simp only [Machine.execute, hfamily]) fun c => ?_⟩
  simp only [Core.executeMultiplyDivide, h.rs, h.rt, h.funct]
  cases op <;> rfl

theorem readAs_fromHalf (op : Mnemonic.Half) (h : Instr.Registers i 0 0 0 rd 0 op.functFrom) :
    ReadAs i (fromHalf op rd) := by
  have hfamily : i.family = .multiplyDivide := h.family_special.trans (by cases op <;> rfl)
  refine ⟨hfamily, h.rd, changesCore_of (g := (·.executeMultiplyDivide i))
    (fun pc m => by simp only [Machine.execute, hfamily]) fun c => ?_⟩
  simp only [Core.executeMultiplyDivide, h.rd, h.funct]
  cases op <;> rfl

theorem readAs_toHalf (op : Mnemonic.Half) (h : Instr.Registers i 0 rs 0 0 0 op.functTo) :
    ReadAs i (toHalf op rs) := by
  have hfamily : i.family = .multiplyDivide := h.family_special.trans (by cases op <;> rfl)
  refine ⟨hfamily, h.rs, changesCore_of (g := (·.executeMultiplyDivide i))
    (fun pc m => by simp only [Machine.execute, hfamily]) fun c => ?_⟩
  simp only [Core.executeMultiplyDivide, h.rs, h.funct]
  cases op <;> rfl

theorem readAs_jr (h : Instr.Registers i 0 rs 0 0 0 0x08) : ReadAs i (jr rs) := by
  have hfamily : i.family = .jumpRegister := h.family_special
  refine ⟨hfamily, h.rs, fun c pc => ⟨?_, ?_⟩⟩
  · simp only [Core.branchOutcome, hfamily, h.rs]
  · simp only [Core.link, hfamily, h.funct]
    rfl

theorem readAs_jalr (h : Instr.Registers i 0 rs 0 rd 0 0x09) : ReadAs i (jalr rd rs) := by
  have hfamily : i.family = .jumpRegister := h.family_special
  refine ⟨hfamily, ⟨h.rd, h.rs⟩, fun c pc => ⟨?_, ?_⟩⟩
  · simp only [Core.branchOutcome, hfamily, h.rs]
  · simp only [Core.link, hfamily, h.funct, h.rd]
    rfl

theorem readAs_extend (op : Mnemonic.Extend)
    (h : Instr.Registers i 0x1F 0 rt rd op.selector 0x20) : ReadAs i (extend op rd rt) := by
  have hfamily : i.family = .signExtend := by
    rw [Instr.family, h.major]
    simp only [Instr.familyBits, h.funct, h.shamt]
    cases op <;> rfl
  refine ⟨hfamily, ⟨h.rd, h.rt⟩, changesCore_of (g := (·.executeSignExtend i))
    (fun pc m => by simp only [Machine.execute, hfamily]) fun c => ?_⟩
  simp only [Core.executeSignExtend, h.rd, h.rt, h.shamt]
  cases op <;> rfl

theorem family_bitField {funct : UInt32} (hfunct : funct = 0 ∨ funct = 4)
    (h : Instr.Registers i 0x1F rs rt rd shamt funct) : i.family = .bitField := by
  rw [Instr.family, h.major]
  simp only [Instr.familyBits, h.funct]
  rcases hfunct with rfl | rfl <;> rfl

theorem readAs_ext (range : BitRange)
    (h : Instr.Registers i 0x1F rs rt range.width range.pos 0x00) : ReadAs i (ext rt rs range) := by
  have hfamily := family_bitField (.inl rfl) h
  refine ⟨hfamily, ⟨h.rt, h.rs, h.shamt, h.rd⟩, changesCore_of (g := (·.executeBitField i))
    (fun pc m => by simp only [Machine.execute, hfamily]) fun c => ?_⟩
  have hwidth : range.width.val + 1 = range.size := Nat.sub_add_cancel range.nonempty
  simp only [Core.executeBitField, h.rt, h.rs, h.shamt, h.rd, h.funct, hwidth]
  rfl

theorem readAs_ins (range : BitRange)
    (h : Instr.Registers i 0x1F rs rt range.last range.pos 0x04) : ReadAs i (ins rt rs range) := by
  have hfamily := family_bitField (.inr rfl) h
  refine ⟨hfamily, ⟨h.rt, h.rs, h.shamt, h.rd⟩, changesCore_of (g := (·.executeBitField i))
    (fun pc m => by simp only [Machine.execute, hfamily]) fun c => ?_⟩
  have hsize : range.last.val - (operand range.pos).toNat + 1 = range.size := by
    have hnonempty := range.nonempty
    rw [toNat_operand (by decide)]
    show range.pos.val + range.size - 1 - range.pos.val + 1 = range.size
    omega
  simp only [Core.executeBitField, h.rt, h.rs, h.shamt, h.rd, h.funct, hsize]
  rfl

/-! ### Words with an immediate -/

theorem readAs_signed (op : Mnemonic.Signed) {value : Int16}
    (h : Instr.Immediate i op.major rs rt (signedOperand value)) :
    ReadAs i (signed op rt rs value) := by
  have hfamily : i.family = .immediate := by
    rw [Instr.family, h.major]
    cases op <;> rfl
  refine ⟨hfamily, ⟨h.rt, h.rs, h.offset⟩, changesCore_of (g := (·.executeImmediate i))
    (fun pc m => by simp only [Machine.execute, hfamily]) fun c => ?_⟩
  simp only [Core.executeImmediate, h.rt, h.rs, h.offset, h.major]
  cases op <;> rfl

theorem readAs_logic (op : Mnemonic.Logic) {value : UInt16}
    (h : Instr.Immediate i op.major rs rt value.toUInt32) : ReadAs i (logic op rt rs value) := by
  have hvalue : i.immediate = value.toUInt32 := h.immediate.trans (Instr.halfOperand_and value)
  have hfamily : i.family = .immediate := by
    rw [Instr.family, h.major]
    cases op <;> rfl
  refine ⟨hfamily, ⟨h.rt, h.rs, hvalue⟩, changesCore_of (g := (·.executeImmediate i))
    (fun pc m => by simp only [Machine.execute, hfamily]) fun c => ?_⟩
  simp only [Core.executeImmediate, h.rt, h.rs, hvalue, h.major]
  cases op <;> rfl

theorem readAs_lui {value : UInt16} (h : Instr.Immediate i 0x0F 0 rt value.toUInt32) :
    ReadAs i (lui rt value) := by
  have hvalue : i.immediate = value.toUInt32 := h.immediate.trans (Instr.halfOperand_and value)
  have hfamily : i.family = .immediate := by
    rw [Instr.family, h.major]
    rfl
  refine ⟨hfamily, ⟨h.rt, hvalue⟩, changesCore_of (g := (·.executeImmediate i))
    (fun pc m => by simp only [Machine.execute, hfamily]) fun c => ?_⟩
  simp only [Core.executeImmediate, h.rt, h.rs, hvalue, h.major]
  rfl

theorem readAs_load (op : Mnemonic.Load) {offset : Int16}
    (h : Instr.Immediate i op.major rs rt (signedOperand offset)) :
    ReadAs i (load op rt rs offset) := by
  have hfamily : i.family = .memory := by
    rw [Instr.family, h.major]
    cases op <;> rfl
  refine ⟨hfamily, ⟨h.rt, h.rs, h.offset⟩, fun pc m => ?_⟩
  simp only [Machine.execute, hfamily, Machine.withMemory, Machine.executeMemory,
    Machine.scalarAddress, h.rt, h.rs, h.offset, h.major]
  cases op <;> rfl

theorem readAs_store (op : Mnemonic.Store) {offset : Int16}
    (h : Instr.Immediate i op.major rs rt (signedOperand offset)) :
    ReadAs i (store op rt rs offset) := by
  have hfamily : i.family = .memory := by
    rw [Instr.family, h.major]
    cases op <;> rfl
  refine ⟨hfamily, ⟨h.rt, h.rs, h.offset⟩, fun pc m => ?_⟩
  simp only [Machine.execute, hfamily, Machine.withMemory, Machine.executeMemory,
    Machine.scalarAddress, h.rt, h.rs, h.offset, h.major]
  cases op <;> rfl

theorem readAs_compare (op : Mnemonic.Compare) {offset : Int16}
    (h : Instr.Immediate i op.major rs rt (signedOperand offset)) :
    ReadAs i (compare op rs rt offset) := by
  have htarget : ∀ pc, i.branchTarget pc = branchAddress offset pc := Instr.branchTarget_eq h.offset
  have hfamily : i.family = .branch := by
    rw [Instr.family, h.major]
    cases op <;> rfl
  refine ⟨hfamily, ⟨h.rs, h.rt, h.offset, htarget⟩, fun c pc => ⟨?_, ?_⟩⟩
  · simp only [Core.branchOutcome, hfamily, h.rs, h.rt, h.major, htarget]
    cases op <;> rfl
  · simp only [Core.link, hfamily]

theorem readAs_compareZero (op : Mnemonic.CompareZero) {offset : Int16}
    (h : Instr.Immediate i op.major rs 0 (signedOperand offset)) :
    ReadAs i (compareZero op rs offset) := by
  have htarget : ∀ pc, i.branchTarget pc = branchAddress offset pc := Instr.branchTarget_eq h.offset
  have hfamily : i.family = .branch := by
    rw [Instr.family, h.major]
    cases op <;> rfl
  refine ⟨hfamily, ⟨h.rs, h.offset, htarget⟩, fun c pc => ⟨?_, ?_⟩⟩
  · simp only [Core.branchOutcome, hfamily, h.rs, h.major, htarget]
    cases op <;> rfl
  · simp only [Core.link, hfamily]

theorem readAs_sign (op : Mnemonic.Sign) {offset : Int16}
    (h : Instr.Immediate i 0x01 rs op.selector (signedOperand offset)) :
    ReadAs i (sign op rs offset) := by
  have htarget : ∀ pc, i.branchTarget pc = branchAddress offset pc := Instr.branchTarget_eq h.offset
  have hfamily : i.family = .branchSign := by
    rw [Instr.family, h.major]
    simp only [Instr.familySign, h.rt]
    cases op <;> rfl
  -- The bits of the selector are the sense of the test, whether the branch is likely, and the link.
  have hsense : i.bit 16 = (operand op.selector >>> 0 &&& 1 != 0) := h.bit_rt 0 rfl (by decide)
  have hlikely : i.bit 17 = (operand op.selector >>> 1 &&& 1 != 0) := h.bit_rt 1 rfl (by decide)
  have hlink : i.bit 20 = (operand op.selector >>> 4 &&& 1 != 0) := h.bit_rt 4 rfl (by decide)
  refine ⟨hfamily, ⟨h.rs, h.offset, htarget⟩, fun c pc => ⟨?_, ?_⟩⟩
  · simp only [Core.branchOutcome, hfamily, h.rs, htarget, hsense, hlikely]
    cases op <;> rfl
  · simp only [Core.link, hfamily, hlink]
    cases op <;> rfl

end

/-! ### Jumps and codes -/

theorem readAs_j (target : UInt32) : ReadAs ⟨Encode.j target⟩ (j target) := by
  have hmajor : Instr.major ⟨Encode.j target⟩ = 0x02 := Instr.major_regionJump rfl
  have hfamily : Instr.family ⟨Encode.j target⟩ = .jump := by
    rw [Instr.family, hmajor]
    rfl
  refine ⟨hfamily, fun pc h => Instr.jumpTarget_regionJump rfl h.1 h.2, fun c pc => ⟨?_, ?_⟩⟩
  · simp only [Core.branchOutcome, hfamily]
  · simp only [Core.link, hfamily, hmajor]
    rfl

theorem readAs_jal (target : UInt32) : ReadAs ⟨Encode.jal target⟩ (jal target) := by
  have hmajor : Instr.major ⟨Encode.jal target⟩ = 0x03 := Instr.major_regionJump rfl
  have hfamily : Instr.family ⟨Encode.jal target⟩ = .jump := by
    rw [Instr.family, hmajor]
    rfl
  refine ⟨hfamily, fun pc h => Instr.jumpTarget_regionJump rfl h.1 h.2, fun c pc => ⟨?_, ?_⟩⟩
  · simp only [Core.branchOutcome, hfamily]
  · simp only [Core.link, hfamily, hmajor]
    rfl

theorem readAs_syscall (code : Fin (2 ^ 20)) :
    ReadAs ⟨Encode.syscall (operand code)⟩ (syscall code) := by
  obtain ⟨hmajor, hfunct, hcode⟩ := Instr.code_withCode code 0x0C rfl
  have hfamily : Instr.family ⟨Encode.syscall (operand code)⟩ = .syscall := by
    rw [Instr.family, Encode.syscall, hmajor]
    simp only [Instr.familySpecial, hfunct]
    rfl
  refine ⟨hfamily, hcode, fun pc m => ?_⟩
  simp only [Machine.execute, hfamily]
  rw [Encode.syscall, hcode]

theorem readAs_brk (code : Fin (2 ^ 20)) : ReadAs ⟨Encode.brk (operand code)⟩ (brk code) := by
  obtain ⟨hmajor, hfunct, hcode⟩ := Instr.code_withCode code 0x0D rfl
  have hfamily : Instr.family ⟨Encode.brk (operand code)⟩ = .breakpoint := by
    rw [Instr.family, Encode.brk, hmajor]
    simp only [Instr.familySpecial, hfunct]
    rfl
  refine ⟨hfamily, hcode, fun pc m => ?_⟩
  simp only [Machine.execute, hfamily]

/-! ### Words of the vector unit -/

section

variable {i : Instr} {size : VectorSize} {vd vs vt : Fin 128}

theorem readAs_vectorBinary (op : Mnemonic.VectorBinary)
    (h : Instr.VectorRegisters i op.major op.subop size vs vt) (hvd : i.vd = vectorOperand vd) :
    ReadAs i (vectorBinary op size vd vs vt) := by
  have hfamily : i.family = .vectorBinary := by
    rw [Instr.family, h.major]
    cases op <;> simp only [h.subop] <;> rfl
  have hfunction : Core.binaryFunction i = op.apply := by
    rw [Core.binaryFunction, h.major, h.subop]
    cases op <;> rfl
  refine ⟨hfamily, ⟨h.size, hvd, h.vs, h.vt⟩, changesCore_of (g := (·.executeVectorBinary i))
    (fun pc m => by simp only [Machine.execute, hfamily]) fun c => ?_⟩
  simp only [Core.executeVectorBinary, h.size, hvd, h.vs, h.vt, hfunction]

theorem readAs_vcmp {test : Fin 16} (h : Instr.VectorRegisters i 0x1B 0 size vs vt)
    (htest : i.bits 0 0xF = operand test) : ReadAs i (vcmp size test vs vt) := by
  have hfamily : i.family = .vectorCompare := by
    rw [Instr.family, h.major]
    simp only [h.subop]
    rfl
  refine ⟨hfamily, ⟨h.size, htest, h.vs, h.vt⟩, changesCore_of (g := (·.executeVectorCompare i))
    (fun pc m => by simp only [Machine.execute, hfamily]) fun c => ?_⟩
  simp only [Core.executeVectorCompare, h.size, htest, h.vs, h.vt]

theorem family_vectorUnary {code : UInt32} (h : Instr.VectorPair i code size vd vs)
    (hcode : code ∈ [0, 1, 2, 4, 5, 6, 7]) : i.family = .vectorUnary := by
  rw [Instr.family, h.major]
  simp only [Instr.familyUnary, h.rs, h.code]
  simp only [List.mem_cons, List.not_mem_nil, or_false] at hcode
  rcases hcode with rfl | rfl | rfl | rfl | rfl | rfl | rfl <;> rfl

theorem readAs_vectorUnary (op : Mnemonic.VectorUnary)
    (h : Instr.VectorPair i op.code size vd vs) : ReadAs i (vectorUnary op size vd vs) := by
  have hfamily : i.family = .vectorUnary := family_vectorUnary h (by cases op <;> decide)
  have hfunction : Core.unaryFunction i = op.apply := by
    rw [Core.unaryFunction, h.code]
    cases op <;> rfl
  refine ⟨hfamily, ⟨h.size, h.vd, h.vs⟩, changesCore_of (g := (·.executeVectorUnary i))
    (fun pc m => by simp only [Machine.execute, hfamily]) fun c => ?_⟩
  simp only [Core.executeVectorUnary, h.size, h.vd, h.vs, hfunction]

theorem length_readOperand (c : Core) (size : VectorSize) (reg : UInt8) (slot : ModifierSlot) :
    (c.readOperand size reg slot).length = size.lanes := by
  rw [Core.readOperand, applySource, List.length_mapIdx, Core.readVector, List.length_map,
    VectorSize.elements, List.length_map, List.length_range]

theorem readAs_vectorConstant (op : Mnemonic.VectorConstant)
    (h : Instr.VectorPair i op.code size vd 0) : ReadAs i (vectorConstant op size vd) := by
  have hfamily : i.family = .vectorUnary := family_vectorUnary h (by cases op <;> decide)
  have hfunction : Core.unaryFunction i = fun _ => op.value := by
    rw [Core.unaryFunction, h.code]
    cases op <;> rfl
  refine ⟨hfamily, ⟨h.size, h.vd⟩, changesCore_of (g := (·.executeVectorUnary i))
    (fun pc m => by simp only [Machine.execute, hfamily]) fun c => ?_⟩
  simp only [Core.executeVectorUnary, h.size, h.vd, h.vs, hfunction]
  rw [List.map_const', length_readOperand]

/-- The code of a slot among the modifiers. -/
def slotCode : ModifierSlot → UInt32
  | .source => 0
  | .target => 1
  | .destination => 2

theorem readAs_modifier {slot : ModifierSlot} {data : Fin (2 ^ 20)} (hmajor : i.major = 0x37)
    (hslot : i.bits 24 3 = slotCode slot) (hdata : i.bits 0 0xFFFFF = operand data) :
    ReadAs i (modifier slot data) := by
  have hfamily : i.family = .vectorModifier := by
    rw [Instr.family, hmajor]
    simp only [hslot]
    cases slot <;> rfl
  refine ⟨hfamily, hdata, changesCore_of (g := (·.executeVectorModifier i))
    (fun pc m => by simp only [Machine.execute, hfamily]) fun c => ?_⟩
  simp only [Core.executeVectorModifier, hslot, hdata]
  cases slot <;> rfl

section

variable {rs : Fin 32} {offset : WordOffset}

theorem readAs_lvS (h : Instr.VectorAccess i 0x32 rs offset.value)
    (hreg : i.elementReg = vectorOperand vt) : ReadAs i (lvS vt rs offset) := by
  have hfamily : i.family = .elementMemory := by
    rw [Instr.family, h.major]
    rfl
  refine ⟨hfamily, ⟨hreg, h.rs, h.offset⟩, fun pc m => ?_⟩
  simp only [Machine.execute, hfamily, Machine.withMemory, Machine.executeVectorMemory,
    Machine.vectorAddress, h.rs, h.offset, h.major, hreg]
  rfl

theorem readAs_svS (h : Instr.VectorAccess i 0x3A rs offset.value)
    (hreg : i.elementReg = vectorOperand vt) : ReadAs i (svS vt rs offset) := by
  have hfamily : i.family = .elementMemory := by
    rw [Instr.family, h.major]
    rfl
  refine ⟨hfamily, ⟨hreg, h.rs, h.offset⟩, fun pc m => ?_⟩
  simp only [Machine.execute, hfamily, Machine.withMemory, Machine.executeVectorMemory,
    Machine.vectorAddress, h.rs, h.offset, h.major, hreg]
  rfl

theorem readAs_lvQ {vt : Fin 64} (h : Instr.VectorAccess i 0x36 rs offset.value)
    (hreg : i.quadReg = vectorOperand vt) : ReadAs i (lvQ vt rs offset) := by
  have hfamily : i.family = .quadMemory := by
    rw [Instr.family, h.major]
    rfl
  refine ⟨hfamily, ⟨hreg, h.rs, h.offset⟩, fun pc m => ?_⟩
  simp only [Machine.execute, hfamily, Machine.withMemory, Machine.executeVectorMemory,
    Machine.vectorAddress, h.rs, h.offset, h.major, hreg]
  rfl

theorem readAs_svQ {vt : Fin 64} (h : Instr.VectorAccess i 0x3E rs offset.value)
    (hreg : i.quadReg = vectorOperand vt) : ReadAs i (svQ vt rs offset) := by
  have hfamily : i.family = .quadMemory := by
    rw [Instr.family, h.major]
    rfl
  refine ⟨hfamily, ⟨hreg, h.rs, h.offset⟩, fun pc m => ?_⟩
  simp only [Machine.execute, hfamily, Machine.withMemory, Machine.executeVectorMemory,
    Machine.vectorAddress, h.rs, h.offset, h.major, hreg]
  rfl

end

section

variable {direction rt : Fin 32}

theorem family_vectorMove {selector : UInt32} (hdirection : direction = 3 ∨ direction = 7)
    (h : Instr.VectorMove i direction rt selector) : i.family = .vectorMove := by
  rw [Instr.family, h.major]
  simp only [Instr.familyVectorControl, h.rs]
  rcases hdirection with rfl | rfl <;> rfl

/-- An element below 128 is a selector of an element. -/
theorem operand_lt_control (v : Fin 128) : operand v < 0x80 := by
  rw [UInt32.lt_iff_toNat_lt, toNat_operand (by decide)]
  exact v.isLt

theorem execute_vectorMove_element (hdirection : direction = 3 ∨ direction = 7)
    (h : Instr.VectorMove i direction rt (operand vd)) (pc : UInt32) (m : Machine) :
    Machine.execute i pc m = m.withCore (·.executeVectorMove i) := by
  have hlt : operand vd < 0x90 := UInt32.lt_trans (operand_lt_control vd) (by decide)
  simp only [Machine.execute, family_vectorMove hdirection h, h.selector, hlt, if_true]

theorem readAs_mfv (h : Instr.VectorMove i 3 rt (operand vd)) : ReadAs i (mfv rt vd) := by
  refine ⟨family_vectorMove (.inl rfl) h, ⟨h.rt, h.selector⟩,
    changesCore_of (execute_vectorMove_element (.inl rfl) h) fun c => ?_⟩
  simp only [Core.executeVectorMove, h.selector, operand_lt_control, Instr.movesToVector, h.rs, h.rt,
    Instr.toUInt8_operand (show 128 ≤ 256 by decide)]
  rfl

theorem readAs_mtv (h : Instr.VectorMove i 7 rt (operand vd)) : ReadAs i (mtv rt vd) := by
  refine ⟨family_vectorMove (.inr rfl) h, ⟨h.rt, h.selector⟩,
    changesCore_of (execute_vectorMove_element (.inr rfl) h) fun c => ?_⟩
  simp only [Core.executeVectorMove, h.selector, operand_lt_control, Instr.movesToVector, h.rs, h.rt,
    Instr.toUInt8_operand (show 128 ≤ 256 by decide)]
  rfl

/-- The selectors from 128 on name control registers, of which there are sixteen. -/
theorem controlSelector (k : Fin 128) :
    ¬ 0x80 ||| operand k < 0x80 ∧ (0x80 ||| operand k < 0x90 ↔ k.val < 16) ∧
      Fin.ofNat 16 (0x80 ||| operand k).toNat = Fin.ofNat 16 k.val := by
  revert k
  decide +kernel

variable {control : Fin 128}

theorem moveControl_eq (h : Instr.VectorMove i direction rt (0x80 ||| operand control)) (k : Fin 16)
    (hk : control.val = k.val) : i.moveControl = k := by
  rw [Instr.moveControl, h.selector, (controlSelector control).2.2, hk, Fin.ofNat_val_eq_self]

theorem execute_vectorMove_control (hdirection : direction = 3 ∨ direction = 7)
    (h : Instr.VectorMove i direction rt (0x80 ||| operand control)) (hlt : control.val < 16)
    (pc : UInt32) (m : Machine) :
    Machine.execute i pc m = m.withCore (·.executeVectorMove i) := by
  simp only [Machine.execute, family_vectorMove hdirection h, h.selector,
    (controlSelector control).2.1.mpr hlt, if_true]

theorem execute_vectorMove_beyond (hdirection : direction = 3 ∨ direction = 7)
    (h : Instr.VectorMove i direction rt (0x80 ||| operand control)) (hlt : ¬ control.val < 16)
    (pc : UInt32) (m : Machine) :
    Machine.execute i pc m = .error (.trap (.unimplemented i.word pc)) m := by
  simp only [Machine.execute, family_vectorMove hdirection h, h.selector,
    mt (controlSelector control).2.1.mp hlt, if_false]

theorem readAs_mfvc (h : Instr.VectorMove i 3 rt (0x80 ||| operand control)) :
    ReadAs i (mfvc rt control) := by
  refine ⟨family_vectorMove (.inl rfl) h, ⟨h.rt, h.selector, moveControl_eq h⟩, ?_⟩
  rw [Performs]
  split
  · rename_i hlt
    refine changesCore_of (execute_vectorMove_control (.inl rfl) h hlt) fun c => ?_
    simp only [Core.executeVectorMove, h.selector, (controlSelector control).1, if_false,
      Instr.movesToVector, h.rs, h.rt, moveControl_eq h ⟨control.val, hlt⟩ rfl]
    rfl
  · rename_i hlt
    exact execute_vectorMove_beyond (.inl rfl) h hlt

theorem readAs_mtvc (h : Instr.VectorMove i 7 rt (0x80 ||| operand control)) :
    ReadAs i (mtvc rt control) := by
  refine ⟨family_vectorMove (.inr rfl) h, ⟨h.rt, h.selector, moveControl_eq h⟩, ?_⟩
  rw [Performs]
  split
  · rename_i hlt
    refine changesCore_of (execute_vectorMove_control (.inr rfl) h hlt) fun c => ?_
    simp only [Core.executeVectorMove, h.selector, (controlSelector control).1, if_false,
      Instr.movesToVector, h.rs, h.rt, moveControl_eq h ⟨control.val, hlt⟩ rfl]
    rfl
  · rename_i hlt
    exact execute_vectorMove_beyond (.inr rfl) h hlt

end

theorem readAs_condition (op : Mnemonic.Condition) {bit : Fin 8} {offset : Int16}
    (h : Instr.ConditionBranch i bit (flagWord op.expected) (flagWord op.likely) offset) :
    ReadAs i (condition op bit offset) := by
  have htarget : ∀ pc, i.branchTarget pc = branchAddress offset pc := Instr.branchTarget_eq h.offset
  have hfamily : i.family = .vectorBranch := by
    rw [Instr.family, h.major]
    simp only [Instr.familyVectorControl, h.rs]
    rfl
  refine ⟨hfamily, ⟨h.bit, h.offset, htarget⟩, fun c pc => ⟨?_, ?_⟩⟩
  · have hlikely : i.bit 17 = op.likely := by
      rw [Instr.bit, h.likely]
      cases op <;> rfl
    simp only [Core.branchOutcome, hfamily, h.bit, h.expected, htarget, hlikely]
  · simp only [Core.link, hfamily]

end

/-! ### All written instructions -/

theorem encode_ext (rt rs : Fin 32) (range : BitRange) :
    (ext rt rs range).encode = .ok (Encode.major 0x1F |||
      Encode.register (operand rs) (operand rt) (operand range.width) (operand range.pos) 0x00) := by
  have hsize : (UInt32.ofNat range.size).toNat = range.size :=
    UInt32.toNat_ofNat_of_lt' (by have := range.fits; show range.size < 2 ^ 32; omega)
  have hnonzero : (UInt32.ofNat range.size == 0) = false := by
    have hnonempty := range.nonempty
    rw [beq_eq_false_iff_ne, ne_eq, ← UInt32.toNat_inj, hsize]
    exact Nat.ne_of_gt hnonempty
  have hwidth : UInt32.ofNat range.size - 1 = operand range.width := by
    rw [operand, BitRange.width]
    exact (UInt32.ofNat_sub range.nonempty).symm
  rw [encode, Encode.ext, hnonzero, hwidth]
  rfl

theorem encode_ins (rt rs : Fin 32) (range : BitRange) :
    (ins rt rs range).encode = .ok (Encode.major 0x1F |||
      Encode.register (operand rs) (operand rt) (operand range.last) (operand range.pos) 0x04) := by
  have hfits := range.fits
  have hnonempty := range.nonempty
  have hsize : (UInt32.ofNat range.size).toNat = range.size :=
    UInt32.toNat_ofNat_of_lt' (by show range.size < 2 ^ 32; omega)
  have hpos : (operand range.pos).toNat = range.pos.val := toNat_operand (by decide) _
  have hend : operand range.pos + UInt32.ofNat range.size =
      UInt32.ofNat (range.pos.val + range.size) := (UInt32.ofNat_add _ _).symm
  have hend' : (UInt32.ofNat (range.pos.val + range.size)).toNat = range.pos.val + range.size :=
    UInt32.toNat_ofNat_of_lt' (by show range.pos.val + range.size < 2 ^ 32; omega)
  have hok : ¬ ((operand range.pos).toNat + (UInt32.ofNat range.size).toNat ≥ 2 ^ 32 ∨
      (operand range.pos + UInt32.ofNat range.size == 0) = true) := by
    rw [hpos, hsize, beq_iff_eq, hend, ← UInt32.toNat_inj, hend']
    show ¬ (range.pos.val + range.size ≥ 2 ^ 32 ∨ range.pos.val + range.size = 0)
    omega
  have hlast : operand range.pos + UInt32.ofNat range.size - 1 = operand range.last := by
    rw [hend, operand, BitRange.last]
    exact (UInt32.ofNat_sub (show 1 ≤ range.pos.val + range.size by omega)).symm
  rw [encode, Encode.ins, if_neg hok, hlast]

/-- Every written instruction has a word, which is read back as that instruction. -/
theorem exists_readAs (a : Assembly) : ∃ w, a.encode = .ok w ∧ ReadAs ⟨w⟩ a := by
  cases a with
  | nop =>
    refine ⟨_, rfl, rfl, ⟨rfl, rfl, rfl⟩, changesCore_of (g := (·.executeShift ⟨0⟩)) ?_ fun c => ?_⟩
    · exact fun pc m => rfl
    · exact c.setGpr_zero _
  | shift op rd rt shamt =>
    refine ⟨_, congrArg _ (op.encode_eq ..), readAs_shift op (Instr.specialRegisters ?_ ..)⟩
    cases op <;> rfl
  | shiftBy op rd rt rs =>
    refine ⟨_, congrArg _ (op.encode_eq ..), readAs_shiftBy op (Instr.specialRegisters ?_ _ _ _ 0)⟩
    cases op <;> rfl
  | arithmetic op rd rs rt =>
    refine ⟨_, congrArg _ (op.encode_eq ..), readAs_arithmetic op (Instr.specialRegisters ?_ _ _ _ 0)⟩
    cases op <;> rfl
  | leading op rd rs =>
    refine ⟨_, congrArg _ (op.encode_eq ..), readAs_leading op (Instr.specialRegisters ?_ _ 0 _ 0)⟩
    cases op <;> rfl
  | product op rs rt =>
    refine ⟨_, congrArg _ (op.encode_eq ..), readAs_product op (Instr.specialRegisters ?_ _ _ 0 0)⟩
    cases op <;> rfl
  | fromHalf op rd =>
    refine ⟨_, congrArg _ (op.encodeFrom_eq ..),
      readAs_fromHalf op (Instr.specialRegisters ?_ 0 0 _ 0)⟩
    cases op <;> rfl
  | toHalf op rs =>
    refine ⟨_, congrArg _ (op.encodeTo_eq ..), readAs_toHalf op (Instr.specialRegisters ?_ _ 0 0 0)⟩
    cases op <;> rfl
  | ext rt rs range =>
    exact ⟨_, encode_ext rt rs range, readAs_ext range (Instr.threeRegisters rfl rfl ..)⟩
  | ins rt rs range =>
    exact ⟨_, encode_ins rt rs range, readAs_ins range (Instr.threeRegisters rfl rfl ..)⟩
  | extend op rd rt =>
    exact ⟨_, congrArg _ (op.encode_eq ..),
      readAs_extend op (Instr.threeRegisters rfl rfl 0 rt rd op.selector)⟩
  | signed op rt rs value =>
    refine ⟨_, congrArg _ (op.encode_eq ..), readAs_signed op (Instr.withImmediate ?_ ..)⟩
    cases op <;> rfl
  | logic op rt rs value =>
    refine ⟨_, congrArg _ (op.encode_eq ..), readAs_logic op (Instr.withImmediate ?_ ..)⟩
    cases op <;> rfl
  | lui rt value => exact ⟨_, rfl, readAs_lui (Instr.withImmediate rfl 0 ..)⟩
  | load op rt rs offset =>
    refine ⟨_, congrArg _ (op.encode_eq ..), readAs_load op (Instr.withImmediate ?_ ..)⟩
    cases op <;> rfl
  | store op rt rs offset =>
    refine ⟨_, congrArg _ (op.encode_eq ..), readAs_store op (Instr.withImmediate ?_ ..)⟩
    cases op <;> rfl
  | compare op rs rt offset =>
    refine ⟨_, congrArg _ (op.encode_eq ..), readAs_compare op (Instr.withImmediate ?_ ..)⟩
    cases op <;> rfl
  | compareZero op rs offset =>
    refine ⟨_, congrArg _ (op.encode_eq ..), readAs_compareZero op (Instr.withImmediate ?_ _ 0 _)⟩
    cases op <;> rfl
  | sign op rs offset =>
    exact ⟨_, congrArg _ (op.encode_eq ..), readAs_sign op (Instr.withImmediate rfl ..)⟩
  | j target => exact ⟨_, rfl, readAs_j target⟩
  | jal target => exact ⟨_, rfl, readAs_jal target⟩
  | jr rs => exact ⟨_, rfl, readAs_jr (Instr.specialRegisters rfl _ 0 0 0)⟩
  | jalr rd rs => exact ⟨_, rfl, readAs_jalr (Instr.specialRegisters rfl _ 0 _ 0)⟩
  | syscall code => exact ⟨_, rfl, readAs_syscall code⟩
  | brk code => exact ⟨_, rfl, readAs_brk code⟩
  | sync => exact ⟨_, rfl, rfl, trivial, fun pc m => rfl⟩
  | vectorBinary op size vd vs vt =>
    have hmajor : op.major &&& 0x3F = op.major := by cases op <;> rfl
    have hsubop : op.subop &&& 7 = op.subop := by cases op <;> rfl
    -- No condition is added to the word.
    have hfields := Instr.vectorThree hmajor hsubop size vd vs vt 0
    rw [show Encode.bitsAt 0 0xF 0 = 0 from rfl, UInt32.or_zero] at hfields
    exact ⟨_, congrArg _ (op.encode_eq ..),
      readAs_vectorBinary op hfields (Instr.vd_vectorThree hmajor size vd vs vt)⟩
  | vcmp size test vs vt =>
    exact ⟨_, rfl, readAs_vcmp (Instr.vectorThree rfl rfl size 0 vs vt (operand test))
      (Instr.condition_vectorThree rfl size vs vt test)⟩
  | vectorUnary op size vd vs =>
    refine ⟨_, congrArg _ (op.encode_eq ..), readAs_vectorUnary op (Instr.vectorTwo ?_ ..)⟩
    cases op <;> rfl
  | vectorConstant op size vd =>
    refine ⟨_, congrArg _ (op.encode_eq ..), readAs_vectorConstant op (Instr.vectorTwo ?_ _ _ 0)⟩
    cases op <;> rfl
  | modifier slot data =>
    obtain ⟨hmajor, hslot, hdata⟩ := Instr.modifier_fields (slotCode slot)
      (by cases slot <;> rfl) data
    refine ⟨_, ?_, readAs_modifier hmajor hslot hdata⟩
    cases slot with
    | source => exact congrArg Except.ok (congrArg (· ||| _) UInt32.or_zero.symm)
    | target => rfl
    | destination => rfl
  | lvS vt rs offset =>
    exact ⟨_, rfl, readAs_lvS (Instr.vectorAccess rfl (.inl rfl) _ _ offset.aligned)
      (Instr.elementReg_vectorMemory rfl ..)⟩
  | svS vt rs offset =>
    exact ⟨_, rfl, readAs_svS (Instr.vectorAccess rfl (.inl rfl) _ _ offset.aligned)
      (Instr.elementReg_vectorMemory rfl ..)⟩
  | lvQ vt rs offset =>
    exact ⟨_, rfl, readAs_lvQ (Instr.vectorAccess rfl (.inr rfl) _ _ offset.aligned)
      (Instr.quadReg_vectorMemory rfl ..)⟩
  | svQ vt rs offset =>
    exact ⟨_, rfl, readAs_svQ (Instr.vectorAccess rfl (.inr rfl) _ _ offset.aligned)
      (Instr.quadReg_vectorMemory rfl ..)⟩
  | mfv rt vd => exact ⟨_, rfl, readAs_mfv (Instr.moveElement 3 rt vd)⟩
  | mtv rt vd => exact ⟨_, rfl, readAs_mtv (Instr.moveElement 7 rt vd)⟩
  | mfvc rt control => exact ⟨_, rfl, readAs_mfvc (Instr.moveControlWord 3 rt control)⟩
  | mtvc rt control => exact ⟨_, rfl, readAs_mtvc (Instr.moveControlWord 7 rt control)⟩
  | condition op bit offset =>
    refine ⟨_, congrArg _ (op.encode_eq ..), readAs_condition op (Instr.conditionBranch ?_ ?_ ..)⟩
    · cases op <;> rfl
    · cases op <;> rfl

/-- The two words of a full constant load its halves. -/
theorem li_readAs (rt : Fin 32) (value : UInt32) :
    ∃ w w', Encode.li (operand rt) value = [w, w'] ∧
      ReadAs ⟨w⟩ (lui rt (value >>> 16).toUInt16) ∧ ReadAs ⟨w'⟩ (logic .ori rt rt value.toUInt16) := by
  have hhigh : (value >>> 16).toUInt16.toUInt32 = value >>> 16 := by
    rw [Instr.toUInt32_toUInt16]
    refine and_mask_of_lt 16 rfl ?_
    rw [UInt32.toNat_shiftRight, Nat.shiftRight_eq_div_pow]
    have hlt := value.toNat_lt
    show value.toNat / 2 ^ 16 < 2 ^ 16
    omega
  have hlow : value.toUInt16.toUInt32 = value &&& 0xFFFF := Instr.toUInt32_toUInt16 value
  have hlui := readAs_lui (Instr.withImmediate rfl 0 rt (value >>> 16).toUInt16.toUInt32)
  have hori := readAs_logic .ori (Instr.withImmediate rfl rt rt value.toUInt16.toUInt32)
  rw [hhigh] at hlui
  rw [hlow] at hori
  exact ⟨_, _, rfl, hlui, hori⟩

/-- **Words and instructions agree.**  Every written instruction, whatever its operands, has a word
which is sorted into the family of the mnemonic, whose fields are the operands, and which is
executed as the mnemonic says; a full constant is two such words.  Modifier words deliver lane by
lane what they were made of. -/
theorem assembled :
    (∀ a : Assembly, ∃ w, a.encode = .ok w ∧ ReadAs ⟨w⟩ a) ∧
    (∀ (rt : Fin 32) (value : UInt32), ∃ w w', Encode.li (operand rt) value = [w, w'] ∧
      ReadAs ⟨w⟩ (lui rt (value >>> 16).toUInt16) ∧
      ReadAs ⟨w'⟩ (logic .ori rt rt value.toUInt16)) ∧
    (∀ (lanes : Fin 4 → Fin 4) (abs constant negate : Fin 16), ∃ data : Fin (2 ^ 20),
      Encode.sourceModifier (List.ofFn fun l => operand (lanes l)) (operand abs) (operand constant)
        (operand negate) = operand data ∧
      ∀ lane : Fin 4, LaneModifier.ofWord (operand data) lane.val =
        ⟨lanes lane, abs.val.testBit lane.val, constant.val.testBit lane.val,
          negate.val.testBit lane.val⟩) ∧
    ∀ (clamps : Fin 4 → Fin 4) (mask : Fin 16), ∃ data : Fin (2 ^ 20),
      Encode.destinationModifier (List.ofFn fun l => operand (clamps l)) (operand mask) =
        operand data ∧
      ∀ lane : Fin 4, clampCode (operand data) lane.val = operand (clamps lane) ∧
        writeMasked (operand data) lane.val = mask.val.testBit lane.val := by
  refine ⟨exists_readAs, li_readAs, fun lanes abs constant negate => ?_, fun clamps mask => ?_⟩
  · obtain ⟨data, hdata⟩ := Instr.sourceModifier_fits lanes abs constant negate
    exact ⟨data, hdata, fun lane => hdata ▸ Instr.ofWord_sourceModifier lanes abs constant negate lane⟩
  · obtain ⟨data, hdata⟩ := Instr.destinationModifier_fits clamps mask
    exact ⟨data, hdata, fun lane => hdata ▸ Instr.lane_destinationModifier clamps mask lane⟩

end Assembly

end Dynarec
