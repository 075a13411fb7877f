import Dynarec.Host.Word

/-!
# Encoded operations are decoded again

`Operation.decode?_encode`: decoding gives back the operation that was encoded.  The only field that
does not fit its bytes is the code of a request to the system, which has 24 bits of room; what is
decoded always fits (`Operation.fits_of_decode?`).
-/

namespace Dynarec

namespace HostWord

/-! ### Operand bytes -/

theorem reg_ofFin (r : HostReg) : reg (ofFin r) = r := by
  revert r
  decide

theorem floatReg_ofFin (r : FloatReg) : floatReg (ofFin r) = r := by
  revert r
  decide

theorem quadReg_ofFin (r : QuadReg) : quadReg (ofFin r) = r := by
  revert r
  decide

theorem high_pair (a b : Fin 16) : high (pair a b) = a := by
  revert a b
  decide

theorem low_pair (a b : Fin 16) : low (pair a b) = b := by
  revert a b
  decide

theorem floatReg_ofNat (r : FloatReg) : floatReg (UInt8.ofNat r.val) = r := by
  revert r
  decide

theorem quadReg_ofNat (r : QuadReg) : quadReg (UInt8.ofNat r.val) = r := by
  revert r
  decide

theorem ofIndex?_index (r : GuestReg) : GuestReg.ofIndex? (r.index % 256) = some r := by
  cases r with
  | gpr n =>
    revert n
    decide
  | hi => rfl
  | lo => rfl
  | condition => rfl

/-! ### Operation codes -/

theorem withCode?_aluOp (op : AluOp) : withCode? AluOp.all (codeIn AluOp.all op) = some op := by
  cases op <;> rfl

theorem withCode?_unaryOp (op : UnaryOp) :
    withCode? UnaryOp.all (codeIn UnaryOp.all op) = some op := by
  cases op <;> rfl

theorem withCode?_mulKind (kind : MulKind) :
    withCode? MulKind.all (codeIn MulKind.all kind) = some kind := by
  cases kind <;> rfl

theorem withCode?_condition (c : Condition) :
    withCode? Condition.all (codeIn Condition.all c) = some c := by
  cases c <;> rfl

theorem withCode?_width (w : Width) : withCode? Width.all (codeIn Width.all w) = some w := by
  cases w <;> rfl

theorem withCode?_floatOp (op : FloatOp) :
    withCode? FloatOp.all (codeIn FloatOp.all op) = some op := by
  cases op <;> rfl

theorem withCode?_floatUnary (op : FloatUnary) :
    withCode? FloatUnary.all (codeIn FloatUnary.all op) = some op := by
  cases op <;> rfl

/-- Three bytes make up a word below `2 ^ 24`. -/
theorem joinBytes (code : UInt32) (h : code.toNat < 2 ^ 24) :
    code.toUInt8.toUInt32 ||| (code >>> 8).toUInt8.toUInt32 <<< (8 : UInt32) |||
      (code >>> 16).toUInt8.toUInt32 <<< (16 : UInt32) = code := by
  have hhigh : ∀ i, 24 ≤ i → code.toBitVec.getLsbD i = false := fun i hi => by
    rw [BitVec.getLsbD]
    exact Nat.testBit_lt_two_pow (Nat.lt_of_lt_of_le h (Nat.pow_le_pow_right (by omega) hi))
  apply UInt32.eq_of_toBitVec_eq
  apply BitVec.eq_of_getLsbD_eq
  intro i hi
  have h8 : UInt32.toBitVec 8 % 32 = 8#32 := rfl
  have h16 : UInt32.toBitVec 16 % 32 = 16#32 := rfl
  simp only [UInt32.toBitVec_or, UInt32.toBitVec_shiftLeft, UInt8.toBitVec_toUInt32,
    UInt32.toBitVec_toUInt8, UInt32.toBitVec_shiftRight, BitVec.getLsbD_or, h8, h16,
    BitVec.shiftLeft_eq', BitVec.ushiftRight_eq', BitVec.getLsbD_shiftLeft,
    BitVec.getLsbD_setWidth, BitVec.getLsbD_ushiftRight, BitVec.toNat_ofNat, Nat.reducePow,
    Nat.reduceMod]
  rcases (by omega : i < 8 ∨ 8 ≤ i ∧ i < 16 ∨ 16 ≤ i ∧ i < 24 ∨ 24 ≤ i) with h1 | h1 | h1 | h1
  · simp [hi, h1, show i < 16 by omega]
  · simp [hi, h1, show ¬ i < 8 by omega, show i - 8 < 8 by omega, show 8 + (i - 8) = i by omega,
      show i - 8 < 32 by omega]
  · simp [hi, show ¬ i < 8 by omega, show ¬ i < 16 by omega, show ¬ i - 8 < 8 by omega,
      show i - 16 < 8 by omega, show 16 + (i - 16) = i by omega, show i - 16 < 32 by omega]
  · rw [hhigh i h1]
    simp [show ¬ i < 8 by omega, show ¬ i - 8 < 8 by omega, show ¬ i - 16 < 8 by omega]

/-- Three bytes make up a word below `2 ^ 24`, whatever they are. -/
theorem toNat_joinBytes_lt (a b c : UInt8) :
    (a.toUInt32 ||| b.toUInt32 <<< (8 : UInt32) ||| c.toUInt32 <<< (16 : UInt32)).toNat < 2 ^ 24 := by
  have hshift : ∀ (x : UInt8) (k : Nat), k ≤ 16 →
      (x.toUInt32 <<< UInt32.ofNat k).toNat < 2 ^ 24 := fun x k hk => by
    have hx := x.toNat_lt
    have hk' : (UInt32.ofNat k).toNat % 32 = k := by
      rw [UInt32.toNat_ofNat_of_lt' (by show k < 2 ^ 32; omega)]
      omega
    rw [UInt32.toNat_shiftLeft, hk', UInt8.toNat_toUInt32, Nat.shiftLeft_eq]
    refine Nat.lt_of_le_of_lt (Nat.mod_le _ _) ?_
    calc x.toNat * 2 ^ k ≤ x.toNat * 2 ^ 16 :=
      Nat.mul_le_mul_left _ (Nat.pow_le_pow_right (by decide) hk)
      _ < 2 ^ 24 := by omega
  have ha : a.toUInt32.toNat < 2 ^ 24 := Nat.lt_trans a.toNat_lt (by decide)
  rw [UInt32.toNat_or, UInt32.toNat_or]
  exact Nat.or_lt_two_pow (Nat.or_lt_two_pow ha (hshift b 8 (by decide))) (hshift c 16 (by decide))

end HostWord

namespace Operation

open HostWord

/-- The fields of the operation fit into its word. -/
def Fits : Operation → Prop
  | exitSyscall code _ => code.toNat < 2 ^ 24
  | _ => True

/-- **Decoding gives back what was encoded.** -/
theorem decode?_encode {op : Operation} (h : op.Fits) : decode? op.encode = some op := by
  cases op
  case exitSyscall code next =>
    show some (exitSyscall _ next) = _
    rw [joinBytes code h]
  case checkEntry inRegister pc =>
    cases inRegister <;> rfl
  all_goals
    simp [encode, decode?, reg_ofFin, floatReg_ofFin, quadReg_ofFin, high_pair, low_pair,
      floatReg_ofNat, quadReg_ofNat, ofIndex?_index, withCode?_aluOp, withCode?_unaryOp,
      withCode?_mulKind, withCode?_condition, withCode?_width, withCode?_floatOp,
      withCode?_floatUnary]

/-- **A word that is an operation names operands in their ranges.** -/
theorem fits_of_decode? {w : HostWord} {op : Operation} (h : decode? w = some op) : op.Fits := by
  cases op with
  | exitSyscall code next =>
    obtain ⟨tag, b1, b2, b3, imm⟩ := w
    rw [decode?] at h
    split at h
    all_goals first
      | simp at h; done
      | (cases h; exact toNat_joinBytes_lt b1 b2 b3)
  | _ => trivial

end Operation

end Dynarec
