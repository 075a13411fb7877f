import Dynarec.Proofs.Host.Encoding
import Mathlib.Algebra.Group.Nat.Defs
import Mathlib.Data.List.Nodup
import Mathlib.Data.Nat.Init

/-!
# Which words are operations

Decoding looks at the bits of a word that its operation needs and at no others.  `HostWord.layout`
says for each tag which ones these are, and `HostWord.canonical` clears the rest.  A word is an
operation exactly if its canonical form is the word of one (`Operation.decoding_exact`), so that
several words are the same operation, and only one of them is what the operation is encoded to.
-/

namespace Dynarec

namespace HostWord

/-! ### The bits that count -/

/-- **The bits of a word that count**: one mask for each operand byte and one for the immediate. -/
structure Layout where
  b1 : UInt8
  b2 : UInt8
  b3 : UInt8
  imm : UInt32

namespace Layout

/-- The bits of an integer register. -/
def scalar : UInt8 := 0x0F

/-- The bits of a float register. -/
def float : UInt8 := 0x1F

/-- The bits of a quad register. -/
def quad : UInt8 := 0x07

/-- All bits of a byte. -/
def byte : UInt8 := 0xFF

/-- All bits of an immediate. -/
def whole : UInt32 := 0xFFFFFFFF

end Layout

open Layout in
/-- The bits that count in the words with a tag. -/
def layout (tag : UInt8) : Layout :=
  match tag.toNat with
  | 0x01 | 0x0A => ⟨scalar, 0, 0, whole⟩
  | 0x02 | 0x09 => ⟨scalar, scalar, 0, 0⟩
  | 0x03 | 0x04 | 0x1D | 0x1E => ⟨scalar, byte, 0, 0⟩
  | 0x05 => ⟨byte, byte, scalar, 0⟩
  | 0x06 | 0x0D | 0x0E => ⟨byte, byte, 0, whole⟩
  | 0x07 => ⟨byte, byte, 0, 0⟩
  | 0x08 => ⟨byte, byte, byte, 0⟩
  | 0x0B => ⟨byte, scalar, 0, 0⟩
  | 0x0C => ⟨byte, scalar, scalar, 0⟩
  | 0x11 | 0x13 | 0x15 | 0x16 | 0x18 | 0x1A | 0x1B | 0x1C => ⟨0, 0, 0, whole⟩
  | 0x12 | 0x14 | 0x1F => ⟨byte, 0, 0, whole⟩
  | 0x17 => ⟨scalar, 0, 0, 0⟩
  | 0x19 => ⟨byte, byte, byte, whole⟩
  | 0x20 | 0x21 => ⟨float, byte, 0, 0⟩
  | 0x22 => ⟨byte, float, float, 0x1F⟩
  | 0x23 => ⟨byte, float, float, 0⟩
  | 0x24 => ⟨float, 0, 0, whole⟩
  | 0x25 => ⟨float, float, 0, 0⟩
  | 0x26 | 0x27 => ⟨float, scalar, 0, whole⟩
  | 0x28 => ⟨byte, scalar, float, 0x1F⟩
  | 0x29 => ⟨scalar, scalar, byte, 0⟩
  | 0x2A => ⟨scalar, float, 0, 0⟩
  | 0x2B => ⟨float, scalar, 0, 0⟩
  | 0x30 | 0x31 => ⟨quad, byte, 0, 0⟩
  | 0x32 => ⟨byte, quad, quad, 0x07⟩
  | 0x33 => ⟨byte, quad, quad, 0⟩
  | 0x34 => ⟨quad, 0, 0, whole⟩
  | 0x35 | 0x36 => ⟨quad, scalar, 0, whole⟩
  | _ => ⟨0, 0, 0, 0⟩

/-- Tag of the check at the entry of a block, whose first byte is read as a truth value. -/
def entryTag : UInt8 := 0x14

/-- **The canonical form of a word**: the bits that do not count are cleared, and a truth value is
zero or one. -/
def canonical (w : HostWord) : HostWord where
  tag := w.tag
  b1 := if w.tag == entryTag then (if w.b1 != 0 then 1 else 0) else w.b1 &&& (layout w.tag).b1
  b2 := w.b2 &&& (layout w.tag).b2
  b3 := w.b3 &&& (layout w.tag).b3
  imm := w.imm &&& (layout w.tag).imm

/-! ### Operand bytes, read and written again -/

/-- The lowest bits of a byte. -/
theorem ofNat_mod_toNat (b : UInt8) {n : Nat} (hn : n ≤ 8) :
    UInt8.ofNat (b.toNat % 2 ^ n) = b &&& UInt8.ofNat (2 ^ n - 1) := by
  have hpow : 2 ^ n ≤ 256 := Nat.pow_le_pow_right (by decide) hn
  have hmask : (UInt8.ofNat (2 ^ n - 1)).toNat = 2 ^ n - 1 :=
    UInt8.toNat_ofNat_of_lt' (by show _ < 256; omega)
  have hlt : b.toNat % 2 ^ n < 2 ^ n := Nat.mod_lt _ (Nat.two_pow_pos n)
  rw [← UInt8.toNat_inj, UInt8.toNat_ofNat_of_lt' (by show _ < 256; omega), UInt8.toNat_and, hmask,
    Nat.and_two_pow_sub_one_eq_mod]

@[simp] theorem ofFin_reg (b : UInt8) : ofFin (reg b) = b &&& Layout.scalar :=
  ofNat_mod_toNat b (n := 4) (by decide)

@[simp] theorem ofFin_floatReg (b : UInt8) : ofFin (floatReg b) = b &&& Layout.float :=
  ofNat_mod_toNat b (n := 5) (by decide)

@[simp] theorem ofFin_quadReg (b : UInt8) : ofFin (quadReg b) = b &&& Layout.quad :=
  ofNat_mod_toNat b (n := 3) (by decide)

@[simp] theorem and_byte (b : UInt8) : b &&& Layout.byte = b := by
  have hlow := ofNat_mod_toNat b (n := 8) (by decide)
  rw [Nat.mod_eq_of_lt b.toNat_lt, UInt8.ofNat_toNat] at hlow
  exact hlow.symm

@[simp] theorem pair_high_low (b : UInt8) : pair (high b) (low b) = b := by
  have hlt := b.toNat_lt
  have hhigh : (b >>> 4).toNat = b.toNat / 2 ^ 4 := by
    rw [UInt8.toNat_shiftRight, Nat.shiftRight_eq_div_pow]
    rfl
  have hsum : (b >>> 4).toNat % 16 * 16 + b.toNat % 16 = b.toNat := by
    rw [hhigh]
    omega
  show UInt8.ofNat ((b >>> 4).toNat % 16 * 16 + b.toNat % 16) = b
  rw [hsum, UInt8.ofNat_toNat]

@[simp] theorem and_whole (imm : UInt32) : imm &&& Layout.whole = imm := by
  have hmask : Layout.whole.toNat = 2 ^ 32 - 1 := rfl
  rw [← UInt32.toNat_inj, UInt32.toNat_and, hmask, Nat.and_two_pow_sub_one_eq_mod,
    Nat.mod_eq_of_lt imm.toNat_lt]

/-- The lowest bits of an immediate as a register number. -/
theorem ofNat_mod_toUInt8 (imm : UInt32) {n : Nat} (hn : n ≤ 8) :
    UInt32.ofNat (imm.toUInt8.toNat % 2 ^ n) = imm &&& UInt32.ofNat (2 ^ n - 1) := by
  have hpow : 2 ^ n ≤ 256 := Nat.pow_le_pow_right (by decide) hn
  have hdvd : 2 ^ n ∣ 2 ^ 8 := Nat.pow_dvd_pow 2 hn
  have hmask : (UInt32.ofNat (2 ^ n - 1)).toNat = 2 ^ n - 1 :=
    UInt32.toNat_ofNat_of_lt' (by show _ < 4294967296; omega)
  have hlt : imm.toUInt8.toNat % 2 ^ n < 2 ^ n := Nat.mod_lt _ (Nat.two_pow_pos n)
  rw [← UInt32.toNat_inj, UInt32.toNat_ofNat_of_lt' (by show _ < 4294967296; omega),
    UInt32.toNat_and, hmask, Nat.and_two_pow_sub_one_eq_mod, UInt32.toNat_toUInt8,
    Nat.mod_mod_of_dvd _ hdvd]

@[simp] theorem ofNat_floatReg (imm : UInt32) :
    UInt32.ofNat (floatReg imm.toUInt8).val = imm &&& 0x1F := ofNat_mod_toUInt8 imm (n := 5) (by decide)

@[simp] theorem ofNat_quadReg (imm : UInt32) :
    UInt32.ofNat (quadReg imm.toUInt8).val = imm &&& 0x07 := ofNat_mod_toUInt8 imm (n := 3) (by decide)

/-! ### Operation codes, read and written again -/

/-- A value that has a code is encoded to it. -/
theorem codeIn_of_withCode? {α : Type} [DecidableEq α] {all : List α} (hnodup : all.Nodup)
    {code : UInt8} {a : α} (h : withCode? all code = some a) : codeIn all a = code := by
  obtain ⟨hlt, rfl⟩ := List.getElem?_eq_some_iff.mp h
  rw [codeIn, hnodup.idxOf_getElem, UInt8.ofNat_toNat]

theorem ofNat_index {b : UInt8} {r : GuestReg} (h : GuestReg.ofIndex? b.toNat = some r) :
    UInt8.ofNat r.index = b := by
  have hindex : r.index = b.toNat := by
    rw [GuestReg.ofIndex?] at h
    split at h
    · cases h
      rfl
    · split at h <;> cases h <;> exact (by assumption : b.toNat = _).symm
  rw [hindex, UInt8.ofNat_toNat]

/-- Three bytes as the digits of a number. -/
theorem toNat_joinBytes (a b c : UInt8) :
    (a.toUInt32 ||| b.toUInt32 <<< (8 : UInt32) ||| c.toUInt32 <<< (16 : UInt32)).toNat =
      2 ^ 16 * c.toNat + (2 ^ 8 * b.toNat + a.toNat) := by
  have ha := a.toNat_lt
  have hb := b.toNat_lt
  have hc := c.toNat_lt
  have hmiddle : (b.toUInt32 <<< (8 : UInt32)).toNat = 2 ^ 8 * b.toNat := by
    rw [UInt32.toNat_shiftLeft, UInt8.toNat_toUInt32, Nat.shiftLeft_eq]
    show b.toNat * 2 ^ 8 % 2 ^ 32 = _
    omega
  have hupper : (c.toUInt32 <<< (16 : UInt32)).toNat = 2 ^ 16 * c.toNat := by
    rw [UInt32.toNat_shiftLeft, UInt8.toNat_toUInt32, Nat.shiftLeft_eq]
    show c.toNat * 2 ^ 16 % 2 ^ 32 = _
    omega
  rw [UInt32.toNat_or, UInt32.toNat_or, UInt8.toNat_toUInt32, hmiddle, hupper, Nat.or_comm a.toNat,
    ← Nat.two_pow_add_eq_or_of_lt (i := 8) ha, Nat.or_comm,
    ← Nat.two_pow_add_eq_or_of_lt (i := 16) (by omega)]

/-- The digits of a number as bytes. -/
theorem bytes_of_toNat {code : UInt32} {a b c : UInt8}
    (h : code.toNat = 2 ^ 16 * c.toNat + (2 ^ 8 * b.toNat + a.toNat)) :
    code.toUInt8 = a ∧ (code >>> 8).toUInt8 = b ∧ (code >>> 16).toUInt8 = c := by
  have ha := a.toNat_lt
  have hb := b.toNat_lt
  have hc := c.toNat_lt
  have hmiddle : (code >>> 8).toNat = code.toNat / 2 ^ 8 := by
    rw [UInt32.toNat_shiftRight, Nat.shiftRight_eq_div_pow]
    rfl
  have hupper : (code >>> 16).toNat = code.toNat / 2 ^ 16 := by
    rw [UInt32.toNat_shiftRight, Nat.shiftRight_eq_div_pow]
    rfl
  refine ⟨?_, ?_, ?_⟩
  · rw [← UInt8.toNat_inj, UInt32.toNat_toUInt8]
    omega
  · rw [← UInt8.toNat_inj, UInt32.toNat_toUInt8, hmiddle]
    omega
  · rw [← UInt8.toNat_inj, UInt32.toNat_toUInt8, hupper]
    omega

end HostWord

namespace Operation

open HostWord

/-- A tag is known by its number. -/
theorem tag_eq_of_toNat {tag : UInt8} {n : Nat} (h : tag.toNat = n) : tag = UInt8.ofNat n := by
  rw [← h, UInt8.ofNat_toNat]

/-- **What a word is decoded to is encoded to its canonical form.** -/
theorem encode_of_decode? {w : HostWord} {op : Operation} (h : decode? w = some op) :
    op.encode = w.canonical := by
  obtain ⟨tag, b1, b2, b3, imm⟩ := w
  obtain ⟨h1, h2, h3⟩ := bytes_of_toNat (toNat_joinBytes b1 b2 b3)
  simp only [canonical]
  generalize hlayout : layout tag = l
  rw [decode?] at h
  split at h
  case h_52 => cases h
  all_goals
    rename_i htag
    obtain rfl := tag_eq_of_toNat htag
    conv at hlayout => lhs; whnf
    subst hlayout
  -- operations without a code, with a code, and with the index of a guest register
  all_goals first
    | (cases h
       simp [encode, entryTag, h1, h2, h3])
    | (obtain ⟨x, hx, rfl⟩ := Option.map_eq_some_iff.mp h
       have hcode := codeIn_of_withCode? (by decide) hx
       simp [encode, entryTag, hcode])
    | (obtain ⟨r, hr, rfl⟩ := Option.map_eq_some_iff.mp h
       have hindex := ofNat_index hr
       simp [encode, entryTag, hindex])

/-- Whether a word is an operation does not depend on bits that do not count. -/
theorem isSome_decode?_canonical (w : HostWord) :
    (decode? w.canonical).isSome = (decode? w).isSome := by
  obtain ⟨tag, b1, b2, b3, imm⟩ := w
  simp only [canonical]
  generalize hlayout : layout tag = l
  unfold decode?
  dsimp only
  split
  case h_52 => rfl
  all_goals
    rename_i htag
    obtain rfl := tag_eq_of_toNat htag
    conv at hlayout => lhs; whnf
    subst hlayout
    simp [entryTag]

theorem decode?_eq_some_iff {w : HostWord} {op : Operation} :
    decode? w = some op ↔ op.Fits ∧ op.encode = w.canonical := by
  constructor
  · intro h
    exact ⟨fits_of_decode? h, encode_of_decode? h⟩
  · rintro ⟨hfits, hencode⟩
    have hcanonical : decode? w.canonical = some op := hencode ▸ decode?_encode hfits
    have hsome : (decode? w).isSome = true := by
      rw [← isSome_decode?_canonical, hcanonical]
      rfl
    obtain ⟨op', hop'⟩ := Option.isSome_iff_exists.mp hsome
    have hsame : decode? w.canonical = some op' :=
      encode_of_decode? hop' ▸ decode?_encode (fits_of_decode? hop')
    rw [hop', ← hsame, hcanonical]

/-- The word of an operation is an operation, also if a field had to be cut to fit. -/
theorem isSome_decode?_encode (op : Operation) : (decode? op.encode).isSome = true := by
  by_cases hfits : op.Fits
  · rw [decode?_encode hfits]
    rfl
  · cases op with
    | exitSyscall code next => rfl
    | _ => exact absurd trivial hfits

/-- The word of an operation is canonical. -/
theorem canonical_encode (op : Operation) : op.encode.canonical = op.encode := by
  by_cases hfits : op.Fits
  · exact (encode_of_decode? (decode?_encode hfits)).symm
  · cases op with
    | exitSyscall code next => simp [encode, canonical, layout, entryTag]
    | _ => exact absurd trivial hfits

/-- **A word is an operation exactly if its canonical form is the word of one.**  It is a word that
some operation is encoded to exactly if it is canonical as well, and two words are the same
operation exactly if they have the same canonical form. -/
theorem decoding_exact (w : HostWord) :
    (∀ op, decode? w = some op ↔ op.Fits ∧ op.encode = w.canonical) ∧
    (decode? w = none ↔ ∀ op, encode op ≠ w.canonical) ∧
    ((∃ op, encode op = w) ↔ (∃ op, decode? w = some op) ∧ w.canonical = w) ∧
    ∀ w' op, decode? w = some op → (decode? w' = some op ↔ w'.canonical = w.canonical) := by
  refine ⟨fun op => decode?_eq_some_iff, ⟨?_, ?_⟩, ⟨?_, ?_⟩, fun w' op hop => ?_⟩
  · intro hnone op hencode
    have hsome := isSome_decode?_encode op
    rw [hencode, isSome_decode?_canonical, hnone] at hsome
    cases hsome
  · intro hall
    cases hop : decode? w with
    | none => rfl
    | some op => exact absurd (encode_of_decode? hop) (hall op)
  · rintro ⟨op, rfl⟩
    exact ⟨Option.isSome_iff_exists.mp (isSome_decode?_encode op), canonical_encode op⟩
  · rintro ⟨⟨op, hop⟩, hcanonical⟩
    exact ⟨op, (encode_of_decode? hop).trans hcanonical⟩
  · obtain ⟨hfits, hencode⟩ := decode?_eq_some_iff.mp hop
    rw [decode?_eq_some_iff, and_iff_right hfits, hencode, eq_comm]

/-- Two words are the operation without effect, and only one of them is what it is encoded to. -/
theorem nop_spelled_twice :
    decode? ⟨0x00, 1, 0, 0, 0⟩ = some nop ∧ decode? ⟨0x00, 0, 0, 0, 0⟩ = some nop ∧
      encode nop ≠ ⟨0x00, 1, 0, 0, 0⟩ := by
  decide

end Operation

end Dynarec
