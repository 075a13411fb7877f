import Dynarec.Proofs.Lower.Plain

/-!
# Scalar instructions

Each rule for scalar instructions is correct: the host operation that it picks computes the value
that the interpreter writes (`executeShift_eq`, `executeArithmetic_eq`, ...), and it reads that
operation's operands from registers that hold them.
-/

namespace Dynarec

namespace Lowering

variable {s : Setting} {i : Instr} {pc : UInt32}

/-! ### What the interpreter computes, as host operations -/

theorem shamt_and (i : Instr) : i.shamt &&& 31 = i.shamt := by
  rw [Instr.shamt, Instr.bits, UInt32.and_assoc]
  rfl

theorem executeShift_eq (c : Core) (i : Instr) : c.executeShift i =
    c.setGpr i.rd (i.shiftOp.apply (c.gpr i.rt) (if i.bit 2 then c.gpr i.rs else i.shamt)) := by
  have hamount : (if i.bit 2 then c.gpr i.rs else i.shamt) &&& 31 =
      if i.bit 2 then c.gpr i.rs &&& 0x1F else i.shamt := by
    cases i.bit 2 with
    | true => rfl
    | false => exact shamt_and i
  simp only [Core.executeShift, Instr.shiftOp]
  rw [← hamount]
  generalize (if i.bit 2 = true then i.bit 6 else i.bit 21) = rotates
  rcases (i.funct &&& 3).toNat with _ | _ | _ | n
  · rfl
  · rfl
  · cases rotates <;> rfl
  · rfl

theorem executeArithmetic_eq (c : Core) {i : Instr} {op : AluOp} (hop : i.arithmeticOp? = some op) :
    c.executeArithmetic i = c.setGpr i.rd (op.apply (c.gpr i.rs) (c.gpr i.rt)) := by
  simp only [Instr.arithmeticOp?] at hop
  simp only [Core.executeArithmetic]
  split at hop <;> cases hop
  all_goals simp only [*]; rfl

theorem executeImmediate_eq (c : Core) (i : Instr) : c.executeImmediate i =
    c.setGpr i.rt (match i.immediateOp? with
      | some (op, operand) => op.apply (c.gpr i.rs) operand
      | none => i.immediate <<< (16 : UInt32)) := by
  simp only [Core.executeImmediate, Instr.immediateOp?]
  split <;> simp only [*, AluOp.apply]

/-- An instruction of a family that only changes the core, when the change is the write of one
general register. -/
theorem execute_setGpr (pc : UInt32) {g : Machine} {F : Core → Core} {n : Fin 32} {v : UInt32}
    (hexec : Machine.execute i pc g = g.withCore F) (hF : F g.core = g.core.setGpr n v) :
    Machine.execute i pc g = .ok .normal (g.mapCore (·.setReg (.gpr n) v)) := by
  rw [hexec, Machine.withCore_eq, Machine.mapCore, hF]
  rfl

/-- A write to register zero has no effect. -/
theorem execute_setGpr_zero {g : Machine} {n : Fin 32} {v : UInt32} (hn : n = 0)
    (hexec : Machine.execute i pc g = .ok .normal (g.mapCore (·.setReg (.gpr n) v))) :
    Machine.execute i pc g = .ok .normal g := by
  rw [hexec, hn, Machine.mapCore, Core.setReg, Core.setGpr_zero]

/-! ### Shifts -/

theorem correct_shift (hfam : i.family = .shift) : Correct s (shift i) i pc := by
  intro b h m g x
  have hexec := execute_setGpr pc (g := g) (by rw [Machine.execute, hfam])
    (executeShift_eq g.core i)
  unfold shift
  by_cases hrd : i.rd = 0
  · rw [if_pos hrd]
    exact wp_pure_done x (execute_setGpr_zero hrd hexec)
  · rw [if_neg hrd]
    refine wp_bind (wp_bindGpr x fun rt b₁ h₁ c₁ x₁ k₁ hrt _ => ?_)
    cases hbit : i.bit 2 with
    | true =>
      rw [if_pos rfl]
      refine wp_bind (wp_bindGpr x₁ fun rs b₂ h₂ c₂ x₂ k₂ hrs _ => ?_)
      refine wp_bind (wp_bindGprForWrite x₂ hrd fun rd b₃ c₃ hready k₃ => ?_)
      refine wp_emit_write trivial hexec hready ((k₁.trans k₂).trans k₃).steady ?_
      rw [hbit, if_pos rfl, ← x₂.get_of_holds_gpr (k₂.holds hrt), ← x₂.get_of_holds_gpr hrs]
      rfl
    | false =>
      rw [if_neg (by decide)]
      refine wp_bind (wp_bindGprForWrite x₁ hrd fun rd b₂ c₂ hready k₂ => ?_)
      refine wp_emit_write trivial hexec hready (k₁.trans k₂).steady ?_
      rw [hbit, if_neg (by decide), ← x₁.get_of_holds_gpr hrt]
      rfl

/-! ### Arithmetic -/

theorem correct_binary (hfam : i.family = .arithmetic) {op : AluOp}
    (hop : i.arithmeticOp? = some op) : Correct s (binary i op) i pc := by
  intro b h m g x
  have hexec := execute_setGpr pc (g := g) (by rw [Machine.execute, hfam])
    (executeArithmetic_eq g.core hop)
  unfold binary
  by_cases hrd : i.rd = 0
  · rw [if_pos hrd]
    exact wp_pure_done x (execute_setGpr_zero hrd hexec)
  · rw [if_neg hrd]
    by_cases hzero : i.rs = 0 ∧ i.rt = 0
    · rw [if_pos hzero]
      refine wp_bind (wp_bindGprForWrite x hrd fun rd b₁ c₁ hready k₁ => ?_)
      refine wp_emit_write trivial hexec hready k₁.steady ?_
      have hg : g.core.gpr 0 = 0 := x.zero
      rw [hzero.1, hzero.2, hg]
      rfl
    · rw [if_neg hzero]
      refine wp_bind (wp_bindGpr x fun rs b₁ h₁ c₁ x₁ k₁ hrs _ => ?_)
      refine wp_bind (wp_bindGpr x₁ fun rt b₂ h₂ c₂ x₂ k₂ hrt _ => ?_)
      refine wp_bind (wp_bindGprForWrite x₂ hrd fun rd b₃ c₃ hready k₃ => ?_)
      refine wp_emit_write trivial hexec hready ((k₁.trans k₂).trans k₃).steady ?_
      rw [← x₂.get_of_holds_gpr (k₂.holds hrs), ← x₂.get_of_holds_gpr hrt]
      rfl

/-- The condition under which a conditional move does nothing or moves. -/
def movesOn (condition : Condition) (b : UInt32) : Bool := condition.eval b 0

theorem executeArithmetic_move (c : Core) {condition : Condition}
    (hi : i.funct.toNat = 0x0A ∧ condition = .equal ∨
      i.funct.toNat = 0x0B ∧ condition = .notEqual) :
    c.executeArithmetic i =
      c.setGpr i.rd (if movesOn condition (c.gpr i.rt) then c.gpr i.rs else c.gpr i.rd) := by
  simp only [Core.executeArithmetic]
  rcases hi with ⟨hfunct, rfl⟩ | ⟨hfunct, rfl⟩
  · simp only [hfunct, movesOn, Condition.eval]
    by_cases hb : c.gpr i.rt = 0
    · simp [hb]
    · simp [hb, c.setGpr_gpr_self]
  · simp only [hfunct, movesOn, Condition.eval]
    by_cases hb : c.gpr i.rt = 0
    · simp [hb, c.setGpr_gpr_self]
    · simp [hb]

/-- A bound register was written: the rule for a destination that is read first. -/
theorem wp_markDirty_done {b b' : Builder} {h h' : HostState} {m g : Machine} {n : Fin 32}
    {a : HostReg} {v : UInt32}
    (hexec : Machine.execute i pc g = .ok .normal (g.mapCore (·.setReg (.gpr n) v)))
    (hn : n ≠ 0) (x : b'.Shadows h' m g) (ha : b'.scalars.Holds (.gpr n) a)
    (hsteady : b.Steady b' h h') :
    wp s (markDirty (.gpr n)) (Refused i pc g h) (Done i pc g b h) b' (h'.set a v) m := by
  have hlt := holds_lt ha
  refine wp_modify rfl rfl ⟨_, hexec, shadows_markDirty (r := .gpr n) x (decide_eq_false hn) ha v, ?_⟩
  have hsteady' := hsteady.set (a := a) (fun heq => ?_) (fun heq => ?_) v
  · exact ⟨hsteady'.jumpTarget, hsteady'.downcount, hsteady'.savedFlags, hsteady'.progress⟩
  · rw [heq] at hlt
    exact absurd hlt (by decide)
  · rw [heq] at hlt
    exact absurd hlt (by decide)

theorem correct_conditionalMove (hfam : i.family = .arithmetic) {condition : Condition}
    (hi : i.funct.toNat = 0x0A ∧ condition = .equal ∨
      i.funct.toNat = 0x0B ∧ condition = .notEqual) :
    Correct s (conditionalMove i condition) i pc := by
  intro b h m g x
  have hexec := execute_setGpr pc (g := g) (by rw [Machine.execute, hfam])
    (executeArithmetic_move g.core hi)
  unfold conditionalMove
  by_cases hrd : i.rd = 0
  · rw [if_pos hrd]
    exact wp_pure_done x (execute_setGpr_zero hrd hexec)
  · rw [if_neg hrd]
    refine wp_bind (wp_bindGpr x fun rs b₁ h₁ c₁ x₁ k₁ hrs _ => ?_)
    refine wp_bind (wp_bindGpr x₁ fun rt b₂ h₂ c₂ x₂ k₂ hrt _ => ?_)
    refine wp_bind (wp_bindGpr x₂ fun rd b₃ h₃ c₃ x₃ k₃ hrd' _ => ?_)
    have hs := ((k₁.trans k₂).trans k₃).steady
    have vrs := x₃.get_of_holds_gpr (k₃.holds (k₂.holds hrs))
    have vrt := x₃.get_of_holds_gpr (k₃.holds hrt)
    have vrd := x₃.get_of_holds_gpr hrd'
    have hflags : ({ h₃ with flags := (h₃.get rt, 0) } : HostState).holds condition =
        movesOn condition (g.core.gpr i.rt) := by
      rw [← vrt]
      rfl
    refine wp_bind (wp_emit_next trivial rfl ?_)
    have x₄ : Shadow b₃.scalars b₃.elements b₃.modifiers
        { h₃ with flags := (h₃.get rt, 0) } ⟨c₃, m.memory⟩ g :=
      x₃.changeHost (fun _ _ => rfl) (fun _ _ => rfl) rfl
    refine wp_bind (wp_emit_next trivial ?_ (wp_markDirty_done hexec hrd x₄ hrd'
      ⟨hs.jumpTarget, hs.downcount, hs.savedFlags, hs.progress⟩))
    show Outcome.next (if HostState.holds _ condition = true then _ else _) _ = _
    rw [hflags]
    cases movesOn condition (g.core.gpr i.rt) with
    | true =>
      rw [if_pos rfl, if_pos rfl, ← vrs]
      rfl
    | false =>
      rw [if_neg (by decide), if_neg (by decide), ← vrd]
      exact congrArg (Outcome.next · _) (HostState.set_get_self _ rd).symm

theorem isFallback_of_family {f : Family} (hf : i.family = f) (ht : f.isTerminator = false)
    (hm : f ≠ .vectorModifier) : IsFallback i := by
  rw [IsFallback, hf]
  exact ⟨ht, hm⟩

theorem correct_arithmetic (hfam : i.family = .arithmetic) :
    Correct s (arithmetic i pc) i pc := by
  unfold arithmetic
  split
  · rename_i hfunct
    exact correct_conditionalMove hfam (.inl ⟨hfunct, rfl⟩)
  · rename_i hfunct
    exact correct_conditionalMove hfam (.inr ⟨hfunct, rfl⟩)
  · cases hop : i.arithmeticOp? with
    | some op => exact correct_binary hfam hop
    | none => exact correct_interpret (isFallback_of_family hfam rfl (by decide))

/-! ### Functions of one register -/

theorem correct_unary {op : UnaryOp} {destination source : Fin 32}
    (hexec : ∀ g : Machine, Machine.execute i pc g = .ok .normal
      (g.mapCore (·.setReg (.gpr destination) (op.apply (g.core.gpr source))))) :
    Correct s (unary op destination source) i pc := by
  intro b h m g x
  unfold unary
  by_cases hd : destination = 0
  · rw [if_pos hd]
    exact wp_pure_done x (execute_setGpr_zero hd (hexec g))
  · rw [if_neg hd]
    refine wp_bind (wp_bindGpr x fun rs b₁ h₁ c₁ x₁ k₁ hrs _ => ?_)
    refine wp_bind (wp_bindGprForWrite x₁ hd fun rd b₂ c₂ hready k₂ => ?_)
    refine wp_emit_write trivial (hexec g) hready (k₁.trans k₂).steady ?_
    rw [← x₁.get_of_holds_gpr hrs]
    rfl

theorem correct_countLeading (hfam : i.family = .countLeading) :
    Correct s (countLeading i) i pc := by
  refine correct_unary fun g => execute_setGpr pc (by rw [Machine.execute, hfam]) ?_
  rw [Core.executeCountLeading]
  split <;> rfl

theorem correct_signExtend (hfam : i.family = .signExtend) : Correct s (signExtend i) i pc := by
  refine correct_unary fun g => execute_setGpr pc (by rw [Machine.execute, hfam]) ?_
  rw [Core.executeSignExtend]
  split <;> rfl

/-! ### Bit fields -/

/-- A register that holds a guest register is none of the reserved ones. -/
theorem ne_reserved {a r : HostReg} (ha : a.val < 13) (hr : 13 ≤ r.val) : a ≠ r := fun heq =>
  Nat.not_lt.mpr hr (heq ▸ ha)

theorem ne_jumpTarget {a : HostReg} (ha : a.val < 13) : a ≠ HostReg.jumpTarget :=
  ne_reserved ha (by decide)

theorem ne_downcount {a : HostReg} (ha : a.val < 13) : a ≠ HostReg.downcount :=
  ne_reserved ha (by decide)

theorem ne_scratch {a : HostReg} (ha : a.val < 13) : a ≠ HostReg.scratch :=
  ne_reserved ha (by decide)

theorem get_set_scratch {h : HostState} {a : HostReg} (ha : a.val < 13) (v : UInt32) :
    (h.set HostReg.scratch v).get a = h.get a := by
  rw [HostState.get_set, if_neg (ne_scratch ha).symm]

theorem get_scratch_set {h : HostState} {a : HostReg} (ha : a.val < 13) (v : UInt32) :
    (h.set a v).get HostReg.scratch = h.get HostReg.scratch := by
  rw [HostState.get_set, if_neg (ne_scratch ha)]

/-- The scratch register may change. -/
theorem shadows_scratch {b : Builder} {h : HostState} {m g : Machine} (x : b.Shadows h m g)
    (v : UInt32) : b.Shadows (h.set HostReg.scratch v) m g :=
  x.changeHost (fun _ ha => get_set_scratch ha v) (fun _ _ => rfl) rfl

theorem steady_scratch {b b' : Builder} {h h' : HostState} (hs : b.Steady b' h h') (v : UInt32) :
    b.Steady b' h (h'.set HostReg.scratch v) := hs.set (by decide) (by decide) v

theorem executeBitField_extract {i : Instr} (hfunct : (i.funct == 0) = true) (c : Core) :
    c.executeBitField i = c.setGpr i.rt (c.gpr i.rs >>> i.shamt &&& lowMask (i.rd.val + 1)) := by
  rw [Core.executeBitField, if_pos hfunct]

/-- The bits that an insertion replaces. -/
def insertMask (i : Instr) : UInt32 := lowMask (i.rd.val - i.shamt.toNat + 1) <<< i.shamt

/-- The bits that an insertion puts there. -/
def insertBits (i : Instr) (a : UInt32) : UInt32 := a <<< i.shamt &&& insertMask i

theorem executeBitField_insert {i : Instr} (hfunct : ¬ (i.funct == 0) = true) (c : Core) :
    c.executeBitField i =
      c.setGpr i.rt (c.gpr i.rt &&& ~~~insertMask i ||| insertBits i (c.gpr i.rs)) := by
  rw [Core.executeBitField, if_neg hfunct]
  rfl

theorem correct_extract (hfam : i.family = .bitField) (hfunct : (i.funct == 0) = true)
    (hrt : i.rt ≠ 0) {b : Builder} {h : HostState} {m g : Machine} (x : b.Shadows h m g) :
    wp s (do
      let rs ← bindGpr i.rs
      let rt ← bindGprForWrite i.rt
      emit (.aluImm .srl rt rs i.shamt)
      emit (.aluImm .and rt rt (lowMask (i.rd.val + 1))))
      (Refused i pc g h) (Done i pc g b h) b h m := by
  have hexec := execute_setGpr pc (g := g) (by rw [Machine.execute, hfam])
    (executeBitField_extract hfunct g.core)
  refine wp_bind (wp_bindGpr x fun rs b₁ h₁ c₁ x₁ k₁ hrs _ => ?_)
  refine wp_bind (wp_bindGprForWrite x₁ hrt fun rd b₂ c₂ hready k₂ => ?_)
  refine wp_bind (wp_emit_next trivial rfl ?_)
  have hlt := holds_lt hready.owns.holds
  refine wp_emit_write (a := rd) trivial hexec ((hready.set _).emitted _)
    (((k₁.trans k₂).steady.set (ne_jumpTarget hlt) (ne_downcount hlt) _).emitted _) ?_
  show Outcome.next _ _ = Outcome.next _ _
  rw [HostState.get_set, if_pos rfl, x₁.get_of_holds_gpr hrs, HostState.set_set, HostState.set_set]
  simp only [AluOp.apply, shamt_and]

theorem correct_insert (hfam : i.family = .bitField) (hfunct : ¬ (i.funct == 0) = true)
    (hrt : i.rt ≠ 0) {b : Builder} {h : HostState} {m g : Machine} (x : b.Shadows h m g) :
    wp s (do
      let rs ← bindGpr i.rs
      let rt ← bindGpr i.rt
      emit (.aluImm .sll HostReg.scratch rs i.shamt)
      emit (.aluImm .and HostReg.scratch HostReg.scratch (insertMask i))
      emit (.aluImm .and rt rt (~~~insertMask i))
      emit (.alu .or rt rt HostReg.scratch)
      markDirty (.gpr i.rt))
      (Refused i pc g h) (Done i pc g b h) b h m := by
  have hexec := execute_setGpr pc (g := g) (by rw [Machine.execute, hfam])
    (executeBitField_insert hfunct g.core)
  refine wp_bind (wp_bindGpr x fun rs b₁ h₁ c₁ x₁ k₁ hrs _ => ?_)
  refine wp_bind (wp_bindGpr x₁ fun rt b₂ h₂ c₂ x₂ k₂ hrt' _ => ?_)
  have hlt := holds_lt hrt'
  have vrs := x₂.get_of_holds_gpr (k₂.holds hrs)
  have vrt := x₂.get_of_holds_gpr hrt'
  -- The inserted bits wait in the scratch register while the destination is masked.
  let h₃ := h₂.set HostReg.scratch (insertBits i (g.core.gpr i.rs))
  have hand : (Operation.aluImm .and HostReg.scratch HostReg.scratch (insertMask i)).perform
      (h₂.set HostReg.scratch (AluOp.sll.apply (h₂.get rs) i.shamt)) ⟨c₂, m.memory⟩ =
      .next h₃ ⟨c₂, m.memory⟩ := by
    show Outcome.next _ _ = Outcome.next _ _
    rw [HostState.get_set, if_pos rfl, HostState.set_set, vrs]
    simp only [AluOp.apply, shamt_and]
    rfl
  have hor : (Operation.alu .or rt rt HostReg.scratch).perform
      (h₃.set rt (AluOp.and.apply (h₃.get rt) (~~~insertMask i))) ⟨c₂, m.memory⟩ =
      .next (h₃.set rt (g.core.gpr i.rt &&& ~~~insertMask i ||| insertBits i (g.core.gpr i.rs)))
        ⟨c₂, m.memory⟩ := by
    have hbits : h₃.get HostReg.scratch = insertBits i (g.core.gpr i.rs) := by
      rw [HostState.get_set, if_pos rfl]
    have hold : h₃.get rt = g.core.gpr i.rt := (get_set_scratch hlt _).trans vrt
    show Outcome.next _ _ = Outcome.next _ _
    rw [hold, get_scratch_set hlt, hbits, HostState.get_set, if_pos rfl, HostState.set_set]
    rfl
  refine wp_bind (wp_emit_next trivial rfl ?_)
  refine wp_bind (wp_emit_next trivial hand ?_)
  refine wp_bind (wp_emit_next trivial rfl ?_)
  refine wp_bind (wp_emit_next trivial hor ?_)
  exact wp_markDirty_done hexec hrt (shadows_scratch (b := { b₂ with code := _ }) x₂ _) hrt'
    ((steady_scratch (k₁.trans k₂).steady _).emitted _)

theorem correct_bitField (hfam : i.family = .bitField) : Correct s (bitField i) i pc := by
  intro b h m g x
  unfold bitField
  by_cases hrt : i.rt = 0
  · rw [if_pos hrt]
    have hexec : Machine.execute i pc g = g.withCore (·.executeBitField i) := by
      rw [Machine.execute, hfam]
    have hnothing : g.core.executeBitField i = g.core := by
      rw [Core.executeBitField]
      split <;> rw [hrt, Core.setGpr_zero]
    refine wp_pure_done x ?_
    rw [hexec, Machine.withCore_eq, Machine.mapCore, hnothing]
  · rw [if_neg hrt]
    by_cases hfunct : (i.funct == 0) = true
    · simp only [hfunct, if_true]
      exact correct_extract hfam hfunct hrt x
    · simp only [hfunct]
      exact correct_insert hfam hfunct hrt x

/-! ### Immediates -/

theorem correct_immediate (hfam : i.family = .immediate) : Correct s (immediate i) i pc := by
  intro b h m g x
  have hexec := execute_setGpr pc (g := g) (by rw [Machine.execute, hfam])
    (executeImmediate_eq g.core i)
  unfold immediate
  by_cases hrt : i.rt = 0
  · rw [if_pos hrt]
    exact wp_pure_done x (execute_setGpr_zero hrt hexec)
  · rw [if_neg hrt]
    cases hop : i.immediateOp? with
    | none =>
      rw [hop] at hexec
      refine wp_bind (wp_bindGprForWrite x hrt fun rt b₁ c₁ hready k₁ => ?_)
      exact wp_emit_write trivial hexec hready k₁.steady rfl
    | some p =>
      obtain ⟨op, operand⟩ := p
      rw [hop] at hexec
      by_cases hrs : i.rs = 0
      · simp only [hrs, if_true]
        refine wp_bind (wp_bindGprForWrite x hrt fun rt b₁ c₁ hready k₁ => ?_)
        refine wp_emit_write trivial hexec hready k₁.steady ?_
        have hg : g.core.gpr 0 = 0 := x.zero
        rw [hrs, hg]
        rfl
      · simp only [hrs, if_false]
        refine wp_bind (wp_bindGpr x fun rs b₁ h₁ c₁ x₁ k₁ hrs _ => ?_)
        refine wp_bind (wp_bindGprForWrite x₁ hrt fun rt b₂ c₂ hready k₂ => ?_)
        refine wp_emit_write trivial hexec hready (k₁.trans k₂).steady ?_
        rw [← x₁.get_of_holds_gpr hrs]
        rfl

/-! ### Products -/

/-- The last operation copies a register to the one that is ready for it. -/
theorem wp_move_write {b b' : Builder} {h h' : HostState} {m' g : Machine} {r : GuestReg}
    {a source : HostReg} {v : UInt32}
    (hexec : Machine.execute i pc g = .ok .normal (g.mapCore (·.setReg r v)))
    (hready : Ready b' h' m' g r a) (hsteady : b.Steady b' h h') (hsource : h'.get source = v) :
    wp s (move a source) (Refused i pc g h) (Done i pc g b h) b' h' m' := by
  unfold move
  by_cases heq : a = source
  · rw [if_pos heq]
    have hwrite := hready.write v
    rw [← hsource, ← heq, HostState.set_get_self, heq, hsource] at hwrite
    exact wp_pure ⟨_, hexec, hwrite, hsteady⟩
  · rw [if_neg heq]
    refine wp_emit_write trivial hexec hready hsteady ?_
    rw [← hsource]
    rfl

theorem correct_moveFromProduct {half : GuestReg} {destination : Fin 32}
    (hexec : ∀ g : Machine, Machine.execute i pc g = .ok .normal
      (g.mapCore (·.setReg (.gpr destination) (g.core.reg half)))) :
    Correct s (moveFromProduct half destination) i pc := by
  intro b h m g x
  unfold moveFromProduct
  by_cases hd : destination = 0
  · rw [if_pos hd]
    exact wp_pure_done x (execute_setGpr_zero hd (hexec g))
  · rw [if_neg hd]
    refine wp_bind (wp_bindReg x fun rs b₁ h₁ c₁ x₁ k₁ hrs _ => ?_)
    refine wp_bind (wp_bindGprForWrite x₁ hd fun rd b₂ c₂ hready k₂ => ?_)
    exact wp_move_write (hexec g) hready (k₁.trans k₂).steady (x₁.get_of_holds hrs)

theorem correct_moveToProduct {half : GuestReg} {source : Fin 32} (hhalf : half.isZero = false)
    (hexec : ∀ g : Machine, Machine.execute i pc g = .ok .normal
      (g.mapCore (·.setReg half (g.core.gpr source)))) :
    Correct s (moveToProduct half source) i pc := by
  intro b h m g x
  unfold moveToProduct
  refine wp_bind (wp_bindGpr x fun rs b₁ h₁ c₁ x₁ k₁ hrs _ => ?_)
  refine wp_bind (wp_bindForWrite x₁ hhalf fun rd b₂ c₂ hready k₂ => ?_)
  exact wp_move_write (hexec g) hready (k₁.trans k₂).steady (x₁.get_of_holds_gpr hrs)

theorem executeMultiplyDivide_product (c : Core) {kind : MulKind} {accumulates : Bool}
    (hi : i.product? = some (kind, accumulates)) :
    c.executeMultiplyDivide i =
      (c.setReg .hi (kind.apply (c.gpr i.rs) (c.gpr i.rt) c.hi c.lo).1).setReg .lo
        (kind.apply (c.gpr i.rs) (c.gpr i.rt) c.hi c.lo).2 := by
  simp only [Instr.product?] at hi
  simp only [Core.executeMultiplyDivide]
  split at hi <;> cases hi
  all_goals simp only [*]; rfl

/-- A product that replaces the old one does not read it. -/
theorem apply_of_replaces {kind : MulKind} (hi : i.product? = some (kind, false))
    (a b hi lo hi' lo' : UInt32) : kind.apply a b hi lo = kind.apply a b hi' lo' := by
  rename i.product? = _ => hkind
  simp only [Instr.product?] at hkind
  split at hkind <;> cases hkind <;> rfl

theorem execute_product (pc : UInt32) (hfam : i.family = .multiplyDivide) {kind : MulKind}
    {accumulates : Bool} (hi : i.product? = some (kind, accumulates)) (g : Machine) :
    Machine.execute i pc g = .ok .normal ((g.mapCore (·.setReg .hi
      (kind.apply (g.core.gpr i.rs) (g.core.gpr i.rt) g.core.hi g.core.lo).1)).mapCore
      (·.setReg .lo (kind.apply (g.core.gpr i.rs) (g.core.gpr i.rt) g.core.hi g.core.lo).2)) := by
  have hexec : Machine.execute i pc g = g.withCore (·.executeMultiplyDivide i) := by
    rw [Machine.execute, hfam]
  rw [hexec, Machine.withCore_eq, Machine.mapCore, executeMultiplyDivide_product _ hi]
  rfl

/-- Different registers are held in different host registers. -/
theorem ne_of_holds {b : Builder} {r r' : GuestReg} {a a' : HostReg} (ha : b.scalars.Holds r a)
    (ha' : b.scalars.Holds r' a') (hr : r ≠ r') : a ≠ a' := by
  obtain ⟨i, hi, -, rfl⟩ := ha
  obtain ⟨j, hj, -, rfl⟩ := ha'
  intro heq
  rw [ScalarCache.hostReg_inj heq, hj] at hi
  exact hr (Option.some.inj hi).symm

theorem steady_multiply {b b' : Builder} {h h' : HostState} (hs : b.Steady b' h h') {hi lo : HostReg}
    (hhi : hi.val < 13) (hlo : lo.val < 13) (v w : UInt32) :
    b.Steady b' h ((h'.set hi v).set lo w) :=
  (hs.set (ne_jumpTarget hhi) (ne_downcount hhi) v).set (ne_jumpTarget hlo) (ne_downcount hlo) w

theorem perform_multiply (kind : MulKind) (rs rt hi lo : HostReg) (h : HostState) (m : Machine) :
    (Operation.multiply kind rs rt hi lo).perform h m =
      .next ((h.set hi (kind.apply (h.get rs) (h.get rt) (h.get hi) (h.get lo)).1).set lo
        (kind.apply (h.get rs) (h.get rt) (h.get hi) (h.get lo)).2) m := rfl

theorem correct_product (hfam : i.family = .multiplyDivide) {kind : MulKind} {accumulates : Bool}
    (hkind : i.product? = some (kind, accumulates)) :
    Correct s (product i kind accumulates) i pc := by
  intro b h m g x
  have hexec := execute_product pc hfam hkind g
  unfold product
  refine wp_bind (wp_bindGpr x fun rs b₁ h₁ c₁ x₁ k₁ hrs _ => ?_)
  refine wp_bind (wp_bindGpr x₁ fun rt b₂ h₂ c₂ x₂ k₂ hrt _ => ?_)
  cases accumulates with
  | true =>
    rw [if_pos rfl]
    refine wp_bind (wp_bindReg x₂ fun hi b₃ h₃ c₃ x₃ k₃ hhi _ => ?_)
    refine wp_bind (wp_bindReg x₃ fun lo b₄ h₄ c₄ x₄ k₄ hlo _ => ?_)
    have k₃₄ := k₃.trans k₄
    have hhi := k₄.holds hhi
    refine wp_bind (wp_emit_next trivial (perform_multiply _ _ _ _ _ _ _) ?_)
    rw [x₄.get_of_holds_gpr (k₃₄.holds (k₂.holds hrs)), x₄.get_of_holds_gpr (k₃₄.holds hrt),
      x₄.get_of_holds hhi, x₄.get_of_holds hlo]
    have hs := steady_multiply ((k₁.trans k₂).trans k₃₄).steady (holds_lt hhi) (holds_lt hlo)
      (kind.apply (g.core.gpr i.rs) (g.core.gpr i.rt) g.core.hi g.core.lo).1
      (kind.apply (g.core.gpr i.rs) (g.core.gpr i.rt) g.core.hi g.core.lo).2
    have x₅ := shadows_markDirty x₄ rfl hhi
      (kind.apply (g.core.gpr i.rs) (g.core.gpr i.rt) g.core.hi g.core.lo).1
    have x₆ := shadows_markDirty (b := { b₄ with scalars := b₄.scalars.markDirty .hi }) x₅ rfl
      (ScalarCache.holds_markDirty hlo)
      (kind.apply (g.core.gpr i.rs) (g.core.gpr i.rt) g.core.hi g.core.lo).2
    refine wp_bind (wp_modify rfl rfl (wp_modify rfl rfl ⟨_, hexec, x₆, ?_⟩))
    exact ⟨hs.jumpTarget, hs.downcount, hs.savedFlags, hs.progress⟩
  | false =>
    rw [if_neg (by decide)]
    refine wp_bind (wp_bindForWrite x₂ (r := .hi) rfl fun hi b₃ c₃ hready₃ k₃ => ?_)
    -- The upper half is ready: it stands for whatever is in it.
    have x₃ := hready₃.write (h₂.get hi)
    rw [HostState.set_get_self] at x₃
    refine wp_bind (wp_bindForWrite x₃ (r := .lo) rfl fun lo b₄ c₄ hready₄ k₄ => ?_)
    have hhi := k₄.owns hready₃.owns
    have hlo := hready₄.owns.holds
    have hne : lo ≠ hi := ne_of_holds hlo hhi.holds (by decide)
    let p := kind.apply (g.core.gpr i.rs) (g.core.gpr i.rt) g.core.hi g.core.lo
    have hperform : (Operation.multiply kind rs rt hi lo).perform h₂ ⟨c₄, m.memory⟩ =
        .next ((h₂.set hi p.1).set lo p.2) ⟨c₄, m.memory⟩ := by
      rw [perform_multiply, x₂.get_of_holds_gpr (k₂.holds hrs), x₂.get_of_holds_gpr hrt,
        apply_of_replaces hkind _ _ (h₂.get hi) (h₂.get lo) g.core.hi g.core.lo]
    refine wp_emit trivial ?_
    rw [hperform]
    have x₄ := hready₄.write p.2
    have x₅ := x₄.changeScalars (x₄.scalars.rewrite hhi rfl p.1)
      (sameButScalars_set (holds_lt hhi.holds) p.1) (.refl _) (.setReg _ _ _)
    rw [HostState.set_comm _ hne] at x₅
    exact ⟨_, hexec, x₅, (steady_multiply ((k₁.trans k₂).trans (k₃.trans k₄)).steady
      (holds_lt hhi.holds) (holds_lt hlo) _ _).emitted _⟩

theorem execute_multiplyDivide_setReg (hfam : i.family = .multiplyDivide) {r : GuestReg}
    {v : UInt32} {g : Machine} (hF : g.core.executeMultiplyDivide i = g.core.setReg r v) :
    Machine.execute i pc g = .ok .normal (g.mapCore (·.setReg r v)) := by
  have hexec : Machine.execute i pc g = g.withCore (·.executeMultiplyDivide i) := by
    rw [Machine.execute, hfam]
  rw [hexec, Machine.withCore_eq, Machine.mapCore, hF]
  rfl

theorem correct_multiplyDivide (hfam : i.family = .multiplyDivide) :
    Correct s (multiplyDivide i pc) i pc := by
  unfold multiplyDivide
  split
  · rename_i hfunct
    refine correct_moveFromProduct fun g => execute_multiplyDivide_setReg hfam ?_
    simp only [Core.executeMultiplyDivide, hfunct]
    rfl
  · rename_i hfunct
    refine correct_moveToProduct rfl fun g => execute_multiplyDivide_setReg hfam ?_
    simp only [Core.executeMultiplyDivide, hfunct]
    rfl
  · rename_i hfunct
    refine correct_moveFromProduct fun g => execute_multiplyDivide_setReg hfam ?_
    simp only [Core.executeMultiplyDivide, hfunct]
    rfl
  · rename_i hfunct
    refine correct_moveToProduct rfl fun g => execute_multiplyDivide_setReg hfam ?_
    simp only [Core.executeMultiplyDivide, hfunct]
    rfl
  · cases hkind : i.product? with
    | some p => exact correct_product hfam hkind
    | none => exact correct_interpret (isFallback_of_family hfam rfl (by decide))

/-! ### Memory -/

theorem executeMemory_load {width : Width} (hi : i.access = (width, true)) (g : Machine) :
    g.executeMemory i = .ok (g.mapCore (·.setReg (.gpr i.rt)
      (width.load g.memory (g.core.gpr i.rs + i.offset.toUInt32)))) := by
  rw [Instr.access] at hi
  split at hi <;> cases hi <;> (simp only [Machine.executeMemory, *]; rfl)

theorem executeMemory_store {width : Width} (hi : i.access = (width, false)) (g : Machine) :
    g.executeMemory i =
      (width.store g.memory (g.core.gpr i.rs + i.offset.toUInt32) (g.core.gpr i.rt)).map
        (Machine.mk g.core) := by
  rw [Instr.access] at hi
  split at hi <;> cases hi <;> (simp only [Machine.executeMemory, *]; rfl)

theorem correct_access (hfam : i.family = .memory) : Correct s (access i) i pc := by
  intro b h m g x
  unfold access
  cases haccess : i.access with
  | mk width loads =>
  simp only
  cases loads with
  | true =>
    have hexec : Machine.execute i pc g = .ok .normal (g.mapCore (·.setReg (.gpr i.rt)
        (width.load g.memory (g.core.gpr i.rs + i.offset.toUInt32)))) := by
      rw [Machine.execute, hfam]
      show Machine.withMemory _ _ = _
      rw [Machine.withMemory, executeMemory_load haccess]
    rw [if_pos rfl]
    by_cases hrt : i.rt = 0
    · rw [if_pos hrt]
      exact wp_pure_done x (execute_setGpr_zero hrt hexec)
    · rw [if_neg hrt]
      refine wp_bind (wp_bindGpr x fun base b₁ h₁ c₁ x₁ k₁ hbase _ => ?_)
      refine wp_bind (wp_bindGprForWrite x₁ hrt fun rt b₂ c₂ hready k₂ => ?_)
      refine wp_emit_write trivial hexec hready (k₁.trans k₂).steady ?_
      rw [← x₁.get_of_holds_gpr hbase, ← x.memory]
      rfl
  | false =>
    rw [if_neg (by decide)]
    refine wp_bind (wp_bindGpr x fun rt b₁ h₁ c₁ x₁ k₁ hrt _ => ?_)
    refine wp_bind (wp_bindGpr x₁ fun base b₂ h₂ c₂ x₂ k₂ hbase _ => ?_)
    refine wp_emit_store (F := fun memory => width.store memory
      (g.core.gpr i.rs + i.offset.toUInt32) (g.core.gpr i.rt)) trivial ?_ x₂
      (k₁.trans k₂).steady ?_
    · rw [Machine.execute, hfam]
      show Machine.withMemory _ _ = _
      rw [Machine.withMemory, executeMemory_store haccess]
      rfl
    · rw [← x₂.get_of_holds_gpr hbase, ← x₂.get_of_holds_gpr (k₂.holds hrt)]
      rfl

end Lowering

end Dynarec
