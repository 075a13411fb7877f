import Dynarec.Proofs.Lower.VectorPaths

/-!
# A block never runs out of registers

Every instruction that does not end a block takes at most four scalar registers, twelve float
registers, three quad registers and all temporaries (`takes_plain`).  A branch takes three scalar
registers more, whether it holds them across its delay slot or gives them back before it
(`takes_terminator`).  That is less than there is of every kind but temporaries, and nothing is
locked between two instructions, so the lowering of a block is supplied from its start to its end
(`supplied_block`).  The temporaries are used to the last one by arithmetic on four lanes whose
operands are all modified.
-/

namespace Dynarec

namespace ElementCache

variable {c : ElementCache} {e : Element} {load : Bool}

theorem temporaries_leaveQuad (c : ElementCache) (e : Element) :
    (c.leaveQuad e).2.temporaries = c.temporaries := by
  rw [leaveQuad]
  cases c.place e with
  | memory | float => rfl
  | quad i lane => exact c.temporaries_evictQuad i

theorem temporaries_placeFloat? {p : Placed (Fin 20) ElementCache}
    (hp : c.placeFloat? e load = some p) : p.cache.temporaries = c.temporaries := by
  rw [placeFloat?] at hp
  cases hfind : c.floats.find? e with
  | some i =>
    rw [hfind] at hp
    cases hp
    rfl
  | none =>
    rw [hfind] at hp
    obtain ⟨i, -, rfl⟩ := Option.map_eq_some_iff.mp hp
    exact c.temporaries_evictFloat i

/-- **Binding an element uses no temporary.** -/
theorem temporaries_bindElement? {p : Placed FloatReg ElementCache}
    (hp : c.bindElement? e load = some p) : p.cache.temporaries = c.temporaries := by
  rw [bindElement?_eq] at hp
  obtain ⟨q, hq, rfl⟩ := Option.map_eq_some_iff.mp hp
  exact (temporaries_placeFloat? hq).trans (c.temporaries_leaveQuad e)

/-- Temporaries are handed out in order, from `F20` on. -/
theorem reg_temporary? {p : Placed FloatReg ElementCache} (hp : c.temporary? = some p) :
    p.reg.val = 20 + c.temporaries ∧ p.cache.temporaries = c.temporaries + 1 := by
  rw [temporary?] at hp
  split at hp
  · rename_i hlt
    rw [temporaryCount] at hlt
    cases hp
    refine ⟨Nat.mod_eq_of_lt ?_, rfl⟩
    omega
  · cases hp

theorem temporary?_eq_none (h : c.temporaries = temporaryCount) : c.temporary? = none := by
  rw [temporary?, if_neg (by rw [h]; exact Nat.lt_irrefl _)]

end ElementCache

namespace Lowering

variable {α : Type} {s : Setting} {b : Builder} {d : Pool → Nat} {n : Nat}

/-! ### Scalar instructions -/

theorem scalars_le_demand (hn : n ≤ 4) : n • Pool.one .scalar ≤ Pool.demand := by
  intro p
  show n * Pool.one .scalar p ≤ _
  cases p with
  | scalar =>
    rw [Pool.one, Pi.single_eq_same, Nat.mul_one]
    exact hn
  | float | quad | temporary =>
    rw [Pool.one, Pi.single_eq_of_ne (by decide), Nat.mul_zero]
    exact Nat.zero_le _

/-- A step that takes nothing, where something may be taken. -/
theorem Takes.last {act : Lowering α} (h : Takes s act 0) : Takes s act d := h.mono zero_le

theorem takes_bindThen {r : GuestReg} {f : HostReg → Lowering α}
    (hf : ∀ x, Takes s (f x) (n • Pool.one .scalar)) :
    Takes s (Lowering.bind r >>= f) ((n + 1) • Pool.one .scalar) := by
  rw [succ_nsmul']
  exact takes_bind (takes_bindReg r) hf

theorem takes_bindForWriteThen {r : GuestReg} {f : HostReg → Lowering α}
    (hf : ∀ x, Takes s (f x) (n • Pool.one .scalar)) :
    Takes s (bindForWrite r >>= f) ((n + 1) • Pool.one .scalar) := by
  rw [succ_nsmul']
  exact takes_bind (takes_bindForWrite r) hf

theorem takes_flushModifiers : Takes s flushModifiers 0 :=
  takes_zero fun b => ⟨_, _, flushModifiers_eq b, le_rfl⟩

/-- Writing everything back locks nothing. -/
theorem takes_flushAll : Takes s flushAll 0 := by
  refine takes_zero fun b => ⟨_, _, (flushAll_eq b).trans (flushModifiers_eq _), le_of_eq ?_⟩
  refine congrArg₂ (· + ·) (ScalarCache.taken_congr fun i => ?_)
    (ElementCache.taken_congr (fun i => ?_) (fun i => ?_) rfl)
  · exact b.scalars.arena.locked_markClean i
  · exact b.elements.floats.locked_markClean i
  · exact b.elements.quads.locked_markClean i

theorem takes_discardAll : Takes s discardAll 0 := by
  refine takes_modify fun b => (Builder.taken_eq_zero ?_ ?_ ?_ rfl).trans_le zero_le
  · exact b.scalars.arena.locked_clearAll
  · exact b.elements.floats.locked_clearAll
  · exact b.elements.quads.locked_clearAll

/-- **The fallback to the interpreter** drops every binding, and the locks with them. -/
theorem takes_interpret (i : Instr) (pc : UInt32) : Takes s (interpret i pc) 0 := by
  unfold interpret
  refine takes_bind_zero takes_flushAll fun _ => takes_bind_zero takes_discardAll fun _ => ?_
  refine takes_bind_zero (takes_emit _) fun _ => takes_bind_zero (takes_emit _) fun _ => ?_
  exact takes_ite (takes_updateModifiers _) (takes_ite (takes_updateModifiers _) (takes_pure _))

theorem takes_shift (i : Instr) : Takes s (shift i) (3 • Pool.one .scalar) := by
  unfold shift
  refine takes_ite (takes_pure _).last (takes_bindThen fun rt => takes_ite ?_ ?_)
  · exact takes_bindThen fun rs => takes_bindForWriteThen fun rd => (takes_emit _).last
  · exact takes_bindForWriteThen fun rd => (takes_emit _).last

theorem takes_conditionalMove (i : Instr) (condition : Condition) :
    Takes s (conditionalMove i condition) (3 • Pool.one .scalar) := by
  unfold conditionalMove
  refine takes_ite (takes_pure _).last (takes_bindThen fun rs => takes_bindThen fun rt => ?_)
  refine takes_bindThen fun rd => takes_bind_zero (takes_emit _) fun _ => ?_
  exact takes_bind_zero (takes_emit _) fun _ => (takes_markDirty _).last

theorem takes_binary (i : Instr) (op : AluOp) : Takes s (binary i op) (3 • Pool.one .scalar) := by
  unfold binary
  refine takes_ite (takes_pure _).last (takes_ite ?_ ?_)
  · exact takes_bindForWriteThen fun rd => (takes_emit _).last
  · exact takes_bindThen fun rs => takes_bindThen fun rt =>
      takes_bindForWriteThen fun rd => (takes_emit _).last

theorem takes_arithmetic (i : Instr) (pc : UInt32) :
    Takes s (arithmetic i pc) (3 • Pool.one .scalar) := by
  unfold arithmetic
  split
  · exact takes_conditionalMove i _
  · exact takes_conditionalMove i _
  · split
    · exact takes_binary i _
    · exact (takes_interpret i pc).last

theorem takes_unary (op : UnaryOp) (destination source : Fin 32) :
    Takes s (unary op destination source) (2 • Pool.one .scalar) := by
  unfold unary
  refine takes_ite (takes_pure _).last (takes_bindThen fun rs => ?_)
  exact takes_bindForWriteThen fun rd => (takes_emit _).last

theorem takes_bitField (i : Instr) : Takes s (bitField i) (2 • Pool.one .scalar) := by
  unfold bitField
  refine takes_ite (takes_pure _).last (takes_bindThen fun rs => takes_ite ?_ ?_)
  · exact takes_bindForWriteThen fun rt => takes_bind_zero (takes_emit _) fun _ =>
      (takes_emit _).last
  · refine takes_bindThen fun rt => takes_bind_zero (takes_emit _) fun _ => ?_
    refine takes_bind_zero (takes_emit _) fun _ => takes_bind_zero (takes_emit _) fun _ => ?_
    exact takes_bind_zero (takes_emit _) fun _ => (takes_markDirty _).last

theorem takes_immediate (i : Instr) : Takes s (immediate i) (2 • Pool.one .scalar) := by
  unfold immediate
  refine takes_ite (takes_pure _).last ?_
  split
  · exact takes_bindForWriteThen fun rt => (takes_emit _).last
  · refine takes_ite ?_ (takes_bindThen fun rs => ?_)
    · exact takes_bindForWriteThen fun rt => (takes_emit _).last
    · exact takes_bindForWriteThen fun rt => (takes_emit _).last

theorem takes_moveFromProduct (half : GuestReg) (destination : Fin 32) :
    Takes s (moveFromProduct half destination) (2 • Pool.one .scalar) := by
  unfold moveFromProduct
  refine takes_ite (takes_pure _).last (takes_bindThen fun rs => ?_)
  exact takes_bindForWriteThen fun rd => (takes_move _ _).last

theorem takes_moveToProduct (half : GuestReg) (source : Fin 32) :
    Takes s (moveToProduct half source) (2 • Pool.one .scalar) := by
  unfold moveToProduct
  exact takes_bindThen fun rs => takes_bindForWriteThen fun rd => (takes_move _ _).last

/-- **A product takes the most scalar registers**: two factors, and both halves. -/
theorem takes_product (i : Instr) (kind : MulKind) (accumulates : Bool) :
    Takes s (product i kind accumulates) (4 • Pool.one .scalar) := by
  unfold product
  refine takes_bindThen fun rs => takes_bindThen fun rt => takes_ite ?_ ?_
  · refine takes_bindThen fun hi => takes_bindThen fun lo => takes_bind_zero (takes_emit _) fun _ => ?_
    exact takes_bind_zero (takes_markDirty _) fun _ => (takes_markDirty _).last
  · exact takes_bindForWriteThen fun hi => takes_bindForWriteThen fun lo => (takes_emit _).last

theorem takes_multiplyDivide (i : Instr) (pc : UInt32) :
    Takes s (multiplyDivide i pc) (4 • Pool.one .scalar) := by
  have hle : 2 • Pool.one .scalar ≤ 4 • Pool.one .scalar := by
    intro p
    cases p <;> decide
  unfold multiplyDivide
  split
  · exact (takes_moveFromProduct _ _).mono hle
  · exact (takes_moveToProduct _ _).mono hle
  · exact (takes_moveFromProduct _ _).mono hle
  · exact (takes_moveToProduct _ _).mono hle
  · split
    · exact takes_product i _ _
    · exact (takes_interpret i pc).last

theorem takes_access (i : Instr) : Takes s (access i) (2 • Pool.one .scalar) := by
  unfold access
  refine takes_ite (takes_ite (takes_pure _).last ?_) ?_
  · exact takes_bindThen fun base => takes_bindForWriteThen fun rt => (takes_emit _).last
  · exact takes_bindThen fun rt => takes_bindThen fun base => (takes_emit _).last

/-! ### Vector instructions -/

theorem takes_usesQuads (i : Instr) (regs : List UInt8) : Takes s (usesQuads i regs) 0 :=
  takes_get fun _ => takes_pure _

theorem takes_vectorBinary (i : Instr) (pc : UInt32) : Takes s (vectorBinary i pc) Pool.demand := by
  unfold vectorBinary
  refine takes_get fun b => ?_
  cases b.modifiers.known? with
  | none => exact (takes_interpret i pc).last
  | some known =>
    refine takes_bind_zero (takes_usesQuads i _) fun quads => takes_ite ?_ ?_
    · simpa only [binaryQuads, bind_assoc] using
        takes_bind_last (takes_binaryQuads i) fun _ => takes_updateModifiers (·.consume)
    · simpa only [binaryLanes, bind_assoc] using
        takes_bind_last (takes_binaryLanes i known) fun _ => takes_updateModifiers (·.consume)

theorem takes_vectorUnary (i : Instr) (pc : UInt32) : Takes s (vectorUnary i pc) Pool.demand := by
  have hle : Pool.one .quad + Pool.one .quad ≤ Pool.demand := by
    intro p
    cases p <;> decide
  unfold vectorUnary
  refine takes_get fun b => ?_
  cases b.modifiers.known? with
  | none => exact (takes_interpret i pc).last
  | some known =>
    refine takes_bind_zero (takes_usesQuads i _) fun quads => ?_
    split
    · exact (takes_bind (takes_readQuad _) fun qs => takes_bind_last (takes_writeQuad _) fun qd =>
        takes_bind_zero (takes_emit _) fun _ => takes_updateModifiers _).mono hle
    · exact (takes_bind_last (takes_writeQuad _) fun qd => takes_bind_zero (takes_emit _) fun _ =>
        takes_updateModifiers _).mono (le_trans (le_add_of_nonneg_left zero_le) hle)
    · exact takes_bind_last (takes_unaryLanes i known) fun _ => takes_updateModifiers _

theorem takes_vectorCompare (i : Instr) (pc : UInt32) :
    Takes s (vectorCompare i pc) Pool.demand := by
  unfold vectorCompare
  refine takes_get fun b => ?_
  cases b.modifiers.known? with
  | none => exact (takes_interpret i pc).last
  | some known =>
    simpa only [compareLanes, bind_assoc] using
      takes_bind_last (takes_compareLanes i known) fun _ => takes_updateModifiers (·.consume)

/-- One scalar register, and one of another kind. -/
theorem takes_elementAccess (i : Instr) :
    Takes s (elementAccess i) (Pool.one .scalar + Pool.one .float) := by
  unfold elementAccess
  refine takes_bind (takes_bindReg _) fun base => takes_ite ?_ ?_
  · exact takes_bind_last (takes_writeElement _) fun fd => takes_emit _
  · exact takes_bind_last (takes_readElement _) fun fs => takes_emit _

theorem takes_quadAccess (i : Instr) :
    Takes s (quadAccess i) (Pool.one .scalar + Pool.one .quad) := by
  unfold quadAccess
  refine takes_bind (takes_bindReg _) fun base => takes_ite ?_ ?_
  · exact takes_bind_last (takes_writeQuad _) fun qd => takes_emit _
  · exact takes_bind_last (takes_readQuad _) fun qs => takes_emit _

theorem takes_moveElement (i : Instr) :
    Takes s (moveElement i) (Pool.one .scalar + Pool.one .float) := by
  unfold moveElement
  refine takes_ite ?_ (takes_ite ?_ (takes_pure _).last)
  · exact takes_bind (takes_bindReg _) fun rs => takes_bind_last (takes_writeElement _) fun fd =>
      takes_emit _
  · rw [add_comm]
    exact takes_bind (takes_readElement _) fun fs => takes_bind_last (takes_bindForWrite _) fun rd =>
      takes_emit _

theorem takes_moveCondition (i : Instr) : Takes s (moveCondition i) (2 • Pool.one .scalar) := by
  unfold moveCondition
  refine takes_ite ?_ (takes_ite ?_ (takes_pure _).last)
  · exact takes_bindThen fun rs => takes_bindForWriteThen fun condition => (takes_move _ _).last
  · exact takes_bindThen fun condition => takes_bindForWriteThen fun rd => (takes_move _ _).last

theorem takes_moveControl (i : Instr) : Takes s (moveControl i) (1 • Pool.one .scalar) := by
  unfold moveControl
  refine takes_ite ?_ (takes_ite ?_ (takes_pure _).last)
  · refine takes_bindThen fun rs => takes_bind_zero (takes_emit _) fun _ => ?_
    split
    · exact (takes_updateModifiers _).last
    · exact (takes_pure _).last
  · refine takes_ite (takes_bind_zero takes_flushModifiers fun _ => ?_) ?_
    · exact takes_bindForWriteThen fun rd => (takes_emit _).last
    · exact takes_bindForWriteThen fun rd => (takes_emit _).last

theorem takes_vectorMove (i : Instr) (pc : UInt32) : Takes s (vectorMove i pc) Pool.demand := by
  unfold vectorMove
  refine takes_ite ((takes_moveElement i).mono fun p => ?_) (takes_ite (takes_interpret i pc).last
    (takes_ite ((takes_moveCondition i).mono (scalars_le_demand (by decide)))
      ((takes_moveControl i).mono (scalars_le_demand (by decide)))))
  cases p <;> decide

/-- **What an instruction that does not end a block takes**, with whatever is known about modifiers. -/
theorem takes_plain (i : Instr) (pc : UInt32) : Takes s (plain i pc) Pool.demand := by
  unfold plain
  split
  · exact (takes_shift i).mono (scalars_le_demand (by decide))
  · exact (takes_arithmetic i pc).mono (scalars_le_demand (by decide))
  · exact (takes_unary _ _ _).mono (scalars_le_demand (by decide))
  · exact (takes_multiplyDivide i pc).mono (scalars_le_demand (by decide))
  · exact (takes_unary _ _ _).mono (scalars_le_demand (by decide))
  · exact (takes_bitField i).mono (scalars_le_demand (by decide))
  · exact (takes_immediate i).mono (scalars_le_demand (by decide))
  · exact (takes_access i).mono (scalars_le_demand (by decide))
  · exact (takes_pure _).last
  · exact (takes_updateModifiers _).last
  · exact takes_vectorBinary i pc
  · exact takes_vectorUnary i pc
  · exact takes_vectorCompare i pc
  · refine (takes_elementAccess i).mono fun p => ?_
    cases p <;> decide
  · refine (takes_quadAccess i).mono fun p => ?_
    cases p <;> decide
  · exact takes_vectorMove i pc
  all_goals exact (takes_interpret i pc).last

/-! ### Instructions that end a block -/

/-- What an instruction that ends a block takes at most: the demand of its delay slot, and three
scalar registers of its own. -/
def branchDemand : Pool → Nat := Pool.demand + 3 • Pool.one .scalar

theorem demand_le_branchDemand : Pool.demand ≤ branchDemand := le_add_of_nonneg_right zero_le

theorem branchDemand_le_size : branchDemand ≤ Pool.size := by
  intro p
  cases p <;> decide

theorem takes_charge : Takes s charge 0 := takes_modify fun _ => le_rfl

theorem takes_moveTo (pc : UInt32) : Takes s (moveTo pc) 0 := takes_modify fun _ => le_rfl

theorem takes_releaseLocks : Takes s releaseLocks 0 :=
  takes_modify fun b => (Builder.taken_releaseLocks b).trans_le zero_le

theorem takes_newLabel : Takes s newLabel 0 := takes_zero fun _ => ⟨_, _, rfl, le_rfl⟩

theorem takes_jumpForward (condition : Condition) (label : Label) :
    Takes s (jumpForward condition label) 0 := takes_modify fun _ => le_rfl

theorem takes_placeLabel (label : Label) : Takes s (placeLabel label) 0 :=
  takes_modify fun _ => le_rfl

theorem takes_subtractCycles (amount : UInt32) : Takes s (subtractCycles amount) 0 := by
  unfold subtractCycles
  exact takes_read fun _ => takes_ite (takes_emit _) (takes_emit _)

theorem takes_exitTo (target amount : UInt32) : Takes s (exitTo target amount) 0 := by
  unfold exitTo
  exact takes_bind_zero (takes_subtractCycles _) fun _ => takes_modify fun _ => le_rfl

theorem takes_exitHere (target : UInt32) : Takes s (exitHere target) 0 := by
  unfold exitHere
  exact takes_get fun _ => takes_exitTo _ _

/-- The end of a block that leaves for good. -/
theorem takes_leave (op : Operation) (stop : UInt32) : Takes s (do
    subtractProgress
    emit op
    finish stop) 0 :=
  takes_bind_zero (takes_get fun _ => takes_subtractCycles _) fun _ =>
    takes_bind_zero (takes_emit _) fun _ => takes_moveTo _

theorem takes_endBlock (pc : UInt32) : Takes s (endBlock pc) 0 := by
  unfold endBlock
  exact takes_bind_zero takes_flushAll fun _ => takes_bind_zero (takes_exitHere _) fun _ =>
    takes_moveTo _

/-- **A delay slot needs no more than any other instruction**, whatever the branch holds. -/
theorem takes_delaySlot (slot : Instr) (pc : UInt32) (policy : SlotPolicy) :
    Takes s (delaySlot slot pc policy) Pool.demand := by
  have hplain := takes_plain (s := s) slot (pc + 4)
  cases policy with
  | plain =>
    exact takes_bind_zero takes_charge fun _ => takes_bind_last hplain fun _ =>
      takes_bind_zero takes_releaseLocks fun _ => takes_pure _
  | flushed =>
    exact takes_bind_zero takes_charge fun _ => takes_bind_last hplain fun _ =>
      takes_bind_zero takes_releaseLocks fun _ => takes_flushAll
  | guarded =>
    exact takes_bind_zero takes_charge fun _ => takes_bind_zero (takes_emit _) fun _ =>
      takes_bind_last hplain fun _ => takes_bind_zero takes_releaseLocks fun _ =>
        takes_bind_zero (takes_emit _) fun _ => takes_flushAll

theorem takes_writeLink (reg : Fin 32) (pc : UInt32) :
    Takes s (writeLink reg pc) (Pool.one .scalar) := by
  unfold writeLink
  exact takes_ite (takes_pure _).last
    (takes_bind_last (takes_bindForWrite _) fun rd => takes_emit _)

theorem takes_writeBranchLink (i : Instr) (pc : UInt32) :
    Takes s (writeBranchLink i pc) (Pool.one .scalar) := by
  unfold writeBranchLink
  exact takes_ite (takes_writeLink 31 pc) (takes_pure _).last

theorem takes_compareOperands (i : Instr) :
    Takes s (compareOperands i) (2 • Pool.one .scalar) := by
  have hzero : ∀ (rs : HostReg) (condition : Condition), Takes s (do
      emit (.compareImm rs 0)
      return condition) (1 • Pool.one .scalar) := fun rs condition =>
    (takes_bind_zero (takes_emit _) fun _ => takes_pure _).last
  have htwo : ∀ (rs : HostReg) (condition : Condition), Takes s (do
      emit (.compare rs (← bindGpr i.rt))
      return condition) (1 • Pool.one .scalar) := fun rs condition =>
    takes_bindThen fun rt => (takes_bind_zero (takes_emit _) fun _ => takes_pure _).last
  unfold compareOperands
  split
  · refine takes_bindThen fun rs => ?_
    split
    · exact htwo rs _
    · exact htwo rs _
    · exact hzero rs _
    · exact hzero rs _
  · exact takes_bindThen fun rs => hzero rs _
  · refine takes_bindThen fun condition => takes_bind_zero (takes_emit _) fun _ => ?_
    refine takes_bind_zero (takes_emit _) fun _ => takes_bind_zero (takes_emit _) fun _ => ?_
    exact (takes_pure _).last

theorem takes_branchExits (condition : Condition) (target fallthrough : UInt32) :
    Takes s (branchExits condition target fallthrough) 0 := by
  unfold branchExits
  exact takes_get fun _ => takes_bind_zero takes_newLabel fun _ =>
    takes_bind_zero (takes_jumpForward _ _) fun _ => takes_bind_zero (takes_exitTo _ _) fun _ =>
      takes_bind_zero (takes_placeLabel _) fun _ => takes_exitTo _ _

/-- The operands of a branch, its link and its slot together. -/
theorem parts_le_branchDemand :
    2 • Pool.one .scalar + (Pool.one .scalar + Pool.demand) ≤ branchDemand := by
  intro p
  cases p <;> decide

theorem takes_likelyBranch (i : Instr) (pc : UInt32) (slot : Instr) :
    Takes s (likelyBranch i pc slot) branchDemand := by
  unfold likelyBranch
  refine Takes.mono (takes_bind (takes_compareOperands i) fun _ => ?_) parts_le_branchDemand
  refine takes_bind_zero takes_releaseLocks fun _ => ?_
  refine takes_bind (takes_writeBranchLink i pc) fun _ => ?_
  refine takes_bind_zero takes_flushAll fun _ => takes_get fun _ => ?_
  refine takes_bind_zero takes_newLabel fun _ => takes_bind_zero (takes_jumpForward _ _) fun _ => ?_
  refine takes_bind_last (takes_delaySlot _ _ _) fun _ => takes_bind_zero (takes_exitHere _) fun _ => ?_
  exact takes_bind_zero (takes_placeLabel _) fun _ => takes_exitTo _ _

theorem takes_ordinaryBranch (i : Instr) (pc : UInt32) (slot : Instr) :
    Takes s (ordinaryBranch i pc slot) branchDemand := by
  have hle : Pool.one .scalar + (Pool.demand + 2 • Pool.one .scalar) ≤ branchDemand := by
    intro p
    cases p <;> decide
  unfold ordinaryBranch
  refine takes_ite ?_ (takes_ite ?_ ?_)
  · exact (takes_bind_last (takes_delaySlot _ _ _) fun _ => takes_bind_zero takes_flushAll fun _ =>
      takes_exitHere _).mono demand_le_branchDemand
  · refine Takes.mono (takes_bind (takes_compareOperands i) fun _ => ?_) parts_le_branchDemand
    refine takes_bind_zero takes_releaseLocks fun _ => ?_
    refine takes_bind (takes_writeBranchLink i pc) fun _ => ?_
    exact takes_bind_last (takes_delaySlot _ _ _) fun _ => takes_branchExits _ _ _
  · refine Takes.mono (takes_bind (takes_writeBranchLink i pc) fun _ => ?_) hle
    refine takes_bind (takes_delaySlot _ _ _) fun _ => takes_bind_zero takes_flushAll fun _ => ?_
    exact takes_bind_last (takes_compareOperands i) fun _ => takes_branchExits _ _ _

theorem takes_branch (i : Instr) (pc : UInt32) (slot : Instr) :
    Takes s (branch i pc slot) branchDemand := by
  unfold branch
  refine takes_bind_zero takes_charge fun _ => takes_ite ?_ ?_
  · exact takes_bind_last (takes_likelyBranch i pc slot) fun _ => takes_moveTo _
  · exact takes_bind_last (takes_ordinaryBranch i pc slot) fun _ => takes_moveTo _

theorem takes_jump (i : Instr) (pc : UInt32) (slot : Instr) :
    Takes s (jump i pc slot) branchDemand := by
  have hrest : Takes s (do
      delaySlot slot pc .plain
      flushAll
      exitHere (i.jumpTarget pc)
      finish (pc + 8)) Pool.demand :=
    takes_bind_last (takes_delaySlot _ _ _) fun _ => takes_bind_zero takes_flushAll fun _ =>
      takes_bind_zero (takes_exitHere _) fun _ => takes_moveTo _
  have hle : Pool.one .scalar + Pool.demand ≤ branchDemand := by
    intro p
    cases p <;> decide
  unfold jump
  refine takes_bind_zero takes_charge fun _ => takes_ite ?_ (hrest.mono demand_le_branchDemand)
  exact (takes_bind (takes_writeLink 31 pc) fun _ => hrest).mono hle

/-- **An indirect jump holds its target and its link across the slot.** -/
theorem takes_jumpRegister (i : Instr) (pc : UInt32) (slot : Instr) :
    Takes s (jumpRegister i pc slot) branchDemand := by
  have hrest : ∀ target : Lowering HostReg, Takes s target (Pool.one .scalar) → Takes s (do
      writeLink (jumpLink i) pc
      delaySlot slot pc .plain
      flushAll
      let target ← target
      subtractProgress
      emit (.exitDispatchReg target)
      finish (pc + 8)) (Pool.one .scalar + (Pool.demand + Pool.one .scalar)) := fun target htarget =>
    takes_bind (takes_writeLink _ _) fun _ => takes_bind (takes_delaySlot _ _ _) fun _ =>
      takes_bind_zero takes_flushAll fun _ => takes_bind_last htarget fun _ => takes_leave _ _
  have hle : Pool.one .scalar + (Pool.one .scalar + (Pool.demand + Pool.one .scalar)) ≤
      branchDemand := by
    intro p
    cases p <;> decide
  unfold jumpRegister
  refine takes_bind_zero takes_charge fun _ => Takes.mono (takes_bind (takes_bindReg _) fun _ => ?_) hle
  by_cases hchanges : targetChanges i slot = true
  · simp only [hchanges, if_true]
    exact takes_bind_zero (takes_move _ _) fun _ => hrest _ (takes_pure _).last
  · simp only [hchanges]
    exact hrest _ (takes_bindReg _)

/-- **What an instruction that ends a block takes.** -/
theorem takes_terminator (i : Instr) (pc : UInt32) : Takes s (terminator i pc) branchDemand := by
  unfold terminator
  split
  · exact (takes_bind_zero takes_charge fun _ => takes_bind_zero takes_flushAll fun _ =>
      takes_leave _ _).last
  · exact (takes_bind_zero takes_charge fun _ => takes_bind_zero takes_flushAll fun _ =>
      takes_leave _ _).last
  · refine takes_read fun _ => ?_
    split
    · exact (takes_bind_zero takes_flushAll fun _ => takes_leave _ _).last
    · split
      · exact takes_jump i pc _
      · exact takes_jumpRegister i pc _
      · exact takes_branch i pc _

/-! ### Whole blocks -/

/-- **A step between instructions**: nothing is taken in front of it, and nothing behind it. -/
def Sustains (s : Setting) (act : Lowering α) : Prop :=
  ∀ b, b.taken = 0 → Supplied s act b ∧ ∀ x b', act s b = .ok (x, b') → b'.taken = 0

theorem sustains_bind {β : Type} {act : Lowering α} {f : α → Lowering β} (hact : Sustains s act)
    (hf : ∀ x, Sustains s (f x)) : Sustains s (act >>= f) := by
  intro b hb
  obtain ⟨hsupplied, hfree⟩ := hact b hb
  refine ⟨.bind hsupplied fun x b' hok => (hf x b' (hfree x b' hok)).1, fun y b'' hok => ?_⟩
  obtain ⟨x, b', hx, hy⟩ := bind_eq_ok hok
  exact (hf x b' (hfree x b' hx)).2 y b'' hy

theorem sustains_of_takes {act : Lowering α} (hact : Takes s act 0) : Sustains s act := by
  intro b hb
  obtain ⟨hsupplied, x, b', hok, htaken⟩ := hact b (by rw [hb, zero_add]; exact zero_le)
  refine ⟨hsupplied, fun y b'' hok' => ?_⟩
  rw [hok] at hok'
  cases hok'
  rw [hb, zero_add] at htaken
  exact le_antisymm htaken zero_le

/-- A step that stops for another reason. -/
theorem sustains_throw {e : Failure} (he : ∀ wanted, e ≠ .registersExhausted wanted) :
    Sustains s (throw e : Lowering α) :=
  fun _ _ => ⟨.idle fun _ => ⟨fun wanted h => he wanted (Except.error.inj h), nofun⟩, nofun⟩

theorem sustains_checkSpace : Sustains s checkSpace := by
  unfold checkSpace
  refine sustains_bind (sustains_of_takes (takes_zero fun b => ⟨b, b, rfl, le_rfl⟩)) fun b => ?_
  split
  · refine sustains_bind (sustains_of_takes (takes_zero fun b => ⟨s, b, rfl, le_rfl⟩)) fun s' => ?_
    exact sustains_throw nofun
  · exact sustains_of_takes (takes_pure _)

/-- **An instruction**, whose registers are given back behind it. -/
theorem sustains_instruction {act : Lowering α} (hact : Takes s act d) (hd : d ≤ Pool.size) :
    Sustains s (do
      let _ ← act
      releaseLocks
      checkSpace) := by
  intro b hb
  obtain ⟨hsupplied, -⟩ := hact b (by rw [hb, zero_add]; exact hd)
  have hcheck : ∀ b' : Builder, Supplied s (releaseLocks >>= fun _ => checkSpace) b' ∧
      ∀ x b'', (releaseLocks >>= fun _ => checkSpace) s b' = .ok (x, b'') → b''.taken = 0 := by
    intro b'
    have hlast := sustains_checkSpace (s := s) _ (Builder.taken_releaseLocks b')
    refine ⟨.bind (.idle fun b => ⟨nofun, fun _ _ heq => ?_⟩) fun _ _ heq => ?_, fun x b'' hok =>
      hlast.2 x b'' hok⟩
    · cases heq
      exact (Builder.taken_releaseLocks b).trans_le zero_le
    · cases heq
      exact hlast.1
  refine ⟨.bind hsupplied fun _ b' _ => (hcheck b').1, fun x b'' hok => ?_⟩
  obtain ⟨_, b', -, hrest⟩ := bind_eq_ok hok
  exact (hcheck b').2 x b'' hrest

theorem sustains_bodyInstruction (i : Instr) (pc : UInt32) : Sustains s (bodyInstruction i pc) := by
  have hstep : Takes s (do
      charge
      plain i pc
      moveTo (pc + 4)) Pool.demand :=
    takes_bind_zero takes_charge fun _ => takes_bind_last (takes_plain i pc) fun _ => takes_moveTo _
  have hwhole := sustains_instruction hstep Pool.demand_le_size
  simp only [bind_assoc] at hwhole
  exact hwhole

theorem sustains_lastInstruction (i : Instr) (pc : UInt32) : Sustains s (lastInstruction i pc) :=
  sustains_instruction (takes_terminator i pc) branchDemand_le_size

theorem sustains_endBlock (pc : UInt32) : Sustains s (endBlock pc) :=
  sustains_of_takes (takes_endBlock pc)

/-- **The instructions of a block**, by induction on how many memory holds. -/
theorem sustains_instructions (room : Nat) (pc : UInt32) : Sustains s (instructions room pc) := by
  induction room generalizing pc with
  | zero => exact sustains_endBlock pc
  | succ room ih =>
    have hends : Takes s (mustEndBefore pc) 0 := takes_read fun _ => takes_get fun _ => takes_pure _
    rw [instructions_succ]
    refine sustains_bind (sustains_of_takes (takes_zero fun b => ⟨s, b, rfl, le_rfl⟩)) fun s' => ?_
    refine sustains_bind (sustains_of_takes hends) fun ends => ?_
    split
    · exact sustains_endBlock pc
    · unfold instructionsAt
      split
      · split
        · exact sustains_throw nofun
        · exact sustains_endBlock pc
      · split
        · split
          · exact sustains_endBlock pc
          · exact sustains_lastInstruction _ pc
        · exact sustains_bind (sustains_bodyInstruction _ pc) fun _ => ih (pc + 4)

theorem takes_entries : Takes s entries 0 := takes_read fun _ => takes_bind_zero (takes_emit _) fun _ =>
  takes_ite (takes_emit _) (takes_pure _)

/-- **The lowering of a block finds every register it asks for.** -/
theorem supplied_block (code : CodeSpace) : Supplied s block (Builder.start code s) := by
  refine (sustains_bind (sustains_of_takes takes_entries) fun _ => ?_ : Sustains s block) _
    (Builder.taken_start code s) |>.1
  refine sustains_bind (sustains_of_takes (takes_zero fun b => ⟨s, b, rfl, le_rfl⟩)) fun s' => ?_
  exact sustains_instructions _ _

/-! ### Every temporary is used -/

/-- A step that uses `n` temporaries, no more and no fewer. -/
def Uses (s : Setting) (act : Lowering α) (n : Nat) : Prop :=
  ∀ b x b', act s b = .ok (x, b') → b'.elements.temporaries = b.elements.temporaries + n

theorem uses_pure (x : α) : Uses s (pure x) 0 := by
  intro b y b' hok
  cases hok
  rfl

theorem uses_bind {β : Type} {act : Lowering α} {f : α → Lowering β} {k : Nat} (hact : Uses s act n)
    (hf : ∀ x, Uses s (f x) k) : Uses s (act >>= f) (n + k) := by
  intro b y b'' hok
  obtain ⟨x, b', hx, hy⟩ := bind_eq_ok hok
  rw [hf x b' y b'' hy, hact b x b' hx, Nat.add_assoc]

theorem uses_emit (op : Operation) : Uses s (emit op) 0 := by
  intro b x b' hok
  cases hok
  rfl

theorem uses_updateModifiers (f : ModifierTracker → ModifierTracker) :
    Uses s (updateModifiers f) 0 := by
  intro b x b' hok
  cases hok
  rfl

theorem uses_useElements {R : Type} {wanted : Wanted}
    {action : ElementCache → Option (Placed R ElementCache)}
    (haction : ∀ c p, action c = some p → p.cache.temporaries = c.temporaries + n) :
    Uses s (useElements wanted action) n := by
  intro b x b' hok
  rw [useElements_eq] at hok
  cases hp : action b.elements with
  | none =>
    rw [hp] at hok
    cases hok
  | some p =>
    rw [hp] at hok
    cases hok
    exact haction _ p hp

theorem uses_bindElement (e : Element) (load : Bool) :
    Uses s (useElements (.element e) (·.bindElement? e load)) 0 :=
  uses_useElements fun _ _ => ElementCache.temporaries_bindElement?

theorem uses_temporary : Uses s temporary 1 :=
  uses_useElements fun _ _ hp => (ElementCache.reg_temporary? hp).2

/-- **Results are written without temporaries.** -/
theorem uses_writeLanes (modifier : UInt32) (lane : Nat) (es : List Element) (fs : List FloatReg) :
    Uses s (writeLanes modifier lane es fs) 0 := by
  induction es generalizing lane fs with
  | nil => exact uses_pure ()
  | cons e es ih =>
    cases fs with
    | nil => exact uses_pure ()
    | cons f fs =>
      have hclamp : Uses s (clampResult (clampOf modifier lane) f) 0 := by
        unfold clampResult
        split
        · exact uses_pure ()
        · exact uses_emit _
        · exact uses_emit _
      have hmove : ∀ fd, Uses s (moveFloat fd f) 0 := fun fd => by
        unfold moveFloat
        split
        · exact uses_pure ()
        · exact uses_emit _
      rw [writeLanes]
      split
      · exact uses_bind (uses_pure ()) fun _ => ih _ _
      · exact uses_bind hclamp fun _ => uses_bind (uses_bindElement e false) fun fd =>
          uses_bind (hmove fd) fun _ => ih _ _

/-- The lane of an operand cannot be read in place. -/
def NeedsTemporary (modifier : UInt32) (lane : Nat) : Bool :=
  let m := LaneModifier.ofWord modifier lane
  m.constant || m.abs || m.negate

theorem uses_constantTemporary (value : Single) : Uses s (constantTemporary value) 1 :=
  uses_bind uses_temporary fun _ => uses_bind (uses_emit _) fun _ => uses_pure _

theorem uses_modifySign {m : LaneModifier} (fs : FloatReg) (hm : (m.abs || m.negate) = true) :
    Uses s (modifySign m fs) 1 := by
  unfold modifySign
  split
  · refine uses_bind (k := 0) uses_temporary fun t => uses_bind (k := 0) (uses_emit _) fun _ => ?_
    split
    · exact uses_bind (uses_emit _) fun _ => uses_pure _
    · exact uses_pure _
  · rename_i habs
    rw [Bool.not_eq_true] at habs
    rw [habs, Bool.false_or] at hm
    rw [if_pos hm]
    exact uses_bind uses_temporary fun t => uses_bind (uses_emit _) fun _ => uses_pure _

theorem uses_readLane {modifier : UInt32} {lane : Nat} (es : List Element)
    (hlane : NeedsTemporary modifier lane = true) : Uses s (readLane es modifier lane) 1 := by
  unfold readLane
  dsimp only
  split
  · exact uses_constantTemporary _
  · rename_i hconstant
    rw [Bool.not_eq_true] at hconstant
    rw [NeedsTemporary, hconstant, Bool.false_or] at hlane
    split
    · exact uses_constantTemporary _
    · exact uses_bind (uses_bindElement _ true) fun fs => uses_modifySign fs hlane

theorem uses_mapM {β : Type} {f : α → Lowering β} {l : List α} (hf : ∀ x ∈ l, Uses s (f x) n) :
    Uses s (l.mapM f) (l.length * n) := by
  induction l with
  | nil =>
    rw [List.mapM_nil, List.length_nil, Nat.zero_mul]
    exact uses_pure _
  | cons x rest ih =>
    rw [List.mapM_cons, List.length_cons, Nat.succ_mul, Nat.add_comm]
    exact uses_bind (hf x List.mem_cons_self) fun _ =>
      uses_bind (ih fun y hy => hf y (List.mem_cons_of_mem _ hy)) fun _ => uses_pure _

/-- **A lane of two-operand arithmetic uses three temporaries** when both operands are modified. -/
theorem uses_binaryLane {op : FloatOp} {known : ModifierTracker.Known} {es et : List Element}
    {lane : Nat} (hsource : NeedsTemporary known.source lane = true)
    (htarget : NeedsTemporary known.target lane = true) :
    Uses s (binaryLane op known es et lane) 3 :=
  uses_bind (uses_readLane es hsource) fun _ => uses_bind (uses_readLane et htarget) fun _ =>
    uses_bind uses_temporary fun _ => uses_bind (uses_emit _) fun _ => uses_pure _

/-- The source modifier is pending, so quad registers are not used. -/
theorem not_choosesQuads {i : Instr} {t : ModifierTracker} {known : ModifierTracker.Known}
    (hfam : i.family = .vectorBinary) (hknown : t.known? = some known)
    (hsource : NeedsTemporary known.source 0 = true) : choosesQuads i t = false := by
  have hno : t.hasNoModifier = false := by
    by_contra hyes
    rw [Bool.not_eq_false] at hyes
    have hid : t.source.value? = some ModifierSlot.source.identity :=
      ModifierTracker.read?_of_hasNoModifier hyes .source
    have hvalue := (ModifierTracker.value?_of_known? hknown).1
    rw [hid] at hvalue
    rw [← Option.some.inj hvalue] at hsource
    exact absurd hsource (by decide)
  rw [choosesQuads, hfam]
  dsimp only
  rw [quadsAllowed, hno, Bool.and_false, Bool.false_and]

/-- **Arithmetic on four lanes, all of them modified, uses every temporary.** -/
theorem temporaries_of_allModified {i : Instr} {pc : UInt32} {known : ModifierTracker.Known}
    {b' : Builder} (hfam : i.family = .vectorBinary) (hquad : i.vectorSize = .quad)
    (hknown : b.modifiers.known? = some known)
    (hsource : ∀ lane < 4, NeedsTemporary known.source lane = true)
    (htarget : ∀ lane < 4, NeedsTemporary known.target lane = true)
    (hok : plain i pc s b = .ok ((), b')) :
    b'.elements.temporaries = b.elements.temporaries + 12 := by
  rw [plain_apply (.inl hfam) pc s hknown, not_choosesQuads hfam hknown (hsource 0 (by decide)),
    if_neg (by decide), lanePath, hfam] at hok
  refine uses_bind (n := 12) (k := 0) ?_ (fun _ => uses_updateModifiers _) b () b' hok
  rw [binaryLanes, hquad]
  refine uses_bind (n := 12) (k := 0) (uses_mapM (l := List.range 4) (n := 3) fun lane hlane => ?_)
    fun results => uses_writeLanes _ _ _ _
  have hlt := List.mem_range.mp hlane
  exact uses_binaryLane (hsource lane hlt) (htarget lane hlt)

/-! ### The result -/

/-- A block is not refused for want of a register. -/
theorem lowerBlock_ne_exhausted (code : CodeSpace) (wanted : Wanted) :
    (lowerBlock s code).1 ≠ .error (.registersExhausted wanted) := by
  have hblock := (supplied_block (s := s) code).ne_exhausted wanted
  have hrun : block.run s (Builder.start code s) = block s (Builder.start code s) := rfl
  rw [lowerBlock, hrun]
  cases hok : block s (Builder.start code s) with
  | error e => exact fun h => hblock (hok.trans (congrArg Except.error (Except.error.inj h)))
  | ok p =>
    obtain ⟨_, last⟩ := p
    dsimp only
    rw [Builder.close]
    cases last.code.overflowed with
    | true =>
      intro h
      cases h
    | false =>
      cases last.code.resolve with
      | mk outcome resolved =>
        intro h
        cases outcome <;> cases h

/-- **The register caches never run out**, whatever the memory, the options, the start, the limit
and the entry are.  Every request of the lowering of a block finds a slot that is not locked, or a
temporary; so no block is refused for want of a register.  That holds in the delay slot of a jump as
well, which has locked up to two scalar registers.  Temporaries are handed out from `F20` to `F31`,
and two-operand arithmetic on four lanes takes exactly these twelve when every lane of both operands
is modified. -/
theorem registers_never_exhausted (s : Setting) (code : CodeSpace) :
    Supplied s block (Builder.start code s) ∧
    (∀ wanted, (lowerBlock s code).1 ≠ .error (.registersExhausted wanted)) ∧
    (∀ (slot : Instr) (pc : UInt32) (policy : SlotPolicy) (b : Builder),
      b.taken ≤ 2 • Pool.one .scalar →
        Supplied s (delaySlot slot pc policy) b ∧ ∃ b', delaySlot slot pc policy s b = .ok ((), b')) ∧
    (∀ (c : ElementCache) (p : Placed FloatReg ElementCache), c.temporary? = some p →
      p.reg.val = 20 + c.temporaries ∧ p.cache.temporaries = c.temporaries + 1) ∧
    ∀ (i : Instr) (pc : UInt32) (known : ModifierTracker.Known) (b : Builder),
      i.family = .vectorBinary → i.vectorSize = .quad → b.taken = 0 →
      b.modifiers.known? = some known →
      (∀ lane < 4, NeedsTemporary known.source lane = true) →
      (∀ lane < 4, NeedsTemporary known.target lane = true) →
        ∃ b', plain i pc s b = .ok ((), b') ∧ b'.elements.temporaries = 12 ∧
          b'.elements.temporary? = none := by
  refine ⟨supplied_block code, lowerBlock_ne_exhausted code, ?_,
    fun _ _ => ElementCache.reg_temporary?, ?_⟩
  · intro slot pc policy b hheld
    have hle : 2 • Pool.one .scalar + Pool.demand ≤ Pool.size := by
      intro p
      cases p <;> decide
    obtain ⟨hsupplied, _, b', hok, -⟩ :=
      takes_delaySlot (s := s) slot pc policy b ((add_le_add_left hheld _).trans hle)
    exact ⟨hsupplied, b', hok⟩
  · intro i pc known b hfam hquad hfree hknown hsource htarget
    obtain ⟨-, _, b', hok, -⟩ :=
      takes_plain (s := s) i pc b (by rw [hfree, zero_add]; exact Pool.demand_le_size)
    have hnone : b.elements.temporaries = 0 := by
      have htemporary : 0 + b.elements.temporaries = 0 := congrFun hfree .temporary
      rwa [Nat.zero_add] at htemporary
    have hall := temporaries_of_allModified hfam hquad hknown hsource htarget hok
    rw [hnone] at hall
    exact ⟨b', hok, hall, ElementCache.temporary?_eq_none hall⟩

/-- Every lane of both operands is negated. -/
def negatedTracker : ModifierTracker := ⟨.dirty 0xF00E4, .dirty 0xF00E4, .clean 0⟩

/-- A jump that holds its target and its link, with a product in its slot; and a sum of four lanes
with all operands negated. -/
theorem registers_never_exhausted_held :
    (lowerBlock bareSetting ⟨#[], 64, false, #[], []⟩).1 ≠
      .error (.registersExhausted .floatTemporary) ∧
    (∃ b, (do
        let _ ← bindGpr 4
        let _ ← bindGprForWrite 31 : Lowering Unit) bareSetting bareBuilder = .ok ((), b) ∧
      b.taken .scalar = 2 ∧ Supplied bareSetting (delaySlot ⟨0x00850018⟩ 0 .plain) b) ∧
    ∃ b', plain ⟨0x60018082⟩ 0 bareSetting { bareBuilder with modifiers := negatedTracker } =
      .ok ((), b') ∧ b'.elements.temporaries = 12 := by
  obtain ⟨-, hblock, hslot, -, hlanes⟩ :=
    registers_never_exhausted bareSetting ⟨#[], 64, false, #[], []⟩
  refine ⟨hblock _, ⟨_, rfl, by decide, (hslot _ _ _ _ fun p => ?_).1⟩, ?_⟩
  · cases p <;> decide
  · obtain ⟨b', hok, htemporaries, -⟩ := hlanes ⟨0x60018082⟩ 0 ⟨0xF00E4, 0xF00E4, 0⟩
      { bareBuilder with modifiers := negatedTracker } (by decide) (by decide)
      (Builder.taken_start ⟨#[], 64, false, #[], []⟩ bareSetting) rfl (by decide) (by decide)
    exact ⟨b', hok, htemporaries⟩

end Lowering

end Dynarec
