import Dynarec.Proofs.Lower.Placement
import Dynarec.Proofs.Lower.Supply
import Dynarec.Proofs.Lower.VectorUnit

/-!
# The two paths of vector instructions

Arithmetic on vectors is lowered lane by lane, or on quad registers when no modifier is pending and
the vector registers agree.  No path runs out of registers, whatever the caches hold when the
instruction begins, as long as nothing is locked (`takes_lanePath`, `takes_quadPath`).  So both end,
and the code of either leaves what the interpreter leaves.
-/

namespace Dynarec

namespace Lowering

variable {s : Setting} {i : Instr} {pc : UInt32} {b : Builder} {h : HostState} {m g : Machine}
  {known : ModifierTracker.Known}

/-! ### The paths -/

/-- Two-operand arithmetic, lane by lane. -/
def binaryLanes (i : Instr) (known : ModifierTracker.Known) : Lowering Unit := do
  let size := i.vectorSize
  let results ← (List.range size.lanes).mapM
    (binaryLane i.floatOp known (size.elements i.vs) (size.elements i.vt))
  writeLanes known.destination 0 (size.elements i.vd) results

/-- A compare.  It has no other path. -/
def compareLanes (i : Instr) (known : ModifierTracker.Known) : Lowering Unit := do
  emit (.movImm HostReg.scratch 0)
  (List.range i.vectorSize.lanes).forM (compareLane i known)
  let condition ← bind .condition
  emit (.mergeConditions condition HostReg.scratch (UInt8.ofNat i.vectorSize.lanes))
  markDirty .condition

/-- **The path by lanes** of an instruction whose modifiers are known. -/
def lanePath (i : Instr) (known : ModifierTracker.Known) : Lowering Unit := do
  match i.family with
  | .vectorBinary => binaryLanes i known
  | .vectorUnary => unaryLanes i known
  | _ => compareLanes i known
  updateModifiers (·.consume)

/-- The vector registers of four lanes agree, and no modifier is pending. -/
def quadsAllowed (i : Instr) (t : ModifierTracker) (regs : List UInt8) : Bool :=
  decide (i.vectorSize = .quad) && t.hasNoModifier && allQuadsAgree regs

/-- **The path on quad registers is chosen.** -/
def choosesQuads (i : Instr) (t : ModifierTracker) : Bool :=
  match i.family with
  | .vectorBinary => quadsAllowed i t [i.vd, i.vs, i.vt]
  | .vectorUnary => decide (i.laneFunction ≠ .copy) && quadsAllowed i t [i.vd, i.vs]
  | _ => false

/-- Two-operand arithmetic on quad registers. -/
def binaryQuads (i : Instr) : Lowering Unit := do
  let qs ← readQuad i.vs
  let qt ← readQuad i.vt
  let qd ← writeQuad i.vd
  emit (.quad i.floatOp qd qs qt)

/-- One-operand functions and constants on quad registers.  No copy is made there. -/
def unaryQuads (i : Instr) : Lowering Unit :=
  match i.laneFunction with
  | .unary op => do
    let qs ← readQuad i.vs
    let qd ← writeQuad i.vd
    emit (.quadUnary op qd qs)
  | .constant value => do
    let qd ← writeQuad i.vd
    emit (.quadImm qd value.bits)
  | .copy => pure ()

/-- **The path on quad registers.** -/
def quadPath (i : Instr) : Lowering Unit := do
  match i.family with
  | .vectorBinary => binaryQuads i
  | _ => unaryQuads i
  updateModifiers (·.consume)

/-- A step after the builder was read. -/
theorem get_bind_apply {α : Type} (f : Builder → Lowering α) (s : Setting) (b : Builder) :
    ((get : Lowering Builder) >>= f) s b = f b s b := rfl

/-- A step after the path was chosen. -/
theorem usesQuads_bind_apply {α : Type} (i : Instr) (regs : List UInt8) (f : Bool → Lowering α)
    (s : Setting) (b : Builder) :
    (usesQuads i regs >>= f) s b = f (quadsAllowed i b.modifiers regs) s b := rfl

theorem vectorBinary_apply (hfam : i.family = .vectorBinary) (pc : UInt32) (s : Setting)
    (hknown : b.modifiers.known? = some known) : vectorBinary i pc s b =
      (if choosesQuads i b.modifiers then quadPath i else lanePath i known) s b := by
  unfold vectorBinary choosesQuads quadPath lanePath
  rw [get_bind_apply, hknown, hfam]
  dsimp only
  rw [usesQuads_bind_apply]
  cases quadsAllowed i b.modifiers [i.vd, i.vs, i.vt] with
  | true => simp only [if_true, binaryQuads, bind_assoc]
  | false => simp only [Bool.false_eq_true, if_false, binaryLanes, bind_assoc]

theorem vectorUnary_apply (hfam : i.family = .vectorUnary) (pc : UInt32) (s : Setting)
    (hknown : b.modifiers.known? = some known) : vectorUnary i pc s b =
      (if choosesQuads i b.modifiers then quadPath i else lanePath i known) s b := by
  unfold vectorUnary choosesQuads quadPath lanePath unaryQuads
  rw [get_bind_apply, hknown, hfam]
  dsimp only
  rw [usesQuads_bind_apply]
  cases quadsAllowed i b.modifiers [i.vd, i.vs] <;> cases i.laneFunction <;>
    simp [bind_assoc]

theorem vectorCompare_apply (hfam : i.family = .vectorCompare) (pc : UInt32) (s : Setting)
    (hknown : b.modifiers.known? = some known) : vectorCompare i pc s b =
      (if choosesQuads i b.modifiers then quadPath i else lanePath i known) s b := by
  unfold vectorCompare choosesQuads lanePath compareLanes
  rw [get_bind_apply, hknown, hfam]
  simp only [Bool.false_eq_true, if_false, bind_assoc]

/-- The instructions of this file. -/
def IsVector (i : Instr) : Prop :=
  i.family = .vectorBinary ∨ i.family = .vectorUnary ∨ i.family = .vectorCompare

/-- **An instruction whose modifiers are known takes one of its paths.** -/
theorem plain_apply (hvector : IsVector i) (pc : UInt32) (s : Setting)
    (hknown : b.modifiers.known? = some known) : plain i pc s b =
      (if choosesQuads i b.modifiers then quadPath i else lanePath i known) s b := by
  unfold plain
  rcases hvector with hfam | hfam | hfam
  · simp only [hfam, vectorBinary_apply hfam pc s hknown]
  · simp only [hfam, vectorUnary_apply hfam pc s hknown]
  · simp only [hfam, vectorCompare_apply hfam pc s hknown]

/-! ### What the paths take -/

/-- What one lane of an operand takes. -/
def operandDemand : Pool → Nat := Pool.one .float + Pool.one .temporary

theorem takes_constantTemporary (value : Single) :
    Takes s (constantTemporary value) (Pool.one .temporary) :=
  takes_bind_last takes_temporary fun _ => takes_bind_zero (takes_emit _) fun _ => takes_pure _

theorem takes_modifySign (mod : LaneModifier) (fs : FloatReg) :
    Takes s (modifySign mod fs) (Pool.one .temporary) := by
  unfold modifySign
  split
  · refine takes_bind_last takes_temporary fun t => takes_bind_zero (takes_emit _) fun _ => ?_
    split
    · exact takes_bind_zero (takes_emit _) fun _ => takes_pure _
    · exact takes_pure _
  · split
    · exact takes_bind_last takes_temporary fun _ =>
        takes_bind_zero (takes_emit _) fun _ => takes_pure _
    · exact (takes_pure _).mono zero_le

theorem takes_readLane (elements : List Element) (modifier : UInt32) (lane : Nat) :
    Takes s (readLane elements modifier lane) operandDemand := by
  unfold readLane
  dsimp only
  have hone : Pool.one .temporary ≤ operandDemand := le_add_of_nonneg_left zero_le
  split
  · exact (takes_constantTemporary _).mono hone
  · split
    · exact (takes_constantTemporary _).mono hone
    · exact takes_bind (takes_readElement _) fun _ => takes_modifySign _ _

theorem takes_clampResult (clamp : Clamp) (fs : FloatReg) : Takes s (clampResult clamp fs) 0 := by
  cases clamp with
  | none => exact takes_pure _
  | unit | signed => exact takes_emit _

/-- **Writing results takes a float register for each.** -/
theorem takes_writeLanes (modifier : UInt32) (lane : Nat) (es : List Element) (fs : List FloatReg) :
    Takes s (writeLanes modifier lane es fs) (es.length • Pool.one .float) := by
  induction es generalizing lane fs with
  | nil => exact (takes_pure _).mono zero_le
  | cons e es ih =>
    cases fs with
    | nil => exact (takes_pure _).mono zero_le
    | cons f fs =>
      rw [writeLanes, List.length_cons, succ_nsmul']
      split
      · exact (takes_bind_zero (takes_pure _) fun _ => ih _ _).mono (le_add_of_nonneg_left zero_le)
      · refine takes_bind_zero (takes_clampResult _ _) fun _ =>
          takes_bind (takes_writeElement e) fun fd => ?_
        exact takes_bind_zero (takes_moveFloat _ _) fun _ => ih _ _

/-- Results of all lanes, and their writes. -/
theorem takes_lanes {act : Nat → Lowering FloatReg} {d : Pool → Nat}
    (hact : ∀ lane, Takes s (act lane) d) (size : VectorSize) (reg : UInt8) (modifier : UInt32) :
    Takes s (do
      let results ← (List.range size.lanes).mapM act
      writeLanes modifier 0 (size.elements reg) results)
      (size.lanes • d + size.lanes • Pool.one .float) := by
  have hlanes := takes_mapM hact (List.range size.lanes)
  rw [List.length_range] at hlanes
  refine takes_bind hlanes fun results => ?_
  have hwrite := takes_writeLanes (s := s) modifier 0 (size.elements reg) results
  rwa [length_elements] at hwrite

/-- **The lanes of an instruction need no more than its demand.** -/
theorem takes_binaryLanes (i : Instr) (known : ModifierTracker.Known) :
    Takes s (binaryLanes i known) Pool.demand := by
  have hle : ∀ size : VectorSize, size.lanes • (operandDemand + (operandDemand +
      Pool.one .temporary)) + size.lanes • Pool.one .float ≤ Pool.demand := by
    intro size p
    cases size <;> cases p <;> decide
  refine (takes_lanes (fun lane => ?_) _ _ _).mono (hle i.vectorSize)
  refine takes_bind (takes_readLane _ _ _) fun fs => takes_bind (takes_readLane _ _ _) fun ft => ?_
  exact takes_bind_last takes_temporary fun fd => takes_bind_zero (takes_emit _) fun _ => takes_pure _

theorem takes_unaryLanes (i : Instr) (known : ModifierTracker.Known) :
    Takes s (unaryLanes i known) Pool.demand := by
  have hle : ∀ size : VectorSize, size.lanes • (Pool.one .temporary + operandDemand) +
      size.lanes • Pool.one .float ≤ Pool.demand := by
    intro size p
    cases size <;> cases p <;> decide
  refine (takes_lanes (fun lane => takes_bind takes_temporary fun fd => ?_) _ _ _).mono
    (hle i.vectorSize)
  cases i.laneFunction with
  | constant value =>
    exact (takes_bind_zero (takes_emit _) fun _ => takes_pure _).mono zero_le
  | copy =>
    exact takes_bind_last (takes_readLane _ _ _) fun fs =>
      takes_bind_zero (takes_moveFloat _ _) fun _ => takes_pure _
  | unary op =>
    exact takes_bind_last (takes_readLane _ _ _) fun fs =>
      takes_bind_zero (takes_emit _) fun _ => takes_pure _

theorem takes_compareLanes (i : Instr) (known : ModifierTracker.Known) :
    Takes s (compareLanes i known) Pool.demand := by
  have hle : ∀ size : VectorSize, size.lanes • (operandDemand + operandDemand) +
      Pool.one .scalar ≤ Pool.demand := by
    intro size p
    cases size <;> cases p <;> decide
  have hlanes := takes_forM (s := s) (f := compareLane i known) (fun lane =>
    takes_bind (takes_readLane _ _ _) fun fs => takes_bind_last (takes_readLane _ _ _) fun ft =>
      takes_emit _) (List.range i.vectorSize.lanes)
  rw [List.length_range] at hlanes
  refine Takes.mono ?_ (hle i.vectorSize)
  refine takes_bind_zero (takes_emit _) fun _ => takes_bind hlanes fun _ => ?_
  exact takes_bind_last (takes_bindReg _) fun _ => takes_bind_zero (takes_emit _) fun _ =>
    takes_markDirty _

theorem takes_lanePath (i : Instr) (known : ModifierTracker.Known) :
    Takes s (lanePath i known) Pool.demand := by
  unfold lanePath
  cases i.family with
  | vectorBinary => exact takes_bind_last (takes_binaryLanes i known) fun _ => takes_updateModifiers _
  | vectorUnary => exact takes_bind_last (takes_unaryLanes i known) fun _ => takes_updateModifiers _
  | _ => exact takes_bind_last (takes_compareLanes i known) fun _ => takes_updateModifiers _

theorem takes_binaryQuads (i : Instr) : Takes s (binaryQuads i) Pool.demand := by
  have hle : Pool.one .quad + (Pool.one .quad + Pool.one .quad) ≤ Pool.demand := by
    intro p
    cases p <;> decide
  refine Takes.mono ?_ hle
  exact takes_bind (takes_readQuad _) fun qs => takes_bind (takes_readQuad _) fun qt =>
    takes_bind_last (takes_writeQuad _) fun qd => takes_emit _

theorem takes_unaryQuads (i : Instr) : Takes s (unaryQuads i) Pool.demand := by
  have hle : Pool.one .quad + Pool.one .quad ≤ Pool.demand := by
    intro p
    cases p <;> decide
  refine Takes.mono ?_ hle
  unfold unaryQuads
  cases i.laneFunction with
  | copy => exact (takes_pure _).mono zero_le
  | unary op =>
    exact takes_bind (takes_readQuad _) fun qs => takes_bind_last (takes_writeQuad _) fun qd =>
      takes_emit _
  | constant value =>
    exact (takes_bind_last (takes_writeQuad _) fun qd => takes_emit _).mono
      (le_add_of_nonneg_left zero_le)

/-- **Nor do quad registers.** -/
theorem takes_quadPath (i : Instr) : Takes s (quadPath i) Pool.demand := by
  unfold quadPath
  cases i.family with
  | vectorBinary => exact takes_bind_last (takes_binaryQuads i) fun _ => takes_updateModifiers _
  | _ => exact takes_bind_last (takes_unaryQuads i) fun _ => takes_updateModifiers _

/-! ### What the paths leave -/

/-- **The code of a step, with everything written back behind it, leaves the guest state of `g'`.**
If the code fits, running the emitted words leads to the word behind them. -/
def LeavesCurrent (s : Setting) (act : Lowering Unit) (b : Builder) (h : HostState) (m g' : Machine) :
    Prop :=
  ∃ b' ops h' m', (act >>= fun _ => flushAll) s b = .ok ((), b') ∧ b.Emits b' ops ∧
    Host.runOps ops h m = .next h' m' ∧ m'.Current g' ∧ m'.memory = g'.memory ∧
    (b'.code.overflowed = false → Host.Reaches b'.code.words ⟨b.code.offset, h, m⟩
      ⟨b'.code.offset, h', m'⟩)

/-- Straight code that fits is laid out behind what was there. -/
theorem laid_of_emits {b b' : Builder} {ops : List Operation} (hemits : b.Emits b' ops)
    (hfits : b'.code.overflowed = false) : Host.Laid b'.code.words b.code.offset ops ∧
      b'.code.offset = b.code.offset + ops.length := by
  have x := Builder.Adds.of_emits hemits hfits
  refine ⟨fun k op hk => ?_, x.offset⟩
  exact x.operation? (hemits.inline op (List.mem_of_getElem? hk)).fits hk

/-- **A path that succeeds and is correct**, for an instruction that has an effect. -/
theorem leavesCurrent_of_correct {act : Lowering Unit} (hsucceeds : ∃ x b', act s b = .ok (x, b'))
    {g' : Machine} (hexec : Machine.execute i pc g = .ok .normal g')
    (hact : wp s act (Refused i pc g h) (Done i pc g b h) b h m) : LeavesCurrent s act b h m g' := by
  obtain ⟨x, b₁, hok⟩ := hsucceeds
  have hflushed : wp s (act >>= fun _ => flushAll) (Refused i pc g h) (fun _ _ _ m' =>
      m'.Current g' ∧ m'.memory = g'.memory) b h m := by
    refine wp_bind_straight (fun _ => straight_flushAll) (wp_imp hact ?_)
    rintro _ b₁ h₁ m₁ ⟨g₁, hexec₁, x₁, -⟩
    rw [hexec] at hexec₁
    cases hexec₁
    exact wp_flushAll x₁ fun b₂ core x₂ hcurrent _ => ⟨hcurrent, x₂.memory⟩
  have hrun : (act >>= fun _ => flushAll) s b = flushAll s b₁ := by
    show (act s b >>= fun p => flushAll s p.2) = _
    rw [hok]
    rfl
  rw [flushAll_eq, flushModifiers_eq] at hrun
  obtain ⟨ops, hemits, hyields⟩ := hflushed _ _ hrun
  rcases (Host.runOps ops h m).next_or_stops with ⟨h', m', hnext⟩ | hstop
  · rw [hnext] at hyields
    refine ⟨_, ops, h', m', hrun, hemits, hnext, hyields.1, hyields.2, fun hfits => ?_⟩
    obtain ⟨hlaid, hoffset⟩ := laid_of_emits hemits hfits
    rw [hoffset]
    exact hlaid.runOps_next hnext
  · rw [Outcome.yields_of_stops hstop] at hyields
    rcases hyields with ⟨t, g₁, h₁, hrefused, -⟩ | ⟨v, g₁, hrefused, -⟩
    · rw [hexec] at hrefused
      cases hrefused
    · rw [hexec] at hrefused
      cases hrefused

/-- The lanes of an instruction are correct, whatever path it would take. -/
theorem correct_lanePath (hvector : IsVector i) (x : b.Shadows h m g)
    (hknown : b.modifiers.known? = some known) :
    wp s (lanePath i known) (Refused i pc g h) (Done i pc g b h) b h m := by
  have hk := known_of_known? x hknown
  rcases hvector with hfam | hfam | hfam
  · unfold lanePath binaryLanes
    simp only [hfam, bind_assoc]
    refine wp_lanes (fun lane b h m x => wp_binaryLane i known lane x) x i.vectorSize i.vd
      known.destination fun b' h' m' x' s' => ?_
    exact wp_consume_done (execute_vectorBinary hfam g (executeVectorBinary_eq hk)) x' s'
  · unfold lanePath
    simp only [hfam]
    exact correct_unaryLanes hfam x hk
  · have hcorrect : Correct s (vectorCompare i pc) i pc := correct_vectorCompare hfam
    intro u b' hok
    refine hcorrect b h m g x u b' ?_
    rw [vectorCompare_apply hfam pc s hknown, choosesQuads, hfam]
    exact hok

/-- With no register taken, every path succeeds. -/
theorem succeeds_of_takes {act : Lowering Unit} (htakes : Takes s act Pool.demand)
    (hfree : b.taken = 0) : ∃ x b', act s b = .ok (x, b') := by
  obtain ⟨-, x, b', hok, -⟩ := htakes b (by rw [hfree, zero_add]; exact Pool.demand_le_size)
  exact ⟨x, b', hok⟩

theorem succeeds_plain (hvector : IsVector i) (pc : UInt32)
    (hknown : b.modifiers.known? = some known) (hfree : b.taken = 0) :
    ∃ x b', plain i pc s b = .ok (x, b') := by
  rw [plain_apply hvector pc s hknown]
  split
  · exact succeeds_of_takes (takes_quadPath i) hfree
  · exact succeeds_of_takes (takes_lanePath i known) hfree

/-- The instructions of this file always have an effect. -/
theorem exists_execute_vector (hvector : IsVector i) (pc : UInt32) (g : Machine) :
    ∃ g', Machine.execute i pc g = .ok .normal g' := by
  rcases hvector with hfam | hfam | hfam
  all_goals
    rw [Machine.execute, hfam]
    exact ⟨_, Machine.withCore_eq _ _⟩

theorem isTerminator_of_isVector (hvector : IsVector i) : i.family.isTerminator = false := by
  rcases hvector with hfam | hfam | hfam <;> rw [hfam] <;> rfl

/-- **Vector instructions agree with the interpreter on both paths.**  When the modifiers are known
and nothing is locked, the lowering succeeds whatever the caches hold, and its code leaves what the
interpreter leaves.  So does the path by lanes, also where the path on quad registers is chosen. -/
theorem vector_leavesCurrent (hvector : IsVector i) (pc : UInt32) (s : Setting)
    (x : b.Shadows h m g) (hfree : b.taken = 0) (hknown : b.modifiers.known? = some known) :
    Known known g.core ∧ ∃ g', Machine.execute i pc g = .ok .normal g' ∧
      plain i pc s b =
        (if choosesQuads i b.modifiers then quadPath i else lanePath i known) s b ∧
      LeavesCurrent s (plain i pc) b h m g' ∧ LeavesCurrent s (lanePath i known) b h m g' := by
  obtain ⟨g', hexec⟩ := exists_execute_vector hvector pc g
  refine ⟨known_of_known? x hknown, g', hexec, plain_apply hvector pc s hknown, ?_, ?_⟩
  · exact leavesCurrent_of_correct (succeeds_plain hvector pc hknown hfree) hexec
      (correct_plain (isTerminator_of_isVector hvector) b h m g x)
  · exact leavesCurrent_of_correct (succeeds_of_takes (takes_lanePath i known) hfree) hexec
      (correct_lanePath hvector x hknown)

/-- The setting of the example below. -/
def bareSetting : Setting where
  memory := Memory.create 0 0
  options := {}
  start := 0
  entry := .noModifiers
  limit := none

/-- The beginning of a block in an empty code space. -/
def bareBuilder : Builder := Builder.start ⟨#[], 64, false, #[], []⟩ bareSetting

/-- The machine of the example below: one element is one, another one is two. -/
def laneMachine : Machine where
  core := ((Core.start 0).setElement (VectorSize.single.element 0 0) ⟨0x3F800000⟩).setElement
    (VectorSize.single.element 1 0) ⟨0x40000000⟩
  memory := Memory.create 0 0

/-- A sum of four lanes, at the beginning of a block: it is made on quad registers. -/
theorem vector_leavesCurrent_sum :
    choosesQuads ⟨0x60018082⟩ bareBuilder.modifiers = true ∧
    ∃ g', Machine.execute ⟨0x60018082⟩ 0 laneMachine = .ok .normal g' ∧
      g'.core.element (VectorSize.single.element 2 0) = ⟨0x40400000⟩ ∧
      LeavesCurrent bareSetting (plain ⟨0x60018082⟩ 0) bareBuilder .start laneMachine g' ∧
      LeavesCurrent bareSetting (lanePath ⟨0x60018082⟩ ⟨0xE4, 0xE4, 0⟩) bareBuilder .start
        laneMachine g' := by
  have x : bareBuilder.Shadows .start laneMachine laneMachine :=
    ⟨ScalarCache.shadows_empty, ElementCache.shadows_empty, fun slot => by
      cases slot <;> exact ⟨rfl, rfl⟩, fun _ _ => rfl, .refl _, rfl, rfl, rfl⟩
  obtain ⟨-, g', hexec, -, hplain, hlanes⟩ := vector_leavesCurrent (i := ⟨0x60018082⟩)
    (.inl (by decide)) 0 bareSetting x (Builder.taken_start _ _) rfl
  obtain ⟨g'', hexec', hsum⟩ : ∃ g'', Machine.execute ⟨0x60018082⟩ 0 laneMachine =
    .ok .normal g'' ∧ g''.core.element (VectorSize.single.element 2 0) = ⟨0x40400000⟩ :=
    ⟨_, rfl, by decide⟩
  rw [hexec] at hexec'
  cases hexec'
  exact ⟨by decide, g', hexec, hsum, hplain, hlanes⟩

end Lowering

end Dynarec
