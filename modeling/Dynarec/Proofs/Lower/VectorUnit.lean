import Dynarec.Proofs.Lower.Integer
import Dynarec.Proofs.Lower.Lanes

/-!
# Vector instructions

The rules for vector instructions are correct: an instruction whose modifiers are known computes
lane by lane what the interpreter computes for whole operands (`executeVectorBinary_eq`, ...), and
on quad registers when no modifier is pending.  With the rules for scalar instructions this covers
every instruction that does not end a block (`correct_plain`).
-/

namespace Dynarec

namespace Lowering

variable {s : Setting} {i : Instr} {pc : UInt32} {b : Builder} {h : HostState} {m g : Machine}

/-! ### Pending modifiers -/

/-- **A change of pending modifiers.** -/
theorem changeModifiers {c : ScalarCache} {e : ElementCache} {t t' : ModifierTracker}
    (x : Shadow c e t h m g) {core' g' : Core} (hcore : SameButModifiers m.core core')
    (hg : SameButModifiers g.core g') (ht : t'.Shadows core' g') :
    Shadow c e t' h ⟨core', m.memory⟩ ⟨g', g.memory⟩ where
  scalars := x.scalars.transport rfl hcore.reg hg.reg
  elements := x.elements.transport rfl rfl hcore.elements hg.elements
  modifiers := ht
  controls k hk := (hcore.controls k hk).trans ((x.controls k hk).trans (hg.controls k hk).symm)
  frame := (hg.frame.symm.trans x.frame).trans hcore.frame
  held := hcore.zero.trans x.held
  zero := hg.zero.trans x.zero
  memory := x.memory

theorem sameButModifiers_clearModifiers (c : Core) : SameButModifiers c c.clearModifiers :=
  ((sameButModifiers_setModifier c _ _).trans (sameButModifiers_setModifier _ _ _)).trans
    (sameButModifiers_setModifier _ _ _)

/-- An instruction used up all modifiers. -/
theorem shadows_consume {t : ModifierTracker} {core g : Core} (x : t.Shadows core g) :
    t.consume.Shadows core g.clearModifiers := by
  intro slot
  have hslot := x slot
  rw [ModifierTracker.consume, get_ofRule, Core.modifier_clearModifiers]
  by_cases hread : t.read? slot = some slot.identity
  · rw [if_pos hread]
    rw [ModifierTracker.read?] at hread
    cases hk : t.get slot with
    | unknown => rw [hk] at hread; cases hread
    | clean v =>
      rw [hk] at hread hslot
      cases hread
      exact ⟨hslot.1, rfl⟩
    | dirty v =>
      rw [hk] at hread
      cases hread
      exact rfl
  · rw [if_neg hread]
    exact rfl

/-- The last step of an instruction that uses modifiers. -/
theorem wp_consume_done {b₀ : Builder} {h₀ : HostState} {g₀ : Machine} {F : Core → Core}
    (hexec : Machine.execute i pc g₀ = g₀.withCore fun c => (F c).clearModifiers)
    (x : b.Shadows h m (g₀.mapCore F)) (hsteady : b₀.Steady b h₀ h) :
    wp s (updateModifiers (·.consume)) (Refused i pc g₀ h₀) (Done i pc g₀ b₀ h₀) b h m :=
  wp_modify rfl rfl ⟨_, hexec, changeModifiers x (.refl _) (sameButModifiers_clearModifiers _)
    (shadows_consume x.modifiers), ⟨hsteady.jumpTarget, hsteady.downcount, hsteady.savedFlags,
      hsteady.progress⟩⟩

/-- The modifiers that are known are those that are meant. -/
structure Known (known : ModifierTracker.Known) (g : Core) : Prop where
  source : g.modifier .source = known.source
  target : g.modifier .target = known.target
  destination : g.modifier .destination = known.destination

theorem known_of_known? (x : b.Shadows h m g) {known : ModifierTracker.Known}
    (hk : b.modifiers.known? = some known) : Known known g.core := by
  obtain ⟨hsource, htarget, hdestination⟩ := ModifierTracker.value?_of_known? hk
  exact ⟨(x.modifiers .source).meant_eq hsource, (x.modifiers .target).meant_eq htarget,
    (x.modifiers .destination).meant_eq hdestination⟩

theorem identity_of_hasNoModifier (x : b.Shadows h m g)
    (hno : b.modifiers.hasNoModifier = true) (slot : ModifierSlot) :
    g.core.modifier slot = slot.identity :=
  (x.modifiers slot).meant_eq (ModifierTracker.read?_of_hasNoModifier hno slot)

/-! ### What the interpreter computes, lane by lane -/

theorem applySource_eq (modifier : UInt32) (operand : List Single) :
    applySource modifier operand =
      (List.range operand.length).map fun lane =>
        (LaneModifier.ofWord modifier lane).apply operand := by
  rw [applySource]
  refine List.ext_getElem (by simp) fun n h₁ h₂ => ?_
  simp

theorem length_elements (size : VectorSize) (reg : UInt8) :
    (size.elements reg).length = size.lanes := by
  rw [VectorSize.elements, List.length_map, List.length_range]

/-- An operand, lane by lane. -/
def operandLane (g : Core) (modifier : UInt32) (size : VectorSize) (reg : UInt8) (lane : Nat) :
    Single :=
  (LaneModifier.ofWord modifier lane).apply ((size.elements reg).map g.element)

theorem readOperand_eq (g : Core) (size : VectorSize) (reg : UInt8) (slot : ModifierSlot) :
    g.readOperand size reg slot =
      (List.range size.lanes).map (operandLane g (g.modifier slot) size reg) := by
  rw [Core.readOperand, applySource_eq, Core.readVector, List.length_map, length_elements]
  rfl

theorem floatOp_apply (i : Instr) : i.floatOp.apply = Core.binaryFunction i := by
  simp only [Instr.floatOp, Core.binaryFunction]
  split <;> simp only [*, FloatOp.apply]

/-- The function of each lane. -/
def LaneFunction.apply : LaneFunction → Single → Single
  | .copy => id
  | .unary op => op.apply
  | .constant value => fun _ => value

theorem laneFunction_apply (i : Instr) :
    LaneFunction.apply i.laneFunction = Core.unaryFunction i := by
  simp only [Instr.laneFunction, Core.unaryFunction]
  split <;> simp only [*, LaneFunction.apply, FloatUnary.apply]

/-- Results that are written through a destination modifier. -/
def writeResults (size : VectorSize) (reg : UInt8) (modifier : UInt32) (vs : List Single)
    (c : Core) : Core :=
  c.writeElements (writeMasked modifier) 0 (size.elements reg) (clampFrom modifier 0 vs)

/-- The result of each lane of two-operand arithmetic. -/
def binaryValue (i : Instr) (known : ModifierTracker.Known) (g : Core) (lane : Nat) : Single :=
  i.floatOp.apply (operandLane g known.source i.vectorSize i.vs lane)
    (operandLane g known.target i.vectorSize i.vt lane)

theorem executeVectorBinary_eq {known : ModifierTracker.Known} {g : Core} (hk : Known known g) :
    g.executeVectorBinary i = (writeResults i.vectorSize i.vd known.destination
      ((List.range i.vectorSize.lanes).map (binaryValue i known g)) g).clearModifiers := by
  simp only [Core.executeVectorBinary, Core.writeVector, readOperand_eq, hk.source, hk.target,
    hk.destination, applyDestination_eq, ← floatOp_apply, List.zipWith_map, List.zipWith_self]
  rfl

/-- The result of each lane of a one-operand instruction. -/
def unaryValue (i : Instr) (known : ModifierTracker.Known) (g : Core) (lane : Nat) : Single :=
  LaneFunction.apply i.laneFunction (operandLane g known.source i.vectorSize i.vs lane)

theorem executeVectorUnary_eq {known : ModifierTracker.Known} {g : Core} (hk : Known known g) :
    g.executeVectorUnary i = (writeResults i.vectorSize i.vd known.destination
      ((List.range i.vectorSize.lanes).map (unaryValue i known g)) g).clearModifiers := by
  simp only [Core.executeVectorUnary, Core.writeVector, readOperand_eq, hk.source, hk.destination,
    applyDestination_eq, ← laneFunction_apply, List.map_map]
  rfl

/-! ### Arithmetic, lane by lane -/

theorem wp_binaryLane (i : Instr) (known : ModifierTracker.Known) (lane : Nat)
    (x : b.Shadows h m g) :
    wp s (binaryLane i.floatOp known (i.vectorSize.elements i.vs) (i.vectorSize.elements i.vt) lane)
      Never (LaneResult b h g (binaryValue i known g.core lane)) b h m := by
  unfold binaryLane
  refine wp_bind (wp_readLane x _ _ _ fun fs b₁ h₁ m₁ hs => ?_)
  refine wp_bind (wp_readLane hs.shadows _ _ _ fun ft b₂ h₂ m₂ ht => ?_)
  have hkeep := hs.holds.keep ht.keeps
  refine wp_temporary_emit (o := fun fd => .float i.floatOp fd fs ft) ht.shadows
    (fun _ => trivial) (fun _ => rfl) fun fd b₃ h₃ hd hfd hfresh => wp_pure ⟨⟨hd.shadows,
      (hs.keeps.trans ht.keeps).trans hd.keeps, hd.holds, ?_⟩, hfd, fun hused => ?_⟩
  · rw [hd.value, hkeep.2, hs.value, ht.value]
    rfl
  · exact hfresh (hused.keep (hs.keeps.trans ht.keeps)).1

theorem wp_unaryLane (i : Instr) (known : ModifierTracker.Known) (lane : Nat)
    (x : b.Shadows h m g) :
    wp s (unaryLane i.laneFunction known (i.vectorSize.elements i.vs) lane)
      Never (LaneResult b h g (unaryValue i known g.core lane)) b h m := by
  unfold unaryLane unaryValue
  refine wp_bind (wp_temporary x fun fd b₁ x₁ k₁ hd hfresh => ?_)
  cases i.laneFunction with
  | constant value =>
    refine wp_bind (wp_emit_next trivial rfl (wp_pure ⟨?_, hd, hfresh⟩))
    exact .rewrite k₁ x₁ hd hfresh value _
  | unary op =>
    refine wp_bind (wp_readLane x₁ _ _ _ fun fs b₂ h₂ m₂ hs => ?_)
    have hd₂ := (hd.keep hs.keeps).1
    refine wp_bind (wp_emit_next trivial rfl (wp_pure ⟨?_, hd₂, hfresh⟩))
    rw [hs.value]
    exact .rewrite (k₁.trans hs.keeps) hs.shadows hd₂ hfresh _ _
  | copy =>
    refine wp_bind (wp_readLane x₁ _ _ _ fun fs b₂ h₂ m₂ hs => ?_)
    have hd₂ := (hd.keep hs.keeps).1
    unfold moveFloat
    by_cases heq : fd = fs
    · rw [if_pos heq]
      refine wp_bind (wp_pure (wp_pure ⟨⟨hs.shadows, k₁.trans hs.keeps, .inr hd₂, ?_⟩, hd₂, hfresh⟩))
      rw [heq]
      exact hs.value
    · rw [if_neg heq]
      refine wp_bind (wp_emit_next trivial rfl (wp_pure ⟨?_, hd₂, hfresh⟩))
      rw [hs.value]
      exact .rewrite (k₁.trans hs.keeps) hs.shadows hd₂ hfresh _ _

/-- All lanes of an instruction, and their results. -/
theorem wp_lanes {act : Nat → Lowering FloatReg} {value : Nat → Single}
    (hact : ∀ lane b h m, b.Shadows h m g →
      wp s (act lane) Never (LaneResult b h g (value lane)) b h m) (x : b.Shadows h m g)
    (size : VectorSize) (reg : UInt8) (modifier : UInt32)
    {E : Outcome → Prop} {Q : Unit → Builder → HostState → Machine → Prop} {rest : Lowering Unit}
    (hQ : ∀ b' h' m', b'.Shadows h' m' (g.mapCore (writeResults size reg modifier
      ((List.range size.lanes).map value))) → b.Steady b' h h' → wp s rest E Q b' h' m') :
    wp s (do
      let results ← (List.range size.lanes).mapM act
      writeLanes modifier 0 (size.elements reg) results
      rest) E Q b h m := by
  refine wp_bind (wp_imp (wp_mapLanes hact _ x) ?_)
  rintro fs b₁ h₁ m₁ ⟨x₁, k₁, hresults, -⟩
  refine wp_bind (wp_imp (wp_writeLanes modifier _ x₁ hresults) ?_)
  rintro _ b₂ h₂ m₂ ⟨x₂, s₂⟩
  exact hQ b₂ h₂ m₂ x₂ (k₁.steady.trans s₂)

/-! ### Arithmetic on quad registers -/

/-- The lanes of the modifier that changes nothing. -/
theorem ofWord_identity : ∀ lane : Fin 4, LaneModifier.ofWord 0xE4 lane.val =
    { lane := lane, abs := false, constant := false, negate := false } := by
  decide

theorem applySource_identity {operand : List Single} (hlen : operand.length = 4) :
    applySource 0xE4 operand = operand := by
  rw [applySource_eq]
  refine List.ext_getElem (by simp) fun n h₁ h₂ => ?_
  rw [List.getElem_map, List.getElem_range, ofWord_identity ⟨n, hlen ▸ h₂⟩]
  show operand.getD n Single.zero = _
  rw [List.getD_eq_getElem?_getD, List.getElem?_eq_getElem h₂]
  rfl

theorem writeElements_unmasked (c : Core) (lane : Nat) (es : List Element) (vs : List Single)
    (hmask : ∀ j, j < 4 → writeMasked 0 j = false) (hlen : lane + es.length ≤ 4) :
    c.writeElements (writeMasked 0) lane es vs = setElements c es vs := by
  induction es generalizing c lane vs with
  | nil => rfl
  | cons e es ih =>
    cases vs with
    | nil => rfl
    | cons v vs =>
      rw [List.length_cons] at hlen
      rw [writeElements_cons, hmask lane (by omega), ih _ _ _ (by omega)]
      rfl

theorem clampOf_identity : ∀ lane : Fin 4, clampOf 0 lane.val = .none := by decide

theorem applyDestination_identity {vs : List Single} (hlen : vs.length = 4) :
    applyDestination 0 vs = vs := by
  rw [applyDestination]
  refine List.ext_getElem (by simp) fun n h₁ h₂ => ?_
  rw [List.getElem_mapIdx, clampOf_identity ⟨n, hlen ▸ h₂⟩]
  rfl

/-- Without modifiers an operand is the register. -/
theorem readOperand_identity {g : Core} (hid : ∀ slot, g.modifier slot = slot.identity)
    (reg : UInt8) {slot : ModifierSlot} (hslot : slot ≠ .destination) :
    g.readOperand .quad reg slot = (VectorSize.quad.elements reg).map g.element := by
  have hword : slot.identity = 0xE4 := by
    cases slot with
    | source => rfl
    | target => rfl
    | destination => exact absurd rfl hslot
  rw [Core.readOperand, hid, hword, Core.readVector, applySource_identity]
  rw [List.length_map, length_elements]
  rfl

/-- Without modifiers a result is written as it is. -/
theorem writeVector_identity {g : Core} (hid : ∀ slot, g.modifier slot = slot.identity)
    (reg : UInt8) {vs : List Single} (hlen : vs.length = 4) :
    g.writeVector .quad reg vs = setElements g (VectorSize.quad.elements reg) vs := by
  rw [Core.writeVector, hid]
  show g.writeElements (writeMasked 0) 0 _ (applyDestination 0 vs) = _
  rw [applyDestination_identity hlen, writeElements_unmasked _ _ _ _ (by decide)]
  rw [length_elements]
  decide

/-- The number of a vector register has seven bits. -/
theorem toNat_bits_lt (i : Instr) (position : UInt32) : (i.bits position 0x7F).toUInt8.toNat < 128 := by
  have hle : (i.bits position 0x7F).toNat ≤ 127 := by
    rw [Instr.bits, UInt32.toNat_and]
    exact Nat.and_le_right
  rw [UInt32.toNat_toUInt8]
  omega

theorem quadElements_quadIndex {reg : UInt8} (hreg : reg.toNat < 128) :
    ElementCache.quadElements (quadIndex reg) = VectorSize.quad.elements reg := by
  have hval : (quadIndex reg).val = reg.toNat := Nat.mod_eq_of_lt hreg
  rw [ElementCache.quadElements, hval, UInt8.ofNat_toNat]

theorem toList_quadValue {reg : UInt8} (hreg : reg.toNat < 128) (g : Core) :
    (ElementCache.quadValue g (quadIndex reg)).toList =
      (VectorSize.quad.elements reg).map g.element := by
  have hval : (quadIndex reg).val = reg.toNat := Nat.mod_eq_of_lt hreg
  rw [ElementCache.quadValue, hval, UInt8.ofNat_toNat, VectorSize.elements, List.map_map]
  refine List.ext_getElem (by simp [VectorSize.lanes]) fun n h₁ h₂ => ?_
  simp [lanesOf]

theorem Agree.symm {reg reg' : Fin 128} (ha : Agree reg reg') : Agree reg' reg := by
  rcases ha with rfl | hd
  · exact .inl rfl
  · exact .inr fun e he he' => hd e he' he

theorem agree_of_quadsAgree {r r' : UInt8} (hr : r.toNat < 128) (hr' : r'.toNat < 128)
    (ha : quadsAgree r r' = true) : Agree (quadIndex r) (quadIndex r') := by
  rw [quadsAgree, Bool.or_eq_true] at ha
  rcases ha with heq | hd
  · exact .inl (congrArg quadIndex (beq_iff_eq.mp heq))
  · refine .inr fun e he he' => ?_
    rw [quadElements_quadIndex hr] at he
    rw [quadElements_quadIndex hr'] at he'
    have hnot := List.all_eq_true.mp hd e he
    rw [Bool.not_eq_true', List.contains_eq_mem, decide_eq_false_iff_not] at hnot
    exact hnot he'

/-- **When an instruction works on quad registers.** -/
theorem wp_usesQuads (i : Instr) (regs : List UInt8)
    {Q : Bool → Builder → HostState → Machine → Prop}
    (hyes : i.vectorSize = .quad → b.modifiers.hasNoModifier = true →
      allQuadsAgree regs = true → Q true b h m) (hno : Q false b h m) :
    wp s (usesQuads i regs) Never Q b h m := by
  unfold usesQuads
  refine wp_bind (wp_get (wp_pure ?_))
  cases hall : decide (i.vectorSize = .quad) && b.modifiers.hasNoModifier && allQuadsAgree regs with
  | false => exact hno
  | true =>
    rw [Bool.and_eq_true, Bool.and_eq_true, decide_eq_true_eq] at hall
    exact hyes hall.1.1 hall.1.2 hall.2

/-- **The last operation of a rule writes a quad register that is ready.** -/
theorem wp_emit_quad {b₀ : Builder} {h₀ : HostState} {reg : UInt8} (hreg : reg.toNat < 128)
    {q : QuadReg} {v : Vector Single 4} {o : Operation}
    (hready : ReadyQuad b h m g (quadIndex reg) q) (hsteady : b₀.Steady b h₀ h)
    (hop : o.Inline) (hperform : o.perform h m = .next (h.setQuad q v) m)
    {E : Outcome → Prop} {Q : Unit → Builder → HostState → Machine → Prop}
    (hQ : ∀ b' h', b'.Shadows h' m (g.mapCore fun c =>
      setElements c (VectorSize.quad.elements reg) v.toList) → b₀.Steady b' h₀ h' → Q () b' h' m) :
    wp s (emit o) E Q b h m := by
  refine wp_emit_next hop hperform (hQ _ _ ?_ ((hsteady.setQuad q v).emitted _))
  have hwrite := hready v
  rw [quadElements_quadIndex hreg] at hwrite
  exact hwrite

/-- Arithmetic on quad registers. -/
theorem executeVectorBinary_quad {g : Core} (hid : ∀ slot, g.modifier slot = slot.identity)
    (hsize : i.vectorSize = .quad) : g.executeVectorBinary i =
      (setElements g (VectorSize.quad.elements i.vd)
        (List.zipWith i.floatOp.apply ((VectorSize.quad.elements i.vs).map g.element)
          ((VectorSize.quad.elements i.vt).map g.element))).clearModifiers := by
  simp only [Core.executeVectorBinary, hsize]
  rw [readOperand_identity hid _ (by decide), readOperand_identity hid _ (by decide),
    writeVector_identity hid, floatOp_apply]
  rw [List.length_zipWith, List.length_map, List.length_map, length_elements, length_elements]
  rfl

theorem executeVectorUnary_quad {g : Core} (hid : ∀ slot, g.modifier slot = slot.identity)
    (hsize : i.vectorSize = .quad) : g.executeVectorUnary i =
      (setElements g (VectorSize.quad.elements i.vd)
        (((VectorSize.quad.elements i.vs).map g.element).map
          (LaneFunction.apply i.laneFunction))).clearModifiers := by
  simp only [Core.executeVectorUnary, hsize]
  rw [readOperand_identity hid _ (by decide), writeVector_identity hid, laneFunction_apply]
  rw [List.length_map, List.length_map, length_elements]
  rfl

theorem execute_vectorBinary (hfam : i.family = .vectorBinary) (g : Machine) {F : Core → Core}
    (hF : g.core.executeVectorBinary i = (F g.core).clearModifiers) :
    Machine.execute i pc g = g.withCore fun c => (F c).clearModifiers := by
  have hexec : Machine.execute i pc g = g.withCore (·.executeVectorBinary i) := by
    rw [Machine.execute, hfam]
  rw [hexec, Machine.withCore_eq, Machine.withCore_eq, Machine.mapCore, Machine.mapCore, hF]

theorem execute_vectorUnary (hfam : i.family = .vectorUnary) (g : Machine) {F : Core → Core}
    (hF : g.core.executeVectorUnary i = (F g.core).clearModifiers) :
    Machine.execute i pc g = g.withCore fun c => (F c).clearModifiers := by
  have hexec : Machine.execute i pc g = g.withCore (·.executeVectorUnary i) := by
    rw [Machine.execute, hfam]
  rw [hexec, Machine.withCore_eq, Machine.withCore_eq, Machine.mapCore, Machine.mapCore, hF]

/-! ### Arithmetic -/

theorem correct_vectorBinary (hfam : i.family = .vectorBinary) :
    Correct s (vectorBinary i pc) i pc := by
  intro b h m g x
  unfold vectorBinary
  refine wp_bind (wp_get ?_)
  cases hknown : b.modifiers.known? with
  | none => exact correct_interpret (isFallback_of_family hfam rfl (by decide)) b h m g x
  | some known =>
    have hk := known_of_known? x hknown
    have hs : i.vs.toNat < 128 := toNat_bits_lt i _
    have ht : i.vt.toNat < 128 := toNat_bits_lt i _
    refine wp_bind (wp_usesQuads i _ (fun hsize hno hagree => ?_) ?_)
    · rw [if_pos rfl]
      have hid := identity_of_hasNoModifier x hno
      have hst : quadsAgree i.vs i.vt = true := by
        simp only [allQuadsAgree, List.all_cons, Bool.and_eq_true] at hagree
        exact hagree.2.1.1
      refine wp_bind (wp_readQuad x fun qs b₁ h₁ c₁ x₁ k₁ hqs _ => ?_)
      refine wp_bind (wp_readQuad x₁ fun qt b₂ h₂ c₂ x₂ k₂ hqt hkeep => ?_)
      have hqs := hkeep _ _ hqs (agree_of_quadsAgree hs ht hst).symm
      refine wp_bind (wp_writeQuad x₂ fun qd b₃ c₃ hready k₃ => ?_)
      refine wp_bind (wp_emit_quad (o := .quad i.floatOp qd qs qt) (toNat_bits_lt i _) hready
        ((k₁.trans k₂).trans k₃).steady trivial rfl fun b' h' x' s' => ?_)
      refine wp_consume_done (F := fun c => setElements c (VectorSize.quad.elements i.vd)
        (Vector.zipWith i.floatOp.apply (h₂.quad qs) (h₂.quad qt)).toList)
        (execute_vectorBinary hfam g ?_) x' s'
      rw [executeVectorBinary_quad hid hsize, quad_of_holds x₂ hqs, quad_of_holds x₂ hqt,
        Vector.toList_zipWith, toList_quadValue hs, toList_quadValue ht]
    · rw [if_neg (by decide)]
      refine wp_lanes (fun lane b h m x => wp_binaryLane i known lane x) x i.vectorSize i.vd
        known.destination fun b' h' m' x' s' => ?_
      exact wp_consume_done (execute_vectorBinary hfam g (executeVectorBinary_eq hk)) x' s'

theorem correct_unaryLanes (hfam : i.family = .vectorUnary) {known : ModifierTracker.Known}
    (x : b.Shadows h m g) (hk : Known known g.core) :
    wp s (unaryLanes i known >>= fun _ => updateModifiers (·.consume)) (Refused i pc g h)
      (Done i pc g b h) b h m := by
  unfold unaryLanes
  rw [bind_assoc]
  refine wp_bind (wp_imp (wp_mapLanes (fun lane b h m x => wp_unaryLane i known lane x) _ x) ?_)
  rintro fs b₁ h₁ m₁ ⟨x₁, k₁, hresults, -⟩
  refine wp_bind (wp_imp (wp_writeLanes known.destination _ x₁ hresults) ?_)
  rintro _ b₂ h₂ m₂ ⟨x₂, s₂⟩
  exact wp_consume_done (execute_vectorUnary hfam g (executeVectorUnary_eq hk)) x₂
    (k₁.steady.trans s₂)

theorem correct_vectorUnary (hfam : i.family = .vectorUnary) :
    Correct s (vectorUnary i pc) i pc := by
  intro b h m g x
  unfold vectorUnary
  refine wp_bind (wp_get ?_)
  cases hknown : b.modifiers.known? with
  | none => exact correct_interpret (isFallback_of_family hfam rfl (by decide)) b h m g x
  | some known =>
    have hk := known_of_known? x hknown
    have hs : i.vs.toNat < 128 := toNat_bits_lt i _
    refine wp_bind (wp_usesQuads i _ (fun hsize hno hagree => ?_) ?_)
    · have hid := identity_of_hasNoModifier x hno
      cases hf : i.laneFunction with
      | unary op =>
        refine wp_bind (wp_readQuad x fun qs b₁ h₁ c₁ x₁ k₁ hqs _ => ?_)
        refine wp_bind (wp_writeQuad x₁ fun qd b₂ c₂ hready k₂ => ?_)
        refine wp_bind (wp_emit_quad (o := .quadUnary op qd qs) (toNat_bits_lt i _) hready
          (k₁.trans k₂).steady trivial rfl fun b' h' x' s' => ?_)
        refine wp_consume_done (F := fun c => setElements c (VectorSize.quad.elements i.vd)
          ((h₁.quad qs).map op.apply).toList) (execute_vectorUnary hfam g ?_) x' s'
        rw [executeVectorUnary_quad hid hsize, quad_of_holds x₁ hqs, Vector.toList_map,
          toList_quadValue hs, hf]
        rfl
      | constant value =>
        refine wp_bind (wp_writeQuad x fun qd b₁ c₁ hready k₁ => ?_)
        refine wp_bind (wp_emit_quad (o := .quadImm qd value.bits) (toNat_bits_lt i _) hready
          k₁.steady trivial rfl fun b' h' x' s' => ?_)
        refine wp_consume_done (F := fun c => setElements c (VectorSize.quad.elements i.vd)
          (Vector.replicate 4 value).toList) (execute_vectorUnary hfam g ?_) x' s'
        rw [executeVectorUnary_quad hid hsize, hf, Vector.toList_replicate]
        simp only [LaneFunction.apply, List.map_const', List.length_map, length_elements]
        rfl
      | copy => exact correct_unaryLanes hfam x hk
    · cases i.laneFunction <;> exact correct_unaryLanes hfam x hk

/-! ### Compares -/

theorem testBit_eq (word : UInt32) (n : Fin 4) :
    LaneModifier.testBit word n.val = word.toBitVec.getLsbD n.val := by
  have hbit : ((word.toBitVec >>> n.val) &&& 1#32 != 0#32) = word.toBitVec.getLsbD n.val := by
    rw [BitVec.and_one_eq_setWidth_ofBool_getLsbD, BitVec.getLsbD_ushiftRight, Nat.add_zero]
    cases word.toBitVec.getLsbD n.val <;> rfl
  rw [← hbit, LaneModifier.testBit, Bool.eq_iff_iff, bne_iff_ne, bne_iff_ne, ne_eq, ne_eq,
    ← UInt32.toBitVec_inj]
  refine not_congr ?_
  have hshift : (word >>> UInt32.ofNat n.val).toBitVec = word.toBitVec >>> n.val := by
    match n with
    | 0 | 1 | 2 | 3 => rfl
  rw [UInt32.toBitVec_and, hshift]
  rfl

/-- A compare sets or clears the bit of its lane. -/
theorem testBit_mark (old : UInt32) (hit : Bool) (lane n : Fin 4) :
    LaneModifier.testBit (if hit then old ||| (1 : UInt32) <<< UInt32.ofNat (lane.val % 4)
      else old &&& ~~~((1 : UInt32) <<< UInt32.ofNat (lane.val % 4))) n.val =
      if lane = n then hit else LaneModifier.testBit old n.val := by
  have hmask : ∀ lane n : Fin 4,
      ((1 : UInt32) <<< UInt32.ofNat (lane.val % 4)).toBitVec.getLsbD n.val = decide (lane = n) := by
    decide
  have hlt : n.val < 32 := Nat.lt_trans n.isLt (by decide)
  rw [testBit_eq, testBit_eq]
  cases hit with
  | true =>
    rw [if_pos rfl, UInt32.toBitVec_or, BitVec.getLsbD_or, hmask]
    by_cases heq : lane = n <;> simp [heq]
  | false =>
    rw [if_neg (by decide), UInt32.toBitVec_and, UInt32.toBitVec_not, BitVec.getLsbD_and,
      BitVec.getLsbD_not, hmask]
    by_cases heq : lane = n <;> simp [heq, hlt]

/-- Whether a lane of a compare hits. -/
def compareValue (i : Instr) (known : ModifierTracker.Known) (g : Core) (lane : Nat) : Bool :=
  Dynarec.compareLane (i.bits 0 0xF) (operandLane g known.source i.vectorSize i.vs lane)
    (operandLane g known.target i.vectorSize i.vt lane)

theorem executeVectorCompare_eq {known : ModifierTracker.Known} {g : Core} (hk : Known known g) :
    g.executeVectorCompare i = (g.setReg .condition (mergeConditions g.condition
      ((List.range i.vectorSize.lanes).map (compareValue i known g)))).clearModifiers := by
  simp only [Core.executeVectorCompare, readOperand_eq, hk.source, hk.target, List.zipWith_map,
    List.zipWith_self]
  rfl

/-- The test of a compare is encoded in four bits. -/
theorem compareCode (i : Instr) : UInt32.ofNat (Fin.ofNat 16 i.word.toNat).val = i.bits 0 0xF := by
  have hval : (Fin.ofNat 16 i.word.toNat).val = i.word.toNat % 2 ^ 4 := rfl
  rw [← UInt32.toNat_inj, hval, ← Nat.and_two_pow_sub_one_eq_mod, Instr.bits, UInt32.toNat_and,
    UInt32.toNat_shiftRight, UInt32.toNat_ofNat_of_lt']
  · rfl
  · exact Nat.lt_of_le_of_lt Nat.and_le_right (by decide)

/-- **Comparing one lane** marks its bit. -/
theorem wp_compareLane (i : Instr) (known : ModifierTracker.Known) (lane : Fin 4)
    (x : b.Shadows h m g) :
    wp s (compareLane i known lane.val) Never (fun _ b' h' m' => b'.Shadows h' m' g ∧
      b.Steady b' h h' ∧ ∀ n : Fin 4, LaneModifier.testBit (h'.get HostReg.scratch) n.val =
        if lane = n then compareValue i known g.core lane.val
        else LaneModifier.testBit (h.get HostReg.scratch) n.val) b h m := by
  unfold compareLane
  dsimp only
  refine wp_bind (wp_readLane x _ _ _ fun fs b₁ h₁ m₁ hs => ?_)
  refine wp_bind (wp_readLane hs.shadows _ _ _ fun ft b₂ h₂ m₂ ht => ?_)
  have hkeep := hs.holds.keep ht.keeps
  have hk := hs.keeps.trans ht.keeps
  have hlane : (Fin.ofNat 16 lane.val).val = lane.val :=
    Nat.mod_eq_of_lt (Nat.lt_trans lane.isLt (by decide))
  refine wp_emit_next trivial rfl ⟨shadows_scratch ht.shadows _, (steady_scratch hk.steady _).emitted _,
    fun n => ?_⟩
  rw [HostState.get_set, if_pos rfl, hlane, testBit_mark, compareCode, hkeep.2, hs.value, ht.value,
    hk.high _ (by decide)]
  rfl

theorem wp_compareLanes (i : Instr) (known : ModifierTracker.Known) (lanes : List Nat)
    (hlanes : ∀ lane ∈ lanes, lane < 4) (x : b.Shadows h m g) :
    wp s (lanes.forM (compareLane i known)) Never (fun _ b' h' m' => b'.Shadows h' m' g ∧
      b.Steady b' h h' ∧ ∀ n : Fin 4, LaneModifier.testBit (h'.get HostReg.scratch) n.val =
        if n.val ∈ lanes then compareValue i known g.core n.val
        else LaneModifier.testBit (h.get HostReg.scratch) n.val) b h m := by
  induction lanes generalizing b h m with
  | nil =>
    refine wp_pure ⟨x, .refl b h, fun n => ?_⟩
    rw [if_neg List.not_mem_nil]
  | cons lane rest ih =>
    have hlt := hlanes lane List.mem_cons_self
    refine wp_bind (wp_imp (wp_compareLane i known ⟨lane, hlt⟩ x) ?_)
    rintro _ b₁ h₁ m₁ ⟨x₁, s₁, hbits₁⟩
    refine wp_imp (ih (fun l hl => hlanes l (List.mem_cons_of_mem _ hl)) x₁) ?_
    rintro _ b₂ h₂ m₂ ⟨x₂, s₂, hbits₂⟩
    refine ⟨x₂, s₁.trans s₂, fun n => ?_⟩
    rw [hbits₂, hbits₁]
    by_cases hrest : n.val ∈ rest
    · rw [if_pos hrest, if_pos (List.mem_cons_of_mem _ hrest)]
    · rw [if_neg hrest]
      by_cases heq : (⟨lane, hlt⟩ : Fin 4) = n
      · rw [if_pos heq, if_pos (by rw [← heq]; exact List.mem_cons_self), ← heq]
      · rw [if_neg heq, if_neg]
        intro hmem
        rcases List.mem_cons.mp hmem with hn | hn
        · exact heq (Fin.ext hn.symm)
        · exact hrest hn

theorem lanes_le (size : VectorSize) : 1 ≤ size.lanes ∧ size.lanes ≤ 4 := by
  cases size <;> decide

/-- Merging the bits of all lanes. -/
theorem mergeConditionBits_eq (old bits : UInt32) (size : VectorSize) {hit : Nat → Bool}
    (hbits : ∀ n : Fin 4, n.val ∈ List.range size.lanes →
      LaneModifier.testBit bits n.val = hit n.val) :
    mergeConditionBits old bits (UInt8.ofNat size.lanes) =
      mergeConditions old ((List.range size.lanes).map hit) := by
  have hcount : Nat.max 1 (Nat.min 4 (UInt8.ofNat size.lanes).toNat) = size.lanes := by
    cases size <;> rfl
  rw [mergeConditionBits, hcount]
  refine congrArg _ (List.map_congr_left fun lane hlane => ?_)
  exact hbits ⟨lane, Nat.lt_of_lt_of_le (List.mem_range.mp hlane) (lanes_le size).2⟩ hlane

theorem correct_vectorCompare (hfam : i.family = .vectorCompare) :
    Correct s (vectorCompare i pc) i pc := by
  intro b h m g x
  unfold vectorCompare
  refine wp_bind (wp_get ?_)
  cases hknown : b.modifiers.known? with
  | none => exact correct_interpret (isFallback_of_family hfam rfl (by decide)) b h m g x
  | some known =>
    have hk := known_of_known? x hknown
    refine wp_bind (wp_emit_next trivial rfl ?_)
    have x₁ := shadows_scratch x 0
    have s₁ := steady_scratch (Builder.Steady.refl b h) 0
    refine wp_bind (wp_imp (wp_compareLanes i known (List.range i.vectorSize.lanes)
      (fun lane hlane => Nat.lt_of_lt_of_le (List.mem_range.mp hlane) (lanes_le _).2)
      (b := { b with code := _ }) x₁) ?_)
    rintro _ b₂ h₂ m₂ ⟨x₂, s₂, hbits⟩
    refine wp_bind (wp_bindReg x₂ fun condition b₃ h₃ c₃ x₃ k₃ hcondition _ => ?_)
    have hsteady := ((s₁.emitted _).trans s₂).trans k₃.steady
    have hmerge : mergeConditionBits (h₃.get condition) (h₃.get HostReg.scratch)
        (UInt8.ofNat i.vectorSize.lanes) = mergeConditions g.core.condition
          ((List.range i.vectorSize.lanes).map (compareValue i known g.core)) := by
      rw [x₃.get_of_holds hcondition, k₃.high _ (by decide)]
      refine mergeConditionBits_eq _ _ _ fun n hn => ?_
      rw [hbits n, if_pos hn]
    refine wp_bind (wp_emit_next trivial rfl ?_)
    rw [hmerge]
    have hlt := holds_lt hcondition
    have x₄ := shadows_markDirty x₃ rfl hcondition (mergeConditions g.core.condition
      ((List.range i.vectorSize.lanes).map (compareValue i known g.core)))
    have s₄ := hsteady.set (ne_jumpTarget hlt) (ne_downcount hlt) (mergeConditions g.core.condition
      ((List.range i.vectorSize.lanes).map (compareValue i known g.core)))
    refine wp_bind (wp_modify rfl rfl ?_)
    have hexec : Machine.execute i pc g = g.withCore (·.executeVectorCompare i) := by
      rw [Machine.execute, hfam]
    refine wp_consume_done (F := (·.setReg .condition (mergeConditions g.core.condition
      ((List.range i.vectorSize.lanes).map (compareValue i known g.core))))) ?_ x₄
      ⟨s₄.jumpTarget, s₄.downcount, s₄.savedFlags, s₄.progress⟩
    rw [hexec, Machine.withCore_eq, Machine.withCore_eq, Machine.mapCore, Machine.mapCore,
      executeVectorCompare_eq hk]

/-! ### Modifiers -/

theorem get_set (t : ModifierTracker) (slot slot' : ModifierSlot) (k : Knowledge) :
    (t.set slot k).get slot' = if slot = slot' then k else t.get slot' := by
  cases slot <;> cases slot' <;> rfl

theorem correct_vectorModifier (hfam : i.family = .vectorModifier) :
    Correct s (vectorModifier i) i pc := by
  intro b h m g x
  have hexec : Machine.execute i pc g =
      .ok .normal (g.mapCore (·.setModifier i.modifierSlot (i.bits 0 0xFFFFF))) := by
    rw [Machine.execute, hfam]
    rfl
  refine wp_modify rfl rfl ⟨_, hexec, changeModifiers x (.refl _)
    (sameButModifiers_setModifier _ _ _) fun slot => ?_, ⟨rfl, rfl, rfl, rfl⟩⟩
  show ((b.modifiers.set i.modifierSlot (.dirty _)).get slot).Shadows _ _
  rw [get_set, Core.modifier_setModifier]
  by_cases heq : i.modifierSlot = slot
  · rw [if_pos heq, if_pos heq]
    exact rfl
  · rw [if_neg heq, if_neg heq]
    exact x.modifiers slot

/-! ### Memory -/

/-- The last operation writes the element that is ready for it. -/
theorem wp_emit_element {b₀ : Builder} {h₀ : HostState} {e : Element} {f : FloatReg} {v : Single}
    {o : Operation} (hop : o.Inline)
    (hexec : Machine.execute i pc g = .ok .normal (g.mapCore (·.setElement e v)))
    (hready : ReadyElement b h m g e f) (hsteady : b₀.Steady b h₀ h)
    (hperform : o.perform h m = .next (h.setFloat f v) m) :
    wp s (emit o) (Refused i pc g h₀) (Done i pc g b₀ h₀) b h m :=
  wp_emit_next hop hperform ⟨_, hexec, hready.2 v, (hsteady.setFloat f v).emitted _⟩

theorem storeElements_eq (core : Core) (memory : Memory) (address : UInt32) (es : List Element) :
    Machine.storeElements core memory address es =
      storeSingles memory address (es.map core.element) := by
  induction es generalizing memory address with
  | nil => rfl
  | cons e es ih =>
    rw [List.map_cons, storeSingles, Machine.storeElements]
    simp only [ih]

theorem executeVectorMemory_store (g : Machine) (elements : List Element) :
    g.executeVectorMemory i elements false = (storeSingles g.memory
      (Machine.vectorAddress g.core i) (elements.map g.core.element)).map (Machine.mk g.core) := by
  rw [← storeElements_eq]
  rfl

/-- What a vector store stores, with the address and the values fixed. -/
theorem execute_vectorStore {elements : List Element} {g : Machine} {address : UInt32}
    {values : List Single}
    (hexec : Machine.execute i pc g = g.withMemory (·.executeVectorMemory i elements false))
    (haddress : Machine.vectorAddress g.core i = address)
    (hvalues : elements.map g.core.element = values) :
    Machine.execute i pc g = g.withMemory fun g =>
      (storeSingles g.memory address values).map (Machine.mk g.core) := by
  rw [hexec, Machine.withMemory, Machine.withMemory, executeVectorMemory_store, haddress, hvalues]

theorem loadElements_eq (core : Core) (memory : Memory) (address : UInt32) (es : List Element) :
    Machine.loadElements core memory address es = setElements core es
      ((List.range es.length).map fun lane =>
        memory.readSingle (address + UInt32.ofNat (lane * 4))) := by
  induction es generalizing core address with
  | nil => rfl
  | cons e es ih =>
    rw [List.length_cons, List.range_succ_eq_map, List.map_cons, List.map_map, Machine.loadElements,
      ih, setElements, Nat.zero_mul]
    have hzero : address + UInt32.ofNat 0 = address := UInt32.add_zero address
    have hnext : (fun lane => memory.readSingle (address + 4 + UInt32.ofNat (lane * 4))) =
        (fun lane => memory.readSingle (address + UInt32.ofNat (lane * 4))) ∘ Nat.succ := by
      funext lane
      have hofNat : UInt32.ofNat (lane.succ * 4) = 4 + UInt32.ofNat (lane * 4) := by
        rw [Nat.succ_mul, Nat.add_comm, UInt32.ofNat_add]
        rfl
      rw [Function.comp_apply, hofNat, UInt32.add_assoc]
    rw [hzero, hnext]

theorem execute_vectorLoad {elements : List Element} {g : Machine}
    (hexec : Machine.execute i pc g = g.withMemory (·.executeVectorMemory i elements true)) :
    Machine.execute i pc g = .ok .normal (g.mapCore (setElements · elements
      ((List.range elements.length).map fun lane => g.memory.readSingle
        (Machine.vectorAddress g.core i + UInt32.ofNat (lane * 4))))) := by
  rw [hexec]
  show Machine.withMemory _ _ = _
  rw [Machine.withMemory]
  show EStateM.Result.ok _ (Machine.mk (Machine.loadElements _ _ _ _) _) = _
  rw [loadElements_eq]
  rfl

theorem storeSingles_single (memory : Memory) (address : UInt32) (v : Single) :
    storeSingles memory address [v] = memory.writeSingle address v := by
  rw [storeSingles]
  simp only [storeSingles]
  cases memory.writeSingle address v <;> rfl

theorem elements_single (reg : UInt8) :
    VectorSize.single.elements reg = [VectorSize.single.element reg 0] := rfl

theorem correct_elementAccess (hfam : i.family = .elementMemory) :
    Correct s (elementAccess i) i pc := by
  intro b h m g x
  have hexec : Machine.execute i pc g = g.withMemory (·.executeVectorMemory i
      (VectorSize.single.elements i.elementReg) (i.major == 0x32)) := by
    rw [Machine.execute, hfam]
  unfold elementAccess
  refine wp_bind (wp_bindGpr x fun base b₁ h₁ c₁ x₁ k₁ hbase _ => ?_)
  cases hload : i.major == 0x32 with
  | true =>
    rw [if_pos rfl]
    rw [hload] at hexec
    refine wp_bind (wp_writeElement x₁ fun fd b₂ c₂ hready k₂ => ?_)
    have hexec : Machine.execute i pc g = .ok .normal (g.mapCore (·.setElement
        (VectorSize.single.element i.elementReg 0)
        (g.memory.readSingle (Machine.vectorAddress g.core i)))) := by
      have hzero : Machine.vectorAddress g.core i + UInt32.ofNat (0 * 4) =
          Machine.vectorAddress g.core i := UInt32.add_zero _
      rw [execute_vectorLoad hexec, elements_single]
      show EStateM.Result.ok _ (g.mapCore (·.setElement _ (g.memory.readSingle (_ + _)))) = _
      rw [hzero]
    refine wp_emit_element trivial hexec hready (k₁.trans k₂).steady ?_
    rw [Machine.vectorAddress, ← x₁.get_of_holds_gpr hbase, ← x.memory]
    rfl
  | false =>
    rw [if_neg (by decide)]
    rw [hload] at hexec
    refine wp_bind (wp_readElement x₁ fun fs b₂ h₂ c₂ x₂ k₂ hfs => ?_)
    have hstore := execute_vectorStore hexec rfl rfl
    rw [elements_single, List.map_cons, List.map_nil] at hstore
    simp only [storeSingles_single] at hstore
    refine wp_emit_store (F := fun memory => memory.writeSingle (Machine.vectorAddress g.core i)
      (g.core.element (VectorSize.single.element i.elementReg 0))) trivial hstore x₂
      (k₁.trans k₂).steady ?_
    rw [← x₂.float_of_holds hfs, Machine.vectorAddress, ← x₂.get_of_holds_gpr (k₂.holds hbase)]
    rfl

theorem quadReg_lt (i : Instr) : i.quadReg.toNat < 128 := by
  have hreg : (i.bits 16 0x1F).toNat < 2 ^ 6 := by
    rw [Instr.bits, UInt32.toNat_and]
    exact Nat.lt_of_le_of_lt Nat.and_le_right (by decide)
  have hhigh : (i.bits 0 1 <<< (5 : UInt32)).toNat < 2 ^ 6 := by
    have hbit : (i.bits 0 1).toNat ≤ 1 := by
      rw [Instr.bits, UInt32.toNat_and]
      exact Nat.and_le_right
    rw [UInt32.toNat_shiftLeft]
    have hshift : (5 : UInt32).toNat % 32 = 5 := rfl
    rw [hshift, Nat.shiftLeft_eq]
    exact Nat.lt_of_le_of_lt (Nat.mod_le _ _) (by omega)
  have hor : (i.bits 16 0x1F ||| i.bits 0 1 <<< (5 : UInt32)).toNat < 2 ^ 6 := by
    rw [UInt32.toNat_or]
    exact Nat.or_lt_two_pow hreg hhigh
  rw [Instr.quadReg, UInt32.toNat_toUInt8]
  omega

theorem perform_quadLoad (qd : QuadReg) (base : HostReg) (offset : Int32) (h : HostState)
    (m : Machine) : (Operation.quadLoad qd base offset).perform h m =
      .next (h.setQuad qd (lanesOf fun lane => m.memory.readSingle
        (h.get base + offset.toUInt32 + UInt32.ofNat (lane * 4)))) m := rfl

theorem perform_quadStore (qs : QuadReg) (base : HostReg) (offset : Int32) (h : HostState)
    (m : Machine) : (Operation.quadStore qs base offset).perform h m =
      .withMemory h m fun memory => storeSingles memory (h.get base + offset.toUInt32)
        (h.quad qs).toList := rfl

/-- The words that a load of four elements reads. -/
def loadedQuad (i : Instr) (g : Machine) : Vector Single 4 :=
  lanesOf fun lane => g.memory.readSingle
    (g.core.gpr i.rs + i.vectorOffset.toUInt32 + UInt32.ofNat (lane * 4))

theorem toList_loadedQuad (i : Instr) (g : Machine) : (loadedQuad i g).toList =
    (List.range 4).map fun lane => g.memory.readSingle
      (Machine.vectorAddress g.core i + UInt32.ofNat (lane * 4)) := by
  refine List.ext_getElem (by simp) fun n h₁ h₂ => ?_
  simp [loadedQuad, lanesOf, Machine.vectorAddress]

theorem correct_quadLoad {b₀ : Builder} {h₀ : HostState} (x : b.Shadows h m g) {base : HostReg}
    (hexec : Machine.execute i pc g =
      g.withMemory (·.executeVectorMemory i (VectorSize.quad.elements i.quadReg) true))
    (vbase : h.get base = g.core.gpr i.rs) (hsteady : b₀.Steady b h₀ h) :
    wp s (do
      let qd ← writeQuad i.quadReg
      emit (.quadLoad qd base i.vectorOffset))
      (Refused i pc g h₀) (Done i pc g b₀ h₀) b h m := by
  refine wp_bind (wp_writeQuad x fun qd b₁ c₁ hready k₁ => ?_)
  have hload := execute_vectorLoad hexec
  rw [length_elements] at hload
  have hperform : (Operation.quadLoad qd base i.vectorOffset).perform h ⟨c₁, m.memory⟩ =
      .next (h.setQuad qd (loadedQuad i g)) ⟨c₁, m.memory⟩ := by
    rw [perform_quadLoad, vbase, loadedQuad, ← x.memory]
  refine wp_emit_quad (o := .quadLoad qd base i.vectorOffset) (quadReg_lt i) hready
    (hsteady.trans k₁.steady) trivial hperform fun b' h' x' s' => ⟨_, hload, ?_, s'⟩
  rw [toList_loadedQuad] at x'
  exact x'

theorem correct_quadStore {b₀ : Builder} {h₀ : HostState} (x : b.Shadows h m g) {base : HostReg}
    (hexec : Machine.execute i pc g =
      g.withMemory (·.executeVectorMemory i (VectorSize.quad.elements i.quadReg) false))
    (vbase : h.get base = g.core.gpr i.rs) (hsteady : b₀.Steady b h₀ h) :
    wp s (do
      let qs ← readQuad i.quadReg
      emit (.quadStore qs base i.vectorOffset))
      (Refused i pc g h₀) (Done i pc g b₀ h₀) b h m := by
  refine wp_bind (wp_readQuad x fun qs b₁ h₁ c₁ x₁ k₁ hqs _ => ?_)
  refine wp_emit_store (F := fun memory => storeSingles memory (Machine.vectorAddress g.core i)
    ((VectorSize.quad.elements i.quadReg).map g.core.element)) trivial
    (execute_vectorStore hexec rfl rfl) x₁
    (hsteady.trans k₁.steady) ?_
  rw [perform_quadStore, get_of_sameButElements k₁.host, vbase, quad_of_holds x₁ hqs,
    toList_quadValue (quadReg_lt i), Machine.vectorAddress]

theorem correct_quadAccess (hfam : i.family = .quadMemory) : Correct s (quadAccess i) i pc := by
  intro b h m g x
  have hexec : Machine.execute i pc g = g.withMemory (·.executeVectorMemory i
      (VectorSize.quad.elements i.quadReg) (i.major == 0x36)) := by
    rw [Machine.execute, hfam]
  unfold quadAccess
  refine wp_bind (wp_bindGpr x fun base b₁ h₁ c₁ x₁ k₁ hbase _ => ?_)
  have vbase := x₁.get_of_holds_gpr hbase
  cases hload : i.major == 0x36 with
  | true =>
    rw [hload] at hexec
    exact correct_quadLoad x₁ hexec vbase k₁.steady
  | false =>
    rw [hload] at hexec
    exact correct_quadStore x₁ hexec vbase k₁.steady

/-! ### Moves between the units -/

theorem execute_vectorMove (pc : UInt32) (hfam : i.family = .vectorMove)
    (hselector : i.moveSelector < 0x90)
    (g : Machine) {F : Core → Core} (hF : g.core.executeVectorMove i = F g.core) :
    Machine.execute i pc g = .ok .normal (g.mapCore F) := by
  have hexec : Machine.execute i pc g = g.withCore (·.executeVectorMove i) := by
    rw [Machine.execute, hfam]
    exact if_pos hselector
  rw [hexec, Machine.withCore_eq, Machine.mapCore, Machine.mapCore, hF]

theorem correct_moveElement (hfam : i.family = .vectorMove) (hselector : i.moveSelector < 0x80) :
    Correct s (moveElement i) i pc := by
  intro b h m g x
  have hlt : i.moveSelector < 0x90 := UInt32.lt_trans hselector (by decide)
  unfold moveElement
  cases hmoves : i.movesToVector with
  | true =>
    rw [if_pos rfl]
    refine wp_bind (wp_bindGpr x fun rs b₁ h₁ c₁ x₁ k₁ hrs _ => ?_)
    refine wp_bind (wp_writeElement x₁ fun fd b₂ c₂ hready k₂ => ?_)
    refine wp_emit_element (v := ⟨g.core.gpr i.rt⟩) trivial (execute_vectorMove pc hfam hlt g ?_) hready
      (k₁.trans k₂).steady ?_
    · rw [Core.executeVectorMove, if_pos hselector, hmoves]
      rfl
    · rw [← x₁.get_of_holds_gpr hrs]
      rfl
  | false =>
    rw [if_neg (by decide)]
    have hexec := execute_vectorMove pc hfam hlt g
      (F := (·.setReg (.gpr i.rt) (g.core.element
        (VectorSize.single.element i.moveSelector.toUInt8 0)).bits)) (by
      rw [Core.executeVectorMove, if_pos hselector, hmoves]
      rfl)
    by_cases hrt : i.rt = 0
    · rw [if_neg (not_not_intro hrt)]
      exact wp_pure_done x (execute_setGpr_zero hrt hexec)
    · rw [if_pos hrt]
      refine wp_bind (wp_readElement x fun fs b₁ h₁ c₁ x₁ k₁ hfs => ?_)
      refine wp_bind (wp_bindGprForWrite x₁ hrt fun rd b₂ c₂ hready k₂ => ?_)
      refine wp_emit_write trivial hexec hready (k₁.trans k₂).steady ?_
      rw [← x₁.float_of_holds hfs]
      rfl

theorem executeVectorMove_control {g : Core} (hselector : ¬ i.moveSelector < 0x80) :
    g.executeVectorMove i =
      if i.movesToVector then g.setControl i.moveControl (g.gpr i.rt)
      else g.setGpr i.rt (g.control i.moveControl) := by
  rw [Core.executeVectorMove, if_neg hselector]

theorem correct_moveCondition (hfam : i.family = .vectorMove) (hlow : ¬ i.moveSelector < 0x80)
    (hselector : i.moveSelector < 0x90) (hcontrol : i.moveControl = Core.conditionControl) :
    Correct s (moveCondition i) i pc := by
  intro b h m g x
  unfold moveCondition
  cases hmoves : i.movesToVector with
  | true =>
    rw [if_pos rfl]
    have hexec := execute_vectorMove pc hfam hselector g
      (F := (·.setReg .condition (g.core.gpr i.rt))) (by
      rw [executeVectorMove_control hlow, hmoves, if_pos rfl, hcontrol]
      rfl)
    refine wp_bind (wp_bindGpr x fun rs b₁ h₁ c₁ x₁ k₁ hrs _ => ?_)
    refine wp_bind (wp_bindForWrite x₁ rfl fun condition b₂ c₂ hready k₂ => ?_)
    exact wp_move_write hexec hready (k₁.trans k₂).steady (x₁.get_of_holds_gpr hrs)
  | false =>
    rw [if_neg (by decide)]
    have hexec := execute_vectorMove pc hfam hselector g
      (F := (·.setReg (.gpr i.rt) (g.core.reg .condition))) (by
      rw [executeVectorMove_control hlow, hmoves, if_neg (by decide)]
      simp only [hcontrol]
      rfl)
    by_cases hrt : i.rt = 0
    · rw [if_neg (not_not_intro hrt)]
      exact wp_pure_done x (execute_setGpr_zero hrt hexec)
    · rw [if_pos hrt]
      refine wp_bind (wp_bindReg x fun condition b₁ h₁ c₁ x₁ k₁ hcondition _ => ?_)
      refine wp_bind (wp_bindGprForWrite x₁ hrt fun rd b₂ c₂ hready k₂ => ?_)
      exact wp_move_write hexec hready (k₁.trans k₂).steady (x₁.get_of_holds hcondition)

theorem ofControl?_eq_some_iff {index : Fin 16} {slot : ModifierSlot} :
    ModifierSlot.ofControl? index.val = some slot ↔ index = slot.control := by
  cases slot <;> revert index <;> decide

theorem controlIndex_ofNat (index : Fin 16) : controlIndex (UInt8.ofNat index.val) = index := by
  revert index
  decide

/-- **A control register is written on both sides.** -/
theorem shadows_setControl {c : ScalarCache} {e : ElementCache} {t t' : ModifierTracker}
    (x : Shadow c e t h m g) {k : Fin 16} (hk : k ≠ Core.conditionControl) (v : UInt32)
    (ht : ∀ slot, t'.get slot = if k = slot.control then .unknown else t.get slot) :
    Shadow c e t' h ⟨m.core.setControl k v, m.memory⟩ ⟨g.core.setControl k v, g.memory⟩ where
  scalars := x.scalars.transport rfl (Core.reg_setControl _ hk v) (Core.reg_setControl _ hk v)
  elements := x.elements.transport rfl rfl rfl rfl
  modifiers slot := by
    show (t'.get slot).Shadows ((m.core.setControl k v).control slot.control)
      ((g.core.setControl k v).control slot.control)
    rw [ht, Core.controls_setControl, Core.controls_setControl]
    by_cases heq : k = slot.control
    · rw [if_pos heq, if_pos heq, if_pos heq]
      exact rfl
    · rw [if_neg heq, if_neg heq, if_neg heq]
      exact x.modifiers slot
  controls j hj := by
    show (m.core.setControl k v).control j = (g.core.setControl k v).control j
    rw [Core.controls_setControl, Core.controls_setControl, x.controls j hj]
  frame := ((g.core.sameFrame_setControl k v).symm.trans x.frame).trans
    (m.core.sameFrame_setControl k v)
  held := x.held
  zero := x.zero
  memory := x.memory

/-- A control register that is known to be up to date. -/
theorem controls_of_shadows (x : b.Shadows h m g) {k : Fin 16} (hk : k ≠ Core.conditionControl)
    (hflushed : ∀ slot, ModifierSlot.ofControl? k.val = some slot →
      ∀ v, b.modifiers.get slot ≠ .dirty v) : m.core.control k = g.core.control k := by
  by_cases h4 : 4 ≤ k.val
  · exact x.controls k h4
  · obtain ⟨slot, rfl⟩ := Core.exists_control hk (Nat.lt_of_not_le h4)
    have hslot := x.modifiers slot
    have hnot := hflushed slot (ofControl?_eq_some_iff.mpr rfl)
    cases hg : b.modifiers.get slot with
    | unknown => rw [hg] at hslot; exact hslot
    | clean v => rw [hg] at hslot; exact hslot.1.trans hslot.2.symm
    | dirty v => exact absurd hg (hnot v)

theorem markFlushed_ne_dirty (t : ModifierTracker) (slot : ModifierSlot) (v : UInt32) :
    t.markFlushed.get slot ≠ .dirty v := by
  rw [ModifierTracker.markFlushed, get_ofRule]
  cases t.get slot <;> simp [Knowledge.flushed]

/-- Reading a control register that is up to date. -/
theorem wp_loadControl (s : Setting) (pc : UInt32) (hfam : i.family = .vectorMove)
    (hlow : ¬ i.moveSelector < 0x80)
    (hselector : i.moveSelector < 0x90) (hcontrol : i.moveControl ≠ Core.conditionControl)
    (hmoves : i.movesToVector = false) (hrt : i.rt ≠ 0) {b₀ : Builder} {h₀ : HostState}
    (x : b.Shadows h m g) (hsteady : b₀.Steady b h₀ h)
    (hflushed : ∀ slot, ModifierSlot.ofControl? i.moveControl.val = some slot →
      ∀ v, b.modifiers.get slot ≠ .dirty v) :
    wp s (do
      let rd ← bindGprForWrite i.rt
      emit (.loadControl rd (UInt8.ofNat i.moveControl.val)))
      (Refused i pc g h₀) (Done i pc g b₀ h₀) b h m := by
  have hexec := execute_vectorMove pc hfam hselector g
    (F := (·.setReg (.gpr i.rt) (g.core.control i.moveControl))) (by
    rw [executeVectorMove_control hlow, hmoves]
    rfl)
  refine wp_bind (wp_bindGprForWrite x hrt fun rd b₁ c₁ hready k₁ => ?_)
  refine wp_emit_write trivial hexec hready (hsteady.trans k₁.steady) ?_
  have hheld := controls_of_shadows (hready.write 0) hcontrol (by
    rw [k₁.modifiers]
    exact hflushed)
  have hg : (g.core.setReg (.gpr i.rt) 0).control i.moveControl =
      g.core.control i.moveControl := Core.controls_setReg _ hcontrol _
  show Outcome.next (h.set rd (c₁.control (controlIndex _))) _ = _
  simp only [controlIndex_ofNat]
  rw [← hg]
  exact congrArg (fun v => Outcome.next (h.set rd v) _) hheld

theorem correct_moveControl (hfam : i.family = .vectorMove) (hlow : ¬ i.moveSelector < 0x80)
    (hselector : i.moveSelector < 0x90) (hcontrol : i.moveControl ≠ Core.conditionControl) :
    Correct s (moveControl i) i pc := by
  intro b h m g x
  unfold moveControl
  cases hmoves : i.movesToVector with
  | true =>
    have hexec := execute_vectorMove pc hfam hselector g
      (F := (·.setControl i.moveControl (g.core.gpr i.rt))) (by
      rw [executeVectorMove_control hlow, hmoves]
      rfl)
    simp only [if_true]
    refine wp_bind (wp_bindGpr x fun rs b₁ h₁ c₁ x₁ k₁ hrs _ => ?_)
    have hperform : (Operation.storeControl rs (UInt8.ofNat i.moveControl.val)).perform h₁
        ⟨c₁, m.memory⟩ =
        .next h₁ ⟨c₁.setControl i.moveControl (g.core.gpr i.rt), m.memory⟩ := by
      rw [← x₁.get_of_holds_gpr hrs]
      show Outcome.next _ ⟨c₁.setControl (controlIndex _) _, _⟩ = _
      rw [controlIndex_ofNat]
    refine wp_bind (wp_emit_next trivial hperform ?_)
    cases hslot : ModifierSlot.ofControl? i.moveControl.val with
    | some slot =>
      refine wp_modify rfl rfl ⟨_, hexec, shadows_setControl x₁ hcontrol _ fun slot' => ?_, ?_⟩
      · show (b₁.modifiers.set slot .unknown).get slot' = _
        rw [get_set, ofControl?_eq_some_iff.mp hslot]
        by_cases heq : slot = slot'
        · rw [if_pos heq, if_pos (congrArg _ heq)]
        · rw [if_neg heq, if_neg fun hc => heq (Core.control_inj hc)]
      · exact ⟨k₁.steady.jumpTarget, k₁.steady.downcount, k₁.steady.savedFlags, k₁.steady.progress⟩
    | none =>
      refine wp_pure ⟨_, hexec, shadows_setControl x₁ hcontrol _ fun slot' => ?_,
        k₁.steady.emitted _⟩
      rw [if_neg]
      intro heq
      rw [ofControl?_eq_some_iff.mpr heq] at hslot
      cases hslot
  | false =>
    simp only [Bool.false_eq_true, if_false]
    by_cases hrt : i.rt = 0
    · have hexec := execute_vectorMove pc hfam hselector g
        (F := (·.setReg (.gpr i.rt) (g.core.control i.moveControl))) (by
        rw [executeVectorMove_control hlow, hmoves]
        rfl)
      rw [if_neg (not_not_intro hrt)]
      exact wp_pure_done x (execute_setGpr_zero hrt hexec)
    · rw [if_pos hrt]
      have hload {b' : Builder} {m' : Machine} (x' : b'.Shadows h m' g) (hs : b.Steady b' h h)
          (hflushed : ∀ slot, ModifierSlot.ofControl? i.moveControl.val = some slot →
            ∀ v, b'.modifiers.get slot ≠ .dirty v) :=
        wp_loadControl s pc hfam hlow hselector hcontrol hmoves hrt x' hs hflushed
      cases hslot : ModifierSlot.ofControl? i.moveControl.val with
      | some slot =>
        simp only [Option.isSome_some, if_true]
        refine wp_bind (wp_flushModifiers x fun b₁ c₁ x₁ hmod s₁ _ _ => ?_)
        exact hload x₁ s₁ fun slot' _ v => by
          rw [hmod]
          exact markFlushed_ne_dirty _ _ _
      | none =>
        simp only [Option.isSome_none]
        refine hload x (.refl b h) fun slot' hslot' => ?_
        rw [hslot] at hslot'
        cases hslot'

theorem correct_vectorMove (hfam : i.family = .vectorMove) : Correct s (vectorMove i pc) i pc := by
  unfold vectorMove
  by_cases hlow : i.moveSelector < 0x80
  · rw [if_pos hlow]
    exact correct_moveElement hfam hlow
  · rw [if_neg hlow]
    by_cases hhigh : i.moveSelector ≥ 0x90
    · rw [if_pos hhigh]
      exact correct_interpret (isFallback_of_family hfam rfl (by decide))
    · rw [if_neg hhigh]
      have hselector : i.moveSelector < 0x90 := UInt32.not_le.mp hhigh
      by_cases hcontrol : i.moveControl = Core.conditionControl
      · rw [if_pos hcontrol]
        exact correct_moveCondition hfam hlow hselector hcontrol
      · rw [if_neg hcontrol]
        exact correct_moveControl hfam hlow hselector hcontrol

/-! ### Every instruction that does not end a block -/

/-- **The lowering of an instruction that does not end a block is correct.** -/
theorem correct_plain (hfam : i.family.isTerminator = false) : Correct s (plain i pc) i pc := by
  unfold plain
  cases hf : i.family with
  | shift => exact correct_shift hf
  | arithmetic => exact correct_arithmetic hf
  | countLeading => exact correct_countLeading hf
  | multiplyDivide => exact correct_multiplyDivide hf
  | signExtend => exact correct_signExtend hf
  | bitField => exact correct_bitField hf
  | immediate => exact correct_immediate hf
  | memory => exact correct_access hf
  | sync =>
    intro b h m g x
    refine wp_pure_done x ?_
    rw [Machine.execute, hf]
  | vectorModifier => exact correct_vectorModifier hf
  | vectorBinary => exact correct_vectorBinary hf
  | vectorUnary => exact correct_vectorUnary hf
  | vectorCompare => exact correct_vectorCompare hf
  | elementMemory => exact correct_elementAccess hf
  | quadMemory => exact correct_quadAccess hf
  | vectorMove => exact correct_vectorMove hf
  | unknown => exact correct_interpret ⟨hfam, by rw [hf]; decide⟩
  | branch | branchSign | jump | jumpRegister | syscall | breakpoint | vectorBranch =>
    rw [hf] at hfam
    exact absurd hfam (by decide)

end Lowering

end Dynarec
