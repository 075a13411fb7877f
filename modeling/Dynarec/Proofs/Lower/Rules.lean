import Dynarec.Proofs.Lower.Tame

/-!
# The rules are tame

Every rule for an instruction that does not end a block is a tame step, which takes at most forty
words more than it pays off (`tameRule_plain`).  The bound is reached by two-operand arithmetic on
four lanes: a lane takes up to three words for each operand and one for the result, and up to three
to write it through the destination modifier.
-/

namespace Dynarec

namespace Lowering

variable {Γ M : Set HostCell} {k : Nat}

/-- **A rule that is tame whatever is known in front of it.** -/
def TameRule {α : Type} (act : Lowering α) : Prop := Tame ∅ ∅ act 40 fun _ => ∅

theorem tameRule_pure : TameRule (pure ()) := (tame_pure ()).last (by decide)

theorem tameRule_ite {c : Prop} [Decidable c] {x y : Lowering Unit} (hx : TameRule x)
    (hy : TameRule y) : TameRule (if c then x else y) := tame_ite hx hy

/-- A last operation that sets one register. -/
theorem tame_setLast {op : Operation} {x : HostCell} (hop : op.Inline) (hwrites : op.writes = {x})
    (hne : ∀ n, op ≠ .subDowncount n) (hx : x ≠ .reg HostReg.downcount) (hreads : op.reads ⊆ Γ)
    (hM : M ⊆ {x}) (hk : 1 ≤ k) : Tame Γ M (emit op) k fun _ => ∅ :=
  (tame_set hop hwrites hne hx hreads hM).last hk

/-- A last operation that sets nothing. -/
theorem tame_effectLast {op : Operation} (hop : op.Inline) (hwrites : op.writes = ∅)
    (hne : ∀ n, op ≠ .subDowncount n) (hreads : op.reads ⊆ Γ) (hk : 1 ≤ k) :
    Tame Γ ∅ (emit op) k fun _ => ∅ := (tame_effect hop hwrites hne hreads).last hk

/-! ### Scalar instructions -/

/-- **The fallback to the interpreter.** -/
theorem tame_interpret (i : Instr) (pc : UInt32) : Tame ∅ ∅ (interpret i pc) 5 fun _ => ∅ := by
  unfold interpret
  refine tame_then tame_flushAll (by decide) fun _ => tame_then tame_discardAll (by decide) fun _ => ?_
  refine tame_then (tame_set trivial rfl nofun nofun (Set.empty_subset _) (Set.empty_subset _))
    (by decide) fun _ => ?_
  refine tame_then (tame_set trivial rfl nofun nofun (reads_one (by simp)) (Set.empty_subset _))
    (by decide) fun _ => ?_
  exact Tame.last (tame_ite (tame_updateModifiers _)
    (tame_ite (tame_updateModifiers _) (tame_pure _))) (by decide)

theorem tameRule_interpret (i : Instr) (pc : UInt32) : TameRule (interpret i pc) :=
  (tame_interpret i pc).last (by decide)

theorem tameRule_shift (i : Instr) : TameRule (shift i) := by
  unfold shift
  refine tameRule_ite tameRule_pure (tame_use (handsOut_bindReg _) (by decide) fun rt _ => ?_)
  refine tame_ite (tame_use (handsOut_bindReg _) (by decide) fun rs _ => ?_) ?_
  · refine tame_use (handsOut_bindForWrite _) (by decide) fun rd hrd => ?_
    exact tame_setLast trivial rfl nofun (ne_downcount_of_lt hrd) (reads_two (by simp)
      (by simp)) subset_rfl (by decide)
  · refine tame_use (handsOut_bindForWrite _) (by decide) fun rd hrd => ?_
    exact tame_setLast trivial rfl nofun (ne_downcount_of_lt hrd) (reads_one (by simp)) subset_rfl
      (by decide)

theorem tameRule_conditionalMove (i : Instr) (condition : Condition) :
    TameRule (conditionalMove i condition) := by
  unfold conditionalMove
  refine tameRule_ite tameRule_pure (tame_use (handsOut_bindReg _) (by decide) fun rs _ => ?_)
  refine tame_use (handsOut_bindReg _) (by decide) fun rt _ => ?_
  refine tame_use (handsOut_bindReg _) (by decide) fun rd hrd => ?_
  refine tame_then (tame_set trivial rfl nofun nofun (reads_one (by simp)) (Set.empty_subset _))
    (by decide) fun _ => ?_
  refine tame_then (tame_set trivial rfl nofun (ne_downcount_of_lt hrd)
    (reads_three (by simp) (by simp) (by simp)) (Set.empty_subset _)) (by decide) fun _ => ?_
  exact (tame_markDirty _).last (by decide)

theorem tameRule_binary (i : Instr) (op : AluOp) : TameRule (binary i op) := by
  unfold binary
  refine tameRule_ite tameRule_pure (tame_ite ?_ ?_)
  · refine tame_use (handsOut_bindForWrite _) (by decide) fun rd hrd => ?_
    exact tame_setLast trivial rfl nofun (ne_downcount_of_lt hrd) (Set.empty_subset _) subset_rfl
      (by decide)
  · refine tame_use (handsOut_bindReg _) (by decide) fun rs _ => ?_
    refine tame_use (handsOut_bindReg _) (by decide) fun rt _ => ?_
    refine tame_use (handsOut_bindForWrite _) (by decide) fun rd hrd => ?_
    exact tame_setLast trivial rfl nofun (ne_downcount_of_lt hrd) (reads_two (by simp)
      (by simp)) subset_rfl
      (by decide)

theorem tameRule_arithmetic (i : Instr) (pc : UInt32) : TameRule (arithmetic i pc) := by
  unfold arithmetic
  split
  · exact tameRule_conditionalMove i _
  · exact tameRule_conditionalMove i _
  · split
    · exact tameRule_binary i _
    · exact tameRule_interpret i pc

theorem tameRule_unary (op : UnaryOp) (destination source : Fin 32) :
    TameRule (unary op destination source) := by
  unfold unary
  refine tameRule_ite tameRule_pure (tame_use (handsOut_bindReg _) (by decide) fun rs _ => ?_)
  refine tame_use (handsOut_bindForWrite _) (by decide) fun rd hrd => ?_
  exact tame_setLast trivial rfl nofun (ne_downcount_of_lt hrd) (reads_one (by simp)) subset_rfl
    (by decide)

theorem tameRule_bitField (i : Instr) : TameRule (bitField i) := by
  unfold bitField
  refine tameRule_ite tameRule_pure (tame_use (handsOut_bindReg _) (by decide) fun rs _ => ?_)
  refine tame_ite (tame_use (handsOut_bindForWrite _) (by decide) fun rt hrt => ?_)
    (tame_use (handsOut_bindReg _) (by decide) fun rt hrt => ?_)
  · refine tame_then (tame_set trivial rfl nofun (ne_downcount_of_lt hrt) (reads_one (by simp))
      subset_rfl) (by decide) fun _ => ?_
    exact tame_setLast trivial rfl nofun (ne_downcount_of_lt hrt) (reads_one (by simp))
      (Set.empty_subset _) (by decide)
  · refine tame_then (tame_set trivial rfl nofun (by decide) (reads_one (by simp)) (Set.empty_subset _))
      (by decide) fun _ => ?_
    refine tame_then (tame_set trivial rfl nofun (by decide) (reads_one (by simp)) (Set.empty_subset _))
      (by decide) fun _ => ?_
    refine tame_then (tame_set trivial rfl nofun (ne_downcount_of_lt hrt) (reads_one (by simp))
      (Set.empty_subset _)) (by decide) fun _ => ?_
    refine tame_then (tame_set trivial rfl nofun (ne_downcount_of_lt hrt)
      (reads_two (by simp) (by simp)) (Set.empty_subset _)) (by decide) fun _ => ?_
    exact (tame_markDirty _).last (by decide)

theorem tameRule_immediate (i : Instr) : TameRule (immediate i) := by
  unfold immediate
  refine tameRule_ite tameRule_pure ?_
  split
  · refine tame_use (handsOut_bindForWrite _) (by decide) fun rt hrt => ?_
    exact tame_setLast trivial rfl nofun (ne_downcount_of_lt hrt) (Set.empty_subset _) subset_rfl
      (by decide)
  · refine tame_ite ?_ (tame_use (handsOut_bindReg _) (by decide) fun rs _ => ?_)
    · refine tame_use (handsOut_bindForWrite _) (by decide) fun rt hrt => ?_
      exact tame_setLast trivial rfl nofun (ne_downcount_of_lt hrt) (Set.empty_subset _)
        subset_rfl (by decide)
    · refine tame_use (handsOut_bindForWrite _) (by decide) fun rt hrt => ?_
      exact tame_setLast trivial rfl nofun (ne_downcount_of_lt hrt) (reads_one (by simp))
        subset_rfl (by decide)

theorem tameRule_moveFromProduct (half : GuestReg) (destination : Fin 32) :
    TameRule (moveFromProduct half destination) := by
  unfold moveFromProduct
  refine tameRule_ite tameRule_pure (tame_use (handsOut_bindReg _) (by decide) fun rs _ => ?_)
  refine tame_use (handsOut_bindForWrite _) (by decide) fun rd hrd => ?_
  exact (tame_move hrd (by simp) subset_rfl).last (by decide)

theorem tameRule_moveToProduct (half : GuestReg) (source : Fin 32) :
    TameRule (moveToProduct half source) := by
  unfold moveToProduct
  refine tame_use (handsOut_bindReg _) (by decide) fun rs _ => ?_
  refine tame_use (handsOut_bindForWrite _) (by decide) fun rd hrd => ?_
  exact (tame_move hrd (by simp) subset_rfl).last (by decide)

/-- A product reads the old pair only when it is added to it. -/
theorem works_multiply {kind : MulKind} {rs rt hi lo : HostReg} (hhi : hi.val < 13)
    (hlo : lo.val < 13) (hreads : (Operation.multiply kind rs rt hi lo).reads ⊆ Γ)
    (hM : M ⊆ {.reg hi, .reg lo}) : Works (.multiply kind rs rt hi lo) Γ M := by
  refine ⟨trivial, ⟨?_, nofun⟩, hreads, hM⟩
  rintro (heq | heq)
  · exact ne_downcount_of_lt hhi heq.symm
  · exact ne_downcount_of_lt hlo heq.symm

theorem tameRule_product (i : Instr) {kind : MulKind} {accumulates : Bool}
    (hkind : kind.accumulates = accumulates) : TameRule (product i kind accumulates) := by
  unfold product
  refine tame_use (handsOut_bindReg _) (by decide) fun rs _ => ?_
  refine tame_use (handsOut_bindReg _) (by decide) fun rt _ => ?_
  cases accumulates with
  | true =>
    refine tame_use (handsOut_bindReg _) (by decide) fun hi hhi => ?_
    refine tame_use (handsOut_bindReg _) (by decide) fun lo hlo => ?_
    refine tame_then (tame_emit (works_multiply hhi hlo ?_ (Set.empty_subset _))) (by decide)
      fun _ => tame_then (tame_markDirty _) (by decide) fun _ => ?_
    · rw [Operation.reads_multiply, if_pos hkind]
      exact Set.insert_subset (by simp) (reads_three (by simp) (by simp) (by simp))
    · exact (tame_markDirty _).last (by decide)
  | false =>
    have hworks : ∀ p : HostReg × HostReg, p.1.val < 13 ∧ p.2.val < 13 →
        Works (.multiply kind rs rt p.1 p.2) (∅ ∪ ({.reg rt} ∪ ({.reg rs} ∪ ∅)))
          {.reg p.1, .reg p.2} := fun p hp => by
      refine works_multiply hp.1 hp.2 ?_ subset_rfl
      rw [Operation.reads_multiply, hkind, if_neg (by decide)]
      exact reads_two (by simp) (by simp)
    have hpair := tame_use (Γ := {.reg rt} ∪ ({.reg rs} ∪ ∅)) (k := 40 - 1 - 1)
      (handsOut_bindPair .hi .lo) (by decide) fun p hp => Tame.last (k := 40 - 1 - 1 - 2)
        (tame_emit (hworks p hp)) (by decide)
    simp only [bind_assoc, pure_bind] at hpair
    exact hpair

theorem tameRule_multiplyDivide (i : Instr) (pc : UInt32) : TameRule (multiplyDivide i pc) := by
  unfold multiplyDivide
  split
  · exact tameRule_moveFromProduct _ _
  · exact tameRule_moveToProduct _ _
  · exact tameRule_moveFromProduct _ _
  · exact tameRule_moveToProduct _ _
  · split
    · rename_i kind accumulates hproduct
      refine tameRule_product i ?_
      rw [Instr.product?] at hproduct
      split at hproduct
      all_goals first
        | (cases hproduct; rfl)
        | cases hproduct
    · exact tameRule_interpret i pc

theorem tameRule_access (i : Instr) : TameRule (access i) := by
  unfold access
  refine tameRule_ite (tameRule_ite tameRule_pure ?_) ?_
  · refine tame_use (handsOut_bindReg _) (by decide) fun base _ => ?_
    refine tame_use (handsOut_bindForWrite _) (by decide) fun rt hrt => ?_
    exact tame_setLast trivial rfl nofun (ne_downcount_of_lt hrt) (reads_one (by simp)) subset_rfl
      (by decide)
  · refine tame_use (handsOut_bindReg _) (by decide) fun rt _ => ?_
    refine tame_use (handsOut_bindReg _) (by decide) fun base _ => ?_
    exact tame_effectLast trivial rfl nofun (reads_two (by simp) (by simp)) (by decide)

/-! ### Vector instructions -/

theorem tame_constantTemporary (value : Single) :
    Tame Γ ∅ (constantTemporary value) 1 fun a => {.floatReg a} ∪ Γ := by
  unfold constantTemporary
  refine tame_then tame_temporary (by decide) fun t => ?_
  refine tame_then (tame_set trivial rfl nofun nofun (Set.empty_subset _) (Set.empty_subset _))
    (by decide) fun _ => tame_return subset_rfl

theorem tame_modifySign (m : LaneModifier) {fs : FloatReg} (hfs : .floatReg fs ∈ Γ) :
    Tame Γ ∅ (modifySign m fs) 2 fun a => {.floatReg a} ∪ Γ := by
  unfold modifySign
  refine tame_ite (tame_then tame_temporary (by decide) fun t => ?_)
    (tame_ite (tame_then tame_temporary (by decide) fun t => ?_) ?_)
  · refine tame_then (tame_set trivial rfl nofun nofun (reads_one hfs)
      (Set.empty_subset _)) (by decide) fun _ => tame_ite ?_ ?_
    · refine tame_then (tame_set trivial rfl nofun nofun (reads_one (by simp)) (Set.empty_subset _))
        (by decide) fun _ => HandsOut.mono (tame_return ?_) (by decide) fun _ => subset_rfl
      simp
    · exact HandsOut.mono (tame_return subset_rfl) (by decide) fun _ => subset_rfl
  · refine tame_then (tame_set trivial rfl nofun nofun (reads_one hfs)
      (Set.empty_subset _)) (by decide) fun _ => ?_
    exact HandsOut.mono (tame_return subset_rfl) (by decide) fun _ => subset_rfl
  · refine HandsOut.mono (tame_return ?_) (by decide) fun _ => subset_rfl
    exact Set.union_subset (reads_one hfs) subset_rfl

theorem tame_readLane (elements : List Element) (modifier : UInt32) (lane : Nat) :
    Tame Γ ∅ (readLane elements modifier lane) 3 fun a => {.floatReg a} ∪ Γ := by
  unfold readLane
  have hconstant : ∀ value, Tame Γ ∅ (constantTemporary value) 3 fun a => {.floatReg a} ∪ Γ :=
    fun value => (tame_constantTemporary value).mono (by decide) fun _ => subset_rfl
  refine tame_ite (hconstant _) ?_
  split
  · exact hconstant _
  · refine tame_use (handsOut_readElement _) (by decide) fun fs _ => ?_
    refine (tame_modifySign _ (by simp)).mono (by decide) fun a => ?_
    exact Set.union_subset_union_right _ Set.subset_union_right

theorem tame_clampResult (clamp : Clamp) {fs : FloatReg} (hfs : .floatReg fs ∈ Γ) :
    Tame Γ ∅ (clampResult clamp fs) 1 fun _ => Γ := by
  have hclamp : ∀ op, Tame Γ ∅ (emit (.floatUnary op fs fs)) 1 fun _ => Γ := fun op => by
    have hset := tame_emit (M := ∅) (works_of_writes trivial rfl nofun nofun
      (reads_one hfs) (Set.empty_subset _) : Works (.floatUnary op fs fs) Γ ∅)
    exact hset.mono le_rfl fun _ => Set.subset_union_right
  cases clamp with
  | none => exact (tame_pure _).mono (by decide) fun _ => subset_rfl
  | unit => exact hclamp _
  | signed => exact hclamp _

theorem tame_writeLanes (modifier : UInt32) (lane : Nat) (es : List Element) (fs : List FloatReg)
    (hfs : ∀ f ∈ fs, .floatReg f ∈ Γ) :
    Tame Γ ∅ (writeLanes modifier lane es fs) (3 * es.length) fun _ => ∅ := by
  induction es generalizing Γ lane fs with
  | nil => exact (tame_pure _).last (Nat.zero_le _)
  | cons e es ih =>
    cases fs with
    | nil => exact (tame_pure _).last (Nat.zero_le _)
    | cons f fs =>
      rw [writeLanes, List.length_cons]
      have hf := hfs f List.mem_cons_self
      have hrest : ∀ g ∈ fs, .floatReg g ∈ Γ := fun g hg => hfs g (List.mem_cons_of_mem _ hg)
      refine tame_ite (HandsOut.mono (ih (lane + 1) fs hrest) (by omega) fun _ => subset_rfl) ?_
      refine tame_then (tame_clampResult _ hf) (by omega) fun _ => ?_
      refine tame_use (handsOut_writeElement _) (by omega) fun fd _ => ?_
      refine tame_then (tame_moveFloat (.inr hf) subset_rfl) (by omega) fun _ => ?_
      exact HandsOut.mono (ih (lane + 1) fs fun g hg => .inr (.inr (hrest g hg))) (by omega)
        fun _ => subset_rfl

theorem tame_usesQuads (i : Instr) (regs : List UInt8) : Tame Γ ∅ (usesQuads i regs) 0 fun _ => Γ :=
  tame_inspect (f := fun t => pure (i.vectorSize = .quad && t.hasNoModifier && allQuadsAgree regs))
    fun _ => tame_pure _

theorem length_lanes_le (size : VectorSize) : (List.range size.lanes).length ≤ 4 := by
  cases size <;> decide

theorem length_elements_le (size : VectorSize) (reg : UInt8) : (size.elements reg).length ≤ 4 := by
  rw [VectorSize.elements, List.length_map]
  exact length_lanes_le size

/-- A last change of what is known about modifiers. -/
theorem tame_updateLast (f : ModifierTracker → ModifierTracker) :
    Tame Γ ∅ (updateModifiers f) k fun _ => ∅ := (tame_updateModifiers f).last (Nat.zero_le k)

/-- **All lanes of an instruction**, and their results. -/
theorem tame_lanes {f : Nat → Lowering FloatReg} {n : Nat} (size : VectorSize) (modifier : UInt32)
    (vd : UInt8) (g : ModifierTracker → ModifierTracker)
    (hf : ∀ lane Γ, Tame Γ ∅ (f lane) n fun a => {.floatReg a} ∪ Γ) (hn : n ≤ 7) :
    Tame Γ ∅ (do
      let results ← (List.range size.lanes).mapM f
      writeLanes modifier 0 (size.elements vd) results
      updateModifiers g) 40 fun _ => ∅ := by
  have hlanes := length_lanes_le size
  have hvd := length_elements_le size vd
  have hall : n * (List.range size.lanes).length ≤ 28 := Nat.mul_le_mul hn hlanes
  refine tame_then ((tame_mapM (fun lane Γ _ => hf lane Γ) _).mono hall fun _ => subset_rfl)
    (by decide) fun results => ?_
  refine tame_then (tame_writeLanes modifier 0 _ results fun f hf => .inl ⟨f, hf, rfl⟩) (by omega)
    fun _ => tame_updateLast g

theorem tame_binaryLane (op : FloatOp) (known : ModifierTracker.Known) (es et : List Element)
    (lane : Nat) : Tame Γ ∅ (binaryLane op known es et lane) 7 fun a => {.floatReg a} ∪ Γ := by
  unfold binaryLane
  refine tame_then (tame_readLane _ _ _) (by decide) fun fs => ?_
  refine tame_then (tame_readLane _ _ _) (by decide) fun ft => ?_
  refine tame_then tame_temporary (by decide) fun fd => ?_
  refine tame_then (tame_set trivial rfl nofun nofun (reads_two (by simp) (by simp))
    (Set.empty_subset _)) (by decide) fun _ => tame_return ?_
  exact Set.union_subset_union_right _ (Set.subset_union_right.trans Set.subset_union_right)

theorem tameRule_vectorBinary (i : Instr) (pc : UInt32) : TameRule (vectorBinary i pc) := by
  refine tame_known (tameRule_interpret i pc) fun known => ?_
  refine tame_then (tame_usesQuads i _) (by decide) fun quads => tame_ite ?_ ?_
  · refine tame_use (handsOut_readQuad _) (by decide) fun qs _ => ?_
    refine tame_use (handsOut_readQuad _) (by decide) fun qt _ => ?_
    refine tame_use (handsOut_writeQuad _) (by decide) fun qd _ => ?_
    exact tame_then (tame_set trivial rfl (by simp) (by simp) (reads_two (by simp) (by simp))
      subset_rfl) (by decide) fun _ => tame_updateLast _
  · exact tame_lanes _ _ _ _ (fun lane Γ => tame_binaryLane _ _ _ _ lane) (by decide)

theorem tame_unaryLane (f : LaneFunction) (known : ModifierTracker.Known) (es : List Element)
    (lane : Nat) : Tame Γ ∅ (unaryLane f known es lane) 4 fun a => {.floatReg a} ∪ Γ := by
  unfold unaryLane
  refine tame_then tame_temporary (by decide) fun fd => ?_
  cases f with
  | constant value =>
    refine tame_then (tame_set trivial rfl nofun nofun (Set.empty_subset _) (Set.empty_subset _))
      (by decide) fun _ => ?_
    exact HandsOut.mono (tame_return subset_rfl) (by decide) fun _ => subset_rfl
  | copy =>
    refine tame_then (tame_readLane _ _ _) (by decide) fun fs => ?_
    refine tame_then (tame_moveFloat (by simp) (Set.empty_subset _)) (by decide) fun _ => ?_
    exact tame_return (Set.union_subset_union_right _ Set.subset_union_right)
  | unary op =>
    refine tame_then (tame_readLane _ _ _) (by decide) fun fs => ?_
    refine tame_then (tame_set trivial rfl nofun nofun (reads_one (by simp)) (Set.empty_subset _))
      (by decide) fun _ => ?_
    exact tame_return (Set.union_subset_union_right _ Set.subset_union_right)

theorem tameRule_vectorUnary (i : Instr) (pc : UInt32) : TameRule (vectorUnary i pc) := by
  refine tame_known (tameRule_interpret i pc) fun known => ?_
  refine tame_then (tame_usesQuads i _) (by decide) fun quads => ?_
  split
  · refine tame_use (handsOut_readQuad _) (by decide) fun qs _ => ?_
    refine tame_use (handsOut_writeQuad _) (by decide) fun qd _ => ?_
    exact tame_then (tame_set trivial rfl (by simp) (by simp) (reads_one (by simp)) subset_rfl)
      (by decide) fun _ => tame_updateLast _
  · refine tame_use (handsOut_writeQuad _) (by decide) fun qd _ => ?_
    exact tame_then (tame_set trivial rfl (by simp) (by simp) (Set.empty_subset _) subset_rfl)
      (by decide) fun _ => tame_updateLast _
  · have hlanes := tame_lanes (Γ := ∅) i.vectorSize known.destination i.vd (·.consume)
      (fun lane Γ => tame_unaryLane i.laneFunction known (i.vectorSize.elements i.vs) lane)
      (by decide)
    simpa only [unaryLanes, bind_assoc] using hlanes

theorem tame_compareLane (i : Instr) (known : ModifierTracker.Known) (lane : Nat)
    (hscratch : .reg HostReg.scratch ∈ Γ) :
    Tame Γ ∅ (compareLane i known lane) 7 fun _ => Γ := by
  unfold compareLane
  refine tame_then (tame_readLane _ _ _) (by decide) fun fs => ?_
  refine tame_then (tame_readLane _ _ _) (by decide) fun ft => ?_
  have hset := tame_emit (Γ := {.floatReg ft} ∪ ({.floatReg fs} ∪ Γ)) (M := ∅)
    (works_of_writes trivial rfl nofun (by decide) (reads_three (by simp [hscratch]) (by simp)
      (by simp)) (Set.empty_subset _) : Works (.floatCompare (Fin.ofNat 16 i.word.toNat)
        (Fin.ofNat 16 lane) HostReg.scratch fs ft) _ _)
  exact hset.mono (by decide) fun _ =>
    Set.subset_union_right.trans (Set.subset_union_right.trans Set.subset_union_right)

theorem tameRule_vectorCompare (i : Instr) (pc : UInt32) : TameRule (vectorCompare i pc) := by
  refine tame_known (tameRule_interpret i pc) fun known => ?_
  have hlanes := Nat.mul_le_mul_left 7 (length_lanes_le i.vectorSize)
  refine tame_then (tame_set trivial rfl (by simp) (by decide) (Set.empty_subset _)
    (Set.empty_subset _)) (by decide) fun _ => ?_
  refine tame_then ((tame_forM (fun lane => tame_compareLane i known lane (by simp)) _).mono hlanes
    fun _ => subset_rfl) (by decide) fun _ => ?_
  refine tame_use (handsOut_bindReg _) (by decide) fun condition hcondition => ?_
  refine tame_then (tame_set trivial rfl (by simp) (ne_downcount_of_lt hcondition)
    (reads_two (by simp) (by simp)) (Set.empty_subset _)) (by decide) fun _ => ?_
  exact tame_then (tame_markDirty _) (by decide) fun _ => tame_updateLast _

theorem tameRule_elementAccess (i : Instr) : TameRule (elementAccess i) := by
  unfold elementAccess
  refine tame_use (handsOut_bindReg _) (by decide) fun base _ => tame_ite ?_ ?_
  · refine tame_use (handsOut_writeElement _) (by decide) fun fd _ => ?_
    exact tame_setLast trivial rfl nofun nofun (reads_one (by simp)) subset_rfl (by decide)
  · refine tame_use (handsOut_readElement _) (by decide) fun fs _ => ?_
    exact tame_effectLast trivial rfl nofun (reads_two (by simp) (by simp)) (by decide)

theorem tameRule_quadAccess (i : Instr) : TameRule (quadAccess i) := by
  unfold quadAccess
  refine tame_use (handsOut_bindReg _) (by decide) fun base _ => tame_ite ?_ ?_
  · refine tame_use (handsOut_writeQuad _) (by decide) fun qd _ => ?_
    exact tame_setLast trivial rfl nofun nofun (reads_one (by simp)) subset_rfl (by decide)
  · refine tame_use (handsOut_readQuad _) (by decide) fun qs _ => ?_
    exact tame_effectLast trivial rfl nofun (reads_two (by simp) (by simp)) (by decide)

theorem tameRule_moveElement (i : Instr) : TameRule (moveElement i) := by
  unfold moveElement
  refine tameRule_ite ?_ (tameRule_ite ?_ tameRule_pure)
  · refine tame_use (handsOut_bindReg _) (by decide) fun rs _ => ?_
    refine tame_use (handsOut_writeElement _) (by decide) fun fd _ => ?_
    exact tame_setLast trivial rfl nofun nofun (reads_one (by simp)) subset_rfl (by decide)
  · refine tame_use (handsOut_readElement _) (by decide) fun fs _ => ?_
    refine tame_use (handsOut_bindForWrite _) (by decide) fun rd hrd => ?_
    exact tame_setLast trivial rfl nofun (ne_downcount_of_lt hrd) (reads_one (by simp)) subset_rfl
      (by decide)

theorem tameRule_moveCondition (i : Instr) : TameRule (moveCondition i) := by
  unfold moveCondition
  refine tameRule_ite ?_ (tameRule_ite ?_ tameRule_pure)
  all_goals
    refine tame_use (handsOut_bindReg _) (by decide) fun rs _ => ?_
    refine tame_use (handsOut_bindForWrite _) (by decide) fun rd hrd => ?_
    exact (tame_move hrd (by simp) subset_rfl).last (by decide)

theorem tameRule_moveControl (i : Instr) : TameRule (moveControl i) := by
  unfold moveControl
  refine tameRule_ite ?_ (tameRule_ite ?_ tameRule_pure)
  · refine tame_use (handsOut_bindReg _) (by decide) fun rs _ => ?_
    refine tame_then (tame_effect trivial rfl nofun (reads_one (by simp))) (by decide) fun _ => ?_
    split
    · exact tame_updateLast _
    · exact (tame_pure _).last (by decide)
  · have hload : ∀ {k}, 2 ≤ k → Tame ∅ ∅ (do
        let rd ← bindGprForWrite i.rt
        emit (.loadControl rd (UInt8.ofNat i.moveControl.val))) k fun _ => ∅ := fun {k} hk => by
      refine tame_use (handsOut_bindForWrite _) (by omega) fun rd hrd => ?_
      exact tame_setLast trivial rfl nofun (ne_downcount_of_lt hrd) (Set.empty_subset _)
        subset_rfl (by omega)
    exact tame_ite (tame_then tame_flushModifiers (by decide) fun _ => hload (by decide))
      (hload (by decide))

theorem tameRule_vectorMove (i : Instr) (pc : UInt32) : TameRule (vectorMove i pc) := by
  unfold vectorMove
  exact tameRule_ite (tameRule_moveElement i) (tameRule_ite (tameRule_interpret i pc)
    (tameRule_ite (tameRule_moveCondition i) (tameRule_moveControl i)))

/-- **The lowering of an instruction that does not end a block is tame.** -/
theorem tameRule_plain (i : Instr) (pc : UInt32) : TameRule (plain i pc) := by
  unfold plain
  split
  · exact tameRule_shift i
  · exact tameRule_arithmetic i pc
  · exact tameRule_unary _ _ _
  · exact tameRule_multiplyDivide i pc
  · exact tameRule_unary _ _ _
  · exact tameRule_bitField i
  · exact tameRule_immediate i
  · exact tameRule_access i
  · exact tameRule_pure
  · exact tame_updateLast _
  · exact tameRule_vectorBinary i pc
  · exact tameRule_vectorUnary i pc
  · exact tameRule_vectorCompare i pc
  · exact tameRule_elementAccess i
  · exact tameRule_quadAccess i
  · exact tameRule_vectorMove i pc
  all_goals exact tameRule_interpret i pc

/-! ### Parts of branches -/

/-- Words that a branch takes to compare its operands. -/
def compareWords (i : Instr) : Nat := if i.family = .branchSign then 2 else 4

/-- Words that a conditional branch takes to write its link. -/
def linkWords (i : Instr) : Nat := if i.family = .branchSign then 2 else 0

/-- **Comparing and linking together take four words**: only a comparison with zero links. -/
theorem compareWords_add_linkWords (i : Instr) : compareWords i + linkWords i = 4 := by
  unfold compareWords linkWords
  split <;> rfl

theorem tame_compareReg {condition : Condition} {v : UInt32} {rs : HostReg} (hrs : .reg rs ∈ Γ)
    (hk : 1 ≤ k) : Tame Γ ∅ (do
      emit (.compareImm rs v)
      return condition) k fun _ => {.flags} := by
  refine tame_then (tame_set trivial rfl nofun nofun (reads_one hrs) (Set.empty_subset _)) hk
    fun _ => HandsOut.mono (tame_return Set.subset_union_left) (Nat.zero_le _) fun _ => subset_rfl

/-- **Comparing leaves the compared words in place.** -/
theorem tame_compareOperands (i : Instr) :
    Tame ∅ ∅ (compareOperands i) (compareWords i) fun _ => {.flags} := by
  have htwo : ∀ (rs : HostReg) (condition : Condition), Tame ({.reg rs} ∪ ∅) ∅ (do
      emit (.compare rs (← bindGpr i.rt))
      return condition) (4 - 1) fun _ => {.flags} := fun rs condition => by
    refine tame_use (handsOut_bindReg _) (by decide) fun rt _ => ?_
    refine tame_then (tame_set trivial rfl nofun nofun (reads_two (by simp) (by simp))
      (Set.empty_subset _)) (by decide) fun _ => ?_
    exact HandsOut.mono (tame_return Set.subset_union_left) (by decide) fun _ => subset_rfl
  unfold compareOperands compareWords
  split
  · rename_i hfamily
    rw [if_neg (by rw [hfamily]; decide)]
    refine tame_use (handsOut_bindReg _) (by decide) fun rs _ => ?_
    split
    · exact htwo rs _
    · exact htwo rs _
    · exact tame_compareReg (by simp) (by decide)
    · exact tame_compareReg (by simp) (by decide)
  · rename_i hfamily
    rw [if_pos hfamily]
    refine tame_use (handsOut_bindReg _) (by decide) fun rs _ => ?_
    exact tame_compareReg (by simp) (by decide)
  · rename_i hfamily
    rw [if_neg hfamily]
    refine tame_use (handsOut_bindReg _) (by decide) fun condition _ => ?_
    refine tame_then (tame_set trivial rfl nofun (by decide) (reads_one (by simp))
      (Set.empty_subset _)) (by decide) fun _ => ?_
    refine tame_then (tame_set trivial rfl nofun (by decide) (reads_one (by simp))
      (Set.empty_subset _)) (by decide) fun _ => ?_
    exact tame_compareReg (by simp) (by decide)

theorem tame_writeLink (reg : Fin 32) (pc : UInt32) :
    Tame ∅ ∅ (writeLink reg pc) 2 fun _ => ∅ := by
  unfold writeLink
  refine tame_ite ((tame_pure _).last (by decide)) ?_
  refine tame_use (handsOut_bindForWrite _) (by decide) fun rd hrd => ?_
  exact tame_setLast trivial rfl nofun (ne_downcount_of_lt hrd) (Set.empty_subset _) subset_rfl
    (by decide)

theorem tame_writeBranchLink (i : Instr) (pc : UInt32) :
    Tame ∅ ∅ (writeBranchLink i pc) (linkWords i) fun _ => ∅ := by
  unfold writeBranchLink linkWords
  by_cases hfamily : i.family = .branchSign
  · rw [if_pos hfamily]
    exact tame_ite (tame_writeLink 31 pc) ((tame_pure _).last (by decide))
  · have hlinks : i.linksOnCondition = false := by
      rw [Instr.linksOnCondition]
      split
      · rename_i heq
        exact absurd heq hfamily
      · rfl
    rw [if_neg hfamily, hlinks]
    exact (tame_pure _).last (by decide)

end Lowering

end Dynarec
