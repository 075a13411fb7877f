import Dynarec.Proofs.Lower.Growth
import Dynarec.Proofs.Lower.VectorUnit
import Dynarec.Proofs.Guest.Retire

/-!
# What the parts of a branch do

The condition of a branch, its link and its delay slot are straight code.  The condition that the
compare leaves is the one that the interpreter finds (`wp_compareOperands`), and it is still that
one behind the slot when neither the slot nor the link writes what it reads
(`taken_of_compareAfter`).
-/

namespace Dynarec

namespace Lowering

variable {s : Setting} {i slot : Instr} {pc : UInt32} {b b' : Builder} {h h' : HostState}
  {m g g' : Machine}

/-! ### The link -/

/-- **Writing a return address.** -/
theorem wp_writeLink (x : b.Shadows h m g) {reg : Fin 32}
    {Q : Unit → Builder → HostState → Machine → Prop}
    (hQ : ∀ b' h' core, b'.Shadows h' ⟨core, m.memory⟩ (g.mapCore (·.setGpr reg (pc + 8))) →
      b.Steady b' h h' → h'.flags = h.flags → Q () b' h' ⟨core, m.memory⟩) :
    wp s (writeLink reg pc) Never Q b h m := by
  unfold writeLink
  by_cases hreg : reg = 0
  · rw [if_pos hreg]
    subst hreg
    have hzero : g.mapCore (·.setGpr 0 (pc + 8)) = g := by
      show Machine.mk (g.core.setGpr 0 (pc + 8)) g.memory = g
      rw [Core.setGpr_zero]
    refine wp_pure (hQ b h m.core ?_ (.refl b h) rfl)
    rw [hzero]
    exact x
  · rw [if_neg hreg]
    refine wp_bind (wp_bindGprForWrite x hreg fun a b₁ core₁ hready k => ?_)
    have hlt := holds_lt hready.owns.holds
    refine wp_emit_next trivial rfl (hQ _ _ core₁ (hready.write _) ?_ k.flags)
    exact (k.steady.set (ne_jumpTarget hlt) (ne_downcount hlt) _).emitted _

/-- What the link of a conditional branch is. -/
theorem link_of_conditional (hfam : i.family = .branch ∨ i.family = .branchSign ∨
    i.family = .vectorBranch) (c : Core) :
    c.link i pc = if i.linksOnCondition then c.setGpr 31 (pc + 8) else c := by
  rw [Core.link, Instr.linksOnCondition]
  rcases hfam with hfam | hfam | hfam <;> rw [hfam] <;> rfl

theorem wp_writeBranchLink (x : b.Shadows h m g) (hfam : i.family = .branch ∨
    i.family = .branchSign ∨ i.family = .vectorBranch)
    {Q : Unit → Builder → HostState → Machine → Prop}
    (hQ : ∀ b' h' core, b'.Shadows h' ⟨core, m.memory⟩ (g.linked i pc) →
      b.Steady b' h h' → h'.flags = h.flags → Q () b' h' ⟨core, m.memory⟩) :
    wp s (writeBranchLink i pc) Never Q b h m := by
  have hlink : g.linked i pc =
      if i.linksOnCondition then g.mapCore (·.setGpr 31 (pc + 8)) else g := by
    show Machine.mk (g.core.link i pc) g.memory = _
    rw [link_of_conditional hfam]
    split <;> rfl
  rw [hlink] at hQ
  unfold writeBranchLink
  split
  · rename_i hlinks
    rw [if_pos hlinks] at hQ
    exact wp_writeLink x hQ
  · rename_i hlinks
    rw [if_neg hlinks] at hQ
    exact wp_pure (hQ b h m.core x (.refl b h) rfl)

/-! ### The condition -/

/-- The host holds the condition that the interpreter finds. -/
def Compared (i : Instr) (pc : UInt32) (h : HostState) (g : Machine) (condition : Condition) :
    Prop :=
  h.holds condition = (g.core.branchOutcome i pc).taken

theorem holds_invert (h : HostState) (c : Condition) : h.holds c.invert = !h.holds c := by
  show c.invert.eval h.flags.1 h.flags.2 = !c.eval h.flags.1 h.flags.2
  cases c <;> simp [Condition.invert, Condition.eval, bne, UInt32.not_le, ← decide_not,
    UInt32.not_lt]

/-- Registers that are compared are not written. -/
theorem shadows_flags (x : b.Shadows h m g) (flags : UInt32 × UInt32) :
    b.Shadows { h with flags := flags } m g := x.changeHost (fun _ _ => rfl) (fun _ _ => rfl) rfl

theorem steady_flags (hs : b.Steady b' h h') (flags : UInt32 × UInt32) :
    b.Steady b' h { h' with flags := flags } :=
  ⟨hs.jumpTarget, hs.downcount, hs.savedFlags, hs.progress⟩

/-- What holds behind the compare of a branch. -/
structure AfterCompare (i : Instr) (pc : UInt32) (b : Builder) (h : HostState) (m g : Machine)
    (condition : Condition) (b' : Builder) (h' : HostState) (core : Core) : Prop where
  shadows : b'.Shadows h' ⟨core, m.memory⟩ g
  steady : b.Steady b' h h'
  compared : Compared i pc h' g condition
  current : m.Current g → Machine.Current ⟨core, m.memory⟩ g

theorem compareBranch_taken (hfam : i.family = .branch) :
    (g.core.branchOutcome i pc).taken = match (i.major &&& 3).toNat with
      | 0 => g.core.gpr i.rs == g.core.gpr i.rt
      | 1 => g.core.gpr i.rs != g.core.gpr i.rt
      | 2 => !signedLess 0 (g.core.gpr i.rs)
      | _ => signedLess 0 (g.core.gpr i.rs) := by
  rw [Core.branchOutcome]
  split
  case h_1 => rfl
  case h_5 hother _ _ _ => exact (hother hfam).elim
  all_goals
    rename_i hother
    cases hfam.symm.trans hother

/-- **The compare of a branch.** -/
theorem wp_compareOperands (pc : UInt32) (x : b.Shadows h m g) (hfam : i.family = .branch ∨
    i.family = .branchSign ∨ i.family = .vectorBranch)
    {Q : Condition → Builder → HostState → Machine → Prop}
    (hQ : ∀ c b' h' core, AfterCompare i pc b h m g c b' h' core →
      Q c b' h' ⟨core, m.memory⟩) :
    wp s (compareOperands i) Never Q b h m := by
  have hrest : ∀ (c : Condition) (flags : UInt32 × UInt32) (b₁ : Builder) (h₁ : HostState)
      (core₁ : Core) (space : CodeSpace), b₁.Shadows h₁ ⟨core₁, m.memory⟩ g →
      b.Steady b₁ h h₁ → (m.Current g → Machine.Current ⟨core₁, m.memory⟩ g) →
      c.eval flags.1 flags.2 = (g.core.branchOutcome i pc).taken →
      Q c { b₁ with code := space } { h₁ with flags := flags } ⟨core₁, m.memory⟩ :=
    fun c flags b₁ h₁ core₁ space x₁ hs₁ hcur₁ heval =>
      hQ _ _ _ _ ⟨shadows_flags x₁ flags, (steady_flags hs₁ flags).emitted _, heval, hcur₁⟩
  unfold compareOperands
  split
  · rename_i hbranch
    have htaken : (g.core.branchOutcome i pc).taken = _ := compareBranch_taken hbranch
    refine wp_bind (wp_bindGpr x fun rs b₁ h₁ core₁ x₁ k₁ hrs hcur₁ => ?_)
    have htwo : ∀ (c : Condition), c.eval (g.core.gpr i.rs) (g.core.gpr i.rt) =
        (g.core.branchOutcome i pc).taken → wp s (do
          let rt ← bindGpr i.rt
          emit (.compare rs rt)
          return c) Never Q b₁ h₁ ⟨core₁, m.memory⟩ := fun c heval => by
      refine wp_bind (wp_bindGpr x₁ fun rt b₂ h₂ core₂ x₂ k₂ hrt hcur₂ => ?_)
      refine wp_bind (wp_emit_next trivial rfl (wp_pure ?_))
      refine hrest c _ b₂ h₂ core₂ _ x₂ (k₁.trans k₂).steady (fun hcur => hcur₂ (hcur₁ hcur)) ?_
      rw [x₂.get_of_holds_gpr (k₂.holds hrs), x₂.get_of_holds_gpr hrt]
      exact heval
    have hone : ∀ (c : Condition), c.eval (g.core.gpr i.rs) 0 =
        (g.core.branchOutcome i pc).taken → wp s (do
          emit (.compareImm rs 0)
          return c) Never Q b₁ h₁ ⟨core₁, m.memory⟩ := fun c heval => by
      refine wp_bind (wp_emit_next trivial rfl (wp_pure ?_))
      refine hrest c _ b₁ h₁ core₁ _ x₁ k₁.steady hcur₁ ?_
      rw [x₁.get_of_holds_gpr hrs]
      exact heval
    split
    · rename_i hmajor
      exact htwo .equal (by rw [htaken, hmajor]; rfl)
    · rename_i hmajor
      exact htwo .notEqual (by rw [htaken, hmajor]; rfl)
    · rename_i hmajor
      exact hone .lessEqual (by rw [htaken, hmajor]; rfl)
    · rename_i h0 h1 h2
      refine hone .greater ?_
      rw [htaken]
      split
      · rename_i heq
        exact absurd heq h0
      · rename_i heq
        exact absurd heq h1
      · rename_i heq
        exact absurd heq h2
      · rfl
  · rename_i hsign
    refine wp_bind (wp_bindGpr x fun rs b₁ h₁ core₁ x₁ k₁ hrs hcur₁ => ?_)
    refine wp_bind (wp_emit_next trivial rfl (wp_pure ?_))
    refine hrest _ _ b₁ h₁ core₁ _ x₁ k₁.steady hcur₁ ?_
    rw [x₁.get_of_holds_gpr hrs, Core.branchOutcome, hsign]
    dsimp only
    cases i.bit 16 <;> rfl
  · rename_i hnot hnot'
    have hvector : i.family = .vectorBranch :=
      hfam.elim (fun heq => absurd heq hnot) fun hfam => hfam.elim (fun heq => absurd heq hnot') id
    refine wp_bind (wp_bindReg x fun condition b₁ h₁ core₁ x₁ k₁ hcondition hcur₁ => ?_)
    refine wp_bind (wp_emit_next trivial rfl ?_)
    refine wp_bind (wp_emit_next trivial rfl ?_)
    refine wp_bind (wp_emit_next trivial rfl (wp_pure ?_))
    refine hrest .equal _ b₁ _ core₁ _ (shadows_scratch (shadows_scratch x₁ _) _)
      (steady_scratch (steady_scratch k₁.steady _) _) hcur₁ ?_
    have hmask : i.bits 18 7 &&& 31 = i.bits 18 7 := by
      rw [Instr.bits, UInt32.and_assoc]
      rfl
    have hreg : h₁.get condition = g.core.condition := x₁.get_of_holds hcondition
    rw [HostState.get_set, if_pos rfl, HostState.get_set, if_pos rfl, hreg, Core.branchOutcome,
      hvector]
    show (g.core.condition >>> (i.bits 18 7 &&& 31) &&& 1 == i.bits 16 1) = _
    rw [hmask]

/-! ### The compare behind the slot -/

/-- **The condition depends on the registers that it reads**, and on nothing else. -/
theorem taken_congr (hfam : i.family = .branch ∨ i.family = .branchSign ∨
    i.family = .vectorBranch) (hz : g.core.ZeroKept) (hz' : g'.core.ZeroKept)
    (hreads : ∀ r ∈ i.conditionReads, g'.core.reg r = g.core.reg r) :
    (g'.core.branchOutcome i pc).taken = (g.core.branchOutcome i pc).taken := by
  have hgpr : ∀ n, GuestReg.gpr n ∈ i.conditionReads → g'.core.gpr n = g.core.gpr n :=
    fun n hn => by
      have hr := hreads _ hn
      rwa [Core.reg_gpr hz, Core.reg_gpr hz'] at hr
  rcases hfam with hfam | hfam | hfam
  · rw [compareBranch_taken hfam, compareBranch_taken hfam]
    have hrs : GuestReg.gpr i.rs ∈ i.conditionReads := by
      rw [Instr.conditionReads, hfam]
      dsimp only
      split
      · exact List.mem_cons_self
      · exact List.mem_cons_self
    rw [hgpr _ hrs]
    by_cases htwo : (i.major &&& 2 == 0) = true
    · have hrt : GuestReg.gpr i.rt ∈ i.conditionReads := by
        rw [Instr.conditionReads, hfam]
        dsimp only
        rw [if_pos htwo]
        exact List.mem_cons_of_mem _ List.mem_cons_self
      rw [hgpr _ hrt]
    · have hnat : (i.major &&& 3).toNat ≠ 0 ∧ (i.major &&& 3).toNat ≠ 1 := by
        rw [beq_iff_eq, ← UInt32.toNat_inj, UInt32.toNat_and] at htwo
        rw [UInt32.toNat_and]
        have hbit : i.major.toNat &&& 2 = (i.major.toNat &&& 3) &&& 2 := by
          rw [Nat.and_assoc]
          rfl
        have htwo : ¬ i.major.toNat &&& 2 = 0 := htwo
        constructor
        · intro heq
          have heq : i.major.toNat &&& 3 = 0 := heq
          rw [hbit, heq] at htwo
          exact htwo rfl
        · intro heq
          have heq : i.major.toNat &&& 3 = 1 := heq
          rw [hbit, heq] at htwo
          exact htwo rfl
      split
      · rename_i heq
        exact absurd heq hnat.1
      · rename_i heq
        exact absurd heq hnat.2
      · rfl
      · rfl
  · have hrs := hgpr i.rs (by rw [Instr.conditionReads, hfam]; exact List.mem_cons_self)
    rw [Core.branchOutcome, Core.branchOutcome, hfam]
    dsimp only
    rw [hrs]
  · have hcondition := hreads .condition (by
      rw [Instr.conditionReads, hfam]
      exact List.mem_cons_self)
    have hcondition : g'.core.condition = g.core.condition := hcondition
    rw [Core.branchOutcome, Core.branchOutcome, hfam]
    dsimp only
    rw [hcondition]

/-- **A compare behind the slot finds what a compare in front of the branch finds.** -/
theorem taken_of_compareAfter (hfam : i.family = .branch ∨ i.family = .branchSign ∨
    i.family = .vectorBranch) (hafter : compareBeforeSlot i slot = false) (hz : g.core.ZeroKept)
    (hexec : Machine.execute slot (pc + 4) (g.linked i pc) = .ok .normal g') :
    (g'.core.branchOutcome i pc).taken = (g.core.branchOutcome i pc).taken := by
  rw [compareBeforeSlot, Bool.or_eq_false_iff] at hafter
  have hlinked : (g.linked i pc).core =
      if i.linksOnCondition then g.core.setGpr 31 (pc + 8) else g.core :=
    link_of_conditional hfam g.core
  have hzl : (g.linked i pc).core.ZeroKept := by
    rw [hlinked]
    split
    · exact (Core.gpr_zero_setGpr _ _ _).trans hz
    · exact hz
  refine taken_congr hfam hz ((Machine.gpr_zero_execute hexec).trans hzl) fun r hr => ?_
  have hwrites : slot.usage.writesReg r = false := by
    have hany := hafter.1
    rw [List.any_eq_false] at hany
    exact Bool.eq_false_iff.mpr (hany r hr)
  rw [Machine.reg_execute hwrites hexec, hlinked]
  by_cases hlinks : i.linksOnCondition = true
  · rw [if_pos hlinks]
    have hsign : i.family = .branchSign := by
      rw [Instr.linksOnCondition] at hlinks
      rcases hfam with hfam | hfam | hfam
      · rw [hfam] at hlinks
        cases hlinks
      · exact hfam
      · rw [hfam] at hlinks
        cases hlinks
    have hrs : i.rs ≠ 31 := by
      have hand := hafter.2
      rw [hlinks, Bool.true_and] at hand
      exact of_decide_eq_false hand
    refine Machine.reg_setGpr_of_ne _ (fun heq => ?_) _
    rw [Instr.conditionReads, hsign] at hr
    rw [List.mem_singleton.mp hr] at heq
    injection heq with heq
    exact hrs heq
  · rw [if_neg hlinks]

/-! ### The delay slot -/

/-- What holds behind a delay slot. -/
structure AfterSlot (slot : Instr) (pc : UInt32) (policy : SlotPolicy) (b : Builder)
    (h : HostState) (g : Machine) (b' : Builder) (h' : HostState) (m' g' : Machine) : Prop where
  executed : Machine.execute slot (pc + 4) g = .ok .normal g'
  shadows : b'.Shadows h' m' g'
  jumpTarget : h'.get HostReg.jumpTarget = h.get HostReg.jumpTarget
  downcount : h'.get HostReg.downcount = h.get HostReg.downcount
  progress : b'.progress = b.progress
  flags : policy = .guarded → h'.flags = h.flags
  current : policy ≠ .plain → m'.Current g'

/-- The slot itself, and what is done behind it. -/
theorem wp_slot (hfam : slot.family.isTerminator = false) (x : b.Shadows h m g)
    {f : Unit → Lowering Unit} {Q : Unit → Builder → HostState → Machine → Prop}
    (hf : ∀ u, Straight s (f u))
    (hQ : ∀ b' h' m' g', Machine.execute slot (pc + 4) g = .ok .normal g' → b'.Shadows h' m' g' →
      b.Steady b' h h' → wp s (f ()) (Refused slot (pc + 4) g h) Q b' h' m') :
    wp s (plain slot (pc + 4) >>= fun _ => releaseLocks >>= f) (Refused slot (pc + 4) g h) Q b h m := by
  refine wp_bind_straight (fun _ => straight_bind straight_releaseLocks hf)
    (wp_imp (correct_plain hfam b h m g x) fun u b₁ h₁ m₁ ⟨g', hexec, x₁, hs₁⟩ => ?_)
  refine wp_bind (wp_releaseLocks x₁ fun b₂ x₂ hs₂ _ => ?_)
  exact hQ b₂ h₁ m₁ g' hexec x₂ (hs₁.trans hs₂)

/-- **The code of a delay slot.** -/
theorem wp_slotCode (hfam : slot.family.isTerminator = false) (x : b.Shadows h m g)
    {policy : SlotPolicy} {Q : Unit → Builder → HostState → Machine → Prop}
    (hQ : ∀ b' h' m' g', AfterSlot slot pc policy b h g b' h' m' g' → Q () b' h' m') :
    wp s (slotCode slot pc policy) (Refused slot (pc + 4) g h) Q b h m := by
  unfold slotCode
  cases policy with
  | plain =>
    refine wp_slot hfam x (fun _ => straight_pure _) fun b₁ h₁ m₁ g' hexec x₁ hs₁ => ?_
    exact wp_pure (hQ b₁ h₁ m₁ g' ⟨hexec, x₁, hs₁.jumpTarget, hs₁.downcount, hs₁.progress,
      fun hno => (by cases hno), fun hno => absurd rfl hno⟩)
  | flushed =>
    refine wp_slot hfam x (fun _ => straight_flushAll) fun b₁ h₁ m₁ g' hexec x₁ hs₁ => ?_
    refine wp_of_never (wp_flushAll x₁ fun b₂ core₂ x₂ hcur₂ hs₂ => ?_)
    have hs := hs₁.trans hs₂
    exact hQ b₂ h₁ _ g' ⟨hexec, x₂, hs.jumpTarget, hs.downcount, hs.progress,
      fun hno => (by cases hno), fun _ => hcur₂⟩
  | guarded =>
    refine wp_bind (wp_emit_next trivial rfl ?_)
    have x₀ : Builder.Shadows { b with code := b.code.emit Operation.saveFlags.encode }
        { h with savedFlags := h.flags } m g := x.changeHost (fun _ _ => rfl) (fun _ _ => rfl) rfl
    refine wp_slot hfam x₀ (fun _ => straight_bind (straight_emit trivial) fun _ =>
      straight_flushAll) fun b₁ h₁ m₁ g' hexec x₁ hs₁ => ?_
    refine wp_bind (wp_emit_next trivial rfl ?_)
    have x₂ : Builder.Shadows { b₁ with code := b₁.code.emit Operation.restoreFlags.encode }
        { h₁ with flags := h₁.savedFlags } m₁ g' := shadows_flags x₁ _
    refine wp_of_never (wp_flushAll x₂ fun b₃ core₃ x₃ hcur₃ hs₃ => ?_)
    exact hQ b₃ _ _ g' ⟨hexec, x₃, hs₁.jumpTarget, hs₁.downcount, hs₃.progress.trans hs₁.progress,
      fun _ => hs₁.savedFlags, fun _ => hcur₃⟩

end Lowering

end Dynarec
