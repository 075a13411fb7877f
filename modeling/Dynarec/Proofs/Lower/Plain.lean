import Dynarec.Proofs.Lower.Straight

/-!
# When the lowering of an instruction is correct

`Correct s act i pc` says that the code of `act` does to the machine that it stands for what the
interpreter does for the instruction `i` at `pc`: it ends where the instruction ends, and stops with
a fault or a broken promise where the instruction does.  The fallback to the interpreter is correct
for every instruction that does not end a block.
-/

namespace Dynarec

namespace Lowering

variable {s : Setting} {i : Instr} {pc : UInt32} {b b' : Builder} {h h' : HostState}
  {m m' g : Machine}

/-- **The instruction has no effect**, for the reason that the code stops with.  Where it is a fault
the machine is the one in front of the instruction, and nothing was charged to the host. -/
def Refused (i : Instr) (pc : UInt32) (g : Machine) (h : HostState) (outcome : Outcome) : Prop :=
  (∃ t g' h', Machine.execute i pc g = .error (.trap t) g' ∧
      h'.get HostReg.downcount = h.get HostReg.downcount ∧
      outcome = .exit (.fault t) h' (g.reframe { g.core.frame with pc := pc })) ∨
    ∃ v g', Machine.execute i pc g = .error (.violation v) g' ∧ outcome = .broken v

/-- The instruction has its effect, and the code stands for the machine after it. -/
def Done (i : Instr) (pc : UInt32) (g : Machine) (b : Builder) (h : HostState) :
    Unit → Builder → HostState → Machine → Prop :=
  fun _ b' h' m' => ∃ g', Machine.execute i pc g = .ok .normal g' ∧ b'.Shadows h' m' g' ∧
    b.Steady b' h h'

/-- **The code of a lowering does what the instruction does.** -/
def Correct (s : Setting) (act : Lowering Unit) (i : Instr) (pc : UInt32) : Prop :=
  ∀ b h m g, b.Shadows h m g → wp s act (Refused i pc g h) (Done i pc g b h) b h m

/-! ### The last operation of a rule -/

/-- The last operation writes the register that is ready for it. -/
theorem wp_emit_write {r : GuestReg} {a : HostReg} {v : UInt32} {op : Operation} (hop : op.Inline)
    (hexec : Machine.execute i pc g = .ok .normal (g.mapCore (·.setReg r v)))
    (hready : Ready b' h' m' g r a) (hsteady : b.Steady b' h h')
    (hperform : op.perform h' m' = .next (h'.set a v) m') :
    wp s (emit op) (Refused i pc g h) (Done i pc g b h) b' h' m' := by
  refine wp_emit hop ?_
  rw [hperform]
  have hlt := holds_lt hready.owns.holds
  refine ⟨_, hexec, hready.write v, (hsteady.set ?_ ?_ v).emitted _⟩
  · intro heq
    rw [heq] at hlt
    exact absurd hlt (by decide)
  · intro heq
    rw [heq] at hlt
    exact absurd hlt (by decide)

/-- The last operation stores what the instruction stores. -/
theorem wp_emit_store {op : Operation} {F : Memory → Except Violation Memory} (hop : op.Inline)
    (hexec : Machine.execute i pc g = g.withMemory fun g => (F g.memory).map (Machine.mk g.core))
    (x : b'.Shadows h' m' g) (hsteady : b.Steady b' h h')
    (hperform : op.perform h' m' = Outcome.withMemory h' m' F) :
    wp s (emit op) (Refused i pc g h) (Done i pc g b h) b' h' m' := by
  refine wp_emit hop ?_
  rw [Machine.withMemory] at hexec
  rw [hperform, Outcome.withMemory, x.memory]
  cases hF : F g.memory with
  | ok memory =>
    rw [hF] at hexec
    exact ⟨_, hexec, x.changeMemory memory, hsteady.emitted _⟩
  | error v =>
    rw [hF] at hexec
    exact .inr ⟨v, _, hexec, rfl⟩

/-- An instruction without effect needs no code. -/
theorem wp_pure_done (x : b.Shadows h m g) (hexec : Machine.execute i pc g = .ok .normal g) :
    wp s (pure ()) (Refused i pc g h) (Done i pc g b h) b h m :=
  wp_pure ⟨g, hexec, x, .refl b h⟩

/-! ### The interpreter as a fallback -/

/-- An instruction that ends a block, or that has a rule without a fallback. -/
def IsFallback (i : Instr) : Prop :=
  i.family.isTerminator = false ∧ i.family ≠ .vectorModifier

theorem perform_interpret {m g : Machine} (hcur : m.Current g) (hmemory : m.memory = g.memory)
    (hfam : IsFallback i) (hpc : m.core.pc = pc) (h : HostState) :
    (∃ g' f, Machine.execute i pc g = .ok .normal g' ∧
      (Operation.interpret i.word).perform h m = .next { h with flags := (0, 0) } (g'.reframe f) ∧
      f = { g.core.frame with pc := pc }) ∨
    Refused i pc g h ((Operation.interpret i.word).perform h m) := by
  obtain ⟨pc', hcore⟩ := hcur
  have hm : m = g.reframe { g.core.frame with pc := pc } := by
    rw [hcore] at hpc
    have hpc : pc' = pc := hpc
    rw [hpc] at hcore
    show Machine.mk m.core m.memory = _
    rw [hcore, hmemory]
    rfl
  have hbreak : i.family ≠ .breakpoint := fun heq => by
    rw [IsFallback, heq] at hfam
    exact absurd hfam.1 (by decide)
  have hsyscall : i.family ≠ .syscall := fun heq => by
    rw [IsFallback, heq] at hfam
    exact absurd hfam.1 (by decide)
  have hexec := Machine.execute_reframe hbreak pc g { g.core.frame with pc := pc }
  rw [← hm] at hexec
  have hword : (⟨i.word⟩ : Instr) = i := rfl
  rw [Host.perform_interpret_eq, hword, hpc, hexec]
  cases hg : Machine.execute i pc g with
  | ok event g' =>
    cases Machine.event_execute hsyscall hbreak hg
    exact .inl ⟨g', _, rfl, rfl, rfl⟩
  | error e g' =>
    cases e with
    | trap t =>
      refine .inr (.inl ⟨t, g', h, hg, rfl, ?_⟩)
      rw [← Machine.eq_of_execute_trap hg]
      rfl
    | violation v => exact .inr (.inr ⟨v, g', hg, rfl⟩)

/-- What is known about modifiers after an instruction that was interpreted. -/
def trackerAfter (i : Instr) (t : ModifierTracker) : ModifierTracker :=
  if i.family.usesModifiers then .identity
  else if i.family = .vectorMove then .unknown
  else t

theorem shadows_trackerAfter (pc : UInt32) (hfam : IsFallback i) {t : ModifierTracker} {core : Core}
    {g g' : Machine} (ht : t.Shadows core g.core)
    (hcore : ∀ slot, core.modifier slot = g.core.modifier slot)
    (hexec : Machine.execute i pc g = .ok .normal g') :
    (trackerAfter i t).Shadows g'.core g'.core := by
  intro slot
  rw [trackerAfter]
  cases huses : i.family.usesModifiers with
  | true =>
    rw [if_pos rfl, ModifierTracker.identity, get_ofRule]
    have hidentity := Machine.modifier_execute_of_uses huses hexec slot
    exact ⟨hidentity, hidentity⟩
  | false =>
    rw [if_neg (by decide)]
    by_cases hmove : i.family = .vectorMove
    · rw [if_pos hmove, ModifierTracker.unknown, get_ofRule]
      exact rfl
    · rw [if_neg hmove, Machine.modifier_execute huses hfam.2 hmove hexec slot]
      have hslot := ht slot
      rw [hcore] at hslot
      exact hslot

/-- **The fallback to the interpreter is correct.** -/
theorem correct_interpret (hfam : IsFallback i) : Correct s (interpret i pc) i pc := by
  intro b h m g x
  unfold interpret
  refine wp_bind (wp_flushAll x fun b₁ core₁ x₁ hcur₁ hs₁ => ?_)
  refine wp_bind (wp_discardAll x₁ hcur₁ fun b₂ hscalars helements hmodifiers hprogress x₂ => ?_)
  refine wp_bind (wp_emit trivial ?_)
  have hset : (Operation.setPc pc).perform h ⟨core₁, m.memory⟩ =
      .next h ⟨{ core₁ with pc := pc }, m.memory⟩ := rfl
  rw [hset]
  have hcur₂ : Machine.Current ⟨{ core₁ with pc := pc }, m.memory⟩ g := by
    obtain ⟨pc', heq⟩ := hcur₁
    refine ⟨pc, ?_⟩
    have heq : core₁ = { g.core with pc := pc' } := heq
    rw [heq]
  refine wp_bind_straight (fun _ => ?_) (wp_emit trivial ?_)
  · split
    · exact straight_updateModifiers _
    · split
      · exact straight_updateModifiers _
      · exact straight_pure ()
  rcases perform_interpret hcur₂ x.memory hfam rfl h with ⟨g', f, hexec, hperform, hf⟩ | hrefused
  · rw [hperform]
    have hzero : g'.core.ZeroKept := (Machine.gpr_zero_execute hexec).trans x.zero
    have hbreak : i.family ≠ .breakpoint := fun heq => by
      rw [IsFallback, heq] at hfam
      exact absurd hfam.1 (by decide)
    have hframe : g'.core.frame = g.core.frame := Machine.frame_execute hbreak hexec
    have hsame : Core.SameFrame g'.core (g'.core.reframe f) := by
      have hg := (Core.frame_eq_iff_sameFrame.mp hframe).1
      rw [hf]
      exact ⟨hg.downcount.symm, hg.runState.symm, hg.inDelaySlot.symm, hg.branchTarget.symm,
        hg.exitRequested.symm⟩
    have hfinal : ∀ b₃ : Builder, b₃.scalars = b₂.scalars → b₃.elements = b₂.elements →
        b₃.modifiers = trackerAfter i b₂.modifiers → b₃.progress = b₂.progress →
        Done i pc g b h () b₃ { h with flags := (0, 0) } (g'.reframe f) := by
      intro b₃ hsc hel hmod hpr
      refine ⟨g', hexec, ?_, ⟨rfl, rfl, rfl, (hpr.trans hprogress).trans hs₁.progress⟩⟩
      show Shadow b₃.scalars b₃.elements b₃.modifiers _ _ _
      rw [hsc, hel, hmod, hscalars, helements]
      have ht := shadows_trackerAfter pc hfam x₂.modifiers hcur₁.modifier hexec
      exact ⟨ScalarCache.shadows_discardAll fun r => Core.reg_reframe _ f r,
        ElementCache.shadows_discardAll fun e => rfl, ht, fun _ _ => rfl, hsame, hzero, hzero, rfl⟩
    show wp s _ _ _ _ _ _
    have htracker : trackerAfter i b₂.modifiers =
        if i.family.usesModifiers = true then ModifierTracker.identity
        else if i.family = .vectorMove then .unknown else b₂.modifiers := rfl
    split
    · rename_i huses
      rw [if_pos huses] at htracker
      exact wp_modify rfl rfl (hfinal _ rfl rfl htracker.symm rfl)
    · rename_i huses
      rw [if_neg huses] at htracker
      split
      · rename_i hmove
        rw [if_pos hmove] at htracker
        exact wp_modify rfl rfl (hfinal _ rfl rfl htracker.symm rfl)
      · rename_i hmove
        rw [if_neg hmove] at htracker
        exact wp_pure (hfinal _ rfl rfl htracker.symm rfl)
  · have hstop : Host.Stops ((Operation.interpret i.word).perform h
        ⟨{ core₁ with pc := pc }, m.memory⟩) := by
      rcases hrefused with ⟨t, g', h', -, -, heq⟩ | ⟨v, g', -, heq⟩ <;> rw [heq] <;> trivial
    rw [Outcome.yields_of_stops hstop]
    exact hrefused

end Lowering

end Dynarec
