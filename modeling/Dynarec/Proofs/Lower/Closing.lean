import Dynarec.Proofs.Lower.Sketch

/-!
# The ends of blocks have a shape

One rule for each way in which the lowering of a block ends (`closes_endBlock`,
`closes_terminatorWith`).  Every way out of an instruction that ends a block charges that
instruction at least, and its delay slot if the path takes it; only a branch that is left to the
interpreter may be charged nothing.
-/

namespace Dynarec

namespace Lowering

variable {α : Type} {Γ : Set HostCell} {n least most : Nat} {stop : Option UInt32}
  {E : α → Set HostCell} {P : α → Prop}

/-! ### Straight code in front -/

/-- **A tame step in front of the end of a block.**  What was set stays set. -/
theorem closes_tame {act : Lowering α} {f : α → Lowering Unit} (hact : Tame ∅ ∅ act n E)
    (hf : ∀ a, Closes (E a ∪ Γ) (f a) least most stop) : Closes Γ (act >>= f) least most stop :=
  closes_bind hact.frame fun a _ => hf a

/-- A tame step that hands nothing on. -/
theorem closes_then {act : Lowering α} {f : α → Lowering Unit} (hact : Tame Γ ∅ act n fun _ => Γ)
    (hf : ∀ a, Closes Γ (f a) least most stop) : Closes Γ (act >>= f) least most stop :=
  closes_bind hact fun a _ => hf a

/-- A host register with the value of a scalar register. -/
theorem closes_bindReg {f : HostReg → Lowering Unit} (r : GuestReg)
    (hf : ∀ a, Closes ({.reg a} ∪ Γ) (f a) least most stop) :
    Closes Γ (Lowering.bind r >>= f) least most stop :=
  closes_bind (handsOut_bindReg r).frame fun a _ => hf a

theorem Closes.mono {act : Lowering Unit} {least' most' : Nat} (x : Closes Γ act least most stop)
    (hleast : least' ≤ least) (hmost : most ≤ most') : Closes Γ act least' most' stop := by
  obtain ⟨plan, hplan, hkeeps⟩ := x
  refine ⟨plan, hplan, fun c p G hG hc => ?_⟩
  have hk := hkeeps c p G hG hc
  revert hk
  cases plan c p with
  | error e => exact id
  | ok k => exact fun hk => ⟨hk.sketch, hk.charges.mono hleast hmost, hk.pays, hk.stop⟩

theorem closes_ite {c : Prop} [Decidable c] {x y : Lowering Unit}
    (hx : Closes Γ x least most stop) (hy : Closes Γ y least most stop) :
    Closes Γ (if c then x else y) least most stop := by
  split
  · exact hx
  · exact hy

/-- **One more instruction is counted.** -/
theorem closes_charge {f : Unit → Lowering Unit} (hf : Closes Γ (f ()) least most stop) :
    Closes Γ (charge >>= f) (least + 1) (most + 1) stop := by
  obtain ⟨plan, hplan, hkeeps⟩ := hf
  refine ⟨fun c p => plan c p.charge, fun s b => hplan s { b with progress := b.progress.charge },
    fun c p G hG hc => ?_⟩
  have hk := hkeeps c p.charge G hG hc
  revert hk
  dsimp only
  cases plan c p.charge with
  | error e => exact id
  | ok k => exact fun hk => ⟨hk.sketch, Tail.Charges.shift 1 hk.charges, hk.pays, hk.stop⟩

/-- **The block ends at `stop`.** -/
theorem closes_finish {act : Lowering Unit} (hact : Closes Γ act least most none) (stop : UInt32) :
    Closes Γ (act >>= fun _ => finish stop) least most (some stop) := by
  obtain ⟨plan, hplan, hkeeps⟩ := hact
  refine ⟨fun c p => (plan c p).map fun k => { k with progress := { k.progress with pc := stop } },
    fun s b => ?_, fun c p G hG hc => ?_⟩
  · have hbind : (act >>= fun _ => finish stop) s b = (act s b >>= fun p => finish stop s p.2) := rfl
    rw [hbind, hplan s b]
    dsimp only
    cases plan b.context b.progress with
    | error e => rfl
    | ok k =>
      have hend : (b.closed s.options.downcountInRegister k).onward
          (b.closed s.options.downcountInRegister k).context
          { (b.closed s.options.downcountInRegister k).progress with pc := stop } =
            b.closed s.options.downcountInRegister
              { k with progress := { k.progress with pc := stop } } := by
        rw [Builder.progress_closed, Builder.context_closed]
        exact Builder.onward_closed _ b k _ _
      exact congrArg (fun b => Except.ok ((), b)) hend
  · have hk := hkeeps c p G hG hc
    revert hk
    dsimp only
    cases plan c p with
    | error e => exact id
    | ok k => exact fun hk => ⟨hk.sketch, hk.charges, hk.pays, rfl⟩

/-! ### Ways out -/

theorem charge_eq (s : Setting) (b : Builder) (amount : UInt32) :
    subtractCycles amount s b = .ok ((), { b with
      code := b.code.emit (Operation.charge s.options.downcountInRegister amount).encode }) := by
  have heq : subtractCycles amount s b =
      (if s.options.downcountInRegister then
        emit (.aluImm .sub HostReg.downcount HostReg.downcount amount)
      else emit (.subDowncount amount) : Lowering Unit) s b := rfl
  rw [heq]
  cases s.options.downcountInRegister <;> rfl

/-- **A way out.** -/
theorem exitTo_eq (s : Setting) (b : Builder) (target amount : UInt32) :
    exitTo target amount s b =
      .ok ((), b.leaveBy s.options.downcountInRegister ⟨amount, .exitDispatch target⟩) := by
  have heq : exitTo target amount s b = (subtractCycles amount s b >>= fun p =>
      .ok ((), pushExit p.2 target)) := rfl
  rw [heq, charge_eq]
  rfl

/-- The way out of a block that goes on at an address. -/
theorem neat_exitDispatch (G : Set HostCell) (amount target : UInt32) :
    Leave.Neat G ⟨amount, .exitDispatch target⟩ := ⟨trivial, Set.empty_subset _⟩

/-- No straight code in front, and one tail, all of whose ways out charge what was counted. -/
theorem closes_tail {act : Lowering Unit} (tail : Progress → Tail)
    (hact : ∀ s b, act s b = .ok ((), b.endBy s.options.downcountInRegister (tail b.progress)))
    (hneat : ∀ p, (tail p).Neat Γ) (hways : ∀ p, ∀ way ∈ (tail p).ways, way.amount = p.count ∧
      way.op.behind ≤ most ∧ ((∃ pc, way.op = .exitInterpret pc) ∨ least = 0)) :
    Closes Γ act least most none := by
  refine ⟨fun c p => .ok ⟨⟨[], tail p⟩, c, p⟩, fun s b => hact s b, fun _ p _ hG _ =>
    ⟨⟨.nil, nofun, trivial, (hneat p).mono (hG.trans Set.subset_union_left)⟩, fun way hway => ?_,
      fun way hway => .inl (hways p way hway).1, rfl⟩⟩
  obtain ⟨hamount, hbehind, hleast⟩ := hways p way hway
  exact ⟨0, (Nat.zero_add _).trans_le hbehind, hamount.trans (UInt32.add_zero _).symm,
    hleast.imp_right Nat.le_of_eq⟩

theorem closes_exitHere (target : UInt32) : Closes Γ (exitHere target) 0 0 none :=
  closes_tail (fun p => .leave ⟨p.count, .exitDispatch target⟩)
    (fun s b => exitTo_eq s b target b.progress.count)
    (fun _ => neat_exitDispatch _ _ _) fun _ way hway => by
      cases List.mem_singleton.mp hway
      exact ⟨rfl, le_rfl, .inr rfl⟩

/-- **The end of a block that leaves for good.** -/
theorem closes_leave (op : Operation) (hop : op.Final) (hne : ∀ target, op ≠ .exitDispatch target)
    (hreads : op.reads ⊆ Γ) (hleast : (∃ pc, op = .exitInterpret pc) ∨ least = 0) (stop : UInt32) :
    Closes Γ (do
      subtractProgress
      emit op
      finish stop) least op.behind (some stop) := by
  have hact : Closes Γ (do
      subtractProgress
      emit op) least op.behind none := by
    refine closes_tail (fun p => .leave ⟨p.count, op⟩) (fun s b => ?_) (fun _ => ⟨hop, hreads⟩)
      fun p way hway => ?_
    · have heq : (do
          subtractProgress
          emit op : Lowering Unit) s b = (subtractCycles b.progress.count s b >>= fun p =>
            .ok ((), { p.2 with code := p.2.code.emit op.encode })) := rfl
      rw [heq, charge_eq]
      cases op <;> first | rfl | exact absurd rfl (hne _)
    · cases List.mem_singleton.mp hway
      exact ⟨rfl, le_rfl, hleast⟩
  have hfinish := closes_finish hact stop
  rwa [bind_assoc] at hfinish

/-- **The two exits of a branch.** -/
theorem closes_branchExits (condition : Condition) (target fallthrough : UInt32)
    (hflags : .flags ∈ Γ) : Closes Γ (branchExits condition target fallthrough) 0 0 none := by
  refine closes_tail (fun p => .fork condition [] ⟨p.count, .exitDispatch fallthrough⟩
    ⟨p.count, .exitDispatch target⟩) (fun s b => ?_) (fun p => ?_) fun p way hway => ?_
  · have heq : branchExits condition target fallthrough s b =
        (exitTo fallthrough b.progress.count s
          (pushJump (withLabel b) condition b.code.labels.size) >>= fun p =>
            exitTo target b.progress.count s (withPlace p.2 b.code.labels.size)) := rfl
    rw [heq, exitTo_eq]
    exact exitTo_eq s _ target _
  · exact ⟨hflags, .nil, nofun, trivial, neat_exitDispatch _ _ _, neat_exitDispatch _ _ _⟩
  · rcases List.mem_pair.mp hway with rfl | rfl <;> exact ⟨rfl, le_rfl, .inr rfl⟩

/-! ### Delay slots -/

/-- The code of a delay slot, unless compared words have to survive it. -/
theorem tame_slotCode (slot : Instr) (pc : UInt32) (policy : SlotPolicy) (hpolicy : policy ≠ .guarded) :
    Tame ∅ ∅ (slotCode slot pc policy) 43 fun _ => ∅ := by
  have hplain : Tame ∅ ∅ (plain slot (pc + 4)) 40 fun _ => ∅ := tameRule_plain slot (pc + 4)
  cases policy with
  | plain =>
    exact tame_then hplain (by decide) fun _ => tame_then tame_releaseLocks (by decide) fun _ =>
      (tame_pure ()).last (by decide)
  | flushed =>
    exact tame_then hplain (by decide) fun _ => tame_then tame_releaseLocks (by decide) fun _ =>
      tame_flushAll.last (by decide)
  | guarded => exact absurd rfl hpolicy

/-- **The compared words survive a delay slot.** -/
theorem tame_guardedSlot (slot : Instr) (pc : UInt32) :
    Tame {.flags} ∅ (slotCode slot pc .guarded) 45 fun _ => {.flags} := by
  have hplain : Tame ({.savedFlags} ∪ {.flags}) ∅ (plain slot (pc + 4)) 40 fun _ =>
      ∅ ∪ ({.savedFlags} ∪ {.flags}) := HandsOut.frame (tameRule_plain slot (pc + 4))
  have hsave : Tame {.flags} ∅ (emit .saveFlags) 1 fun _ => {.savedFlags} ∪ {.flags} :=
    tame_set trivial rfl nofun nofun subset_rfl (Set.empty_subset _)
  refine tame_then hsave (by decide) fun _ => ?_
  refine tame_then hplain (by decide) fun _ => tame_then tame_releaseLocks (by decide) fun _ => ?_
  have hrestore : Tame (∅ ∪ ({.savedFlags} ∪ {.flags})) ∅ (emit .restoreFlags) 1 fun _ =>
      {.flags} ∪ (∅ ∪ ({.savedFlags} ∪ {.flags})) :=
    tame_set trivial rfl nofun nofun (reads_one (by simp)) (Set.empty_subset _)
  refine tame_then hrestore (by decide) fun _ => ?_
  exact HandsOut.mono tame_flushAll (by decide) fun _ => Set.subset_union_left

/-- A delay slot in front of the end of a block. -/
theorem closes_delaySlot {slot : Instr} {pc : UInt32} {policy : SlotPolicy} {f : Unit → Lowering Unit}
    (hpolicy : policy ≠ .guarded) (hf : Closes Γ (f ()) least most stop) :
    Closes Γ (delaySlot slot pc policy >>= f) (least + 1) (most + 1) stop := by
  rw [delaySlot_eq, bind_assoc]
  refine closes_charge (closes_tame (tame_slotCode slot pc _ hpolicy) fun _ => ?_)
  rwa [Set.empty_union]

theorem closes_guardedSlot {slot : Instr} {pc : UInt32} {f : Unit → Lowering Unit}
    (hf : Closes {.flags} (f ()) least most stop) :
    Closes {.flags} (delaySlot slot pc .guarded >>= f) (least + 1) (most + 1) stop := by
  rw [delaySlot_eq, bind_assoc]
  exact closes_charge (closes_then (tame_guardedSlot slot pc) fun _ => hf)

/-- **The two exits of a likely branch**, with the delay slot on one path. -/
theorem closes_likelyExits (condition : Condition) (slot : Instr) (pc target fallthrough : UInt32)
    (hflags : .flags ∈ Γ) : Closes Γ (do
      let skipped := (← get).progress.count
      let notTaken ← newLabel
      jumpForward condition notTaken
      delaySlot slot pc .flushed
      exitHere target
      placeLabel notTaken
      exitTo fallthrough skipped) 0 1 none := by
  obtain ⟨plan, hplan, hkeeps⟩ := tame_slotCode slot pc .flushed (by decide)
  refine ⟨fun c p => (plan c).map fun w => ⟨⟨[], .fork condition w.code
    ⟨p.charge.count, .exitDispatch target⟩ ⟨p.count, .exitDispatch fallthrough⟩⟩, w.context,
      p.charge⟩, fun s b => ?_, fun c p G hG hc => ?_⟩
  · have heq : (do
        let skipped := (← get).progress.count
        let notTaken ← newLabel
        jumpForward condition notTaken
        delaySlot slot pc .flushed
        exitHere target
        placeLabel notTaken
        exitTo fallthrough skipped : Lowering Unit) s b =
      (slotCode slot pc .flushed s { pushJump (withLabel b) condition b.code.labels.size with
          progress := b.progress.charge } >>= fun p =>
        exitTo target p.2.progress.count s p.2 >>= fun q =>
          exitTo fallthrough b.progress.count s (withPlace q.2 b.code.labels.size)) := rfl
    rw [heq, hplan]
    show ((plan b.context).map _ >>= _) = _
    dsimp only
    cases plan b.context with
    | error e => rfl
    | ok w =>
      show (exitTo target (Builder.apply _ w).progress.count s (Builder.apply _ w) >>= _) = _
      rw [exitTo_eq]
      exact exitTo_eq s _ fallthrough b.progress.count
  · have hw := hkeeps c G (Set.empty_subset _) (hc.trans Set.subset_union_left)
    dsimp only
    revert hw
    cases plan c with
    | error e => exact id
    | ok w =>
      rintro ⟨-, htidy⟩
      have hG' : G ⊆ G ∪ Host.allWrites [] := Set.subset_union_left
      refine ⟨⟨.nil, nofun, trivial, hG' (hG hflags), htidy.inline, htidy.quiet,
        htidy.inScope.mono hG', neat_exitDispatch _ _ _, neat_exitDispatch _ _ _⟩,
        fun way hway => ?_, fun way hway => ?_, rfl⟩
      · rcases List.mem_pair.mp hway with rfl | rfl
        · exact ⟨1, le_rfl, rfl, .inr (by decide)⟩
        · exact ⟨0, Nat.zero_le _, (UInt32.add_zero _).symm, .inr le_rfl⟩
      · rcases List.mem_pair.mp hway with rfl | rfl
        · exact .inl rfl
        · exact .inr ⟨rfl, _, rfl⟩

/-! ### Every end of a block -/

/-- **The end in front of an instruction that is not in the block.** -/
theorem closes_endBlock (pc : UInt32) : Closes ∅ (endBlock pc) 0 0 (some pc) :=
  closes_then tame_flushAll fun _ => closes_finish (closes_exitHere pc) pc

theorem closes_leaveToInterpreter (pc : UInt32) :
    Closes ∅ (leaveToInterpreter pc) 1 2 (some (pc + 8)) :=
  closes_then tame_flushAll fun _ => (closes_leave (.exitInterpret pc) trivial nofun subset_rfl
    (.inl ⟨pc, rfl⟩) _).mono le_rfl le_rfl

theorem closes_syscall (i : Instr) (pc : UInt32) : Closes ∅ (syscall i pc) 1 1 (some (pc + 4)) :=
  closes_charge (closes_then tame_flushAll fun _ => closes_leave (.exitSyscall i.code (pc + 4))
    (code_lt i) nofun subset_rfl (.inr rfl) _)

theorem closes_breakpoint (pc : UInt32) : Closes ∅ (breakpoint pc) 1 1 (some (pc + 4)) :=
  closes_charge (closes_then tame_flushAll fun _ => closes_leave (.exitBreak pc)
    trivial nofun subset_rfl (.inr rfl) _)

theorem closes_likelyBranch (i : Instr) (pc : UInt32) (slot : Instr) :
    Closes ∅ (likelyBranch i pc slot) 0 1 none := by
  unfold likelyBranch
  refine closes_bind (tame_compareOperands i) fun condition _ => ?_
  refine closes_then tame_releaseLocks fun _ => ?_
  refine closes_tame (tame_writeBranchLink i pc) fun _ => closes_then tame_flushAll fun _ => ?_
  exact closes_likelyExits _ _ _ _ _ (by simp)

theorem closes_ordinaryBranch (i : Instr) (pc : UInt32) (slot : Instr) :
    Closes ∅ (ordinaryBranch i pc slot) 1 1 none := by
  unfold ordinaryBranch
  refine closes_ite ?_ (closes_ite ?_ ?_)
  · exact closes_delaySlot (by decide) (closes_then tame_flushAll fun _ => closes_exitHere _)
  · refine closes_bind (tame_compareOperands i) fun condition _ => ?_
    refine closes_then tame_releaseLocks fun _ => closes_tame (tame_writeBranchLink i pc) fun _ => ?_
    rw [Set.empty_union]
    exact closes_guardedSlot (closes_branchExits _ _ _ rfl)
  · refine closes_bind (tame_writeBranchLink i pc) fun _ _ => ?_
    refine closes_delaySlot (by decide) (closes_then tame_flushAll fun _ => ?_)
    exact closes_bind (tame_compareOperands i) fun condition _ => closes_branchExits _ _ _ rfl

theorem closes_branch (i : Instr) (pc : UInt32) (slot : Instr) :
    Closes ∅ (branch i pc slot) 1 2 (some (pc + 8)) := by
  unfold branch
  refine closes_charge (closes_ite ?_ ?_)
  · exact closes_finish (closes_likelyBranch i pc slot) _
  · exact closes_finish ((closes_ordinaryBranch i pc slot).mono (by decide) le_rfl) _

theorem closes_jump (i : Instr) (pc : UInt32) (slot : Instr) :
    Closes ∅ (jump i pc slot) 1 2 (some (pc + 8)) := by
  have hrest : Closes ∅ (do
      delaySlot slot pc .plain
      flushAll
      exitHere (i.jumpTarget pc)
      finish (pc + 8)) 1 1 (some (pc + 8)) :=
    closes_delaySlot (by decide) (closes_then tame_flushAll fun _ =>
      closes_finish (closes_exitHere _) _)
  unfold jump
  refine (closes_charge (closes_ite ?_ hrest)).mono (by decide) le_rfl
  exact closes_bind (tame_writeLink 31 pc) fun _ _ => hrest

theorem closes_jumpRegister (i : Instr) (pc : UInt32) (slot : Instr) :
    Closes ∅ (jumpRegister i pc slot) 1 2 (some (pc + 8)) := by
  have hlast : ∀ {Γ : Set HostCell} {target : HostReg}, .reg target ∈ Γ → Closes Γ (do
      subtractProgress
      emit (.exitDispatchReg target)
      finish (pc + 8)) 0 0 (some (pc + 8)) := fun {Γ target} h =>
    closes_leave (.exitDispatchReg target) trivial nofun (reads_one h) (.inr rfl) _
  have hrest : ∀ {Γ : Set HostCell} {target : Lowering HostReg} {n : Nat} {P : HostReg → Prop},
      HandsOut Γ ∅ target n (fun a => {.reg a}) (fun _ => ∅) P → Closes Γ (do
        writeLink (jumpLink i) pc
        delaySlot slot pc .plain
        flushAll
        let target ← target
        subtractProgress
        emit (.exitDispatchReg target)
        finish (pc + 8)) 1 1 (some (pc + 8)) := fun htarget => by
    refine closes_tame (tame_writeLink _ pc) fun _ => ?_
    rw [Set.empty_union]
    refine closes_delaySlot (by decide) (closes_then tame_flushAll fun _ => ?_)
    exact closes_bind htarget fun a _ => hlast rfl
  have hbody : ∀ source : HostReg, Closes ({.reg source} ∪ ∅) (do
      if targetChanges i slot then move HostReg.jumpTarget source
      writeLink (jumpLink i) pc
      delaySlot slot pc .plain
      flushAll
      let target ← if targetChanges i slot then pure HostReg.jumpTarget else bindGpr i.rs
      subtractProgress
      emit (.exitDispatchReg target)
      finish (pc + 8)) 1 1 (some (pc + 8)) := fun source => by
    by_cases hchanges : targetChanges i slot = true
    · simp only [hchanges, if_true]
      have hmove : Tame ({.reg source} ∪ ∅) ∅ (move HostReg.jumpTarget source) 1 fun _ =>
          {.reg HostReg.jumpTarget} ∪ ({.reg source} ∪ ∅) :=
        tame_copy (fun heq => congrArg HostCell.reg heq) (works_of_writes trivial rfl nofun
          (by decide) (reads_one (by simp)) (Set.empty_subset _)) rfl (by simp) (Set.empty_subset _)
      have htarget : Tame ({.reg HostReg.jumpTarget} ∪ ({.reg source} ∪ ∅)) ∅
          (pure HostReg.jumpTarget) 0 fun a => {.reg a} := tame_return (by simp)
      exact closes_bind hmove fun _ _ => hrest htarget
    · simp only [hchanges]
      exact hrest ((handsOut_bindReg _).frame.mono le_rfl fun a => Set.subset_union_left)
  unfold jumpRegister
  exact (closes_charge (closes_bindReg _ hbody)).mono (by decide) (by decide)

/-- What is done for an instruction that ends a block, once its delay slot is known. -/
def terminatorWith (slot? : Option Instr) (i : Instr) (pc : UInt32) : Lowering Unit :=
  match i.family with
  | .syscall => syscall i pc
  | .breakpoint => breakpoint pc
  | family =>
    match slot? with
    | none => leaveToInterpreter pc
    | some slot =>
      match family with
      | .jump => jump i pc slot
      | .jumpRegister => jumpRegister i pc slot
      | _ => branch i pc slot

theorem terminator_eq (i : Instr) (pc : UInt32) (s : Setting) (b : Builder) :
    terminator i pc s b = terminatorWith (delaySlot? s.memory pc) i pc s b := by
  unfold terminator terminatorWith
  cases i.family <;> rfl

/-- Where the block ends that an instruction at `pc` ends. -/
def terminatorStop (i : Instr) (pc : UInt32) : UInt32 :=
  match i.family with
  | .syscall | .breakpoint => pc + 4
  | _ => pc + 8

theorem terminatorStop_eq_or (i : Instr) (pc : UInt32) :
    terminatorStop i pc = pc + 4 ∨ terminatorStop i pc = pc + 8 := by
  rw [terminatorStop]
  split
  · exact .inl rfl
  · exact .inl rfl
  · exact .inr rfl

theorem terminatorStop_slot {i : Instr} (hs : i.family ≠ .syscall) (hb : i.family ≠ .breakpoint)
    (pc : UInt32) : terminatorStop i pc = pc + 8 := by
  rw [terminatorStop]
  split
  · rename_i heq
    exact absurd heq hs
  · rename_i heq
    exact absurd heq hb
  · rfl

/-- **Every instruction that ends a block gives it a shape.** -/
theorem closes_terminatorWith (slot? : Option Instr) (i : Instr) (pc : UInt32) :
    Closes ∅ (terminatorWith slot? i pc) 1 2 (some (terminatorStop i pc)) := by
  unfold terminatorWith terminatorStop
  split
  · exact (closes_syscall i pc).mono le_rfl (by decide)
  · exact (closes_breakpoint pc).mono le_rfl (by decide)
  · split
    · exact closes_leaveToInterpreter pc
    · split
      · exact closes_jump i pc _
      · exact closes_jumpRegister i pc _
      · exact closes_branch i pc _

/-- **Where the block ends.** -/
theorem pc_of_closes {act : Lowering Unit} {stop : UInt32} {s : Setting} {b b' : Builder} {u : Unit}
    (hact : Closes ∅ act least most (some stop)) (hok : act s b = .ok (u, b')) :
    b'.progress.pc = stop := by
  obtain ⟨plan, hplan, hkeeps⟩ := hact
  have hk := hkeeps b.context b.progress _ (Set.empty_subset _) subset_rfl
  rw [hplan] at hok
  cases hp : plan b.context b.progress with
  | error e =>
    rw [hp] at hok
    cases hok
  | ok k =>
    rw [hp] at hok hk
    cases hok
    rw [Builder.progress_closed]
    exact hk.stop

end Lowering

end Dynarec
