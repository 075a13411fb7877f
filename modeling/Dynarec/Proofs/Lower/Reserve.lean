import Dynarec.Proofs.Lower.Growth

/-!
# The reserve of a block is enough

`Spends s act n` says that a step needs room for what it writes and for what is owed behind it,
which is at most `n` words more than what was owed in front of it.  A step that finds that room does
not overflow.  With at most 41 registers to store, an instruction that ends a block spends at most
55 words, and 96 are enough (`hasRoom_of_reserve`, `spends_lastInstruction`); so a block that starts
with the reserve free, and two words for its entries, never runs out of code space
(`notSpace_lowerBlock`).
-/

namespace Dynarec

namespace Builder

/-- Words that were written or are owed. -/
def load (b : Builder) : Nat := b.code.offset + b.context.owed

/-- No word was lost, and `n` more fit besides what is owed. -/
structure HasRoom (b : Builder) (n : Nat) : Prop where
  fits : b.code.overflowed = false
  room : b.load + n ≤ b.code.capacity

theorem HasRoom.mono {b : Builder} {n k : Nat} (x : b.HasRoom n) (hk : k ≤ n) : b.HasRoom k :=
  ⟨x.fits, Nat.le_trans (Nat.add_le_add_left hk _) x.room⟩

end Builder

/-- The failure is not that the code space ran out. -/
def Failure.NotSpace (e : Failure) : Prop := ∀ start, e ≠ .codeSpaceExhausted start

namespace CodeSpace

variable {c : CodeSpace}

/-- **A word that fits.** -/
theorem fits_emit {w : HostWord} (hfits : c.overflowed = false) (hlt : c.offset < c.capacity) :
    (c.emit w).overflowed = false ∧ (c.emit w).offset = c.offset + 1 := by
  rw [emit, if_pos hlt]
  exact ⟨hfits, Array.size_push _⟩

theorem fits_emitOps {ops : List Operation} (hfits : c.overflowed = false)
    (hle : c.offset + ops.length ≤ c.capacity) :
    (c.emitOps ops).overflowed = false ∧ (c.emitOps ops).offset = c.offset + ops.length := by
  induction ops generalizing c with
  | nil => exact ⟨hfits, rfl⟩
  | cons op rest ih =>
    rw [List.length_cons] at hle ⊢
    obtain ⟨hone, hoffset⟩ := fits_emit (w := op.encode) hfits (by omega)
    obtain ⟨hrest, hsize⟩ := ih (c := c.emit op.encode) hone (by
      rw [hoffset, capacity_emit]
      omega)
    refine ⟨hrest, hsize.trans ?_⟩
    rw [hoffset]
    omega

end CodeSpace

namespace Lowering

variable {α β : Type} {s : Setting} {n k : Nat} {b : Builder}

/-- What is left of the room behind a step. -/
def Spent (b : Builder) (n : Nat) : Except Failure (α × Builder) → Prop
  | .error e => e.NotSpace
  | .ok (_, b') => b'.code.overflowed = false ∧ b'.code.capacity = b.code.capacity ∧
    b'.load ≤ b.load + n

/-- **A step writes and owes at most `n` words more.** -/
def Spends (s : Setting) (act : Lowering α) (n : Nat) : Prop :=
  ∀ b, b.HasRoom n → Spent b n (act s b)

theorem Spends.mono {act : Lowering α} (x : Spends s act n) (hn : n ≤ k) : Spends s act k := by
  intro b hb
  have hspent := x b (hb.mono hn)
  revert hspent
  cases act s b with
  | error e => exact id
  | ok p => exact fun ⟨hfits, hcapacity, hload⟩ => ⟨hfits, hcapacity, by omega⟩

/-- **A tame step spends what it does not pay off.** -/
theorem spends_of_handsOut {Γ M : Set HostCell} {act : Lowering α} {E D : α → Set HostCell}
    {P : α → Prop} (hact : HandsOut Γ M act n E D P) : Spends s act n := by
  obtain ⟨plan, hplan, hkeeps⟩ := hact
  intro b hb
  have hw := hkeeps b.context Set.univ (Set.subset_univ _)
    ((Set.subset_univ _).trans Set.subset_union_left)
  rw [hplan s b]
  cases hwork : plan b.context with
  | error e =>
    rw [hwork] at hw
    obtain ⟨wanted, rfl⟩ := hw
    exact nofun
  | ok w =>
    rw [hwork] at hw
    have hpaid := hw.2.paid
    have hroom := hb.room
    simp only [Builder.load] at hroom
    have hle : b.code.offset + w.code.length ≤ b.code.capacity := by omega
    obtain ⟨hfits, hoffset⟩ := CodeSpace.fits_emitOps hb.fits hle
    refine ⟨hfits, CodeSpace.capacity_emitOps b.code w.code, ?_⟩
    show (b.code.emitOps w.code).offset + w.context.owed ≤ b.code.offset + b.context.owed + n
    omega

/-- **One step after another.** -/
theorem spends_bind {act : Lowering α} {f : α → Lowering β} (hact : Spends s act n)
    (hn : n ≤ k) (hf : ∀ x, Spends s (f x) (k - n)) : Spends s (act >>= f) k := by
  intro b hb
  have hbind : (act >>= f) s b = (act s b >>= fun p => f p.1 s p.2) := rfl
  have hspent := hact b (hb.mono hn)
  rw [hbind]
  cases hx : act s b with
  | error e =>
    rw [hx] at hspent
    exact hspent
  | ok p =>
    obtain ⟨x, b'⟩ := p
    rw [hx] at hspent
    obtain ⟨hfits, hcapacity, hload⟩ := hspent
    have hroom := hb.room
    have hrest := hf x b' ⟨hfits, by omega⟩
    show Spent b k (f x s b')
    revert hrest
    cases f x s b' with
    | error e => exact id
    | ok p => exact fun ⟨hfits', hcapacity', hload'⟩ => ⟨hfits', hcapacity'.trans hcapacity, by omega⟩

theorem spends_pure (x : α) : Spends s (pure x) k :=
  fun _ hb => ⟨hb.fits, rfl, Nat.le_add_right _ _⟩

theorem spends_get {f : Builder → Lowering α} (hf : ∀ b, Spends s (f b) k) :
    Spends s ((get : Lowering Builder) >>= f) k :=
  spends_bind (n := 0) (fun _ hb => ⟨hb.fits, rfl, le_rfl⟩) (Nat.zero_le k) hf

theorem spends_read {f : Setting → Lowering α} (hf : ∀ s', Spends s (f s') k) :
    Spends s ((read : Lowering Setting) >>= f) k :=
  spends_bind (n := 0) (fun _ hb => ⟨hb.fits, rfl, le_rfl⟩) (Nat.zero_le k) hf

theorem spends_ite {c : Prop} [Decidable c] {x y : Lowering α} (hx : Spends s x k)
    (hy : Spends s y k) : Spends s (if c then x else y) k := by
  split
  · exact hx
  · exact hy

/-- A change that writes nothing. -/
theorem spends_modify {f : Builder → Builder} (hfits : ∀ b, (f b).code.overflowed = b.code.overflowed)
    (hcapacity : ∀ b, (f b).code.capacity = b.code.capacity) (hload : ∀ b, (f b).load = b.load) :
    Spends s (modify f : Lowering Unit) 0 :=
  fun b hb => ⟨(hfits b).trans hb.fits, hcapacity b, (hload b).le⟩

theorem spends_charge : Spends s charge 0 := spends_modify (fun _ => rfl) (fun _ => rfl) fun _ => rfl

theorem spends_moveTo (pc : UInt32) : Spends s (moveTo pc) 0 :=
  spends_modify (fun _ => rfl) (fun _ => rfl) fun _ => rfl

/-! ### Words -/

/-- A change that writes one word. -/
theorem spends_word {f : Builder → Builder} {w : Builder → HostWord}
    (hcode : ∀ b, (f b).code.words = (b.code.emit (w b)).words ∧
      (f b).code.overflowed = (b.code.emit (w b)).overflowed ∧
      (f b).code.capacity = (b.code.emit (w b)).capacity)
    (hcontext : ∀ b, (f b).context = b.context) : Spends s (modify f : Lowering Unit) 1 := by
  intro b hb
  obtain ⟨hwords, hov, hcapacity⟩ := hcode b
  have hroom := hb.room
  simp only [Builder.load] at hroom
  obtain ⟨hfits, hoffset⟩ := CodeSpace.fits_emit (w := w b) hb.fits (by omega)
  refine ⟨hov.trans hfits, hcapacity.trans (CodeSpace.capacity_emit _ _), ?_⟩
  have hsize : (f b).code.offset = b.code.offset + 1 := (congrArg Array.size hwords).trans hoffset
  rw [Builder.load, Builder.load, hsize, hcontext b]
  omega

theorem spends_emit (op : Operation) : Spends s (emit op) 1 :=
  spends_word (w := fun _ => op.encode) (fun _ => ⟨rfl, rfl, rfl⟩) fun _ => rfl

theorem spends_jumpForward (condition : Condition) (label : Label) :
    Spends s (jumpForward condition label) 1 := by
  refine spends_word (w := fun _ => (Operation.jumpIf condition 0).encode) (fun b => ?_) fun _ => rfl
  show (b.code.emitReference _ label).words = _ ∧ _
  rw [emitReference_eq]
  split <;> exact ⟨rfl, rfl, rfl⟩

theorem spends_newLabel : Spends s newLabel 0 := fun _ hb => ⟨hb.fits, rfl, le_rfl⟩

theorem spends_placeLabel (label : Label) : Spends s (placeLabel label) 0 :=
  spends_modify (fun _ => rfl) (fun _ => rfl) fun _ => rfl

theorem spends_subtractCycles (amount : UInt32) : Spends s (subtractCycles amount) 1 := by
  unfold subtractCycles
  exact spends_read fun _ => spends_ite (spends_emit _) (spends_emit _)

theorem spends_subtractProgress : Spends s subtractProgress 1 := by
  unfold subtractProgress
  exact spends_get fun _ => spends_subtractCycles _

theorem spends_exitTo (target amount : UInt32) : Spends s (exitTo target amount) 2 := by
  unfold exitTo
  refine spends_bind (spends_subtractCycles amount) (by decide) fun _ => ?_
  exact spends_word (w := fun _ => (Operation.exitDispatch target).encode)
    (fun _ => ⟨rfl, rfl, rfl⟩) fun _ => rfl

theorem spends_exitHere (target : UInt32) : Spends s (exitHere target) 2 := by
  unfold exitHere
  exact spends_get fun _ => spends_exitTo _ _

/-! ### The end of a block -/

theorem spends_flushAll : Spends s flushAll 3 := spends_of_handsOut (tame_flushAll (Γ := ∅))

theorem spends_releaseLocks : Spends s releaseLocks 0 :=
  spends_of_handsOut (tame_releaseLocks (Γ := ∅))

theorem spends_finish (stop : UInt32) : Spends s (finish stop) k :=
  (spends_moveTo stop).mono (Nat.zero_le k)

/-- **Closing a block** takes five words besides what is owed. -/
theorem spends_endBlock (pc : UInt32) : Spends s (endBlock pc) 5 := by
  unfold endBlock
  exact spends_bind spends_flushAll (by decide) fun _ =>
    spends_bind (spends_exitHere pc) (by decide) fun _ => spends_finish pc

/-- The end of a block that leaves for good. -/
theorem spends_leave (op : Operation) (stop : UInt32) : Spends s (do
    subtractProgress
    emit op
    finish stop) 2 :=
  spends_bind spends_subtractProgress (by decide) fun _ =>
    spends_bind (spends_emit op) (by decide) fun _ => spends_finish stop

theorem spends_leaveToInterpreter (pc : UInt32) : Spends s (leaveToInterpreter pc) 5 := by
  unfold leaveToInterpreter
  exact spends_bind spends_flushAll (by decide) fun _ => spends_leave _ _

theorem spends_syscall (i : Instr) (pc : UInt32) : Spends s (syscall i pc) 5 := by
  unfold syscall
  exact spends_bind spends_charge (by decide) fun _ =>
    spends_bind spends_flushAll (by decide) fun _ => spends_leave _ _

theorem spends_breakpoint (pc : UInt32) : Spends s (breakpoint pc) 5 := by
  unfold breakpoint
  exact spends_bind spends_charge (by decide) fun _ =>
    spends_bind spends_flushAll (by decide) fun _ => spends_leave _ _

/-- Words that are spent around a delay slot. -/
def slotWords : SlotPolicy → Nat
  | .plain => 40
  | .flushed => 43
  | .guarded => 45

theorem spends_delaySlot (slot : Instr) (pc : UInt32) (policy : SlotPolicy) :
    Spends s (delaySlot slot pc policy) (slotWords policy) := by
  have hplain : Spends s (plain slot (pc + 4)) 40 := spends_of_handsOut (tameRule_plain slot (pc + 4))
  cases policy with
  | plain =>
    exact spends_bind spends_charge (by decide) fun _ => spends_bind hplain (by decide) fun _ =>
      spends_bind spends_releaseLocks (by decide) fun _ => spends_pure _
  | flushed =>
    exact spends_bind spends_charge (by decide) fun _ => spends_bind hplain (by decide) fun _ =>
      spends_bind spends_releaseLocks (by decide) fun _ => spends_flushAll
  | guarded =>
    exact spends_bind spends_charge (by decide) fun _ =>
      spends_bind (spends_emit .saveFlags) (by decide) fun _ =>
        spends_bind hplain (by decide) fun _ => spends_bind spends_releaseLocks (by decide) fun _ =>
          spends_bind (spends_emit .restoreFlags) (by decide) fun _ => spends_flushAll

theorem spends_compareOperands (i : Instr) : Spends s (compareOperands i) (compareWords i) :=
  spends_of_handsOut (tame_compareOperands i)

theorem spends_writeBranchLink (i : Instr) (pc : UInt32) :
    Spends s (writeBranchLink i pc) (linkWords i) := spends_of_handsOut (tame_writeBranchLink i pc)

theorem spends_branchExits (condition : Condition) (target fallthrough : UInt32) :
    Spends s (branchExits condition target fallthrough) 5 := by
  unfold branchExits
  exact spends_get fun _ => spends_bind spends_newLabel (by decide) fun _ =>
    spends_bind (spends_jumpForward _ _) (by decide) fun _ =>
      spends_bind (spends_exitTo _ _) (by decide) fun _ =>
        spends_bind (spends_placeLabel _) (by decide) fun _ => spends_exitTo _ _

/-- **A likely branch spends the most.** -/
theorem spends_likelyBranch (i : Instr) (pc : UInt32) (slot : Instr) :
    Spends s (likelyBranch i pc slot) 55 := by
  have hwords := compareWords_add_linkWords i
  unfold likelyBranch
  refine spends_bind (spends_compareOperands i) (by omega) fun _ => ?_
  refine spends_bind spends_releaseLocks (by omega) fun _ => ?_
  refine spends_bind (spends_writeBranchLink i pc) (by omega) fun _ => ?_
  refine spends_bind spends_flushAll (by omega) fun _ => spends_get fun _ => ?_
  refine spends_bind spends_newLabel (by omega) fun _ => ?_
  refine spends_bind (spends_jumpForward _ _) (by omega) fun _ => ?_
  refine spends_bind (spends_delaySlot _ _ _) (by simp only [slotWords]; omega) fun _ => ?_
  refine spends_bind (spends_exitHere _) (by simp only [slotWords]; omega) fun _ => ?_
  refine spends_bind (spends_placeLabel _) (by omega) fun _ => ?_
  exact (spends_exitTo _ _).mono (by simp only [slotWords]; omega)

theorem spends_ordinaryBranch (i : Instr) (pc : UInt32) (slot : Instr) :
    Spends s (ordinaryBranch i pc slot) 55 := by
  have hwords := compareWords_add_linkWords i
  unfold ordinaryBranch
  refine spends_ite ?_ (spends_ite ?_ ?_)
  · exact spends_bind (spends_delaySlot _ _ _) (by decide) fun _ =>
      spends_bind spends_flushAll (by decide) fun _ => (spends_exitHere _).mono (by decide)
  · refine spends_bind (spends_compareOperands i) (by omega) fun _ => ?_
    refine spends_bind spends_releaseLocks (by omega) fun _ => ?_
    refine spends_bind (spends_writeBranchLink i pc) (by omega) fun _ => ?_
    refine spends_bind (spends_delaySlot _ _ _) (by simp only [slotWords]; omega) fun _ => ?_
    exact (spends_branchExits _ _ _).mono (by simp only [slotWords]; omega)
  · refine spends_bind (spends_writeBranchLink i pc) (by omega) fun _ => ?_
    refine spends_bind (spends_delaySlot _ _ _) (by simp only [slotWords]; omega) fun _ => ?_
    refine spends_bind spends_flushAll (by simp only [slotWords]; omega) fun _ => ?_
    refine spends_bind (spends_compareOperands i) (by simp only [slotWords]; omega) fun _ => ?_
    exact (spends_branchExits _ _ _).mono (by simp only [slotWords]; omega)

theorem spends_branch (i : Instr) (pc : UInt32) (slot : Instr) : Spends s (branch i pc slot) 55 := by
  unfold branch
  refine spends_bind spends_charge (by decide) fun _ => spends_ite ?_ ?_
  · exact spends_bind (spends_likelyBranch i pc slot) (by decide) fun _ => spends_finish _
  · exact spends_bind (spends_ordinaryBranch i pc slot) (by decide) fun _ => spends_finish _

theorem spends_jump (i : Instr) (pc : UInt32) (slot : Instr) : Spends s (jump i pc slot) 55 := by
  have hrest : ∀ {k}, 45 ≤ k → Spends s (do
      delaySlot slot pc .plain
      flushAll
      exitHere (i.jumpTarget pc)
      finish (pc + 8)) k := fun {k} hk => Spends.mono (spends_bind (spends_delaySlot _ _ _) (by decide)
    fun _ => spends_bind spends_flushAll (by decide) fun _ =>
      spends_bind (spends_exitHere _) (by decide) fun _ => spends_finish _) hk
  unfold jump
  refine spends_bind spends_charge (by decide) fun _ => spends_ite ?_ (hrest (by decide))
  exact spends_bind (spends_of_handsOut (tame_writeLink 31 pc)) (by decide) fun _ =>
    hrest (by decide)

theorem spends_jumpRegister (i : Instr) (pc : UInt32) (slot : Instr) :
    Spends s (jumpRegister i pc slot) 55 := by
  have hrest : ∀ target : Lowering HostReg, Spends s target 1 → Spends s (do
      writeLink (jumpLink i) pc
      delaySlot slot pc .plain
      flushAll
      let target ← target
      subtractProgress
      emit (.exitDispatchReg target)
      finish (pc + 8)) 48 := fun target htarget => by
    refine spends_bind (spends_of_handsOut (tame_writeLink _ pc)) (by decide) fun _ => ?_
    refine spends_bind (spends_delaySlot _ _ _) (by decide) fun _ => ?_
    refine spends_bind spends_flushAll (by decide) fun _ => ?_
    exact spends_bind htarget (by decide) fun _ => spends_leave _ _
  have hbind : Spends s (bindGpr i.rs) 1 := spends_of_handsOut (handsOut_bindReg _)
  unfold jumpRegister
  refine spends_bind spends_charge (by decide) fun _ => spends_bind hbind (by decide) fun source => ?_
  by_cases hchanges : targetChanges i slot = true
  · simp only [hchanges, if_true]
    have hmove : Spends s (move HostReg.jumpTarget source) 1 :=
      spends_ite (spends_pure _) (spends_emit _)
    exact spends_bind hmove (by decide) fun _ => (hrest _ (spends_pure _)).mono (by decide)
  · simp only [hchanges]
    exact (hrest _ hbind).mono (by decide)

theorem spends_terminator (i : Instr) (pc : UInt32) : Spends s (terminator i pc) 55 := by
  unfold terminator
  split
  · exact (spends_syscall i pc).mono (by decide)
  · exact (spends_breakpoint pc).mono (by decide)
  · refine spends_read fun _ => ?_
    split
    · exact (spends_leaveToInterpreter pc).mono (by decide)
    · split
      · exact spends_jump i pc _
      · exact spends_jumpRegister i pc _
      · exact spends_branch i pc _

/-! ### Whole blocks -/

/-- Nothing overflowed, so nothing is wrong. -/
theorem spends_checkSpace : Spends s checkSpace 0 := by
  intro b hb
  have heq : checkSpace s b = (if b.code.overflowed then (do
      let setting ← read
      throw (.codeSpaceExhausted setting.start)) else pure () : Lowering Unit) s b := rfl
  rw [heq, hb.fits]
  exact ⟨hb.fits, rfl, le_rfl⟩

theorem spends_lastInstruction (i : Instr) (pc : UInt32) :
    Spends s (lastInstruction i pc) 55 := by
  unfold lastInstruction
  exact spends_bind (spends_terminator i pc) (by decide) fun _ =>
    spends_bind spends_releaseLocks (by decide) fun _ => spends_checkSpace

theorem spends_bodyInstruction (i : Instr) (pc : UInt32) :
    Spends s (bodyInstruction i pc) 40 := by
  unfold bodyInstruction
  exact spends_bind spends_charge (by decide) fun _ =>
    spends_bind (spends_of_handsOut (tameRule_plain i pc)) (by decide) fun _ =>
      spends_bind (spends_moveTo _) (by decide) fun _ =>
        spends_bind spends_releaseLocks (by decide) fun _ => spends_checkSpace

/-- **With the reserve free there is room for every instruction.** -/
theorem hasRoom_of_reserve (hfits : b.code.overflowed = false)
    (hreserve : reserve ≤ b.code.spaceLeft) : b.HasRoom 55 := by
  have howed := b.context.owed_le
  refine ⟨hfits, ?_⟩
  simp only [reserve, CodeSpace.spaceLeft] at hreserve
  simp only [Builder.load, CodeSpace.offset]
  omega

/-- `pc` is not the start of a block that starts at `start`, however far it has come. -/
structure Behind (memory : Memory) (start pc : UInt32) : Prop where
  base : memory.base ≤ start
  behind : start < pc ∨ pc < memory.base

theorem Behind.ne {memory : Memory} {start pc : UInt32} (x : Behind memory start pc) :
    pc ≠ start := by
  have hbase := UInt32.le_iff_toNat_le.mp x.base
  rintro rfl
  rcases x.behind with hlt | hlt
  · have := UInt32.lt_iff_toNat_lt.mp hlt
    omega
  · have := UInt32.lt_iff_toNat_lt.mp hlt
    omega

/-- An instruction that can be fetched lies in the window. -/
theorem base_le_of_fetch {memory : Memory} {pc word : UInt32} (hfetch : memory.fetch? pc = some word) :
    memory.base ≤ pc ∧ (pc - memory.base).toNat + 4 ≤ memory.size := by
  rw [Memory.fetch?, Option.map_eq_some_iff] at hfetch
  obtain ⟨offset, hoffset, -⟩ := hfetch
  rw [Memory.offset?] at hoffset
  split at hoffset
  · rename_i h
    exact h
  · cases hoffset

/-- **The instruction after one in the window is behind the start**, since the window is smaller
than the address space. -/
theorem behind_next {memory : Memory} (hsize : memory.size < 2 ^ 32) {start pc word : UInt32}
    (hfetch : memory.fetch? pc = some word) (hpc : pc = start ∨ Behind memory start pc) :
    Behind memory start (pc + 4) := by
  obtain ⟨hbase, hroom⟩ := base_le_of_fetch hfetch
  have hle : memory.base ≤ start ∧ start ≤ pc := by
    rcases hpc with rfl | ⟨hstart, hlt | hlt⟩
    · exact ⟨hbase, UInt32.le_refl _⟩
    · exact ⟨hstart, UInt32.le_of_lt hlt⟩
    · exact absurd hlt (UInt32.not_lt.mpr hbase)
  have hb := UInt32.le_iff_toNat_le.mp hle.1
  have hs := UInt32.le_iff_toNat_le.mp hle.2
  have hnext : (pc + 4).toNat = (pc.toNat + 4) % 2 ^ 32 := UInt32.toNat_add pc 4
  rw [UInt32.toNat_sub_of_le _ _ hbase] at hroom
  have hpc := pc.toNat_lt
  refine ⟨hle.1, ?_⟩
  by_cases hwrap : pc.toNat + 4 < 2 ^ 32
  · refine .inl (UInt32.lt_iff_toNat_lt.mpr ?_)
    rw [hnext, Nat.mod_eq_of_lt hwrap]
    omega
  · refine .inr (UInt32.lt_iff_toNat_lt.mpr ?_)
    rw [hnext]
    omega

/-- Nothing went wrong for want of space. -/
def Safe : Except Failure (α × Builder) → Prop
  | .error e => e.NotSpace
  | .ok (_, b') => b'.code.overflowed = false

theorem safe_of_spends {act : Lowering α} (hact : Spends s act n) (hb : b.HasRoom n) :
    Safe (act s b) := by
  have hspent := hact b hb
  revert hspent
  cases act s b with
  | error e => exact id
  | ok p => exact fun h => h.1

/-- What the test in front of an instruction says. -/
def endsBefore (s : Setting) (b : Builder) (pc : UInt32) : Bool :=
  b.progress.count ≥ s.options.maxBlockInstructions || s.limit = some pc ||
    b.code.spaceLeft < reserve

theorem instructions_succ_eq (room : Nat) (pc : UInt32) : instructions (room + 1) pc s b =
    (if pc ≠ s.start && endsBefore s b pc then endBlock pc else instructionsAt s room pc) s b := rfl

theorem reserve_le_of_not_endsBefore (s : Setting) (pc : UInt32) (hends : endsBefore s b pc = false) :
    reserve ≤ b.code.spaceLeft := by
  rw [endsBefore, Bool.or_eq_false_iff] at hends
  exact Nat.not_lt.mp (of_decide_eq_false hends.2)

/-- **The instructions of a block fit**: at its start there is room for an instruction that ends it,
and behind its start there is room to close it. -/
theorem safe_instructions (hsize : s.memory.size < 2 ^ 32) {room : Nat} {pc : UInt32}
    (hpc : pc = s.start ∧ b.HasRoom 55 ∨ Behind s.memory s.start pc ∧ b.HasRoom 5) :
    Safe (instructions room pc s b) := by
  induction room generalizing pc b with
  | zero =>
    have hroom : b.HasRoom 5 := hpc.elim (fun h => h.2.mono (by decide)) And.right
    exact safe_of_spends (spends_endBlock pc) hroom
  | succ room ih =>
    have hroom : b.HasRoom 5 := hpc.elim (fun h => h.2.mono (by decide)) And.right
    have hend : Safe (endBlock pc s b) := safe_of_spends (spends_endBlock pc) hroom
    rw [instructions_succ_eq]
    by_cases hcond : (pc ≠ s.start && endsBefore s b pc) = true
    · rw [if_pos hcond]
      exact hend
    rw [if_neg hcond]
    have hfree : b.HasRoom 55 := by
      rcases hpc with h | ⟨hbehind, hroom⟩
      · exact h.2
      · refine hasRoom_of_reserve hroom.fits (reserve_le_of_not_endsBefore s pc ?_)
        have hne : decide (pc ≠ s.start) = true := decide_eq_true hbehind.ne
        rw [hne, Bool.true_and] at hcond
        exact Bool.eq_false_iff.mpr hcond
    unfold instructionsAt
    cases hfetch : s.memory.fetch? pc with
    | none =>
      dsimp only
      split
      · exact nofun
      · exact hend
    | some word =>
      dsimp only
      split
      · split
        · exact hend
        · exact safe_of_spends (spends_lastInstruction _ pc) hfree
      · have hbody := spends_bodyInstruction (s := s) ⟨word⟩ pc b (hfree.mono (by decide))
        have hbind : (bodyInstruction ⟨word⟩ pc >>= fun _ => instructions room (pc + 4)) s b =
            (bodyInstruction ⟨word⟩ pc s b >>= fun p => instructions room (pc + 4) s p.2) := rfl
        rw [hbind]
        cases hx : bodyInstruction ⟨word⟩ pc s b with
        | error e =>
          rw [hx] at hbody
          exact hbody
        | ok p =>
          obtain ⟨u, b'⟩ := p
          rw [hx] at hbody
          obtain ⟨hfits, hcapacity, hload⟩ := hbody
          have hleft := hfree.room
          refine ih (.inr ⟨behind_next hsize hfetch ?_, hfits,
            show b'.load + 5 ≤ b'.code.capacity by omega⟩)
          exact hpc.imp And.left And.left

theorem spends_entries : Spends s entries 2 := by
  unfold entries
  refine spends_read fun s' => spends_bind (spends_emit _) (by decide) fun _ => ?_
  exact spends_ite (spends_emit _) (spends_pure _)

end Lowering

open Lowering

/-- **A block that starts with the reserve and two words free does not run out of space.** -/
theorem notSpace_lowerBlock {s : Setting} {code : CodeSpace} (hsize : s.memory.size < 2 ^ 32)
    (hfits : code.overflowed = false) (hfree : reserve + 2 ≤ code.spaceLeft) {e : Failure}
    (herror : (lowerBlock s code).1 = .error e) : e.NotSpace := by
  have hstart : (Builder.start code s).context.owed = 0 := by
    show SlotArena.owed SlotArena.empty + (SlotArena.owed SlotArena.empty +
      SlotArena.owed SlotArena.empty) = 0
    rw [SlotArena.owed_empty, SlotArena.owed_empty, SlotArena.owed_empty]
  have hroom : (Builder.start code s).HasRoom (reserve + 2) := by
    refine ⟨hfits, ?_⟩
    rw [Builder.load, hstart]
    show code.words.size + 0 + (reserve + 2) ≤ code.capacity
    simp only [CodeSpace.spaceLeft] at hfree
    have hpos : 0 < reserve + 2 := by decide
    omega
  have hblock : Safe (block s (Builder.start code s)) := by
    have hentries := spends_entries (s := s) _ (hroom.mono (by decide))
    have hbind : block s (Builder.start code s) = (entries s (Builder.start code s) >>=
        fun p => instructions (room s.memory) s.start s p.2) := rfl
    rw [hbind]
    cases hx : entries s (Builder.start code s) with
    | error e =>
      rw [hx] at hentries
      exact hentries
    | ok p =>
      obtain ⟨u, b⟩ := p
      rw [hx] at hentries
      obtain ⟨hfits, hcapacity, hload⟩ := hentries
      have hleft : _ + 98 ≤ _ := hroom.room
      have hload : b.load ≤ _ + 2 := hload
      have hcapacity : b.code.capacity = _ := hcapacity
      exact safe_instructions hsize (.inl ⟨rfl, hfits, show b.load + 55 ≤ b.code.capacity by omega⟩)
  have hrun : Lowering.block.run s (Builder.start code s) = block s (Builder.start code s) := rfl
  rw [lowerBlock, hrun] at herror
  cases hx : block s (Builder.start code s) with
  | error e' =>
    rw [hx] at hblock herror
    cases herror
    exact hblock
  | ok p =>
    obtain ⟨u, b⟩ := p
    rw [hx] at hblock herror
    dsimp only at herror
    rw [Builder.close, if_neg (by rw [hblock]; decide)] at herror
    cases hresolve : b.code.resolve with
    | mk outcome space =>
      rw [hresolve] at herror
      cases outcome with
      | ok u => cases herror
      | error l =>
        cases herror
        exact nofun

end Dynarec
