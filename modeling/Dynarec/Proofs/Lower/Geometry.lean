import Dynarec.Proofs.Lower.Compiled
import Dynarec.Proofs.Lower.Shape

/-!
# The geometry of a block

Where a block ends is decided in many places: at its limit, at the bound on instructions, where code
space runs low or memory ends, and by the instruction that ends it.  `Setting.Course` says how a
block came to its end: the words in front of it do not end a block, in front of each of them the
block might go on, and with the last one it stops in one of three ways (`Setting.Stops`).
Everything about addresses and counts is arithmetic on that.  The other side is the host code: a
block has at most two exits, and the last word of its code says whether its last branch is left to
the interpreter.  `lowerBlock_geometry` puts the two together.
-/

namespace Dynarec

/-! ### The last word -/

/-- The operation hands over to the interpreter. -/
def Operation.interprets : Operation → Bool
  | .exitInterpret _ => true
  | _ => false

theorem Operation.fits_of_final {op : Operation} (hop : op.Final) : op.Fits := by
  cases op <;> first | exact hop | exact trivial

/-- **The last word leaves the block**, by handing over to the interpreter or not, if every word
fitted. -/
def Builder.EndsIn (b : Builder) (left : Bool) : Prop :=
  b.code.overflowed = false →
    ∃ op : Operation, op.Final ∧ op.interprets = left ∧ b.code.words.back? = some op.encode

namespace Lowering

variable {α β : Type} {s : Setting} {left : Bool} {b b' : Builder}

/-- A step behind which the last word leaves the block. -/
def EndsCode (s : Setting) (act : Lowering α) (left : Bool) : Prop :=
  ∀ b x b', act s b = .ok (x, b') → b'.EndsIn left

theorem endsCode_bind {act : Lowering α} {f : α → Lowering β} (hf : ∀ x, EndsCode s (f x) left) :
    EndsCode s (act >>= f) left := by
  intro b y b'' hok
  obtain ⟨x, b', -, hy⟩ := bind_eq_ok hok
  exact hf x b' y b'' hy

/-- What follows emits nothing. -/
theorem endsCode_finish {act : Lowering Unit} (hact : EndsCode s act left) (stop : UInt32) :
    EndsCode s (act >>= fun _ => finish stop) left := by
  intro b y b'' hok
  obtain ⟨x, b', hx, hy⟩ := bind_eq_ok hok
  have hend := hact b x b' hx
  cases hy
  exact hend

theorem endsIn_emit (op : Operation) (hop : op.Final) {b' : Builder} {c : CodeSpace}
    (hcode : b'.code = c.emit op.encode) : b'.EndsIn op.interprets := by
  intro hfits
  rw [hcode] at hfits ⊢
  rw [(CodeSpace.emit_of_fits hfits).2]
  exact ⟨op, hop, rfl, Array.back?_push⟩

theorem endsCode_exitTo (target amount : UInt32) : EndsCode s (exitTo target amount) false := by
  refine endsCode_bind fun _ b x b' hok => ?_
  cases hok
  exact endsIn_emit (.exitDispatch target) trivial rfl

theorem endsCode_exitHere (target : UInt32) : EndsCode s (exitHere target) false :=
  endsCode_bind fun _ => endsCode_exitTo _ _

theorem endsCode_leave (op : Operation) (hop : op.Final) (stop : UInt32) :
    EndsCode s (do
      subtractProgress
      emit op
      finish stop) op.interprets := by
  refine endsCode_bind fun _ => endsCode_finish (fun b x b' hok => ?_) stop
  cases hok
  exact endsIn_emit op hop rfl

theorem endsCode_endBlock (pc : UInt32) : EndsCode s (endBlock pc) false :=
  endsCode_bind fun _ => endsCode_finish (endsCode_exitHere pc) pc

theorem endsCode_branchExits (condition : Condition) (target fallthrough : UInt32) :
    EndsCode s (branchExits condition target fallthrough) false :=
  endsCode_bind fun _ => endsCode_bind fun _ => endsCode_bind fun _ => endsCode_bind fun _ =>
    endsCode_bind fun _ => endsCode_exitTo _ _

theorem endsCode_branch (i : Instr) (pc : UInt32) (slot : Instr) :
    EndsCode s (branch i pc slot) false := by
  have hlikely : EndsCode s (likelyBranch i pc slot) false := by
    unfold likelyBranch
    iterate 10 refine endsCode_bind fun _ => ?_
    exact endsCode_exitTo _ _
  have hordinary : EndsCode s (ordinaryBranch i pc slot) false := by
    unfold ordinaryBranch
    split
    · exact endsCode_bind fun _ => endsCode_bind fun _ => endsCode_exitHere _
    · split
      · exact endsCode_bind fun _ => endsCode_bind fun _ => endsCode_bind fun _ =>
          endsCode_bind fun _ => endsCode_branchExits _ _ _
      · exact endsCode_bind fun _ => endsCode_bind fun _ => endsCode_bind fun _ =>
          endsCode_bind fun _ => endsCode_branchExits _ _ _
  unfold branch
  refine endsCode_bind fun _ => ?_
  split
  · exact endsCode_finish hlikely _
  · exact endsCode_finish hordinary _

theorem endsCode_jump (i : Instr) (pc : UInt32) (slot : Instr) :
    EndsCode s (jump i pc slot) false := by
  have hrest : EndsCode s (do
      delaySlot slot pc .plain
      flushAll
      exitHere (i.jumpTarget pc)
      finish (pc + 8)) false :=
    endsCode_bind fun _ => endsCode_bind fun _ => endsCode_finish (endsCode_exitHere _) _
  unfold jump
  refine endsCode_bind fun _ => ?_
  split
  · exact endsCode_bind fun _ => hrest
  · exact hrest

theorem endsCode_jumpRegister (i : Instr) (pc : UInt32) (slot : Instr) :
    EndsCode s (jumpRegister i pc slot) false := by
  have hrest : ∀ target : Lowering HostReg, EndsCode s (do
      writeLink (jumpLink i) pc
      delaySlot slot pc .plain
      flushAll
      let target ← target
      subtractProgress
      emit (.exitDispatchReg target)
      finish (pc + 8)) false := fun target =>
    endsCode_bind fun _ => endsCode_bind fun _ => endsCode_bind fun _ => endsCode_bind fun a =>
      endsCode_leave (.exitDispatchReg a) trivial _
  unfold jumpRegister
  refine endsCode_bind fun _ => endsCode_bind fun _ => ?_
  by_cases hchanges : targetChanges i slot = true
  · simp only [hchanges, if_true]
    exact endsCode_bind fun _ => hrest _
  · simp only [hchanges]
    exact hrest _

/-- A branch whose delay slot cannot be compiled is left to the interpreter. -/
def isLeft (memory : Memory) (i : Instr) (pc : UInt32) : Bool :=
  i.family.hasDelaySlot && (delaySlot? memory pc).isNone

/-- **The instruction that ends a block hands over to the interpreter when it is left to it.** -/
theorem endsCode_terminator {i : Instr} (hterm : i.family.isTerminator = true) (pc : UInt32) :
    EndsCode s (terminator i pc) (isLeft s.memory i pc) := by
  intro b x b' hok
  rw [terminator_eq] at hok
  refine (?_ : EndsCode s (terminatorWith (delaySlot? s.memory pc) i pc) _) b x b' hok
  unfold terminatorWith isLeft
  split
  · rename_i hfam
    rw [hfam]
    exact endsCode_bind fun _ => endsCode_bind fun _ =>
      endsCode_leave (.exitSyscall i.code (pc + 4)) (code_lt i) _
  · rename_i hfam
    rw [hfam]
    exact endsCode_bind fun _ => endsCode_bind fun _ => endsCode_leave (.exitBreak pc) trivial _
  · rename_i hs hb
    rw [hasDelaySlot_of_isTerminator hterm hs hb]
    cases delaySlot? s.memory pc with
    | none => exact endsCode_bind fun _ => endsCode_leave (.exitInterpret pc) trivial _
    | some slot =>
      dsimp only
      split
      · exact endsCode_jump i pc slot
      · exact endsCode_jumpRegister i pc slot
      · exact endsCode_branch i pc slot

/-- What is done behind an instruction changes neither the code nor the exits. -/
theorem releaseCheck_ok {x : Unit}
    (hok : (releaseLocks >>= fun _ => checkSpace) s b = .ok (x, b')) :
    b'.code = b.code ∧ b'.exits = b.exits ∧ b'.progress = b.progress := by
  obtain ⟨_, b₁, hrelease, hcheck⟩ := bind_eq_ok hok
  cases hrelease
  rw [checkSpace_eq] at hcheck
  split at hcheck
  · cases hcheck
  · cases hcheck
    exact ⟨rfl, rfl, rfl⟩

theorem endsCode_lastInstruction {i : Instr} (hterm : i.family.isTerminator = true) (pc : UInt32) :
    EndsCode s (lastInstruction i pc) (isLeft s.memory i pc) := by
  intro b x b' hok
  obtain ⟨_, b₁, hlast, hrest⟩ := bind_eq_ok hok
  have hend := endsCode_terminator hterm pc b _ b₁ hlast
  rw [Builder.EndsIn, (releaseCheck_ok hrest).1]
  exact hend

/-! ### Exits -/

theorem exits_leaveBy (inRegister : Bool) (x : Leave) :
    (b.leaveBy inRegister x).exits.size ≤ b.exits.size + 1 := by
  obtain ⟨amount, op⟩ := x
  cases op with
  | exitDispatch target => exact (Array.size_push _).le
  | _ => exact Nat.le_succ _

/-- **The end of a block has at most two exits.** -/
theorem exits_closed (inRegister : Bool) (k : Closing) :
    (b.closed inRegister k).exits.size ≤ b.exits.size + 2 := by
  rw [Builder.closed]
  cases k.sketch.tail with
  | leave way => exact (exits_leaveBy inRegister way).trans (Nat.le_succ _)
  | fork condition slot passed taken =>
    exact (exits_leaveBy inRegister taken).trans
      (Nat.succ_le_succ (exits_leaveBy inRegister passed))

theorem exits_of_closes {act : Lowering Unit} {least most : Nat} {stop : Option UInt32}
    (hact : Closes ∅ act least most stop) {x : Unit} (hok : act s b = .ok (x, b')) :
    b'.exits.size ≤ b.exits.size + 2 := by
  obtain ⟨plan, hplan, -⟩ := hact
  rw [hplan] at hok
  cases hk : plan b.context b.progress with
  | error e =>
    rw [hk] at hok
    cases hok
  | ok k =>
    rw [hk] at hok
    cases hok
    exact exits_closed _ k

/-- **So have the instructions of a block**, since only the last one has any. -/
theorem exits_instructions {room : Nat} {pc : UInt32} {x : Unit}
    (hok : instructions room pc s b = .ok (x, b')) : b'.exits.size ≤ b.exits.size + 2 := by
  induction room generalizing pc b with
  | zero => exact exits_of_closes (closes_endBlock pc) hok
  | succ room ih =>
    rcases instructions_ok hok with ⟨-, hok⟩ | ⟨word, -, ⟨-, hlast⟩ | ⟨-, b₁, hbody, hrest⟩⟩
    · exact exits_of_closes (closes_endBlock pc) hok
    · obtain ⟨_, b₁, hlast, hrest⟩ := bind_eq_ok hlast
      rw [terminator_eq] at hlast
      rw [(releaseCheck_ok hrest).2.1]
      exact exits_of_closes (closes_terminatorWith _ _ pc) hlast
    · obtain ⟨_, b₂, hcharge, hbody⟩ := bind_eq_ok hbody
      cases hcharge
      obtain ⟨_, b₃, hplain, hbody⟩ := bind_eq_ok hbody
      obtain ⟨_, b₄, hmove, hbody⟩ := bind_eq_ok hbody
      cases hmove
      obtain ⟨ops, hemits, -⟩ := straight_plain _ pc _ _ _ hplain
      have hexits : b₁.exits = b.exits := (releaseCheck_ok hbody).2.1.trans hemits.exits
      rw [← hexits]
      exact ih hrest

end Lowering

/-! ### How a block comes to its end -/

/-- Address of the instruction with `n` words of the block in front of it. -/
def Setting.address (s : Setting) (n : Nat) : UInt32 := s.start + 4 * UInt32.ofNat n

theorem Setting.address_zero (s : Setting) : s.address 0 = s.start := UInt32.add_zero _

theorem Setting.address_succ (s : Setting) (n : Nat) : s.address (n + 1) = s.address n + 4 := by
  rw [address, address, UInt32.ofNat_add, UInt32.mul_add, UInt32.add_assoc]
  rfl

theorem Setting.toNat_address {s : Setting} {n : Nat} (h : s.start.toNat + 4 * n < 2 ^ 32) :
    (s.address n).toNat = s.start.toNat + 4 * n := by
  have hn : n < 2 ^ 32 := by omega
  rw [address, UInt32.toNat_add, UInt32.toNat_mul, UInt32.toNat_ofNat_of_lt' hn]
  show (s.start.toNat + 4 * n % 2 ^ 32) % 2 ^ 32 = _
  rw [Nat.mod_eq_of_lt (by omega : 4 * n < 2 ^ 32), Nat.mod_eq_of_lt h]

/-- With `n` instructions in front, a block goes on: neither the bound nor the limit is reached. -/
structure Setting.GoesOn (s : Setting) (n : Nat) : Prop where
  bound : UInt32.ofNat n < s.options.maxBlockInstructions
  limit : s.limit ≠ some (s.address n)

/-- **How a block ends** with `n` words in front and `e` words in all; `left` says whether its last
branch is left to the interpreter. -/
inductive Setting.Stops (s : Setting) (n : Nat) : (e : Nat) → (left : Bool) → Prop
  /-- It is closed in front of an instruction, which is not the first. -/
  | closed (behind : 0 < n) : Stops s n n false
  /-- A request to the system or a breakpoint ends it. -/
  | request {w : UInt32} (fetched : s.memory.fetch? (s.address n) = some w)
      (noSlot : (Instr.mk w).family.hasDelaySlot = false) (goesOn : n = 0 ∨ s.GoesOn n) :
      Stops s n (n + 1) false
  /-- A branch ends it, and the two words are compiled or left. -/
  | branch {w : UInt32} (fetched : s.memory.fetch? (s.address n) = some w)
      (slot : (Instr.mk w).family.hasDelaySlot = true) (goesOn : n = 0 ∨ s.GoesOn n)
      (within : n = 0 ∨ s.limit ≠ some (s.address (n + 1))) :
      Stops s n (n + 2) (Lowering.delaySlot? s.memory (s.address n)).isNone

/-- **The course of a block** from the instruction with `m` words in front of it: instructions that
do not end a block, and an end with `n` words in front. -/
structure Setting.Course (s : Setting) (m n e : Nat) (left : Bool) : Prop where
  le : m ≤ n
  plain : ∀ j, m ≤ j → j < n → ∃ w, s.memory.fetch? (s.address j) = some w ∧
    (Instr.mk w).family.isTerminator = false
  goesOn : ∀ j, m ≤ j → j < n → j = 0 ∨ s.GoesOn j
  stops : s.Stops n e left

/-- **What lowering notes down** of a block of `e` words. -/
structure Builder.Notes (last : Builder) (s : Setting) (e : Nat) (left : Bool) : Prop where
  count : last.progress.count = UInt32.ofNat (e - if left then 2 else 0)
  stop : last.progress.pc = s.address e
  ends : last.EndsIn left

namespace Setting.Course

variable {s : Setting} {m n e : Nat} {left : Bool}

theorem here (h : s.Stops n e left) : s.Course n n e left where
  le := le_rfl
  plain _ hle hlt := absurd hle (Nat.not_le.mpr hlt)
  goesOn _ hle hlt := absurd hle (Nat.not_le.mpr hlt)
  stops := h

theorem step {w : UInt32} (x : s.Course (m + 1) n e left)
    (hfetch : s.memory.fetch? (s.address m) = some w)
    (hplain : (Instr.mk w).family.isTerminator = false) (hgoes : m = 0 ∨ s.GoesOn m) :
    s.Course m n e left where
  le := (Nat.le_succ m).trans x.le
  plain j hm hj := by
    rcases Nat.eq_or_lt_of_le hm with rfl | hlt
    · exact ⟨w, hfetch, hplain⟩
    · exact x.plain j hlt hj
  goesOn j hm hj := by
    rcases Nat.eq_or_lt_of_le hm with rfl | hlt
    · exact hgoes
    · exact x.goesOn j hlt hj
  stops := x.stops

end Setting.Course

namespace Lowering

variable {s : Setting} {b b' : Builder} {m : Nat}

/-- **A block that has not to end in front of an instruction** goes on. -/
theorem goesOn_of_not_mustEnd (hcount : b.progress.count = UInt32.ofNat m)
    (hplace : m = 0 ∨ s.address m ≠ s.start)
    (hnot : ¬ mustEnd s (s.address m) b.progress b.code.room = true) : m = 0 ∨ s.GoesOn m := by
  refine hplace.imp_right fun hne => ?_
  rw [mustEnd, decide_eq_true hne, Bool.true_and, Bool.or_eq_true, Bool.or_eq_true, not_or, not_or,
    decide_eq_true_eq, decide_eq_true_eq, hcount] at hnot
  exact ⟨UInt32.not_le.mp hnot.1.1, hnot.1.2⟩

/-- A block that ends in front of an instruction. -/
theorem course_endBlock (room : Nat) (hne : s.address m ≠ s.start)
    (hcount : b.progress.count = UInt32.ofNat m)
    (hok : endBlock (s.address m) s b = .ok ((), b')) :
    ∃ n e left, n ≤ m + room ∧ s.Course m n e left ∧ b'.Notes s e left := by
  have hm : 0 < m := Nat.pos_of_ne_zero fun h => hne (by rw [h, s.address_zero])
  have hgrowing := (growing_endBlock _ _ _ hok).2
  rw [hcount] at hgrowing
  exact ⟨m, m, false, Nat.le_add_right _ _, .here (.closed hm), hgrowing.trans (UInt32.add_zero _),
    pc_of_closes (closes_endBlock _) hok, endsCode_endBlock _ b () b' hok⟩

/-- The end of a block with an instruction. -/
theorem stops_lastInstruction {w : UInt32} (hfetch : s.memory.fetch? (s.address m) = some w)
    (hterm : (Instr.mk w).family.isTerminator = true) (hplace : m = 0 ∨ s.address m ≠ s.start)
    (hgoes : m = 0 ∨ s.GoesOn m) (hnext : belongsToNext s ⟨w⟩ (s.address m) = false)
    (hcount : b.progress.count = UInt32.ofNat m)
    (hok : lastInstruction ⟨w⟩ (s.address m) s b = .ok ((), b')) :
    ∃ e left, s.Stops m e left ∧ b'.Notes s e left := by
  have hgrowing := (growing_lastInstruction ⟨w⟩ (s.address m) _ _ hok).2
  have hstop := progress_lastInstruction hok
  have hends := endsCode_lastInstruction hterm (s.address m) b () b' hok
  rw [hcount, ← UInt32.ofNat_add] at hgrowing
  by_cases hslot : (Instr.mk w).family.hasDelaySlot = true
  · have hs : (Instr.mk w).family ≠ .syscall := fun h => by rw [h] at hslot; cases hslot
    have hb : (Instr.mk w).family ≠ .breakpoint := fun h => by rw [h] at hslot; cases hslot
    rw [isLeft, hslot, Bool.true_and] at hends
    rw [terminatorStop_slot hs hb, show s.address m + 8 = s.address m + 4 + 4 from
      (UInt32.add_assoc _ 4 4).symm, ← s.address_succ, ← s.address_succ] at hstop
    rw [terminatorCount_slot hs hb] at hgrowing
    refine ⟨_, _, .branch hfetch hslot hgoes (hplace.imp_right fun hne => ?_), ?_, hstop, hends⟩
    · rw [belongsToNext, hslot, decide_eq_true hne, Bool.true_and, Bool.true_and,
        decide_eq_false_iff_not] at hnext
      rw [s.address_succ]
      exact hnext
    · rw [hgrowing]
      cases delaySlot? s.memory (s.address m) <;> rfl
  · have hfam : (Instr.mk w).family = .syscall ∨ (Instr.mk w).family = .breakpoint := by
      by_contra hnot
      rw [not_or] at hnot
      exact hslot (hasDelaySlot_of_isTerminator hterm hnot.1 hnot.2)
    rw [isLeft, Bool.eq_false_iff.mpr hslot, Bool.false_and] at hends
    refine ⟨_, _, .request hfetch (Bool.eq_false_iff.mpr hslot) hgoes, ?_, ?_, hends⟩
    · rw [hgrowing, terminatorCount]
      rcases hfam with hfam | hfam <;> rw [hfam] <;> rfl
    · rw [hstop, terminatorStop, s.address_succ]
      rcases hfam with hfam | hfam <;> rw [hfam]

/-- **The course of the instructions of a block**, by induction on how many memory holds. -/
theorem course_instructions (hsize : s.memory.size < 2 ^ 32) {room : Nat}
    (hplace : m = 0 ∧ 0 < room ∨ Behind s.memory s.start (s.address m))
    (hcount : b.progress.count = UInt32.ofNat m)
    (hok : instructions room (s.address m) s b = .ok ((), b')) :
    ∃ n e left, n ≤ m + room ∧ s.Course m n e left ∧ b'.Notes s e left := by
  induction room generalizing m b with
  | zero => exact course_endBlock 0 (hplace.resolve_left fun h => Nat.lt_irrefl 0 h.2).ne hcount hok
  | succ room ih =>
    rw [instructions_eq] at hok
    split at hok
    · rename_i hends
      rw [mustEnd, Bool.and_eq_true] at hends
      exact course_endBlock _ (of_decide_eq_true hends.1) hcount hok
    · rename_i hnot
      have hstart : m = 0 ∨ s.address m ≠ s.start := hplace.imp And.left Behind.ne
      have hgoes := goesOn_of_not_mustEnd hcount hstart hnot
      unfold instructionsAt at hok
      cases hfetch : s.memory.fetch? (s.address m) with
      | none =>
        rw [hfetch] at hok
        dsimp only at hok
        split at hok
        · cases hok
        · rename_i hne
          exact course_endBlock _ hne hcount hok
      | some w =>
        rw [hfetch] at hok
        dsimp only at hok
        split at hok
        · rename_i hterm
          split at hok
          · rename_i hnext
            rw [belongsToNext, Bool.and_eq_true, Bool.and_eq_true] at hnext
            exact course_endBlock _ (of_decide_eq_true hnext.1.2) hcount hok
          · rename_i hnext
            obtain ⟨e, left, hstops, hnotes⟩ := stops_lastInstruction hfetch hterm hstart hgoes
              (Bool.eq_false_iff.mpr hnext) hcount hok
            exact ⟨m, e, left, Nat.le_add_right _ _, .here hstops, hnotes⟩
        · rename_i hterm
          obtain ⟨_, b₁, hbody, hrest⟩ := bind_eq_ok hok
          have hgrowing := (growing_bodyInstruction ⟨w⟩ (s.address m) _ _ hbody).2
          rw [hcount, ← UInt32.ofNat_add] at hgrowing
          have hbehind : Behind s.memory s.start (s.address m + 4) :=
            behind_next hsize hfetch (hplace.imp_left fun h => by rw [h.1, s.address_zero])
          rw [← s.address_succ] at hrest hbehind
          obtain ⟨n, e, left, hn, x, hnotes⟩ := ih (.inr hbehind) hgrowing hrest
          exact ⟨n, e, left, by omega, x.step hfetch (Bool.eq_false_iff.mpr hterm) hgoes, hnotes⟩

end Lowering

/-! ### Words, counts and addresses -/

namespace Setting

variable {s : Setting} {n e : Nat} {left : Bool}

theorem GoesOn.lt (x : s.GoesOn n) (hn : n < 2 ^ 32) : n < s.options.maxBlockInstructions.toNat := by
  have hlt := UInt32.lt_iff_toNat_lt.mp x.bound
  rwa [UInt32.toNat_ofNat_of_lt' hn] at hlt

/-- As long as a block goes on, it is not longer than a block may be. -/
theorem lt_blockLength (h : n = 0 ∨ s.GoesOn n) (hn : n < 2 ^ 32) : n < s.options.blockLength := by
  rcases h with rfl | hgoes
  · exact Nat.lt_of_lt_of_le Nat.zero_lt_one (Nat.le_max_right _ _)
  · exact Nat.lt_of_lt_of_le (hgoes.lt hn) (Nat.le_max_left _ _)

theorem Stops.bounds (x : s.Stops n e left) : 0 < e ∧ n ≤ e ∧ e ≤ n + 2 := by
  cases x with
  | closed behind => exact ⟨behind, le_rfl, Nat.le_add_right _ _⟩
  | request => exact ⟨Nat.succ_pos n, Nat.le_succ n, Nat.le_succ _⟩
  | branch => exact ⟨Nat.succ_pos _, Nat.le_add_right _ _, le_rfl⟩

theorem Stops.two_le (x : s.Stops n e left) (hleft : left = true) : 2 ≤ e := by
  cases x with
  | closed | request => cases hleft
  | branch => exact Nat.le_add_left _ _

/-- The first word of the block is a branch with a delay slot. -/
def StartsWithBranch (s : Setting) : Prop :=
  ∃ w, s.memory.fetch? s.start = some w ∧ (Instr.mk w).family.hasDelaySlot = true

theorem isTerminator_of_hasDelaySlot {f : Family} (h : f.hasDelaySlot = true) :
    f.isTerminator = true := by
  revert h
  cases f <;> decide

namespace Course

/-- **The bound on instructions is kept**; a branch may bring one more, its delay slot. -/
theorem le_blockLength (x : s.Course 0 n e left) (hn : n < 2 ^ 32) :
    e ≤ s.options.blockLength + 1 := by
  cases x.stops with
  | closed behind =>
    have hlt := lt_blockLength (x.goesOn (n - 1) (Nat.zero_le _) (by omega)) (by omega)
    omega
  | request _ _ goesOn =>
    have hlt := lt_blockLength goesOn hn
    omega
  | branch _ _ goesOn _ =>
    have hlt := lt_blockLength goesOn hn
    omega

/-- The block does not start with a branch unless it ends with it. -/
theorem not_startsWithBranch (x : s.Course 0 n e left) (hn : 0 < n) : ¬ s.StartsWithBranch := by
  rintro ⟨w, hfetch, hslot⟩
  obtain ⟨w', hfetch', hplain⟩ := x.plain 0 le_rfl hn
  rw [s.address_zero, hfetch, Option.some_inj] at hfetch'
  rw [← hfetch', isTerminator_of_hasDelaySlot hslot] at hplain
  cases hplain

/-- **The limit is kept**, unless it cuts the first branch off from its delay slot. -/
theorem limit {q : Nat} (x : s.Course 0 n e left) (hq : 0 < q) (hlimit : s.limit = some (s.address q)) :
    (q = 1 ∧ s.StartsWithBranch → e = 2) ∧ (¬ (q = 1 ∧ s.StartsWithBranch) → e ≤ q) := by
  have hpast : ∀ j, j = 0 ∨ s.GoesOn j → q ≠ j := fun j hj heq => by
    rcases hj with rfl | hgoes
    · exact absurd heq hq.ne'
    · exact hgoes.limit (heq ▸ hlimit)
  have hle : n ≤ q := by
    by_contra hlt
    exact hpast q (x.goesOn q (Nat.zero_le _) (Nat.not_le.mp hlt)) rfl
  cases x.stops with
  | closed behind =>
    exact ⟨fun h => absurd h.2 (x.not_startsWithBranch behind), fun _ => hle⟩
  | @request w fetched noSlot goesOn =>
    have hne := hpast n goesOn
    refine ⟨fun h => ?_, fun _ => by omega⟩
    obtain ⟨rfl, w', hfetch, hslot⟩ := h
    have hn : n = 0 := by omega
    rw [hn, s.address_zero, hfetch, Option.some_inj] at fetched
    rw [fetched, noSlot] at hslot
    cases hslot
  | @branch w fetched slot goesOn within =>
    have hne := hpast n goesOn
    refine ⟨fun h => by omega, fun h => ?_⟩
    rcases within with rfl | hnext
    · rw [s.address_zero] at fetched
      have hone : q ≠ 1 := fun hone => h ⟨hone, w, fetched, slot⟩
      omega
    · have hnext : q ≠ n + 1 := fun heq => hnext (heq ▸ hlimit)
      omega

/-- **A block ends with a branch that is left** where lowering leaves one. -/
theorem leaves_iff (x : s.Course 0 n e left) {k : Nat} (hk : k + 2 = e) :
    left = true ↔ s.Leaves (s.address e) (s.address k) := by
  have hplain : k < n → ¬ s.Leaves (s.address e) (s.address k) := fun hlt hleaves => by
    obtain ⟨-, w, hfetch, hslot, -⟩ := hleaves
    obtain ⟨w', hfetch', hplain⟩ := x.plain k (Nat.zero_le _) hlt
    rw [hfetch, Option.some_inj] at hfetch'
    rw [← hfetch', isTerminator_of_hasDelaySlot hslot] at hplain
    cases hplain
  cases x.stops with
  | closed behind => exact ⟨nofun, fun h => absurd h (hplain (by omega))⟩
  | request => exact ⟨nofun, fun h => absurd h (hplain (by omega))⟩
  | @branch w fetched slot _ _ =>
    obtain rfl : k = n := by omega
    rw [Option.isNone_iff_eq_none]
    refine ⟨fun hnone => ⟨?_, w, fetched, slot, hnone⟩, fun h => ?_⟩
    · rw [s.address_succ, s.address_succ, UInt32.add_assoc]
      rfl
    · obtain ⟨-, _, -, -, hnone⟩ := h
      exact hnone

theorem left_iff (x : s.Course 0 n e left) (hwrap : s.start.toNat + 4 * e < 2 ^ 32) :
    left = true ↔
      s.start.toNat + 8 ≤ (s.address e).toNat ∧ s.Leaves (s.address e) (s.address e - 8) := by
  rw [s.toNat_address hwrap]
  by_cases htwo : 2 ≤ e
  · obtain ⟨k, rfl⟩ := Nat.exists_eq_add_of_le' htwo
    have hback : s.address (k + 2) - 8 = s.address k := by
      rw [s.address_succ, s.address_succ, UInt32.add_assoc]
      exact UInt32.add_sub_cancel _ 8
    rw [hback, x.leaves_iff rfl]
    exact ⟨fun h => ⟨by omega, h⟩, And.right⟩
  · exact ⟨fun hleft => absurd (x.stops.two_le hleft) htwo, fun h => by omega⟩

/-- The limit, as an address behind the start and a whole number of words from it. -/
theorem limit_address (x : s.Course 0 n e left) (hwrap : s.start.toNat + 4 * e < 2 ^ 32) {l : UInt32}
    (hlimit : s.limit = some l) (hlt : s.start < l) (hwords : 4 ∣ l.toNat - s.start.toNat) :
    (l = s.start + 4 ∧ s.StartsWithBranch → s.address e = s.start + 8) ∧
      (¬ (l = s.start + 4 ∧ s.StartsWithBranch) → s.address e ≤ l) := by
  have hlt := UInt32.lt_iff_toNat_lt.mp hlt
  obtain ⟨q, hq⟩ := hwords
  have hbound := l.toNat_lt
  have hnat : (s.address q).toNat = s.start.toNat + 4 * q := s.toNat_address (by omega)
  have hl : l = s.address q := UInt32.toNat_inj.mp (by omega)
  have hnext : l = s.start + 4 ↔ q = 1 := by
    have hone : s.start + 4 = s.address 1 := by rw [s.address_succ, s.address_zero]
    rw [hl, hone, ← UInt32.toNat_inj, hnat, s.toNat_address (by omega)]
    omega
  obtain ⟨hcut, hkept⟩ := x.limit (by omega) (hl ▸ hlimit)
  rw [hnext]
  refine ⟨fun h => ?_, fun h => UInt32.le_iff_toNat_le.mpr ?_⟩
  · rw [hcut h, s.address_succ, s.address_succ, s.address_zero, UInt32.add_assoc]
    rfl
  · have hle := hkept h
    rw [s.toNat_address hwrap]
    omega

end Course

end Setting

/-! ### The block -/

/-- **The last branch of the block is left to the interpreter**: its code ends by handing over. -/
def Block.leavesBranch (block : Block) (code : CodeSpace) : Bool :=
  (code.operation? (block.codeEnd - 1)).any Operation.interprets

/-- Bytes of guest code that the block is made of: the instructions that it counts, and the branch
and its delay slot if they are left to the interpreter. -/
def Block.span (block : Block) (code : CodeSpace) : Nat :=
  4 * block.instructions.toNat + if block.leavesBranch code then 8 else 0

/-- **The geometry of a block** in the code space that holds it. -/
structure Block.Geometry (block : Block) (s : Setting) (code : CodeSpace) : Prop where
  start : block.start = s.start
  stop : s.start < block.stop
  aligned : 4 ∣ block.stop.toNat - s.start.toNat
  checkedEntry : block.checkedEntry = block.codeStart ∧ code.operation? block.codeStart =
    some (.checkEntry s.options.downcountInRegister s.start)
  normalEntry : block.normalEntry = block.codeStart + 1
  exits : block.exits.size ≤ 2
  stubsApart : (block.exits.toList.map Exit.stub).Nodup
  inside : ∀ e ∈ block.exits, block.codeStart ≤ e.stub ∧ e.stub < block.codeEnd
  dispatches : ∀ e ∈ block.exits, code.operation? e.stub = some (.exitDispatch e.target)
  /-- Every word is counted, unless the last branch is left. -/
  counted : block.span code = block.stop.toNat - s.start.toNat
  /-- It is left where the block ends with a branch whose delay slot cannot be compiled. -/
  left : block.leavesBranch code = true ↔
    s.start.toNat + 8 ≤ block.stop.toNat ∧ s.Leaves block.stop (block.stop - 8)
  bound : block.instructions.toNat ≤ s.options.blockLength + 1
  /-- The limit is kept, unless it lies between a branch at the start and its delay slot. -/
  limit : ∀ l, s.limit = some l →
    (l = s.start + 4 ∧ s.StartsWithBranch → block.stop = s.start + 8) ∧
    (¬ (l = s.start + 4 ∧ s.StartsWithBranch) → block.stop ≤ l)

namespace Finished

variable {s : Setting} {code resolved : CodeSpace} {block : Block} {last : Builder} {left : Bool}

/-- **The last word of a finished block.** -/
theorem leavesBranch (f : Finished s code block resolved last)
    (hrefs : ∀ p l, (p, l) ∈ code.references → p < code.offset) (hends : last.EndsIn left) :
    block.leavesBranch resolved = left := by
  obtain ⟨op, hfinal, hleft, hback⟩ := hends f.fits
  obtain ⟨ops, refs, exits, x⟩ := f.goesOn f.fits
  have hoffset := f.entered_offset
  have hlen := x.offset
  have hop : last.code.operation? (last.code.offset - 1) = some op := by
    rw [Array.back?] at hback
    rw [CodeSpace.operation?, CodeSpace.word?, CodeSpace.offset, hback]
    exact Operation.decode?_encode (Operation.fits_of_final hfinal)
  have hword : resolved.words[last.code.offset - 1]? = last.code.words[last.code.offset - 1]? := by
    refine Builder.Adds.word_resolve f.resolve fun l hl => ?_
    rw [x.allReferences] at hl
    rcases List.mem_append.mp hl with hl | hl
    · have hlt := (f.placed hrefs).refs _ l hl
      rw [f.entered_code] at hl
      have hlt := hrefs _ l hl
      omega
    · obtain ⟨k, c, heq, hk⟩ := x.refAt _ l hl
      have hjump := x.operation? (show (Operation.jumpIf c 0).Fits from trivial) hk
      rw [← heq, hop] at hjump
      cases hjump
      exact hfinal
  rw [← hleft, Block.leavesBranch, f.block_eq]
  show (resolved.operation? (last.code.offset - 1)).any _ = _
  rw [CodeSpace.operation?, CodeSpace.word?, hword]
  exact congrArg (Option.any Operation.interprets) hop

/-- **The course of a finished block.** -/
theorem course (f : Finished s code block resolved last) (hsize : s.memory.size < 2 ^ 32) :
    ∃ n e left, n < 2 ^ 31 ∧ s.Course 0 n e left ∧ last.Notes s e left := by
  obtain ⟨b, hguard, hok⟩ := f.run
  rw [← s.address_zero] at hok
  obtain ⟨n, e, left, hn, x, hnotes⟩ := Lowering.course_instructions hsize
    (.inl ⟨rfl, Nat.succ_pos _⟩) (Lowering.growing_guardEntry _ _ hguard).2 hok
  have hroom : Lowering.room s.memory = s.memory.size / 4 + 1 := rfl
  exact ⟨n, e, left, by omega, x, hnotes⟩

theorem exits_size (f : Finished s code block resolved last) : block.exits.size ≤ 2 := by
  obtain ⟨b, hguard, hok⟩ := f.run
  have hexits : b.exits = #[] := by
    rw [Lowering.guardEntry] at hguard
    split at hguard <;> cases hguard <;> rfl
  have hle := Lowering.exits_instructions hok
  rw [hexits] at hle
  rw [f.block_eq]
  exact hle

/-- **The exits of a finished block** are in its code, each at a word of its own. -/
theorem exits_stubs (f : Finished s code block resolved last)
    (hrefs : ∀ p l, (p, l) ∈ code.references → p < code.offset) :
    (block.exits.toList.map Exit.stub).Nodup ∧
      ∀ e ∈ block.exits, (block.codeStart ≤ e.stub ∧ e.stub < block.codeEnd) ∧
        resolved.operation? e.stub = some (.exitDispatch e.target) := by
  obtain ⟨ops, refs, exits, x⟩ := f.goesOn f.fits
  have hexits : block.exits.toList = exits := by
    rw [f.block_eq]
    exact x.allExits
  refine ⟨hexits ▸ x.stubsApart, fun e he => ?_⟩
  have he : e ∈ exits := hexits ▸ Array.mem_toList_iff.mpr he
  obtain ⟨hstub, hlt⟩ := x.stub_lt he
  rw [f.entered_offset] at hstub
  refine ⟨?_, x.exit_resolve (f.placed hrefs) f.resolve he⟩
  rw [f.block_eq]
  exact ⟨Nat.le_of_succ_le hstub, hlt⟩

/-- **What a finished block spans** is what its words come to. -/
theorem span_eq (f : Finished s code block resolved last)
    (hrefs : ∀ p l, (p, l) ∈ code.references → p < code.offset) {n e : Nat} (hn : n < 2 ^ 31)
    (hstops : s.Stops n e left) (hnotes : last.Notes s e left) :
    block.instructions.toNat = e - (if left then 2 else 0) ∧ block.span resolved = 4 * e := by
  have hbounds := hstops.bounds
  have hcount : block.instructions.toNat = e - if left then 2 else 0 := by
    rw [f.block_eq]
    refine (congrArg UInt32.toNat hnotes.count).trans (UInt32.toNat_ofNat_of_lt' ?_)
    exact Nat.lt_of_le_of_lt (Nat.sub_le _ _) (show e < 2 ^ 32 by omega)
  refine ⟨hcount, ?_⟩
  have htwo := hstops.two_le
  rw [Block.span, f.leavesBranch hrefs hnotes.ends, hcount]
  cases left with
  | false => rfl
  | true => exact (Nat.mul_add 4 (e - 2) 2).symm.trans (by rw [Nat.sub_add_cancel (htwo rfl)])

/-- **How many instructions a finished block has**: its bound, and the delay slot of the last one. -/
theorem instructions_le (f : Finished s code block resolved last)
    (hrefs : ∀ p l, (p, l) ∈ code.references → p < code.offset) (hsize : s.memory.size < 2 ^ 32) :
    block.instructions.toNat ≤ s.options.blockLength + 1 := by
  obtain ⟨n, e, left, hn, x, hnotes⟩ := f.course hsize
  obtain ⟨hcount, -⟩ := f.span_eq hrefs hn x.stops hnotes
  have hlength := x.le_blockLength (by omega)
  omega

end Finished

/-- **The geometry of blocks.**  A block that is lowered starts where it was asked to and ends
behind that, a whole number of words further; its code starts with its entries, and its exits, two
at most, are in it; every word is counted once, unless the last branch is left to the interpreter;
and neither the bound on instructions nor the limit is passed by more than a branch needs. -/
theorem lowerBlock_geometry {s : Setting} {code space : CodeSpace} {block : Block}
    (hsize : s.memory.size < 2 ^ 32)
    (hlimit : ∀ l, s.limit = some l → s.start < l ∧ 4 ∣ l.toNat - s.start.toNat)
    (hrefs : ∀ p l, (p, l) ∈ code.references → p < code.offset)
    (hok : lowerBlock s code = (.ok block, space))
    (hwrap : s.start.toNat + block.span space < 2 ^ 32) : block.Geometry s space := by
  obtain ⟨last, f⟩ := finished_of_ok hok
  obtain ⟨n, e, left, hn, x, hnotes⟩ := f.course hsize
  obtain ⟨hpos, hle, hmost⟩ := x.stops.bounds
  obtain ⟨hcount, hspan⟩ := f.span_eq hrefs hn x.stops hnotes
  obtain ⟨hapart, hstubs⟩ := f.exits_stubs hrefs
  rw [hspan] at hwrap
  have hend : block.stop = s.address e := by
    rw [f.block_eq]
    exact hnotes.stop
  have hwords : block.stop.toNat = s.start.toNat + 4 * e := by rw [hend, s.toNat_address hwrap]
  have hblock : block.start = s.start ∧ block.checkedEntry = block.codeStart ∧
      block.codeStart = code.offset ∧ block.normalEntry = block.codeStart + 1 := by
    rw [f.block_eq]
    exact ⟨rfl, rfl, rfl, rfl⟩
  exact {
    start := hblock.1
    stop := UInt32.lt_iff_toNat_lt.mpr (by omega)
    aligned := ⟨e, by omega⟩
    checkedEntry := ⟨hblock.2.1, hblock.2.2.1 ▸ f.checkEntry hrefs⟩
    normalEntry := hblock.2.2.2
    exits := f.exits_size
    stubsApart := hapart
    inside := fun z hz => (hstubs z hz).1
    dispatches := fun z hz => (hstubs z hz).2
    counted := by omega
    left := by
      rw [f.leavesBranch hrefs hnotes.ends, hend]
      exact x.left_iff hwrap
    bound := f.instructions_le hrefs hsize
    limit := fun l hl => by
      rw [hend]
      exact x.limit_address hwrap hl (hlimit l hl).1 (hlimit l hl).2 }

/-- Memory with a branch on two equal registers, and nothing behind it. -/
def edgeMemory : Memory :=
  { Memory.create 0x1000 4 with bytes := ⟨#[0x01, 0x00, 0x22, 0x10]⟩ }

/-- The block of that branch, whose limit lies in front of the missing delay slot. -/
def edgeSetting : Setting := ⟨edgeMemory, {}, 0x1000, .anyModifiers, some 0x1004⟩

/-- The branch is left to the interpreter and not counted, and the block ends behind the missing
slot, one word past its limit. -/
theorem lowerBlock_geometry_edge :
    ∃ block space, lowerBlock edgeSetting ⟨#[], 8, false, #[], []⟩ = (.ok block, space) ∧
      (block.leavesBranch space = true ∧ block.instructions = 0 ∧ block.stop = 0x1008) ∧
      block.Geometry edgeSetting space := by
  have hmade : (match lowerBlock edgeSetting ⟨#[], 8, false, #[], []⟩ with
    | (.ok block, space) => decide (block.leavesBranch space = true ∧ block.instructions = 0 ∧
        block.stop = 0x1008 ∧ 0x1000 + block.span space < 2 ^ 32)
    | _ => false) = true := by decide +kernel
  split at hmade
  · rename_i block space hok
    obtain ⟨hleft, hcount, hstop, hwrap⟩ := of_decide_eq_true hmade
    refine ⟨block, space, hok, ⟨hleft, hcount, hstop⟩,
      lowerBlock_geometry (by decide) (fun l hl => ?_) (fun _ _ h => absurd h List.not_mem_nil) hok
        hwrap⟩
    obtain rfl := Option.some_inj.mp hl
    decide
  · cases hmade

end Dynarec
