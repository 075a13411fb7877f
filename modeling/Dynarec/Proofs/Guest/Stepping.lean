import Dynarec.Proofs.Guest.Images
import Dynarec.Proofs.Guest.Reference

/-!
# One step of the interpreter

A step has one of three outcomes.  It traps, and leaves the machine as it was, if no word can be
fetched or the word is refused (`Machine.Refused`); it breaks a promise if the instruction stores in
the window up to the end of the address space (`Machine.Broken`); otherwise it retires the
instruction (`Machine.Stepped`).  `Machine.step_outcomes` says that these are all and when each of
them happens.

Words are refused by their family, and moves between the units by their selector.  The other tables
of functions end in a row for what is left; `Instr.hasRow_iff` says that what is left is one
function.
-/

namespace Dynarec

namespace Instr

variable {i : Instr}

/-- **The core has no such instruction.** -/
def Refused (i : Instr) : Prop :=
  i.family = .unknown ∨ i.family = .vectorMove ∧ 0x90 ≤ i.moveSelector

/-- **The table of functions that the word selects from has a row for it.** -/
def HasRow (i : Instr) : Prop :=
  match i.family with
  | .arithmetic => i.funct.toNat ∈ [0x0A, 0x0B, 0x20, 0x21, 0x22, 0x23, 0x24, 0x25, 0x26, 0x27, 0x2A,
      0x2B, 0x2C, 0x2D]
  | .vectorBinary => (i.major.toNat, i.vectorSubop.toNat) ∈
      [(0x18, 0), (0x18, 1), (0x18, 7), (0x19, 0), (0x1B, 2), (0x1B, 3)]
  | .vectorUnary => i.unaryCode.toNat ∈ [0, 1, 2, 4, 5, 6, 7]
  | .vectorMove => i.moveSelector < 0x90
  | family => family ≠ .unknown

/-- **Every word that is not refused has a row.** -/
theorem hasRow_iff : i.HasRow ↔ ¬ i.Refused := by
  rw [HasRow, Refused]
  generalize hfam : i.family = f
  unfold family at hfam
  -- one case for each word of the tables of families
  split at hfam
  all_goals
    try simp only [familySpecial, familySign, familyVectorControl, familyBits, familyUnary] at hfam
    repeat' split at hfam
  all_goals
    subst hfam
    simp_all [UInt32.not_le]

/-- The register that a branch writes its link to. -/
def linkRegister? (i : Instr) : Option (Fin 32) :=
  match i.family with
  | .branchSign => if i.bit 20 then some 31 else none
  | .jump => if i.major == 3 then some 31 else none
  | .jumpRegister => if i.funct == 9 then some i.rd else none
  | _ => none

/-- The stores of consecutive words: where each starts, and its length. -/
def wordStores (address : UInt32) : Nat → List (UInt32 × Nat)
  | 0 => []
  | count + 1 => (address, 4) :: wordStores (address + 4) count

/-- How many bytes a scalar store writes. -/
def storeLength (i : Instr) : Nat :=
  if i.major.toNat = 0x28 then 1 else if i.major.toNat = 0x29 then 2 else 4

/-- The stores of a scalar load or store. -/
def scalarStores (c : Core) (i : Instr) : List (UInt32 × Nat) :=
  if i.major.toNat ∈ [0x20, 0x21, 0x23, 0x24, 0x25] then []
  else [(Machine.scalarAddress c i, i.storeLength)]

/-- **The stores of an instruction**: where each starts, and its length. -/
def stores (c : Core) (i : Instr) : List (UInt32 × Nat) :=
  match i.family with
  | .memory => i.scalarStores c
  | .elementMemory => if i.major == 0x32 then [] else wordStores (Machine.vectorAddress c i) 1
  | .quadMemory => if i.major == 0x36 then [] else wordStores (Machine.vectorAddress c i) 4
  | _ => []

end Instr

namespace Memory

variable {m m' : Memory} {address : UInt32} {data : List UInt8}

/-- A store that completes leaves the window. -/
theorem breaks_of_store (hok : m.store address data = .ok m') (s : UInt32 × Nat) :
    m'.Breaks s ↔ m.Breaks s := by
  have hsame : m'.base = m.base ∧ m'.size = m.size := by
    rcases store_cases hok with ⟨-, rfl⟩ | ⟨offset, -, -, rfl⟩
    · exact ⟨rfl, rfl⟩
    · exact ⟨rfl, size_putBytes _ _ _⟩
  rw [Breaks, Breaks, contains, contains, offset?, offset?, hsame.1, hsame.2]

end Memory

namespace Machine

variable {m m' : Machine} {i : Instr} {pc : UInt32} {event : StepEvent}

/-! ### Instructions that break a promise -/

theorem storeElements_error_iff {core : Core} {memory : Memory} {address : UInt32} {es : List Element} :
    (∃ v, storeElements core memory address es = .error v) ↔
      ∃ s ∈ Instr.wordStores address es.length, memory.Breaks s := by
  induction es generalizing memory address with
  | nil => exact iff_of_false (by simp [storeElements]) (by simp [Instr.wordStores])
  | cons e rest ih =>
    rw [storeElements, List.length_cons, Instr.wordStores]
    simp only [List.mem_cons, or_and_right, exists_or, exists_eq_left]
    have hone : (∃ v, memory.writeSingle address (core.element e) = .error v) ↔
        memory.Breaks (address, 4) := Memory.store_error_iff
    cases hwrite : memory.writeSingle address (core.element e) with
    | error v =>
      rw [hwrite] at hone
      exact iff_of_true ⟨v, rfl⟩ (.inl (hone.mp ⟨v, rfl⟩))
    | ok memory' =>
      rw [hwrite] at hone
      rw [or_iff_right fun hbreaks => by obtain ⟨v, hv⟩ := hone.mpr hbreaks; cases hv]
      simp only [← Memory.breaks_of_store hwrite]
      exact ih

theorem map_error_iff {α β : Type} {f : α → β} {x : Except Violation α} :
    (∃ v, x.map f = .error v) ↔ ∃ v, x = .error v := by
  cases x with
  | error v => exact iff_of_true ⟨v, rfl⟩ ⟨v, rfl⟩
  | ok a => exact iff_of_false (by simp [Except.map]) (by simp)

/-- What an instruction does to the core alone is no error. -/
@[simp] theorem withCore_ne_error {f : Core → Core} {e : StepError} : m.withCore f ≠ .error e m' := by
  intro h
  cases h

theorem withMemory_violation_iff {f : Machine → Except Violation Machine} :
    (∃ v m', m.withMemory f = .error (.violation v) m') ↔ ∃ v, f m = .error v := by
  rw [withMemory]
  cases f m with
  | error v => exact iff_of_true ⟨v, _, rfl⟩ ⟨v, rfl⟩
  | ok m₁ => exact iff_of_false (by simp) (by simp)

theorem executeMemory_error_iff :
    (∃ v, m.executeMemory i = .error v) ↔ ∃ s ∈ i.scalarStores m.core, m.memory.Breaks s := by
  have hload : ∀ m', (∃ v, (.ok m' : Except Violation Machine) = .error v) ↔
      ∃ s ∈ ([] : List (UInt32 × Nat)), m.memory.Breaks s := fun m' =>
    iff_of_false (by simp) (by simp)
  have hstore : ∀ address data,
      (∃ v, (m.memory.store address data).map (Machine.mk m.core) = .error v) ↔
        ∃ s ∈ [(address, data.length)], m.memory.Breaks s := fun address data => by
    rw [map_error_iff, Memory.store_error_iff]
    simp only [List.mem_singleton, exists_eq_left]
  rw [executeMemory, Instr.scalarStores]
  split
  case h_1 hmajor | h_2 hmajor | h_3 hmajor | h_4 hmajor | h_5 hmajor =>
    rw [if_pos (by simp [hmajor])]
    exact hload _
  case h_6 hmajor | h_7 hmajor =>
    rw [if_neg (by simp [hmajor]), Instr.storeLength, hmajor]
    exact hstore _ _
  case h_8 h20 h21 h23 h24 h25 h28 h29 =>
    have hstores : i.major.toNat ∉ [0x20, 0x21, 0x23, 0x24, 0x25] := by
      simp only [List.mem_cons, List.not_mem_nil, or_false, not_or]
      exact ⟨h20, h21, h23, h24, h25⟩
    rw [if_neg hstores, Instr.storeLength, if_neg h28, if_neg h29]
    exact hstore _ _

theorem executeVectorMemory_error_iff {es : List Element} {loads : Bool} :
    (∃ v, m.executeVectorMemory i es loads = .error v) ↔
      ∃ s ∈ (if loads then [] else Instr.wordStores (vectorAddress m.core i) es.length),
        m.memory.Breaks s := by
  rw [executeVectorMemory]
  split
  · exact iff_of_false (by simp) (by simp)
  · rw [map_error_iff]
    exact storeElements_error_iff

/-- **An instruction breaks a promise** exactly when one of its stores does. -/
theorem execute_violation_iff :
    (∃ v m', execute i pc m = .error (.violation v) m') ↔
      ∃ s ∈ i.stores m.core, m.memory.Breaks s := by
  unfold execute Instr.stores
  cases i.family
  case memory => exact withMemory_violation_iff.trans executeMemory_error_iff
  case elementMemory => exact withMemory_violation_iff.trans executeVectorMemory_error_iff
  case quadMemory => exact withMemory_violation_iff.trans executeVectorMemory_error_iff
  case vectorMove =>
    refine iff_of_false ?_ (by simp)
    rintro ⟨v, m', hv⟩
    dsimp only at hv
    split at hv <;> cases hv
  all_goals exact iff_of_false (by simp) (by simp)

/-- **An instruction that is not a branch traps** exactly when the core has no such instruction. -/
theorem execute_trap_iff (hfam : i.family.hasDelaySlot = false) :
    (∃ t m', execute i pc m = .error (.trap t) m') ↔ i.Refused := by
  have hmemory : ∀ {f : Machine → Except Violation Machine},
      ¬ ∃ t m', m.withMemory f = .error (.trap t) m' := fun {f} => by
    rintro ⟨t, m', ht⟩
    rw [withMemory] at ht
    cases hf : f m <;> rw [hf] at ht <;> cases ht
  rw [Instr.Refused]
  unfold execute
  cases hi : i.family
  case vectorMove =>
    dsimp only
    split
    · rename_i hlt
      exact iff_of_false (by simp) (by simpa using UInt32.not_le.mpr hlt)
    · rename_i hge
      exact iff_of_true ⟨_, _, rfl⟩ (.inr ⟨rfl, UInt32.not_lt.mp hge⟩)
  case unknown => exact iff_of_true ⟨_, _, rfl⟩ (.inl rfl)
  case memory | elementMemory | quadMemory => exact iff_of_false hmemory (by simp)
  case branch | branchSign | jump | jumpRegister | vectorBranch =>
    rw [hi] at hfam
    cases hfam
  all_goals exact iff_of_false (by simp) (by simp)

theorem perform_trap_iff {slot : Bool} :
    (∃ t m', perform i pc slot m = .error (.trap t) m') ↔ i.Refused := by
  rw [perform]
  split
  · rename_i hfam
    refine iff_of_false (by simp) ?_
    rintro (hi | ⟨hi, -⟩) <;> rw [hi] at hfam <;> cases hfam
  · rename_i hfam
    exact execute_trap_iff (Bool.not_eq_true _ ▸ hfam)

theorem perform_violation_iff {slot : Bool} :
    (∃ v m', perform i pc slot m = .error (.violation v) m') ↔
      ∃ s ∈ i.stores m.core, m.memory.Breaks s := by
  rw [perform]
  split
  · rename_i hfam
    have hnone : i.stores m.core = [] := by
      rw [Instr.stores]
      cases hi : i.family <;> first | rfl | (rw [hi] at hfam; cases hfam)
    rw [hnone]
    exact iff_of_false (by simp) (by simp)
  · exact execute_violation_iff

/-! ### What an instruction leaves alone -/

/-- **The same course**: what decides where and for how long the core runs on. -/
structure SameCourse (c c' : Core) : Prop where
  pc : c'.pc = c.pc
  downcount : c'.downcount = c.downcount
  inDelaySlot : c'.inDelaySlot = c.inDelaySlot
  branchTarget : c'.branchTarget = c.branchTarget
  exitRequested : c'.exitRequested = c.exitRequested

/-- **An instruction that is not a branch keeps the course.** -/
theorem sameCourse_execute (hok : execute i pc m = .ok event m') : SameCourse m.core m'.core := by
  by_cases hi : i.family = .breakpoint
  · rw [execute, hi] at hok
    cases hok
    exact ⟨rfl, rfl, rfl, rfl, rfl⟩
  · have hframe := frame_execute hi hok
    exact ⟨congrArg Core.Frame.pc hframe, congrArg Core.Frame.downcount hframe,
      congrArg Core.Frame.inDelaySlot hframe, congrArg Core.Frame.branchTarget hframe,
      congrArg Core.Frame.exitRequested hframe⟩

theorem link_eq (c : Core) (i : Instr) (pc : UInt32) :
    c.link i pc = i.linkRegister?.elim c (c.setGpr · (pc + 8)) := by
  unfold Core.link Instr.linkRegister?
  cases i.family <;> try rfl
  all_goals
    dsimp only
    split <;> rfl

/-! ### Steps -/

/-- **No instruction can be fetched, or the core has no such instruction.** -/
def Refused (m : Machine) : Prop :=
  m.memory.fetch? m.core.pc = none ∨
    ∃ word, m.memory.fetch? m.core.pc = some word ∧ (Instr.mk word).Refused

/-- **The instruction stores in the window up to the end of the address space.** -/
def Broken (m : Machine) : Prop :=
  ∃ word, m.memory.fetch? m.core.pc = some word ∧
    ∃ s ∈ (Instr.mk word).stores m.core, m.memory.Breaks s

/-- **The instruction is a branch that opens its delay slot**: it is not a likely one that is not
taken. -/
def Opens (m : Machine) (i : Instr) : Prop :=
  i.family.hasDelaySlot = true ∧
    ¬ ((m.core.branchOutcome i m.core.pc).likely = true ∧
      (m.core.branchOutcome i m.core.pc).taken = false)

/-- **The step from `m` to `m'` retires the instruction `i`.** -/
structure Stepped (m : Machine) (i : Instr) (m' : Machine) : Prop where
  row : i.HasRow
  zeroKept : m'.core.ZeroKept
  downcount : m'.core.downcount.toInt = m.core.downcount.toInt - 1
  slot : m'.core.inDelaySlot = m'.core.branchTarget.isSome
  opens : m.core.inDelaySlot = false → (m'.core.inDelaySlot = true ↔ m.Opens i)
  closes : ∀ target, m.core.branchTarget = some target →
    m'.core.inDelaySlot = false ∧ m'.core.pc = target
  /-- A branch in a delay slot writes its link and nothing else. -/
  links : ∀ target, m.core.branchTarget = some target → i.family.hasDelaySlot = true →
    m' = ⟨{ i.linkRegister?.elim m.core (m.core.setGpr · (m.core.pc + 8)) with
      pc := target
      downcount := m.core.downcount - 1
      inDelaySlot := false
      branchTarget := none }, m.memory⟩

/-- A step in a delay slot. -/
theorem retire_of_slot {c : Core} {target : UInt32} (htarget : c.branchTarget = some target)
    (pc : UInt32) : c.retire pc true =
      { c with pc := target, downcount := c.downcount - 1, inDelaySlot := false,
               branchTarget := none } := by
  rw [Core.retire]
  dsimp only
  rw [if_pos rfl, htarget]
  rfl

/-- An instruction in a delay slot leaves the slot to its step. -/
theorem branchTarget_perform {word pc : UInt32} (hok : perform ⟨word⟩ pc true m = .ok event m') :
    m'.core.branchTarget = m.core.branchTarget := by
  rw [perform] at hok
  split at hok
  · cases hok
    exact (slot_link m.core _ pc).2
  · exact (sameCourse_execute hok).branchTarget

/-- A branch opens its delay slot. -/
theorem inDelaySlot_branch (c : Core) (i : Instr) (pc : UInt32) (hslot : c.inDelaySlot = false) :
    (c.branch i pc).inDelaySlot = true ↔
      ¬ ((c.branchOutcome i pc).likely = true ∧ (c.branchOutcome i pc).taken = false) := by
  rw [Core.branch]
  split
  · rename_i hskips
    have hskips : (c.branchOutcome i pc).likely = true ∧ (c.branchOutcome i pc).taken = false := by
      simpa using hskips
    refine iff_of_false ?_ (not_not_intro hskips)
    show (c.link i pc).inDelaySlot ≠ true
    rw [(slot_link c i pc).1, hslot]
    decide
  · rename_i hopens
    exact iff_of_true rfl (by simpa using hopens)

theorem slot_branch (c : Core) (i : Instr) (pc : UInt32)
    (hslot : c.inDelaySlot = c.branchTarget.isSome) :
    (c.branch i pc).inDelaySlot = (c.branch i pc).branchTarget.isSome := by
  rw [Core.branch]
  split
  · show (c.link i pc).inDelaySlot = (c.link i pc).branchTarget.isSome
    rw [(slot_link c i pc).1, (slot_link c i pc).2, hslot]
  · rfl

/-- What an instruction outside a delay slot leaves of the slot. -/
theorem slot_perform (hslot : m.core.inDelaySlot = m.core.branchTarget.isSome)
    (htarget : m.core.branchTarget = none) (hok : perform i m.core.pc false m = .ok event m') :
    m'.core.inDelaySlot = m'.core.branchTarget.isSome ∧ (m'.core.inDelaySlot = true ↔ m.Opens i) := by
  have hclosed : m.core.inDelaySlot = false := by rw [hslot, htarget]; rfl
  rw [perform] at hok
  rw [Opens]
  split at hok
  · rename_i hfam
    cases hok
    rw [and_iff_right hfam]
    exact ⟨slot_branch _ _ _ hslot, inDelaySlot_branch _ _ _ hclosed⟩
  · rename_i hfam
    have hsame := sameCourse_execute hok
    rw [hsame.inDelaySlot, hsame.branchTarget, hclosed]
    exact ⟨by rw [htarget]; rfl, iff_of_false (by decide) fun hopens => hfam hopens.1⟩

/-- **A step that succeeds retires its instruction.** -/
theorem stepped_of_step (hz : m.core.ZeroKept) (hslot : m.core.inDelaySlot = m.core.branchTarget.isSome)
    (hok : step m = .ok event m') :
    ∃ word, m.memory.fetch? m.core.pc = some word ∧ Stepped m ⟨word⟩ m' := by
  obtain ⟨word, m₁, hfetch, hperform, -, rfl⟩ := exists_perform hok
  refine ⟨word, hfetch, ?_⟩
  have hrow : (Instr.mk word).HasRow := Instr.hasRow_iff.mpr fun hrefused => by
    obtain ⟨t, m₂, ht⟩ := perform_trap_iff.mpr hrefused
    rw [hperform] at ht
    cases ht
  have hzero := (gpr_zero_step hok).trans hz
  have hdown := downcount_step hok
  cases htarget : m.core.branchTarget with
  | none =>
    rw [hslot, htarget] at hperform hzero hdown ⊢
    obtain ⟨hslot', hopens⟩ := slot_perform hslot htarget hperform
    obtain ⟨hretire, hretire'⟩ := slot_retire m₁.core m.core.pc
    have hclosed : ∀ target, m.core.branchTarget ≠ some target := by
      rw [htarget]
      simp
    exact ⟨hrow, hzero, hdown, hretire.trans (hslot'.trans (by rw [← hretire']; rfl)),
      fun _ => by rw [← hopens, ← hretire]; rfl, fun target ht => absurd ht (hclosed target),
      fun target ht => absurd ht (hclosed target)⟩
  | some target =>
    rw [hslot, htarget] at hperform hzero hdown ⊢
    have hkept := (branchTarget_perform hperform).trans htarget
    have hretire := retire_of_slot hkept m.core.pc
    rw [show (some target).isSome = true from rfl, hretire] at hzero hdown ⊢
    refine ⟨hrow, hzero, hdown, rfl, fun hopen => ?_, fun target' ht => ?_, fun target' ht hfam => ?_⟩
    · rw [hslot, htarget] at hopen
      cases hopen
    · obtain rfl : target = target' := Option.some.inj (htarget.symm.trans ht)
      exact ⟨rfl, rfl⟩
    · obtain rfl : target = target' := Option.some.inj (htarget.symm.trans ht)
      rw [perform, if_pos hfam] at hperform
      cases hperform
      show Machine.mk { m.core.link _ _ with
        pc := target
        downcount := (m.core.link _ _).downcount - 1
        inDelaySlot := false
        branchTarget := none } m.memory = _
      rw [downcount_link, link_eq]

/-- An instruction that has an effect is retired, unless the downcount has its least value. -/
theorem step_ok_of_perform (hd : -2 ^ 31 < m.core.downcount.toInt) {word : UInt32}
    (hfetch : m.memory.fetch? m.core.pc = some word)
    (hok : perform ⟨word⟩ m.core.pc m.core.inDelaySlot m = .ok event m') :
    ∃ m'', step m = .ok event m'' := by
  refine ⟨_, step_of_perform (i := ⟨word⟩) hfetch hok ?_⟩
  rw [downcount_perform hok]
  intro heq
  rw [heq] at hd
  exact absurd hd (by decide)

/-- An instruction without an effect is not retired. -/
theorem step_error_iff (hd : -2 ^ 31 < m.core.downcount.toInt) {word : UInt32} {e : StepError}
    (hfetch : m.memory.fetch? m.core.pc = some word) :
    (∃ m', step m = .error e m') ↔
      ∃ m', perform ⟨word⟩ m.core.pc m.core.inDelaySlot m = .error e m' := by
  cases hperform : perform ⟨word⟩ m.core.pc m.core.inDelaySlot m with
  | ok event m₁ =>
    obtain ⟨m₂, hstep⟩ := step_ok_of_perform hd hfetch hperform
    rw [hstep]
    exact iff_of_false (by simp) (by simp)
  | error e' m₁ =>
    rw [step_of_fetch (i := ⟨word⟩) hfetch]
    simp only [hperform]

theorem step_trap_iff (hd : -2 ^ 31 < m.core.downcount.toInt) :
    (∃ t m', step m = .error (.trap t) m') ↔ m.Refused := by
  rw [Refused]
  cases hfetch : m.memory.fetch? m.core.pc with
  | none =>
    refine iff_of_true ⟨.fetchFault m.core.pc, m, ?_⟩ (.inl rfl)
    rw [step]
    simp only [hfetch]
  | some word =>
    simp only [Option.some.injEq, exists_eq_left', step_error_iff hd hfetch]
    exact perform_trap_iff.trans (or_iff_right (Option.some_ne_none word)).symm

theorem step_violation_iff (hd : -2 ^ 31 < m.core.downcount.toInt) :
    (∃ v m', step m = .error (.violation v) m') ↔ m.Broken := by
  rw [Broken]
  cases hfetch : m.memory.fetch? m.core.pc with
  | none =>
    refine iff_of_false ?_ (by simp)
    rintro ⟨v, m', hv⟩
    rw [step] at hv
    simp only [hfetch] at hv
    cases hv
  | some word =>
    simp only [Option.some.injEq, exists_eq_left', step_error_iff hd hfetch]
    exact perform_violation_iff

/-- **The outcomes of a step.**  It traps exactly if no word can be fetched or the core has no such
instruction, and then nothing has changed.  It breaks a promise exactly if the instruction stores in
the window up to the end of the address space.  Otherwise it retires its instruction.  What an
instruction that is not a branch does by itself, wherever it is executed, keeps the course of the
core. -/
theorem step_outcomes (hz : m.core.ZeroKept) (hd : -2 ^ 31 < m.core.downcount.toInt)
    (hslot : m.core.inDelaySlot = m.core.branchTarget.isSome) :
    ((∃ t m', step m = .error (.trap t) m') ↔ m.Refused) ∧
    (∀ t m', step m = .error (.trap t) m' → m' = m) ∧
    ((∃ v m', step m = .error (.violation v) m') ↔ m.Broken) ∧
    (m.memory.base.toNat + m.memory.size < 2 ^ 32 → ¬ m.Broken) ∧
    (¬ m.Refused → ¬ m.Broken → ∃ word event m', m.memory.fetch? m.core.pc = some word ∧
      step m = .ok event m' ∧ Stepped m ⟨word⟩ m') ∧
    ∀ (i : Instr) (pc : UInt32) (n n' : Machine),
      (∀ event, execute i pc n = .ok event n' → SameCourse n.core n'.core) ∧
      ∀ t, execute i pc n = .error (.trap t) n' → n' = n := by
  refine ⟨step_trap_iff hd, fun t m' => eq_of_step_trap, step_violation_iff hd, ?_, ?_,
    fun i pc n n' => ⟨fun event => sameCourse_execute, fun t => eq_of_execute_trap⟩⟩
  · rintro hfits ⟨word, -, s, -, hbreaks⟩
    exact Memory.not_breaks hfits s hbreaks
  · intro hrefused hbroken
    cases hstep : step m with
    | ok event m' =>
      obtain ⟨word, hfetch, hstepped⟩ := stepped_of_step hz hslot hstep
      exact ⟨word, event, m', hfetch, rfl, hstepped⟩
    | error e m' =>
      cases e with
      | trap t => exact absurd ((step_trap_iff hd).mp ⟨t, m', hstep⟩) hrefused
      | violation v => exact absurd ((step_violation_iff hd).mp ⟨v, m', hstep⟩) hbroken

/-- A jump with a link in the delay slot of another branch. -/
def linkInSlot : Machine :=
  inSlot ⟨Core.start 0, (Memory.create 0x1000 16).overlay 0 (Encode.wordBytes 0x0C000400)⟩ 0x1000 5
    0x2000

/-- The jump links and goes where the other branch leads. -/
theorem step_outcomes_link :
    ∃ event m', step linkInSlot = .ok event m' ∧ m'.core.pc = 0x2000 ∧ m'.core.inDelaySlot = false ∧
      m'.core.gpr 31 = 0x1008 := by
  have hfetch : linkInSlot.memory.fetch? linkInSlot.core.pc = some 0x0C000400 := by decide +kernel
  have hfam : (Instr.mk 0x0C000400).family = .jump := by decide
  obtain ⟨-, -, -, hfits, hok, -⟩ := step_outcomes (m := linkInSlot) rfl (by decide) rfl
  have hrefused : ¬ linkInSlot.Refused := by
    rw [Refused, hfetch]
    rintro (hnone | ⟨word, hword, hrefused⟩)
    · cases hnone
    · cases hword
      rw [Instr.Refused, hfam] at hrefused
      simp at hrefused
  obtain ⟨word, event, m', hword, hstep, hstepped⟩ := hok hrefused (hfits (by decide +kernel))
  rw [hfetch] at hword
  cases hword
  refine ⟨event, m', hstep, (hstepped.closes 0x2000 rfl).2, (hstepped.closes 0x2000 rfl).1, ?_⟩
  rw [hstepped.links 0x2000 rfl (by rw [hfam]; rfl)]
  decide

/-- A store of the last byte of the address space, which lies in the window. -/
def lastByteStore : Machine :=
  ⟨(Core.start 0xFFFFFFF0).setGpr 8 1,
    (Memory.create 0xFFFFFFF0 16).overlay 0 (Encode.wordBytes 0xA008FFFF)⟩

/-- It has no result, though a word that the core can execute is fetched. -/
theorem step_lastByteStore :
    lastByteStore.core.ZeroKept ∧ -2 ^ 31 < lastByteStore.core.downcount.toInt ∧
      lastByteStore.core.inDelaySlot = lastByteStore.core.branchTarget.isSome ∧
      ¬ lastByteStore.Refused ∧ ∀ event m', step lastByteStore ≠ .ok event m' := by
  have hfetch : lastByteStore.memory.fetch? lastByteStore.core.pc = some 0xA008FFFF := by
    decide +kernel
  have hd : -2 ^ 31 < lastByteStore.core.downcount.toInt := by decide
  refine ⟨rfl, hd, rfl, ?_, fun event m' hstep => ?_⟩
  · rw [Refused, hfetch]
    rintro (hnone | ⟨word, hword, hrefused⟩)
    · cases hnone
    · cases hword
      rw [Instr.Refused, show (Instr.mk 0xA008FFFF).family = .memory from by decide] at hrefused
      simp at hrefused
  · obtain ⟨v, m₁, hv⟩ := (step_violation_iff hd).mpr
      ⟨_, hfetch, (0xFFFFFFFF, 1), by decide, by decide +kernel, by decide⟩
    rw [hstep] at hv
    cases hv

end Machine

end Dynarec
