import Dynarec.Proofs.Guest.Execute

/-!
# Retiring instructions

`Machine.Retires n G G'` says that `n` steps lead from `G` to `G'`, none of which reports an event.
Compiled code runs with a machine whose program counter and downcount lag behind; `Machine.at` and
`Machine.inSlot` put them in place.  There is one lemma for each kind of instruction that says what
a step from such a machine does.
-/

namespace Dynarec

namespace Machine

/-- **Steps that report no event.** -/
inductive Retires : Nat → Machine → Machine → Prop
  | zero (G : Machine) : Retires 0 G G
  | succ {n : Nat} {G G' G'' : Machine} (h : Retires n G G')
      (hstep : step G' = .ok .normal G'') : Retires (n + 1) G G''

theorem Retires.trans {n k : Nat} {G G' G'' : Machine} (h : Retires n G G')
    (h' : Retires k G' G'') : Retires (n + k) G G'' := by
  induction h' with
  | zero => exact h
  | succ _ hstep ih => exact .succ (ih h) hstep

/-- **`n` steps one after the other.**  The event is that of the last step. -/
def steps : (n : Nat) → Stepping StepEvent
  | 0 => fun m => .ok .normal m
  | n + 1 => fun m =>
    match steps n m with
    | .ok _ m => step m
    | .error e m => .error e m

theorem Retires.steps_eq {n : Nat} {G G' : Machine} (h : Retires n G G') :
    steps n G = .ok .normal G' := by
  induction h with
  | zero => rfl
  | succ _ hstep ih =>
    rw [steps]
    simp only [ih]
    exact hstep

/-- Steps without an event, and one more. -/
theorem Retires.steps_succ {n : Nat} {G G' : Machine} (h : Retires n G G') :
    steps (n + 1) G = step G' := by
  rw [steps]
  simp only [h.steps_eq]

/-- The steps on the way report no event either. -/
theorem Retires.prefix {n : Nat} {G G' : Machine} (h : Retires n G G') :
    ∀ k ≤ n, ∃ G'', Retires k G G'' := by
  induction h with
  | zero =>
    intro k hk
    rw [Nat.le_zero.mp hk]
    exact ⟨_, .zero _⟩
  | @succ n G G' G'' h hstep ih =>
    intro k hk
    rcases Nat.le_succ_iff.mp hk with hle | heq
    · exact ih k hle
    · rw [heq]
      exact ⟨_, .succ h hstep⟩

/-- **What `n` steps report**: the event of the last one.  Those before it report none. -/
structure Reports (n : Nat) (m : Machine) (event : StepEvent) (m' : Machine) : Prop where
  steps : steps n m = .ok event m'
  silent : ∀ k < n, ∃ G, Machine.steps k m = .ok .normal G

theorem Retires.reports {n : Nat} {G G' : Machine} (h : Retires n G G') :
    Reports n G .normal G' := by
  refine ⟨h.steps_eq, fun k hk => ?_⟩
  obtain ⟨G'', hk⟩ := h.prefix k (Nat.le_of_lt hk)
  exact ⟨G'', hk.steps_eq⟩

/-- Steps without an event, and one more that may report one. -/
theorem Retires.reports_succ {n : Nat} {G G' G'' : Machine} {event : StepEvent}
    (h : Retires n G G') (hstep : step G' = .ok event G'') : Reports (n + 1) G event G'' := by
  refine ⟨h.steps_succ.trans hstep, fun k hk => ?_⟩
  obtain ⟨G₁, hk⟩ := h.prefix k (Nat.le_of_lt_succ hk)
  exact ⟨G₁, hk.steps_eq⟩

/-! ### Putting the program counter and the downcount in place -/

/-- No delay slot is open. -/
structure Closed (m : Machine) : Prop where
  inDelaySlot : m.core.inDelaySlot = false
  branchTarget : m.core.branchTarget = none

/-- The machine in front of the instruction at `pc`, which is in a delay slot. -/
def inSlot (m : Machine) (pc : UInt32) (downcount : Int32) (target : UInt32) : Machine :=
  m.mapCore fun c =>
    { c with
      pc := pc
      downcount := downcount
      inDelaySlot := true
      branchTarget := some target }

@[simp] theorem memory_inSlot (m : Machine) (pc : UInt32) (d : Int32) (target : UInt32) :
    (m.inSlot pc d target).memory = m.memory := rfl

theorem Closed.of_frame {m m' : Machine} (hm : m.Closed) (hframe : m'.core.frame = m.core.frame) :
    m'.Closed :=
  ⟨(congrArg Core.Frame.inDelaySlot hframe).trans hm.1,
    (congrArg Core.Frame.branchTarget hframe).trans hm.2⟩

variable {m m' : Machine} {i : Instr} {pc target : UInt32} {d : Int32}

/-! ### One step -/

theorem step_of_fetch {G : Machine} (hfetch : G.memory.fetch? G.core.pc = some i.word) :
    step G =
      match perform i G.core.pc G.core.inDelaySlot G with
      | .error e m => .error e m
      | .ok event m =>
        if m.core.downcount == Int32.minValue then .error (.violation .downcountUnderflow) m
        else .ok event ⟨m.core.retire G.core.pc G.core.inDelaySlot, m.memory⟩ := by
  rw [step]
  split
  · rename_i hnone
    cases hnone.symm.trans hfetch
  · rename_i hsome
    cases hsome.symm.trans hfetch
    rfl

/-- A step whose instruction has an effect. -/
theorem step_of_perform {G : Machine} {event : StepEvent}
    (hfetch : G.memory.fetch? G.core.pc = some i.word)
    (hperform : perform i G.core.pc G.core.inDelaySlot G = .ok event m)
    (hd : m.core.downcount ≠ Int32.minValue) :
    step G = .ok event ⟨m.core.retire G.core.pc G.core.inDelaySlot, m.memory⟩ := by
  rw [step_of_fetch hfetch]
  simp only [hperform]
  rw [if_neg (by simpa using hd)]

theorem not_hasDelaySlot (hfam : i.family.isTerminator = false) : i.family.hasDelaySlot = false := by
  revert hfam
  cases i.family <;> decide

theorem ne_breakpoint (hfam : i.family.isTerminator = false) : i.family ≠ .breakpoint := fun heq => by
  rw [heq] at hfam
  exact absurd hfam (by decide)

/-- An instruction that is not a branch does to a machine with another frame what it does. -/
theorem perform_reframe (hfam : i.family.isTerminator = false) (slot : Bool) (f : Core.Frame) :
    perform i pc slot (m.reframe f) = reframeResult f (execute i pc m) := by
  rw [perform, not_hasDelaySlot hfam]
  exact execute_reframe (ne_breakpoint hfam) pc m f

theorem inSlot_eq_reframe (m : Machine) (pc : UInt32) (d : Int32) (target : UInt32) :
    m.inSlot pc d target = m.reframe { m.core.frame with
      pc := pc
      downcount := d
      inDelaySlot := true
      branchTarget := some target } := rfl

/-- A machine with the frame of `m` in front of an instruction. -/
theorem reframe_at (hframe : m'.core.frame = m.core.frame) (pc : UInt32) (d : Int32) :
    m'.reframe { m.core.frame with pc := pc, downcount := d } = m'.at pc d := by
  rw [← hframe]
  rfl

theorem reframe_inSlot (hframe : m'.core.frame = m.core.frame) (pc : UInt32) (d : Int32)
    (target : UInt32) :
    m'.reframe { m.core.frame with
      pc := pc
      downcount := d
      inDelaySlot := true
      branchTarget := some target } = m'.inSlot pc d target := by
  rw [← hframe]
  rfl

theorem retire_at (hm : m.Closed) (pc : UInt32) (d : Int32) :
    (m.at pc d).core.retire pc false = (m.at (pc + 4) (d - 1)).core := by
  have hslot : (m.at pc d).core.inDelaySlot = false := hm.inDelaySlot
  rw [Core.retire]
  dsimp only
  rw [if_neg (by decide), hslot, pc_at, if_pos (by simp), ← hm.inDelaySlot]
  rfl

theorem retire_inSlot (hm : m.Closed) (pc : UInt32) (d : Int32) (target : UInt32) :
    (m.inSlot pc d target).core.retire pc true = (m.at target (d - 1)).core := by
  rw [Core.retire]
  show ({ m.core with
    pc := target, downcount := d - 1, inDelaySlot := false, branchTarget := none } : Core) =
      { m.core with pc := target, downcount := d - 1 }
  rw [← hm.inDelaySlot, ← hm.branchTarget]

/-- An instruction that moved the program counter itself is only charged. -/
theorem retire_moved {c : Core} (hne : c.pc ≠ pc) :
    c.retire pc false = { c with downcount := c.downcount - 1 } := by
  have hpc : (c.pc == pc) = false := beq_eq_false_iff_ne.mpr hne
  rw [Core.retire]
  dsimp only
  rw [if_neg (by decide), hpc, Bool.and_false, if_neg (by decide)]

/-- **An instruction that is not a branch.** -/
theorem step_plain (hm : m.Closed) (hfetch : m.memory.fetch? pc = some i.word)
    (hfam : i.family.isTerminator = false) (hexec : execute i pc m = .ok .normal m')
    (hd : d ≠ Int32.minValue) : step (m.at pc d) = .ok .normal (m'.at (pc + 4) (d - 1)) := by
  have hframe := frame_execute (ne_breakpoint hfam) hexec
  have hperform : perform i pc m.core.inDelaySlot (m.at pc d) = .ok .normal (m'.at pc d) := by
    rw [at_eq_reframe, perform_reframe hfam, hexec, ← reframe_at hframe]
    rfl
  have hstep := step_of_perform (G := m.at pc d) hfetch hperform hd
  have hslot : (m.at pc d).core.inDelaySlot = false := hm.inDelaySlot
  rw [hslot, pc_at, retire_at (hm.of_frame hframe)] at hstep
  exact hstep

/-- **An instruction that is not a branch, in a delay slot.** -/
theorem step_inSlot (hm : m.Closed) (hfetch : m.memory.fetch? pc = some i.word)
    (hfam : i.family.isTerminator = false) (hexec : execute i pc m = .ok .normal m')
    (hd : d ≠ Int32.minValue) : step (m.inSlot pc d target) = .ok .normal (m'.at target (d - 1)) := by
  have hframe := frame_execute (ne_breakpoint hfam) hexec
  have hperform : perform i pc true (m.inSlot pc d target) = .ok .normal (m'.inSlot pc d target) := by
    rw [inSlot_eq_reframe, perform_reframe hfam, hexec, ← reframe_inSlot hframe]
    rfl
  have hstep := step_of_perform (G := m.inSlot pc d target) hfetch hperform hd
  have hretire := retire_inSlot (hm.of_frame hframe) pc d target
  rw [hstep]
  exact congrArg (fun core => EStateM.Result.ok _ (Machine.mk core m'.memory)) hretire

/-! ### Steps that fail -/

/-- The instruction at the program counter has no effect, for the reason `e`. -/
def Fails (G : Machine) (e : StepError) : Prop := ∃ m, step G = .error e m

/-- What an instruction that cannot be executed does to a step. -/
theorem fails_of_execute {G : Machine} {e : StepError} {f : Core.Frame}
    (hfetch : G.memory.fetch? pc = some i.word) (hfam : i.family.isTerminator = false)
    (hG : G = m.reframe f) (hpc : f.pc = pc) (hexec : execute i pc m = .error e m') : Fails G e := by
  subst hpc
  have hperform : ∃ m'', perform i f.pc G.core.inDelaySlot G = .error e m'' := by
    rw [hG, perform_reframe hfam, hexec]
    cases e with
    | trap t => exact ⟨_, rfl⟩
    | violation v => exact ⟨_, rfl⟩
  obtain ⟨m'', hperform⟩ := hperform
  have hcore : G.core.pc = f.pc := by
    rw [hG]
    rfl
  rw [← hcore] at hperform hfetch
  refine ⟨m'', ?_⟩
  rw [step_of_fetch hfetch]
  simp only [hperform]

theorem fails_at {e : StepError} (hfetch : m.memory.fetch? pc = some i.word)
    (hfam : i.family.isTerminator = false) (hexec : execute i pc m = .error e m') :
    Fails (m.at pc d) e := fails_of_execute hfetch hfam (at_eq_reframe m pc d) rfl hexec

theorem fails_inSlot {e : StepError} (hfetch : m.memory.fetch? pc = some i.word)
    (hfam : i.family.isTerminator = false) (hexec : execute i pc m = .error e m') :
    Fails (m.inSlot pc d target) e :=
  fails_of_execute hfetch hfam (inSlot_eq_reframe m pc d target) rfl hexec

/-! ### Instructions that end a block -/

/-- The machine after the link of a branch. -/
def linked (m : Machine) (i : Instr) (pc : UInt32) : Machine := m.mapCore (·.link i pc)

theorem link_at (m : Machine) (i : Instr) (pc pc' : UInt32) (d : Int32) :
    (m.at pc' d).core.link i pc = ((m.linked i pc).at pc' d).core := by
  have hset : ∀ (n : Fin 32) (v : UInt32), (m.at pc' d).core.setGpr n v =
      ((m.mapCore (·.setGpr n v)).at pc' d).core := fun n v => by
    show Core.setGpr _ n v = { m.core.setGpr n v with pc := pc', downcount := d }
    rw [Core.setGpr, Core.setGpr]
    split <;> rfl
  unfold linked Core.link
  cases i.family <;> try rfl
  · show (if i.bit 20 then _ else _) = _
    rw [hset]
    cases i.bit 20 <;> rfl
  · show (if i.major == 3 then _ else _) = _
    rw [hset]
    cases i.major == 3 <;> rfl
  · show (if i.funct == 9 then _ else _) = _
    rw [hset]
    cases i.funct == 9 <;> rfl

theorem frame_linked (m : Machine) (i : Instr) (pc : UInt32) :
    (m.linked i pc).core.frame = m.core.frame := by
  have hset : ∀ (n : Fin 32) (v : UInt32), (m.core.setGpr n v).frame = m.core.frame :=
    fun n v => by
      rw [Core.setGpr]
      split <;> rfl
  show (m.core.link i pc).frame = _
  unfold Core.link
  split
  · split <;> first | exact hset _ _ | rfl
  · split <;> first | exact hset _ _ | rfl
  · split <;> first | exact hset _ _ | rfl
  · rfl

theorem branchOutcome_at (m : Machine) (i : Instr) (pc pc' : UInt32) (d : Int32) :
    (m.at pc' d).core.branchOutcome i pc = m.core.branchOutcome i pc := by
  rw [Core.branchOutcome, Core.branchOutcome]
  cases i.family <;> rfl

/-- What a branch does to the core before its step is charged. -/
theorem branch_at (m : Machine) (i : Instr) (pc : UInt32) (d : Int32) :
    (m.at pc d).core.branch i pc =
      if (m.core.branchOutcome i pc).likely && !(m.core.branchOutcome i pc).taken then
        ((m.linked i pc).at (pc + 8) d).core
      else
        ((m.linked i pc).inSlot (pc + 4) d (if (m.core.branchOutcome i pc).taken then
          (m.core.branchOutcome i pc).target else pc + 8)).core := by
  rw [Core.branch, branchOutcome_at, link_at]
  split <;> rfl

theorem perform_branch (hm : m.Closed) (hfam : i.family.hasDelaySlot = true) :
    perform i pc (m.at pc d).core.inDelaySlot (m.at pc d) =
      .ok .normal ⟨(m.at pc d).core.branch i pc, m.memory⟩ := by
  have hslot : (m.at pc d).core.inDelaySlot = false := hm.inDelaySlot
  rw [hslot, perform, hfam]
  rfl

/-- **A likely branch that is not taken** skips its delay slot. -/
theorem step_skip (hm : m.Closed) (hfetch : m.memory.fetch? pc = some i.word)
    (hfam : i.family.hasDelaySlot = true) (hd : d ≠ Int32.minValue)
    (hlikely : (m.core.branchOutcome i pc).likely = true)
    (htaken : (m.core.branchOutcome i pc).taken = false) :
    step (m.at pc d) = .ok .normal ((m.linked i pc).at (pc + 8) (d - 1)) := by
  have hperform : perform i pc _ (m.at pc d) = _ := perform_branch hm hfam
  rw [branch_at, hlikely, htaken] at hperform
  have hstep := step_of_perform (G := m.at pc d) hfetch hperform hd
  have hslot : (m.at pc d).core.inDelaySlot = false := hm.inDelaySlot
  have hne : pc + 8 ≠ pc := fun heq => by
    have height : (8 : UInt32) = 0 :=
      (UInt32.add_right_inj pc).mp (heq.trans (UInt32.add_zero pc).symm)
    exact absurd height (by decide)
  have hretire := retire_moved (c := ((m.linked i pc).at (pc + 8) d).core) hne
  rw [hstep, hslot]
  exact congrArg (fun core => EStateM.Result.ok _ (Machine.mk core m.memory)) hretire

/-- **A branch that opens its delay slot.** -/
theorem step_branch (hm : m.Closed) (hfetch : m.memory.fetch? pc = some i.word)
    (hfam : i.family.hasDelaySlot = true) (hd : d ≠ Int32.minValue)
    (htaken : (m.core.branchOutcome i pc).likely = true →
      (m.core.branchOutcome i pc).taken = true) :
    step (m.at pc d) = .ok .normal ((m.linked i pc).inSlot (pc + 4) (d - 1)
      (if (m.core.branchOutcome i pc).taken then (m.core.branchOutcome i pc).target
        else pc + 8)) := by
  have hopen : ((m.core.branchOutcome i pc).likely && !(m.core.branchOutcome i pc).taken) = false := by
    cases hl : (m.core.branchOutcome i pc).likely with
    | false => rfl
    | true => rw [htaken hl]; rfl
  have hperform : perform i pc _ (m.at pc d) = _ := perform_branch hm hfam
  rw [branch_at, hopen] at hperform
  have hstep := step_of_perform (G := m.at pc d) hfetch hperform hd
  have hslot : (m.at pc d).core.inDelaySlot = false := hm.inDelaySlot
  rw [hstep, hslot]
  rfl

/-- **A request to the system.** -/
theorem step_syscall (hm : m.Closed) (hfetch : m.memory.fetch? pc = some i.word)
    (hfam : i.family = .syscall) (hd : d ≠ Int32.minValue) :
    step (m.at pc d) = .ok (.syscall i.code) (m.at (pc + 4) (d - 1)) := by
  have hperform : perform i pc (m.at pc d).core.inDelaySlot (m.at pc d) =
      .ok (.syscall i.code) (m.at pc d) := by
    rw [perform, execute, hfam]
    rfl
  have hstep := step_of_perform (G := m.at pc d) hfetch hperform hd
  have hslot : (m.at pc d).core.inDelaySlot = false := hm.inDelaySlot
  rw [hslot, pc_at, retire_at hm] at hstep
  exact hstep

/-- The machine that a breakpoint at `pc` stopped. -/
def stopped (m : Machine) (pc : UInt32) : Machine :=
  m.mapCore fun c => { c with runState := .stopped pc }

/-- **A breakpoint.** -/
theorem step_breakpoint (hm : m.Closed) (hfetch : m.memory.fetch? pc = some i.word)
    (hfam : i.family = .breakpoint) (hd : d ≠ Int32.minValue) :
    step (m.at pc d) = .ok .breakpoint ((m.stopped pc).at (pc + 4) (d - 1)) := by
  have hperform : perform i pc (m.at pc d).core.inDelaySlot (m.at pc d) =
      .ok .breakpoint ((m.stopped pc).at pc d) := by
    rw [perform, execute, hfam]
    rfl
  have hclosed : (m.stopped pc).Closed := ⟨hm.1, hm.2⟩
  have hstep := step_of_perform (G := m.at pc d) hfetch hperform hd
  have hslot : (m.at pc d).core.inDelaySlot = false := hm.inDelaySlot
  rw [hslot, pc_at, retire_at hclosed] at hstep
  exact hstep

end Machine

end Dynarec
