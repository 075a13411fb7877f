import Dynarec.Proofs.Guest.Execute
import Dynarec.Proofs.Host.Registers
import Dynarec.Proofs.Lower.Emission
import Mathlib.Data.Set.Insert

/-!
# What host operations read and write

A `HostCell` is one register of the host, or one of the two compared pairs; the program counter of
the guest counts as one too, since native code lets it lag behind until an exit or the fallback to
the interpreter puts it in place.  `Operation.reads` and `Operation.writes` list the cells of an
operation.  Two runs of straight code that agree on the cells that it reads do the same to the
guest, whatever the other cells and the downcount hold (`Host.agree_runOps`); and straight code that
leaves the downcount register alone keeps the downcount (`Host.keepsClock_runOps`).
-/

namespace Dynarec

/-- The downcount while native code runs. -/
def cycles (inRegister : Bool) (h : HostState) (m : Machine) : Int32 :=
  if inRegister then (h.get HostReg.downcount).toInt32 else m.core.downcount

/-- **A part of the host state**, or the program counter of the guest. -/
inductive HostCell where
  | reg (r : HostReg)
  | floatReg (f : FloatReg)
  | quadReg (q : QuadReg)
  | flags
  | savedFlags
  | guestPc
deriving DecidableEq

namespace MulKind

/-- The product is added to the old pair. -/
def accumulates : MulKind → Bool
  | mult | multu => false
  | _ => true

theorem apply_of_not_accumulates {kind : MulKind} (hkind : kind.accumulates = false)
    (a b hi lo hi' lo' : UInt32) : kind.apply a b hi lo = kind.apply a b hi' lo' := by
  match kind, hkind with
  | mult, _ => rfl
  | multu, _ => rfl

end MulKind

namespace Operation

open HostCell in
/-- **The cells that an operation looks at.** -/
def reads : Operation → Set HostCell
  | .mov _ rs | .aluImm _ _ rs _ | .unary _ _ rs | .compareImm rs _ | .storeGuest rs _
  | .exitDispatchReg rs | .storeControl rs _ | .intToFloat _ rs => {reg rs}
  | .alu _ _ rs rt | .compare rs rt => {reg rs, reg rt}
  | .multiply kind rs rt hi lo =>
    if kind.accumulates then {reg rs, reg rt, reg hi, reg lo} else {reg rs, reg rt}
  | .setIf _ _ | .saveFlags | .jumpIf _ _ => {flags}
  | .movIf _ rd rs => {flags, reg rd, reg rs}
  | .load _ _ base _ | .floatLoad _ base _ | .quadLoad _ base _ => {reg base}
  | .store _ rs base _ => {reg rs, reg base}
  | .restoreFlags => {savedFlags}
  | .storeElement fs _ | .floatUnary _ _ fs | .floatMov _ fs | .floatToInt _ fs => {floatReg fs}
  | .float _ _ fs ft => {floatReg fs, floatReg ft}
  | .floatStore fs base _ => {floatReg fs, reg base}
  | .floatCompare _ _ rd fs ft => {reg rd, floatReg fs, floatReg ft}
  | .mergeConditions rd rs _ => {reg rd, reg rs}
  | .storeQuad qs _ | .quadUnary _ _ qs => {quadReg qs}
  | .quad _ _ qs qt => {quadReg qs, quadReg qt}
  | .quadStore qs base _ => {quadReg qs, reg base}
  | .interpret _ => {guestPc}
  | _ => ∅

open HostCell in
/-- **The cells that an operation sets.** -/
def writes : Operation → Set HostCell
  | .movImm rd _ | .mov rd _ | .loadGuest rd _ | .alu _ rd _ _ | .aluImm _ rd _ _ | .unary _ rd _
  | .setIf _ rd | .movIf _ rd _ | .load _ rd _ _ | .loadControl rd _ | .floatCompare _ _ rd _ _
  | .mergeConditions rd _ _ | .floatToInt rd _ => {reg rd}
  | .multiply _ _ _ hi lo => {reg hi, reg lo}
  | .compare _ _ | .compareImm _ _ | .restoreFlags | .interpret _ => {flags}
  | .saveFlags => {savedFlags}
  | .setPc _ => {guestPc}
  | .loadElement fd _ | .float _ fd _ _ | .floatUnary _ fd _ | .floatImm fd _ | .floatMov fd _
  | .floatLoad fd _ _ | .intToFloat fd _ => {floatReg fd}
  | .loadQuad qd _ | .quad _ qd _ _ | .quadUnary _ qd _ | .quadImm qd _ | .quadLoad qd _ _ =>
    {quadReg qd}
  | _ => ∅

open HostCell in
theorem reads_multiply (kind : MulKind) (rs rt hi lo : HostReg) :
    (multiply kind rs rt hi lo).reads =
      if kind.accumulates then {reg rs, reg rt, reg hi, reg lo} else {reg rs, reg rt} := rfl

/-- The operation leaves the downcount alone. -/
def Quiet (op : Operation) : Prop :=
  .reg HostReg.downcount ∉ op.writes ∧ ∀ n, op ≠ .subDowncount n

end Operation

/-! ### Agreement of two runs -/

namespace HostState

/-- Two host states hold the same in a cell; the program counter is not theirs. -/
def SameAt (h h' : HostState) : HostCell → Prop
  | .reg r => h.get r = h'.get r
  | .floatReg f => h.float f = h'.float f
  | .quadReg q => h.quad q = h'.quad q
  | .flags => h.flags = h'.flags
  | .savedFlags => h.savedFlags = h'.savedFlags
  | .guestPc => True

/-- **Two host states agree** on a set of cells. -/
def AgreeOn (cells : Set HostCell) (h h' : HostState) : Prop := ∀ c ∈ cells, h.SameAt h' c

variable {cells cells' : Set HostCell} {h h' : HostState}

theorem AgreeOn.mono (x : AgreeOn cells h h') (hsub : cells' ⊆ cells) : AgreeOn cells' h h' :=
  fun c hc => x c (hsub hc)

theorem AgreeOn.reg (x : AgreeOn cells h h') {r : HostReg} (hr : .reg r ∈ cells) :
    h.get r = h'.get r := x _ hr

theorem AgreeOn.float (x : AgreeOn cells h h') {f : FloatReg} (hf : .floatReg f ∈ cells) :
    h.float f = h'.float f := x _ hf

theorem AgreeOn.quad (x : AgreeOn cells h h') {q : QuadReg} (hq : .quadReg q ∈ cells) :
    h.quad q = h'.quad q := x _ hq

theorem AgreeOn.flags (x : AgreeOn cells h h') (hc : .flags ∈ cells) : h.flags = h'.flags := x _ hc

theorem AgreeOn.savedFlags (x : AgreeOn cells h h') (hc : .savedFlags ∈ cells) :
    h.savedFlags = h'.savedFlags := x _ hc

/-- Hosts that agree on what a multiplication reads multiply to the same. -/
theorem AgreeOn.multiply {kind : MulKind} {rs rt hi lo : HostReg} (x : AgreeOn cells h h')
    (hreads : (Operation.multiply kind rs rt hi lo).reads ⊆ cells) :
    kind.apply (h.get rs) (h.get rt) (h.get hi) (h.get lo) =
      kind.apply (h'.get rs) (h'.get rt) (h'.get hi) (h'.get lo) := by
  cases hacc : kind.accumulates with
  | true =>
    have hall : ({.reg rs, .reg rt, .reg hi, .reg lo} : Set HostCell) ⊆ cells := by
      rwa [Operation.reads_multiply, if_pos hacc] at hreads
    rw [x.reg (hall (.inl rfl)), x.reg (hall (.inr (.inl rfl))),
      x.reg (hall (.inr (.inr (.inl rfl)))), x.reg (hall (.inr (.inr (.inr rfl))))]
  | false =>
    have htwo : ({.reg rs, .reg rt} : Set HostCell) ⊆ cells := by
      rwa [Operation.reads_multiply, if_neg (by rw [hacc]; decide)] at hreads
    rw [x.reg (htwo (.inl rfl)), x.reg (htwo (.inr rfl))]
    exact MulKind.apply_of_not_accumulates hacc _ _ _ _ _ _

/-- The same word is written to a register on both sides. -/
theorem AgreeOn.set (x : AgreeOn cells h h') (r : HostReg) (v : UInt32) :
    AgreeOn (cells ∪ {.reg r}) (h.set r v) (h'.set r v) := by
  intro c hc
  cases c with
  | reg r' =>
    show (h.set r v).get r' = (h'.set r v).get r'
    rw [get_set, get_set]
    by_cases hr : r = r'
    · rw [if_pos hr, if_pos hr]
    · rw [if_neg hr, if_neg hr]
      exact x.reg (hc.resolve_right fun heq => hr (by cases heq; rfl))
  | floatReg f => exact x.float (hc.resolve_right (by simp))
  | quadReg q => exact x.quad (hc.resolve_right (by simp))
  | flags => exact x.flags (hc.resolve_right (by simp))
  | savedFlags => exact x.savedFlags (hc.resolve_right (by simp))
  | guestPc => trivial

theorem AgreeOn.setFloat (x : AgreeOn cells h h') (f : FloatReg) (v : Single) :
    AgreeOn (cells ∪ {.floatReg f}) (h.setFloat f v) (h'.setFloat f v) := by
  intro c hc
  cases c with
  | reg r => exact x.reg (hc.resolve_right (by simp))
  | floatReg f' =>
    show (h.setFloat f v).float f' = (h'.setFloat f v).float f'
    rw [float_setFloat, float_setFloat]
    by_cases hf : f = f'
    · rw [if_pos hf, if_pos hf]
    · rw [if_neg hf, if_neg hf]
      exact x.float (hc.resolve_right fun heq => hf (by cases heq; rfl))
  | quadReg q => exact x.quad (hc.resolve_right (by simp))
  | flags => exact x.flags (hc.resolve_right (by simp))
  | savedFlags => exact x.savedFlags (hc.resolve_right (by simp))
  | guestPc => trivial

theorem AgreeOn.setQuad (x : AgreeOn cells h h') (q : QuadReg) (v : Vector Single 4) :
    AgreeOn (cells ∪ {.quadReg q}) (h.setQuad q v) (h'.setQuad q v) := by
  intro c hc
  cases c with
  | reg r => exact x.reg (hc.resolve_right (by simp))
  | floatReg f => exact x.float (hc.resolve_right (by simp))
  | quadReg q' =>
    show (h.setQuad q v).quad q' = (h'.setQuad q v).quad q'
    rw [quad_setQuad, quad_setQuad]
    by_cases hq : q = q'
    · rw [if_pos hq, if_pos hq]
    · rw [if_neg hq, if_neg hq]
      exact x.quad (hc.resolve_right fun heq => hq (by cases heq; rfl))
  | flags => exact x.flags (hc.resolve_right (by simp))
  | savedFlags => exact x.savedFlags (hc.resolve_right (by simp))
  | guestPc => trivial

theorem AgreeOn.setFlags (x : AgreeOn cells h h') (v : UInt32 × UInt32) :
    AgreeOn (cells ∪ {.flags}) { h with flags := v } { h' with flags := v } := by
  intro c hc
  cases c with
  | reg r => exact x.reg (hc.resolve_right (by simp))
  | floatReg f => exact x.float (hc.resolve_right (by simp))
  | quadReg q => exact x.quad (hc.resolve_right (by simp))
  | flags => rfl
  | savedFlags => exact x.savedFlags (hc.resolve_right (by simp))
  | guestPc => trivial

theorem AgreeOn.setSavedFlags (x : AgreeOn cells h h') (v : UInt32 × UInt32) :
    AgreeOn (cells ∪ {.savedFlags}) { h with savedFlags := v } { h' with savedFlags := v } := by
  intro c hc
  cases c with
  | reg r => exact x.reg (hc.resolve_right (by simp))
  | floatReg f => exact x.float (hc.resolve_right (by simp))
  | quadReg q => exact x.quad (hc.resolve_right (by simp))
  | flags => exact x.flags (hc.resolve_right (by simp))
  | savedFlags => rfl
  | guestPc => trivial

end HostState

namespace Machine

/-- **Two machines differ at most** in the downcount, and in the program counter unless it is one of
the cells. -/
def AlikeOn (cells : Set HostCell) (m m' : Machine) : Prop :=
  m' = m.at m'.core.pc m'.core.downcount ∧ (.guestPc ∈ cells → m'.core.pc = m.core.pc)

variable {cells cells' : Set HostCell}

theorem AlikeOn.refl (cells : Set HostCell) (m : Machine) : AlikeOn cells m m := ⟨rfl, fun _ => rfl⟩

theorem AlikeOn.mono {m m' : Machine} (x : AlikeOn cells m m') (hsub : cells' ⊆ cells) :
    AlikeOn cells' m m' := ⟨x.1, fun hc => x.2 (hsub hc)⟩

theorem execute_at {i : Instr} (hi : i.family ≠ .breakpoint) (pc : UInt32) (m : Machine)
    (p : UInt32) (d : Int32) : execute i pc (m.at p d) =
      reframeResult { m.core.frame with pc := p, downcount := d } (execute i pc m) :=
  execute_reframe hi pc m { m.core.frame with pc := p, downcount := d }

/-- An instruction that cannot be executed leaves the machine as it was. -/
theorem eq_of_execute_trap {i : Instr} {pc : UInt32} {m m' : Machine} {t : Trap}
    (hexec : execute i pc m = .error (.trap t) m') : m' = m := by
  have hcore : ∀ {f : Core → Core}, m.withCore f ≠ .error (.trap t) m' := fun h => by cases h
  have hmemory : ∀ {f : Machine → Except Violation Machine}, m.withMemory f ≠ .error (.trap t) m' :=
    fun {f} h => by
      rw [withMemory] at h
      cases hf : f m with
      | ok m₁ => rw [hf] at h; cases h
      | error v => rw [hf] at h; cases h
  rw [execute] at hexec
  cases hfam : i.family <;> rw [hfam] at hexec
  case vectorMove =>
    dsimp only at hexec
    split at hexec
    · exact (hcore hexec).elim
    · cases hexec
      rfl
  all_goals first
    | exact (hcore hexec).elim
    | exact (hmemory hexec).elim
    | (cases hexec <;> rfl)

end Machine

/-- **Two outcomes are the same for the guest**, and the host states agree on some cells.  An exit
puts the program counter in place. -/
def Outcome.Agree (cells : Set HostCell) : Outcome → Outcome → Prop
  | .next h m, .next h' m' => h.AgreeOn cells h' ∧ m.AlikeOn cells m'
  | .exit reason _ m, .exit reason' _ m' => reason = reason' ∧ m.AlikeOn Set.univ m'
  | .broken v, .broken v' => v = v'
  | _, _ => False

namespace Host

variable {cells : Set HostCell} {h h' : HostState} {m m' : Machine} {op : Operation}

/-- The program counters agree on the cells. -/
abbrev PcOn (cells : Set HostCell) (m : Machine) (p : UInt32) : Prop :=
  .guestPc ∈ cells → p = m.core.pc

theorem PcOn.union {cells' : Set HostCell} {p : UInt32} (x : PcOn cells m p)
    (hno : .guestPc ∉ cells') : PcOn (cells ∪ cells') m p :=
  fun hc => x (hc.resolve_right hno)

theorem agree_withMemory (hagree : h.AgreeOn cells h') {p : UInt32} (hp : PcOn cells m p) (d : Int32)
    (f : Memory → Except Violation Memory) :
    (Outcome.withMemory h m f).Agree cells (Outcome.withMemory h' (m.at p d) f) := by
  have hmemory : (m.at p d).memory = m.memory := rfl
  rw [Outcome.withMemory, Outcome.withMemory, hmemory]
  cases f m.memory with
  | ok memory => exact ⟨hagree, rfl, hp⟩
  | error v => rfl

/-- What becomes of one interpreted instruction. -/
def interpreted (word pc : UInt32) (h : HostState) :
    EStateM.Result StepError Machine StepEvent → Outcome
  | .ok .normal m => .next { h with flags := (0, 0) } m
  | .ok _ m => .exit (.fault (.unimplemented word pc)) h m
  | .error (.trap t) m => .exit (.fault t) h m
  | .error (.violation v) _ => .broken v

theorem perform_interpret_eq (word : UInt32) (h : HostState) (m : Machine) :
    (Operation.interpret word).perform h m =
      interpreted word m.core.pc h (Machine.execute ⟨word⟩ m.core.pc m) := by
  have hperform : (Operation.interpret word).perform h m =
      match Machine.execute ⟨word⟩ m.core.pc m with
      | .ok .normal m' => .next { h with flags := (0, 0) } m'
      | .ok _ m' => .exit (.fault (.unimplemented word m.core.pc)) h m'
      | .error (.trap t) m' => .exit (.fault t) h m'
      | .error (.violation v) _ => .broken v := rfl
  rw [hperform]
  cases Machine.execute ⟨word⟩ m.core.pc m with
  | ok event m' => cases event <;> rfl
  | error e m' => cases e <;> rfl

/-- The effect of an instruction does not depend on the downcount. -/
theorem agree_interpreted (word : UInt32) (d : Int32) (hagree : h.AgreeOn cells h') :
    (interpreted word m.core.pc h (Machine.execute ⟨word⟩ m.core.pc m)).Agree (cells ∪ {.flags})
      (interpreted word m.core.pc h'
        (Machine.execute ⟨word⟩ m.core.pc (m.at m.core.pc d))) := by
  by_cases hi : (Instr.mk word).family = .breakpoint
  · have hm : ∀ (m : Machine) pc, Machine.execute ⟨word⟩ pc m =
        .ok .breakpoint (m.mapCore fun c => { c with runState := .stopped pc }) := fun m pc => by
      rw [Machine.execute, hi]
      rfl
    rw [hm, hm]
    exact ⟨rfl, rfl, fun _ => rfl⟩
  · rw [Machine.execute_at hi]
    cases hexec : Machine.execute ⟨word⟩ m.core.pc m with
    | ok event m' =>
      have hframe := Machine.frame_execute hi hexec
      have halike : ∀ cells : Set HostCell, m'.AlikeOn cells
          (m'.reframe { m.core.frame with pc := m.core.pc, downcount := d }) := fun cells => by
        refine ⟨?_, fun _ => (congrArg Core.Frame.pc hframe).symm⟩
        rw [← hframe]
        rfl
      cases event with
      | normal => exact ⟨hagree.setFlags (0, 0), halike _⟩
      | syscall code => exact ⟨rfl, halike _⟩
      | breakpoint => exact ⟨rfl, halike _⟩
    | error e m' =>
      cases e with
      | trap t =>
        have hm := Machine.eq_of_execute_trap hexec
        rw [hm]
        exact ⟨rfl, rfl, fun _ => rfl⟩
      | violation v => rfl

variable {p : UInt32}

theorem agree_next (hagree : h.AgreeOn cells h') (hp : PcOn cells m p) (d : Int32) :
    (Outcome.next h m).Agree cells (.next h' (m.at p d)) := ⟨hagree, rfl, hp⟩

theorem agree_set (hagree : h.AgreeOn cells h') (hp : PcOn cells m p) (d : Int32) (r : HostReg)
    {v v' : UInt32} (hv : v = v') : (Outcome.next (h.set r v) m).Agree (cells ∪ {.reg r})
      (.next (h'.set r v') (m.at p d)) := by
  rw [hv]
  exact agree_next (hagree.set r v') (hp.union (by simp)) d

theorem agree_setFloat (hagree : h.AgreeOn cells h') (hp : PcOn cells m p) (d : Int32) (f : FloatReg)
    {v v' : Single} (hv : v = v') : (Outcome.next (h.setFloat f v) m).Agree (cells ∪ {.floatReg f})
      (.next (h'.setFloat f v') (m.at p d)) := by
  rw [hv]
  exact agree_next (hagree.setFloat f v') (hp.union (by simp)) d

theorem agree_setQuad (hagree : h.AgreeOn cells h') (hp : PcOn cells m p) (d : Int32) (q : QuadReg)
    {v v' : Vector Single 4} (hv : v = v') :
    (Outcome.next (h.setQuad q v) m).Agree (cells ∪ {.quadReg q})
      (.next (h'.setQuad q v') (m.at p d)) := by
  rw [hv]
  exact agree_next (hagree.setQuad q v') (hp.union (by simp)) d

theorem agree_setFlags (hagree : h.AgreeOn cells h') (hp : PcOn cells m p) (d : Int32)
    {v v' : UInt32 × UInt32} (hv : v = v') :
    (Outcome.next { h with flags := v } m).Agree (cells ∪ {.flags})
      (.next { h' with flags := v' } (m.at p d)) := by
  rw [hv]
  exact agree_next (hagree.setFlags v') (hp.union (by simp)) d

theorem agree_setSavedFlags (hagree : h.AgreeOn cells h') (hp : PcOn cells m p) (d : Int32)
    {v v' : UInt32 × UInt32} (hv : v = v') :
    (Outcome.next { h with savedFlags := v } m).Agree (cells ∪ {.savedFlags})
      (.next { h' with savedFlags := v' } (m.at p d)) := by
  rw [hv]
  exact agree_next (hagree.setSavedFlags v') (hp.union (by simp)) d

theorem agree_setPair (hagree : h.AgreeOn cells h') (hp : PcOn cells m p) (d : Int32)
    (hi lo : HostReg) {v v' : UInt32 × UInt32} (hv : v = v') :
    (Outcome.next ((h.set hi v.1).set lo v.2) m).Agree (cells ∪ {.reg hi, .reg lo})
      (.next ((h'.set hi v'.1).set lo v'.2) (m.at p d)) := by
  rw [hv]
  refine agree_next (((hagree.set hi _).set lo _).mono ?_) (hp.union ?_) d
  · rw [Set.union_assoc]
    exact subset_rfl
  · rintro (hc | hc) <;> cases hc

/-- A change of the core that neither reads nor writes the program counter and the downcount. -/
theorem agree_withCore (hagree : h.AgreeOn cells h') (hp : PcOn cells m p) (d : Int32)
    {f f' : Core → Core} (hf : f = f')
    (hclock : ∀ c, f { c with pc := p, downcount := d } = { f c with pc := p, downcount := d })
    (hpc : (f m.core).pc = m.core.pc) :
    (Outcome.withCore h m f).Agree (cells ∪ ∅) (Outcome.withCore h' (m.at p d) f') := by
  rw [Set.union_empty, ← hf]
  have hm : Machine.mk (f (m.at p d).core) m.memory = Machine.at ⟨f m.core, m.memory⟩ p d := by
    show Machine.mk (f { m.core with pc := p, downcount := d }) m.memory = _
    rw [hclock]
    rfl
  show (Outcome.next h ⟨f m.core, m.memory⟩).Agree cells
    (.next h' ⟨f (m.at p d).core, m.memory⟩)
  rw [hm]
  exact agree_next hagree (fun hc => (hp hc).trans hpc.symm) d

theorem agree_store (hagree : h.AgreeOn cells h') (hp : PcOn cells m p) (d : Int32)
    {f f' : Memory → Except Violation Memory} (hf : f = f') :
    (Outcome.withMemory h m f).Agree (cells ∪ ∅) (Outcome.withMemory h' (m.at p d) f') := by
  rw [Set.union_empty, ← hf]
  exact agree_withMemory hagree hp d f

theorem setReg_at (c : Core) (r : GuestReg) (v p : UInt32) (d : Int32) :
    Core.setReg { c with pc := p, downcount := d } r v =
      { c.setReg r v with pc := p, downcount := d } := by
  cases r with
  | gpr n =>
    show Core.setGpr _ n v = { c.setGpr n v with pc := p, downcount := d }
    rw [Core.setGpr, Core.setGpr]
    split <;> rfl
  | hi => rfl
  | lo => rfl
  | condition => rfl

theorem pc_setReg (c : Core) (r : GuestReg) (v : UInt32) : (c.setReg r v).pc = c.pc := by
  cases r with
  | gpr n =>
    show (c.setGpr n v).pc = _
    rw [Core.setGpr]
    split <;> rfl
  | hi => rfl
  | lo => rfl
  | condition => rfl

theorem setElements_at (c : Core) (es : List Element) (xs : List Single) (p : UInt32) (d : Int32) :
    setElements { c with pc := p, downcount := d } es xs =
      { setElements c es xs with pc := p, downcount := d } := by
  induction es generalizing c xs with
  | nil => rfl
  | cons e es ih =>
    cases xs with
    | nil => rfl
    | cons x xs => exact ih (c.setElement e x) xs

theorem pc_setElements (c : Core) (es : List Element) (xs : List Single) :
    (setElements c es xs).pc = c.pc := by
  induction es generalizing c xs with
  | nil => rfl
  | cons e es ih =>
    cases xs with
    | nil => rfl
    | cons x xs => exact ih (c.setElement e x) xs

/-- **An operation of straight code does the same to the guest** when the hosts agree on what it
reads. -/
theorem agree_perform (hop : op.Inline) (hp : PcOn cells m p) (d : Int32) (hreads : op.reads ⊆ cells)
    (hagree : h.AgreeOn cells h') :
    (op.perform h m).Agree (cells ∪ op.writes) (op.perform h' (m.at p d)) := by
  have hreg : ∀ {r}, .reg r ∈ op.reads → h.get r = h'.get r := fun hr => hagree.reg (hreads hr)
  have hfloat : ∀ {f}, .floatReg f ∈ op.reads → h.float f = h'.float f :=
    fun hf => hagree.float (hreads hf)
  have hquad : ∀ {q}, .quadReg q ∈ op.reads → h.quad q = h'.quad q :=
    fun hq => hagree.quad (hreads hq)
  have hflags : .flags ∈ op.reads → h.flags = h'.flags := fun hf => hagree.flags (hreads hf)
  have haddress : ∀ {base}, .reg base ∈ op.reads → ∀ offset, h.address base offset =
      h'.address base offset := fun hr offset => by
    rw [HostState.address, HostState.address, hreg hr]
  cases op with
  | nop => exact agree_next (hagree.mono (Set.union_empty _).subset) (hp.union (by simp)) d
  | movImm rd imm => exact agree_set hagree hp d rd rfl
  | mov rd rs => exact agree_set hagree hp d rd (hreg rfl)
  | loadGuest rd r => exact agree_set hagree hp d rd (by cases r <;> rfl)
  | storeGuest rs r =>
    exact agree_withCore (f := (·.setReg r (h.get rs))) hagree hp d
      (by rw [hreg rfl]) (fun c => setReg_at c r _ p d) (pc_setReg _ _ _)
  | alu o rd rs rt =>
    exact agree_set hagree hp d rd (by rw [hreg (.inl rfl), hreg (.inr rfl)])
  | aluImm o rd rs imm => exact agree_set hagree hp d rd (by rw [hreg rfl])
  | unary o rd rs => exact agree_set hagree hp d rd (by rw [hreg rfl])
  | multiply kind rs rt hi lo => exact agree_setPair hagree hp d hi lo (hagree.multiply hreads)
  | compare rs rt =>
    exact agree_setFlags hagree hp d (by rw [hreg (.inl rfl), hreg (.inr rfl)])
  | compareImm rs imm => exact agree_setFlags hagree hp d (by rw [hreg rfl])
  | setIf c rd =>
    exact agree_set hagree hp d rd (by rw [HostState.holds, HostState.holds, hflags rfl])
  | movIf c rd rs =>
    have hsame : h.holds c = h'.holds c := by rw [HostState.holds, HostState.holds, hflags (.inl rfl)]
    show (Outcome.next (if h.holds c then h.set rd (h.get rs) else h) m).Agree _
      (.next (if h'.holds c then h'.set rd (h'.get rs) else h') (m.at p d))
    rw [← hsame, ← hreg (.inr (.inr rfl))]
    split
    · exact agree_set hagree hp d rd rfl
    · refine agree_next (hagree.mono (Set.union_subset subset_rfl ?_)) (hp.union ?_) d
      · rintro _ rfl
        exact hreads (.inr (.inl rfl))
      · nofun
  | load w rd base offset =>
    exact agree_set hagree hp d rd (by rw [haddress rfl]; rfl)
  | store w rs base offset =>
    exact agree_store (f := fun memory => w.store memory (h.address base offset) (h.get rs)) hagree hp d
      (by rw [hreg (.inl rfl), haddress (.inr rfl)])
  | saveFlags => exact agree_setSavedFlags hagree hp d (hflags rfl)
  | restoreFlags => exact agree_setFlags hagree hp d (hagree.savedFlags (hreads rfl))
  | jump target => exact hop.elim
  | jumpIf c target => exact hop.elim
  | subDowncount n =>
    exact ⟨hagree.mono (Set.union_empty _).subset, rfl, hp.union id⟩
  | checkEntry r pc => exact hop.elim
  | setPc pc =>
    refine ⟨fun c hc => ?_, rfl, fun _ => rfl⟩
    rcases hc with hc | rfl
    · exact hagree c hc
    · trivial
  | exitDispatch pc => exact hop.elim
  | exitDispatchReg rs => exact hop.elim
  | exitInterpret pc => exact hop.elim
  | exitSyscall code next => exact hop.elim
  | exitBreak pc => exact hop.elim
  | interpret word =>
    rw [perform_interpret_eq, perform_interpret_eq, hp (hreads rfl)]
    exact agree_interpreted word d hagree
  | guardModifiers pc => exact hop.elim
  | loadControl rd index => exact agree_set hagree hp d rd rfl
  | storeControl rs index =>
    exact agree_withCore (f := (·.setControl (controlIndex index) (h.get rs))) hagree hp d
      (by rw [hreg rfl]) (fun c => rfl) rfl
  | setControl index value =>
    exact agree_withCore (f := (·.setControl (controlIndex index) value)) hagree hp d rfl
      (fun c => rfl) rfl
  | loadElement fd e => exact agree_setFloat hagree hp d fd rfl
  | storeElement fs e =>
    exact agree_withCore (f := (·.setElement (elementIndex e) (h.float fs))) hagree hp d
      (by rw [hfloat rfl]) (fun c => rfl) rfl
  | float o fd fs ft =>
    exact agree_setFloat hagree hp d fd (by rw [hfloat (.inl rfl), hfloat (.inr rfl)])
  | floatUnary o fd fs => exact agree_setFloat hagree hp d fd (by rw [hfloat rfl])
  | floatImm fd bits => exact agree_setFloat hagree hp d fd rfl
  | floatMov fd fs => exact agree_setFloat hagree hp d fd (hfloat rfl)
  | floatLoad fd base offset =>
    exact agree_setFloat hagree hp d fd (by rw [haddress rfl]; rfl)
  | floatStore fs base offset =>
    exact agree_store (f := fun memory => memory.writeSingle (h.address base offset) (h.float fs))
      hagree hp d (by rw [hfloat (.inl rfl), haddress (.inr rfl)])
  | floatCompare c lane rd fs ft =>
    exact agree_set hagree hp d rd (by
      rw [hreg (.inl rfl), hfloat (.inr (.inl rfl)), hfloat (.inr (.inr rfl))])
  | mergeConditions rd rs lanes =>
    exact agree_set hagree hp d rd (by rw [hreg (.inl rfl), hreg (.inr rfl)])
  | floatToInt rd fs => exact agree_set hagree hp d rd (by rw [hfloat rfl])
  | intToFloat fd rs => exact agree_setFloat hagree hp d fd (by rw [hreg rfl])
  | loadQuad qd r => exact agree_setQuad hagree hp d qd rfl
  | storeQuad qs r =>
    exact agree_withCore (f := (setElements · (VectorSize.quad.elements r) (h.quad qs).toList))
      hagree hp d (by rw [hquad rfl]) (fun c => setElements_at c _ _ p d) (pc_setElements _ _ _)
  | quad o qd qs qt =>
    exact agree_setQuad hagree hp d qd (by rw [hquad (.inl rfl), hquad (.inr rfl)])
  | quadUnary o qd qs => exact agree_setQuad hagree hp d qd (by rw [hquad rfl])
  | quadImm qd bits => exact agree_setQuad hagree hp d qd rfl
  | quadLoad qd base offset =>
    exact agree_setQuad hagree hp d qd (by rw [haddress rfl]; rfl)
  | quadStore qs base offset =>
    exact agree_store
      (f := fun memory => storeSingles memory (h.address base offset) (h.quad qs).toList)
      hagree hp d (by rw [hquad (.inl rfl), haddress (.inr rfl)])

/-! ### Stretches of straight code -/

/-- The cells that a list of operations sets. -/
def allWrites (ops : List Operation) : Set HostCell := {c | ∃ op ∈ ops, c ∈ op.writes}

@[simp] theorem allWrites_nil : allWrites [] = ∅ := by
  ext c
  simp [allWrites]

@[simp] theorem allWrites_cons (op : Operation) (ops : List Operation) :
    allWrites (op :: ops) = op.writes ∪ allWrites ops := by
  ext c
  simp [allWrites]

@[simp] theorem allWrites_append (xs ys : List Operation) :
    allWrites (xs ++ ys) = allWrites xs ∪ allWrites ys := by
  ext c
  simp [allWrites, or_and_right, exists_or]

/-- **Every operation reads what is there already** or was set before it. -/
def Scoped (cells : Set HostCell) : List Operation → Prop
  | [] => True
  | op :: rest => op.reads ⊆ cells ∧ Scoped (cells ∪ op.writes) rest

theorem Scoped.mono {ops : List Operation} (x : Scoped cells ops) {cells' : Set HostCell}
    (hsub : cells ⊆ cells') : Scoped cells' ops := by
  induction ops generalizing cells cells' with
  | nil => trivial
  | cons op rest ih =>
    exact ⟨x.1.trans hsub, ih x.2 (Set.union_subset_union_left _ hsub)⟩

theorem Scoped.append {xs ys : List Operation} (x : Scoped cells xs)
    (y : Scoped (cells ∪ allWrites xs) ys) : Scoped cells (xs ++ ys) := by
  induction xs generalizing cells with
  | nil => rwa [allWrites_nil, Set.union_empty] at y
  | cons op rest ih =>
    refine ⟨x.1, ih x.2 ?_⟩
    rwa [allWrites_cons, ← Set.union_assoc] at y

/-- Operations that read nothing. -/
theorem scoped_of_reads_eq_empty {ops : List Operation} (hops : ∀ op ∈ ops, op.reads ⊆ cells) :
    Scoped cells ops := by
  induction ops generalizing cells with
  | nil => trivial
  | cons op rest ih =>
    exact ⟨hops op List.mem_cons_self, ih fun x hx =>
      (hops x (List.mem_cons_of_mem _ hx)).trans Set.subset_union_left⟩

/-- **Straight code does the same to the guest** when the hosts agree on what it reads. -/
theorem agree_runOps {ops : List Operation} (hops : ∀ op ∈ ops, op.Inline)
    (hscoped : Scoped cells ops) (hagree : h.AgreeOn cells h') (halike : m.AlikeOn cells m') :
    (runOps ops h m).Agree (cells ∪ allWrites ops) (runOps ops h' m') := by
  induction ops generalizing cells h h' m m' with
  | nil => exact ⟨hagree.mono (by simp), halike.mono (by simp)⟩
  | cons op rest ih =>
    have hop := agree_perform (hops op List.mem_cons_self) halike.2 m'.core.downcount hscoped.1 hagree
    rw [← halike.1] at hop
    rw [runOps, runOps]
    cases hx : op.perform h m with
    | next h₁ m₁ =>
      cases hy : op.perform h' m' with
      | next h₂ m₂ =>
        rw [hx, hy] at hop
        have hrest := ih (fun o ho => hops o (List.mem_cons_of_mem _ ho)) hscoped.2 hop.1 hop.2
        rwa [allWrites_cons, ← Set.union_assoc]
      | jump t h₂ m₂ => rw [hx, hy] at hop; exact hop.elim
      | exit r h₂ m₂ => rw [hx, hy] at hop; exact hop.elim
      | broken v => rw [hx, hy] at hop; exact hop.elim
    | jump t h₁ m₁ => rw [hx] at hop; exact hop.elim
    | exit r h₁ m₁ =>
      rw [hx] at hop
      cases hy : op.perform h' m' with
      | exit r' h₂ m₂ => rw [hy] at hop; exact hop
      | next h₂ m₂ => rw [hy] at hop; exact hop.elim
      | jump t h₂ m₂ => rw [hy] at hop; exact hop.elim
      | broken v => rw [hy] at hop; exact hop.elim
    | broken v =>
      rw [hx] at hop
      cases hy : op.perform h' m' with
      | broken v' => rw [hy] at hop; exact hop
      | next h₂ m₂ => rw [hy] at hop; exact hop.elim
      | jump t h₂ m₂ => rw [hy] at hop; exact hop.elim
      | exit r h₂ m₂ => rw [hy] at hop; exact hop.elim

/-! ### The downcount -/

/-- An outcome has the downcount of `h` and `m`, in the register and in the core. -/
def KeepsClock (h : HostState) (m : Machine) : Outcome → Prop
  | .next h' m' | .exit _ h' m' =>
    h'.get HostReg.downcount = h.get HostReg.downcount ∧ m'.core.downcount = m.core.downcount
  | _ => True

theorem keepsClock_set {r : HostReg} (hr : HostCell.reg HostReg.downcount ∉ ({.reg r} : Set HostCell))
    (v : UInt32) : KeepsClock h m (.next (h.set r v) m) := by
  refine ⟨?_, rfl⟩
  rw [HostState.get_set, if_neg fun heq => hr (by rw [heq]; rfl)]

theorem keepsClock_withCore {f : Core → Core} (hf : ∀ c, (f c).downcount = c.downcount) :
    KeepsClock h m (Outcome.withCore h m f) := ⟨rfl, hf m.core⟩

theorem keepsClock_withMemory (f : Memory → Except Violation Memory) :
    KeepsClock h m (Outcome.withMemory h m f) := by
  rw [Outcome.withMemory]
  cases f m.memory with
  | ok memory => exact ⟨rfl, rfl⟩
  | error v => trivial

theorem keepsClock_interpreted (word pc : UInt32) :
    KeepsClock h m (interpreted word pc h (Machine.execute ⟨word⟩ pc m)) := by
  cases hexec : Machine.execute ⟨word⟩ pc m with
  | ok event m' =>
    have hclock : m'.core.downcount = m.core.downcount := by
      by_cases hi : (Instr.mk word).family = .breakpoint
      · rw [Machine.execute, hi] at hexec
        cases hexec
        rfl
      · exact congrArg Core.Frame.downcount (Machine.frame_execute hi hexec)
    cases event <;> exact ⟨rfl, hclock⟩
  | error e m' =>
    cases e with
    | trap t => exact ⟨rfl, by rw [Machine.eq_of_execute_trap hexec]⟩
    | violation v => trivial

theorem downcount_setReg (c : Core) (r : GuestReg) (v : UInt32) :
    (c.setReg r v).downcount = c.downcount := by
  cases r with
  | gpr n =>
    show (c.setGpr n v).downcount = _
    rw [Core.setGpr]
    split <;> rfl
  | hi => rfl
  | lo => rfl
  | condition => rfl

theorem downcount_setElements (c : Core) (es : List Element) (xs : List Single) :
    (setElements c es xs).downcount = c.downcount := by
  induction es generalizing c xs with
  | nil => rfl
  | cons e es ih =>
    cases xs with
    | nil => rfl
    | cons x xs => exact ih (c.setElement e x) xs

/-- **Straight code that leaves the downcount alone keeps it.** -/
theorem keepsClock_perform (hop : op.Inline) (hquiet : op.Quiet) (h : HostState) (m : Machine) :
    KeepsClock h m (op.perform h m) := by
  have hset := hquiet.1
  cases op with
  | subDowncount n => exact absurd rfl (hquiet.2 n)
  | storeGuest rs r => exact keepsClock_withCore fun c => downcount_setReg c r _
  | storeQuad qs r => exact keepsClock_withCore fun c => downcount_setElements c _ _
  | setPc _ | storeControl _ _ | setControl _ _ | storeElement _ _ =>
    exact keepsClock_withCore fun c => rfl
  | store w rs base offset =>
    exact keepsClock_withMemory fun memory => w.store memory (h.address base offset) (h.get rs)
  | floatStore fs base offset =>
    exact keepsClock_withMemory fun memory => memory.writeSingle (h.address base offset) (h.float fs)
  | quadStore qs base offset =>
    exact keepsClock_withMemory fun memory =>
      storeSingles memory (h.address base offset) (h.quad qs).toList
  | interpret word =>
    rw [perform_interpret_eq]
    exact keepsClock_interpreted word _
  | multiply kind rs rt hi lo =>
    refine ⟨?_, rfl⟩
    show ((h.set hi _).set lo _).get HostReg.downcount = _
    rw [HostState.get_set, HostState.get_set, if_neg fun heq => hset (.inr (by rw [heq]; rfl)),
      if_neg fun heq => hset (.inl (by rw [heq]))]
  | movIf c rd rs =>
    show KeepsClock h m (.next (if h.holds c then h.set rd (h.get rs) else h) m)
    split
    · exact keepsClock_set hset _
    · exact ⟨rfl, rfl⟩
  | movImm _ _ | mov _ _ | loadGuest _ _ | alu _ _ _ _ | aluImm _ _ _ _ | unary _ _ _ | setIf _ _
  | load _ _ _ _ | loadControl _ _ | floatCompare _ _ _ _ _ | mergeConditions _ _ _
  | floatToInt _ _ => exact keepsClock_set hset _
  | nop | compare _ _ | compareImm _ _ | saveFlags | restoreFlags | loadElement _ _ | float _ _ _ _
  | floatUnary _ _ _ | floatImm _ _ | floatMov _ _ | floatLoad _ _ _ | intToFloat _ _ | loadQuad _ _
  | quad _ _ _ _ | quadUnary _ _ _ | quadImm _ _ | quadLoad _ _ _ => exact ⟨rfl, rfl⟩
  | jump _ | jumpIf _ _ | checkEntry _ _ | exitDispatch _ | exitDispatchReg _ | exitInterpret _
  | exitSyscall _ _ | exitBreak _ | guardModifiers _ => exact hop.elim

theorem keepsClock_runOps {ops : List Operation} (hops : ∀ op ∈ ops, op.Inline ∧ op.Quiet)
    (h : HostState) (m : Machine) : KeepsClock h m (runOps ops h m) := by
  induction ops generalizing h m with
  | nil => exact ⟨rfl, rfl⟩
  | cons op rest ih =>
    have hop := hops op List.mem_cons_self
    have hkeep := keepsClock_perform hop.1 hop.2 h m
    rw [runOps]
    cases hx : op.perform h m with
    | next h₁ m₁ =>
      rw [hx] at hkeep
      have hrest := ih (fun o ho => hops o (List.mem_cons_of_mem _ ho)) h₁ m₁
      dsimp only
      cases hy : runOps rest h₁ m₁ with
      | next h₂ m₂ =>
        rw [hy] at hrest
        exact ⟨hrest.1.trans hkeep.1, hrest.2.trans hkeep.2⟩
      | exit r h₂ m₂ =>
        rw [hy] at hrest
        exact ⟨hrest.1.trans hkeep.1, hrest.2.trans hkeep.2⟩
      | jump t h₂ m₂ => trivial
      | broken v => trivial
    | exit r h₁ m₁ =>
      rw [hx] at hkeep
      exact hkeep
    | jump t h₁ m₁ => trivial
    | broken v => trivial

end Host

end Dynarec
