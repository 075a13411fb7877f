import Dynarec.Proofs.Guest.Retire
import Dynarec.Proofs.Guest.Window

/-!
# Machines that agree for the guest

Two machines agree when they differ in their downcounts, in what the outside asks for, and in how
their memory is watched.  The guest sees none of these: a step takes machines that agree to machines
that agree (`Machine.Agrees.step`).
-/

namespace Dynarec

/-! ### Memory that is watched differently -/

namespace Memory

variable {m m' : Memory}

/-- **Two attempts to store come to the same**, up to marks and the queue. -/
inductive StoresAlike : Except Violation Memory → Except Violation Memory → Prop
  | ok {m m' : Memory} (alike : m.Alike m') : StoresAlike (.ok m) (.ok m')
  | error (v : Violation) : StoresAlike (.error v) (.error v)

theorem StoresAlike.bind {x y : Except Violation Memory} {f : Memory → Except Violation Memory}
    (h : StoresAlike x y) (hf : ∀ m m', m.Alike m' → StoresAlike (f m) (f m')) :
    StoresAlike (x >>= f) (y >>= f) := by
  cases h with
  | ok alike => exact hf _ _ alike
  | error v => exact .error v

namespace Alike

theorem store (x : m.Alike m') (address : UInt32) (data : List UInt8) :
    StoresAlike (m.store address data) (m'.store address data) := by
  rw [Memory.store, Memory.store, x.offset?]
  cases m.offset? address data.length with
  | none => exact .ok x
  | some offset =>
    dsimp only
    split
    · exact .error _
    · have hbytes : putBytes m'.bytes offset data = putBytes m.bytes offset data := by rw [x.bytes]
      split <;> split <;> exact .ok ⟨x.base, hbytes⟩

theorem writeSingle (x : m.Alike m') (address : UInt32) (value : Single) :
    StoresAlike (m.writeSingle address value) (m'.writeSingle address value) := x.store _ _

theorem storeElements (x : m.Alike m') (core : Core) (address : UInt32) (es : List Element) :
    StoresAlike (Machine.storeElements core m address es)
      (Machine.storeElements core m' address es) := by
  induction es generalizing m m' address with
  | nil => exact .ok x
  | cons e rest ih => exact (x.writeSingle address _).bind fun _ _ x' => ih x' (address + 4)

theorem loadElements (x : m.Alike m') (core : Core) (address : UInt32) (es : List Element) :
    Machine.loadElements core m' address es = Machine.loadElements core m address es := by
  induction es generalizing core address with
  | nil => rfl
  | cons e rest ih =>
    have hread : m'.readSingle address = m.readSingle address :=
      congrArg Single.mk (x.read address 4)
    rw [Machine.loadElements, hread]
    exact ih _ _

end Alike

end Memory

namespace Machine

variable {m m' g : Machine} {core : Core} {memory memory' : Memory} {i : Instr} {pc : UInt32}

/-- The same core, and the same bytes of memory. -/
structure SameBytes (m m' : Machine) : Prop where
  core : m'.core = m.core
  memory : m.memory.Alike m'.memory

/-- Two results are the same, up to marks and the queue.  What is left behind by a failure does not
matter. -/
inductive ResultsAlike : EStateM.Result StepError Machine StepEvent →
    EStateM.Result StepError Machine StepEvent → Prop
  | ok {event : StepEvent} {m m' : Machine} (same : m.SameBytes m') :
      ResultsAlike (.ok event m) (.ok event m')
  | error {e : StepError} {m m' : Machine} : ResultsAlike (.error e m) (.error e m')

theorem withCore_alike (x : memory.Alike memory') (f : Core → Core) :
    ResultsAlike (withCore ⟨core, memory⟩ f) (withCore ⟨core, memory'⟩ f) := .ok ⟨rfl, x⟩

/-- Storing, or failing to store. -/
theorem map_alike {x y : Except Violation Memory} (h : Memory.StoresAlike x y) (core : Core) :
    (∃ m m', x.map (Machine.mk core) = .ok m ∧ y.map (Machine.mk core) = .ok m' ∧ m.SameBytes m') ∨
      ∃ v, x.map (Machine.mk core) = .error v ∧ y.map (Machine.mk core) = .error v := by
  cases h with
  | ok alike => exact .inl ⟨_, _, rfl, rfl, rfl, alike⟩
  | error v => exact .inr ⟨v, rfl, rfl⟩

theorem withMemory_alike {f : Machine → Except Violation Machine} {m m' : Machine}
    (h : (∃ n n', f m = .ok n ∧ f m' = .ok n' ∧ n.SameBytes n') ∨
      ∃ v, f m = .error v ∧ f m' = .error v) : ResultsAlike (m.withMemory f) (m'.withMemory f) := by
  rw [withMemory, withMemory]
  rcases h with ⟨n, n', hn, hn', same⟩ | ⟨v, hv, hv'⟩
  · rw [hn, hn']
    exact .ok same
  · rw [hv, hv']
    exact .error

theorem executeMemory_alike (x : memory.Alike memory') (core : Core) (i : Instr) :
    (∃ n n', executeMemory ⟨core, memory⟩ i = .ok n ∧ executeMemory ⟨core, memory'⟩ i = .ok n' ∧
      n.SameBytes n') ∨
      ∃ v, executeMemory ⟨core, memory⟩ i = .error v ∧ executeMemory ⟨core, memory'⟩ i = .error v := by
  simp only [executeMemory, Memory.read8, Memory.read16, Memory.read32, x.read]
  split
  iterate 5 exact .inl ⟨_, _, rfl, rfl, rfl, x⟩
  · exact map_alike (x.store _ _) core
  · exact map_alike (x.store _ _) core
  · exact map_alike (x.store _ _) core

theorem executeVectorMemory_alike (x : memory.Alike memory') (core : Core) (i : Instr)
    (es : List Element) (loads : Bool) :
    (∃ n n', executeVectorMemory ⟨core, memory⟩ i es loads = .ok n ∧
      executeVectorMemory ⟨core, memory'⟩ i es loads = .ok n' ∧ n.SameBytes n') ∨
      ∃ v, executeVectorMemory ⟨core, memory⟩ i es loads = .error v ∧
        executeVectorMemory ⟨core, memory'⟩ i es loads = .error v := by
  simp only [executeVectorMemory, x.loadElements]
  split
  · exact .inl ⟨_, _, rfl, rfl, rfl, x⟩
  · exact map_alike (x.storeElements _ _ _) core

/-- **An instruction that is not a branch** does not see how memory is watched. -/
theorem execute_alike (x : memory.Alike memory') (core : Core) (i : Instr) (pc : UInt32) :
    ResultsAlike (execute i pc ⟨core, memory⟩) (execute i pc ⟨core, memory'⟩) := by
  rw [execute, execute]
  cases i.family <;> dsimp only
  case memory => exact withMemory_alike (executeMemory_alike x core i)
  case elementMemory => exact withMemory_alike (executeVectorMemory_alike x core i _ _)
  case quadMemory => exact withMemory_alike (executeVectorMemory_alike x core i _ _)
  case vectorMove =>
    split
    · exact withCore_alike x _
    · exact .error
  all_goals first | exact withCore_alike x _ | exact .ok ⟨rfl, x⟩ | exact .error

theorem perform_alike (x : memory.Alike memory') (core : Core) (i : Instr) (pc : UInt32)
    (slot : Bool) :
    ResultsAlike (perform i pc slot ⟨core, memory⟩) (perform i pc slot ⟨core, memory'⟩) := by
  rw [perform, perform]
  split
  · exact withCore_alike x _
  · exact execute_alike x core i pc

end Machine

/-! ### The downcount and requests for control -/

namespace Core

variable (c : Core) (d : Int32) (x : Bool)

/-- A core with another downcount, and another request for control. -/
def clocked (c : Core) (d : Int32) (x : Bool) : Core := { c with downcount := d, exitRequested := x }

theorem setGpr_clocked (n : Fin 32) (v : UInt32) :
    (c.clocked d x).setGpr n v = (c.setGpr n v).clocked d x := by
  rw [setGpr, setGpr]
  split <;> rfl

theorem link_clocked (i : Instr) (pc : UInt32) :
    (c.clocked d x).link i pc = (c.link i pc).clocked d x := by
  unfold link
  simp only [setGpr_clocked]
  cases i.family <;> try rfl
  · cases i.bit 20 <;> rfl
  · dsimp only
    split <;> rfl
  · dsimp only
    split <;> rfl

theorem branch_clocked (i : Instr) (pc : UInt32) :
    (c.clocked d x).branch i pc = (c.branch i pc).clocked d x := by
  have houtcome : (c.clocked d x).branchOutcome i pc = c.branchOutcome i pc := by
    rw [branchOutcome, branchOutcome]
    cases i.family <;> rfl
  rw [branch, branch, houtcome, link_clocked]
  split <;> rfl

theorem retire_clocked (pc : UInt32) (slot : Bool) :
    (c.clocked d x).retire pc slot = (c.retire pc slot).clocked (d - 1) x := by
  unfold retire clocked
  dsimp only
  split
  · rfl
  · split <;> rfl

end Core

namespace Machine

variable {m m' g : Machine} {i : Instr} {pc : UInt32} {slot : Bool} {event : StepEvent}

/-- A machine with another downcount, and another request for control. -/
def clocked (m : Machine) (d : Int32) (x : Bool) : Machine := m.mapCore (·.clocked d x)

/-- **The effect of an instruction** does not depend on either. -/
theorem perform_clocked (hok : perform i pc slot m = .ok event m') (d : Int32) (x : Bool) :
    perform i pc slot (m.clocked d x) = .ok event (m'.clocked d x) := by
  rw [perform] at hok ⊢
  split at hok
  · rename_i hslot
    rw [if_pos hslot]
    cases hok
    cases slot
    · exact congrArg (fun c => EStateM.Result.ok _ (Machine.mk c m.memory))
        (m.core.branch_clocked d x i pc)
    · exact congrArg (fun c => EStateM.Result.ok _ (Machine.mk c m.memory))
        (m.core.link_clocked d x i pc)
  · rename_i hslot
    rw [if_neg hslot]
    by_cases hbreak : i.family = .breakpoint
    · rw [execute, hbreak] at hok ⊢
      cases hok
      rfl
    · have hframe := frame_execute hbreak hok
      have hre := execute_reframe hbreak pc m { m.core.frame with downcount := d, exitRequested := x }
      rw [hok] at hre
      refine hre.trans (congrArg (EStateM.Result.ok event) ?_)
      rw [← hframe]
      rfl

/-- A trap depends on neither. -/
theorem perform_trap_clocked {t : Trap} (htrap : perform i pc slot m = .error (.trap t) m')
    (d : Int32) (x : Bool) : ∃ m'', perform i pc slot (m.clocked d x) = .error (.trap t) m'' := by
  rw [perform] at htrap ⊢
  split at htrap
  · cases htrap
  · rename_i hslot
    rw [if_neg hslot]
    have hbreak : i.family ≠ .breakpoint := fun heq => by
      rw [execute, heq] at htrap
      cases htrap
    have hre := execute_reframe hbreak pc m { m.core.frame with downcount := d, exitRequested := x }
    rw [htrap] at hre
    exact ⟨_, hre⟩

/-! ### Agreement -/

/-- **Machines agree for the guest**: they differ in their downcounts, in requests for control and
in how memory is watched. -/
structure Agrees (m g : Machine) : Prop where
  core : g.core = m.core.clocked g.core.downcount g.core.exitRequested
  memory : m.memory.Alike g.memory

namespace Agrees

theorem refl (m : Machine) : Agrees m m := ⟨rfl, .refl _⟩

theorem symm (a : Agrees m g) : Agrees g m :=
  ⟨by rw [a.core]; rfl, a.memory.symm⟩

theorem trans {g' : Machine} (a : Agrees m g) (b : Agrees g g') : Agrees m g' :=
  ⟨by rw [b.core, a.core]; rfl, a.memory.trans b.memory⟩

theorem of_clocked {d : Int32} {x : Bool} (hcore : g.core = m.core.clocked d x)
    (hmemory : m.memory.Alike g.memory) : Agrees m g := ⟨by rw [hcore]; rfl, hmemory⟩

/-- What the guest sees of a core. -/
theorem pc_eq (a : Agrees m g) : g.core.pc = m.core.pc := by
  rw [a.core]
  rfl

theorem slot_eq (a : Agrees m g) : g.core.inDelaySlot = m.core.inDelaySlot := by
  rw [a.core]
  rfl

theorem runState_eq (a : Agrees m g) : g.core.runState = m.core.runState := by
  rw [a.core]
  rfl

end Agrees

/-- **Machines coincide**: they agree, but for a delay slot that may be open in one of them. -/
structure Coincides (m g : Machine) : Prop where
  core : g.core = { m.core with
    downcount := g.core.downcount
    exitRequested := g.core.exitRequested
    inDelaySlot := g.core.inDelaySlot
    branchTarget := g.core.branchTarget }
  memory : m.memory.Alike g.memory

theorem Agrees.coincides (a : Agrees m g) : Coincides m g := ⟨by rw [a.core]; rfl, a.memory⟩

namespace Coincides

theorem symm (x : Coincides m g) : Coincides g m := ⟨by rw [x.core], x.memory.symm⟩

theorem trans {g' : Machine} (x : Coincides m g) (y : Coincides g g') : Coincides m g' :=
  ⟨by rw [y.core, x.core], x.memory.trans y.memory⟩

/-- Machines that stop for the same reason still coincide. -/
theorem fault (x : Coincides m g) (t : Trap) : Coincides (m.fault t) (g.fault t) := by
  refine ⟨?_, x.memory⟩
  show ({ g.core with runState := t.runState } : Core) = _
  rw [x.core]
  rfl

end Coincides

/-- **Steps come to a fault**: `n` of them lead to an instruction that fails, where `m'` stopped. -/
def FaultsAt (n : Nat) (m : Machine) (t : Trap) (m' : Machine) : Prop :=
  ∃ G, Retires n m G ∧ G.Fails (.trap t) ∧ m'.Coincides G

/-- The machine in front of an instruction, without regard to its cycles. -/
theorem coincides_at (m : Machine) (pc : UInt32) (d : Int32) :
    Coincides (m.reframe { m.core.frame with pc := pc }) (m.at pc d) := ⟨rfl, .refl _⟩

/-- The same in a delay slot, without regard to that. -/
theorem coincides_inSlot (m : Machine) (pc : UInt32) (d : Int32) (target : UInt32) :
    Coincides (m.reframe { m.core.frame with pc := pc }) (m.inSlot pc d target) := ⟨rfl, .refl _⟩

/-- **An instruction has the same effect** on machines that agree. -/
theorem Agrees.performs (a : Agrees m g) (i : Instr) (pc : UInt32) (slot : Bool) :
    ResultsAlike (perform i pc slot (m.clocked g.core.downcount g.core.exitRequested))
      (perform i pc slot g) := by
  have halike := perform_alike a.memory g.core i pc slot
  have hm : m.clocked g.core.downcount g.core.exitRequested = ⟨g.core, m.memory⟩ :=
    congrArg (Machine.mk · m.memory) a.core.symm
  rw [← hm] at halike
  exact halike

/-- **A step takes machines that agree to machines that agree.** -/
theorem Agrees.step (a : Agrees m g) (hd : g.core.downcount ≠ Int32.minValue)
    (hok : Machine.step m = .ok event m') : ∃ g', Machine.step g = .ok event g' ∧ Agrees m' g' := by
  rw [Machine.step] at hok
  dsimp only at hok
  cases hfetch : m.memory.fetch? m.core.pc with
  | none =>
    rw [hfetch] at hok
    cases hok
  | some word =>
    rw [hfetch] at hok
    dsimp only at hok
    cases hperform : perform ⟨word⟩ m.core.pc m.core.inDelaySlot m with
    | error e m₁ =>
      rw [hperform] at hok
      cases hok
    | ok event₁ m₁ =>
      rw [hperform] at hok
      dsimp only at hok
      split at hok
      · cases hok
      · cases hok
        have hclocked := perform_clocked hperform g.core.downcount g.core.exitRequested
        have halike := a.performs ⟨word⟩ m.core.pc m.core.inDelaySlot
        rw [hclocked] at halike
        generalize hresult : perform ⟨word⟩ m.core.pc m.core.inDelaySlot g = result at halike
        obtain ⟨hcore, hmemory⟩ | _ := halike
        rename_i g₁
        rw [Machine.step]
        dsimp only
        rw [a.memory.fetch?, a.pc_eq, hfetch, a.slot_eq]
        dsimp only
        rw [hresult]
        have hd₁ : (g₁.core.downcount == Int32.minValue) = false := by
          rw [hcore]
          exact beq_eq_false_iff_ne.mpr hd
        dsimp only
        rw [hd₁]
        have hretire := (congrArg (Core.retire · m.core.pc m.core.inDelaySlot) hcore).trans
          (m₁.core.retire_clocked _ _ _ _)
        exact ⟨_, rfl, .of_clocked hretire hmemory⟩

/-- **An instruction that cannot be done** cannot be done in a machine that agrees either. -/
theorem Agrees.fails {t : Trap} (a : Agrees m g) (h : m.Fails (.trap t)) : g.Fails (.trap t) := by
  obtain ⟨m', hstep⟩ := h
  rw [Machine.step] at hstep
  rw [Fails, Machine.step]
  dsimp only at hstep ⊢
  rw [a.memory.fetch?, a.pc_eq, a.slot_eq]
  cases hfetch : m.memory.fetch? m.core.pc with
  | none =>
    rw [hfetch] at hstep
    cases hstep
    exact ⟨g, rfl⟩
  | some word =>
    rw [hfetch] at hstep
    dsimp only at hstep ⊢
    cases hperform : perform ⟨word⟩ m.core.pc m.core.inDelaySlot m with
    | ok event m₁ =>
      rw [hperform] at hstep
      dsimp only at hstep
      split at hstep <;> cases hstep
    | error e m₁ =>
      rw [hperform] at hstep
      cases hstep
      obtain ⟨m₂, hclocked⟩ := perform_trap_clocked hperform g.core.downcount g.core.exitRequested
      have halike := a.performs ⟨word⟩ m.core.pc m.core.inDelaySlot
      rw [hclocked] at halike
      generalize perform ⟨word⟩ m.core.pc m.core.inDelaySlot g = result at halike ⊢
      cases halike
      exact ⟨_, rfl⟩

end Machine

end Dynarec
