import Dynarec.Proofs.Emulator.Overshoot
import Dynarec.Proofs.Recompiler.Spending

/-!
# Slices of an emulator

The loop of an emulator goes on while the core runs, nobody asked for control and cycles are left
(`Emulator.Goes`); it then runs one slice and charges for it (`Emulator.slices_of_goes`).  Whatever
runs guest code, a slice leaves no more of the downcount than it was given, and no less than minus
the overshoot of the engine (`Emulator.Drives.runEngine`).
-/

namespace Dynarec

namespace Machine

variable {m : Machine}

/-- **The interpreter goes one cycle beyond a slice at most**, and gives none back. -/
theorem interpretSteps_cases (hlow : m.memory.Low) (hfloor : -1 ≤ m.core.downcount.toInt) (fuel : Nat) :
    ∃ exit m', interpretSteps fuel m = .ok (exit, m') ∧ m'.memory.Low ∧
      -1 ≤ m'.core.downcount.toInt ∧ m'.core.downcount.toInt ≤ m.core.downcount.toInt := by
  induction fuel generalizing m with
  | zero => exact ⟨_, m, rfl, hlow, hfloor, Int.le_refl _⟩
  | succ fuel ih =>
    rw [interpretSteps]
    split
    · exact ⟨_, m, rfl, hlow, hfloor, Int.le_refl _⟩
    · rename_i hd
      have hpos : 0 < m.core.downcount.toInt := Int32.lt_iff_toInt_lt.mp (Int32.not_le.mp hd)
      split
      · exact ⟨_, m, rfl, hlow, hfloor, Int.le_refl _⟩
      · rcases runOne_cases hlow (by omega) with ⟨t, m', hrun, hle, htwo⟩ | ⟨event, m', hrun, hlt, htwo⟩
        · rw [hrun]
          have hlow' : m'.memory.Low := hlow.of_stores (stores_runOne_trap hrun)
          refine ⟨_, m'.fault t, rfl, hlow', ?_, hle⟩
          show -1 ≤ m'.core.downcount.toInt
          omega
        · have hlow' : m'.memory.Low := hlow.of_stores (stores_runOne hrun)
          rw [hrun]
          cases event with
          | normal =>
            obtain ⟨exit, m'', hrest, hlow'', hfloor', hle⟩ := ih hlow' (by omega)
            exact ⟨exit, m'', hrest, hlow'', hfloor', by omega⟩
          | syscall code => exact ⟨_, m', rfl, hlow', by omega, by omega⟩
          | breakpoint => exact ⟨_, m', rfl, hlow', by omega, by omega⟩

end Machine

/-- How far an engine may run beyond a slice. -/
def Engine.overshoot (options : Options) : Engine → Nat
  | .interpreter => 1
  | .recompiler _ => options.blockLength

namespace Emulator

variable {H : Type} {handler : SyscallHandler H} {options : Options} {e : Emulator} {target : Nat}
  {h : H} {m : Machine} {engine : Engine}

/-! ### One slice -/

/-- **An emulator with an engine that can be reached**, as long as its memory is low.  A slice is
one cycle at least. -/
structure Drives (options : Options) (e : Emulator) : Prop where
  engine : ∀ r, e.engine = .recompiler r → r.Reached options
  low : e.machine.memory.Low
  slice : 1 ≤ e.sliceCycles.toInt

/-- Run the next slice. -/
def runSlice (e : Emulator) (target : Nat) :
    Except Violation (Except Failure RunExit × Engine × Machine) :=
  runEngine e.engine (e.machine.setDowncount (e.nextSlice target))

/-- **What a slice leaves behind.** -/
structure Leaves (options : Options) (e : Emulator) (target : Nat) (engine : Engine) (m : Machine) :
    Prop where
  reached : ∀ r, engine = .recompiler r → r.Reached options
  overshoot : engine.overshoot options = e.engine.overshoot options
  low : m.memory.Low
  floor : -(e.engine.overshoot options : Int) ≤ m.core.downcount.toInt
  le : m.core.downcount.toInt ≤ (e.nextSlice target).toInt

/-- A slice has no more cycles than the emulator gives it. -/
theorem toInt_nextSlice_le (hslice : 1 ≤ e.sliceCycles.toInt) (target : Nat) :
    (e.nextSlice target).toInt ≤ e.sliceCycles.toInt := by
  have hsmall := e.sliceCycles.toInt_lt
  have hle : Nat.min (target - e.cycles) e.sliceCycles.toInt.toNat ≤ e.sliceCycles.toInt.toNat :=
    Nat.min_le_right _ _
  rw [nextSlice, Int32.toInt_ofNat_of_lt (by omega)]
  omega

/-- **A slice of either engine.** -/
theorem Drives.runSlice (hsize : options.Addressable) (x : e.Drives options) (hlt : e.cycles < target) :
    ∃ result engine m, e.runSlice target = .ok (result, engine, m) ∧
      e.Leaves options target engine m := by
  have hslice := toInt_nextSlice x.slice hlt
  have hlow : (e.machine.setDowncount (e.nextSlice target)).memory.Low := x.low
  cases hengine : e.engine with
  | interpreter =>
    obtain ⟨exit, m, hrun, hlow', hfloor, hle⟩ := Machine.interpretSteps_cases hlow
      (show -1 ≤ (e.nextSlice target).toInt by omega) (e.nextSlice target).toInt.toNat
    have hslices : (e.machine.setDowncount (e.nextSlice target)).interpretSlice = .ok (exit, m) := hrun
    refine ⟨.ok exit, .interpreter, m, ?_, nofun, hengine ▸ rfl, hlow', ?_, hle⟩
    · rw [Emulator.runSlice, hengine, runEngine, hslices]
      rfl
    · exact hengine ▸ hfloor
  | recompiler r =>
    obtain ⟨result, r', m, hrun, hreached, hlow', hfloor⟩ :=
      Recompiles.runEngine hsize (e := e) ⟨⟨r, hengine, x.engine r hengine⟩, x.low, x.slice⟩ hlt
    obtain ⟨-, origin, hsound⟩ := (x.engine r hengine).sound hsize
    have hran := hrun
    rw [hengine, runEngine] at hran
    obtain ⟨p, hp, hpure⟩ := ok_of_bind hran
    cases hpure
    refine ⟨p.1, _, _, hrun, fun _ heq => Engine.recompiler.inj heq ▸ hreached, hengine ▸ rfl, hlow',
      hengine ▸ hfloor, ?_⟩
    exact (hsound _ hlow).le_of_run hp

/-! ### The loop -/

/-- **The loop goes on** with another slice. -/
structure Goes (target : Nat) (e : Emulator) : Prop where
  running : stopReason? e.machine.core.runState = none
  attended : e.machine.core.exitRequested = false
  cycles : e.cycles < target

/-- What follows a slice before the next one. -/
def attend (handler : SyscallHandler H) (exit : RunExit) (h : H) (m : Machine) : H × Machine :=
  match exit with
  | .syscall code => handler code h m
  | _ => (h, m)

/-- **Where the loop goes on, it runs a slice and charges for it.** -/
theorem slices_of_goes (x : e.Goes target) (fuel : Nat) :
    slices handler target (fuel + 1) e h = (do
      let (result, engine, m) ← e.runSlice target
      match result with
      | .error failure => return (.error failure, ⟨engine, m, e.cycles, e.sliceCycles⟩, h)
      | .ok exit =>
        let used ← sliceUsed (e.nextSlice target) m.core.downcount
        let (h, m) := attend handler exit h m
        slices handler target fuel ⟨engine, m, e.cycles + used, e.sliceCycles⟩ h) := by
  obtain ⟨engine, machine, cycles, size⟩ := e
  rw [slices, x.running]
  dsimp only
  rw [x.attended, if_neg Bool.false_ne_true, if_neg (Nat.not_le.mpr x.cycles)]
  refine congrArg (Except.bind _) (funext fun p => ?_)
  obtain ⟨result, engine, m⟩ := p
  cases result with
  | error failure => rfl
  | ok exit => cases exit <;> rfl

/-- **The loop rests** for a reason: the core is stopped, or the outside asked for control, or the
cycles have retired. -/
inductive Rests (target : Nat) (e : Emulator) : StopReason → Prop
  | stopped {reason : StopReason} (state : stopReason? e.machine.core.runState = some reason) :
      Rests target e reason
  | requested (request : e.machine.core.exitRequested = true) : Rests target e .exitRequested
  | reached (cycles : target ≤ e.cycles) : Rests target e .cycleTarget

/-- Where it does not go on, nothing is run. -/
theorem slices_of_not_goes (x : ¬ e.Goes target) (handler : SyscallHandler H) (fuel : Nat) (h : H) :
    ∃ reason machine, slices handler target (fuel + 1) e h =
        .ok (.ok reason, ⟨e.engine, machine, e.cycles, e.sliceCycles⟩, h) ∧ e.Rests target reason ∧
      (machine = e.machine ∨ machine = e.machine.clearExitRequest) := by
  obtain ⟨engine, machine, cycles, size⟩ := e
  rw [slices]
  split
  · rename_i hstopped
    exact ⟨_, machine, rfl, .stopped hstopped, .inl rfl⟩
  · rename_i hrunning
    split
    · rename_i hrequested
      exact ⟨_, machine.clearExitRequest, rfl, .requested hrequested, .inr rfl⟩
    · rename_i hattended
      split
      · rename_i hcycles
        exact ⟨_, machine, rfl, .reached hcycles, .inl rfl⟩
      · rename_i hcycles
        exact absurd ⟨hrunning, Bool.eq_false_iff.mpr hattended, Nat.lt_of_not_le hcycles⟩ x

/-- A core that is stopped ends the loop. -/
theorem slices_of_stopped {reason : StopReason}
    (hstate : stopReason? e.machine.core.runState = some reason)
    {fuel : Nat} {result : Except Failure StopReason} {e' : Emulator} {h' : H}
    (hrun : slices handler target fuel e h = .ok (result, e', h')) :
    result = .ok reason ∧ e' = e ∧ h' = h := by
  cases fuel with
  | zero => cases hrun
  | succ fuel =>
    rw [slices, hstate] at hrun
    cases hrun
    exact ⟨rfl, rfl, rfl⟩

end Emulator

end Dynarec
