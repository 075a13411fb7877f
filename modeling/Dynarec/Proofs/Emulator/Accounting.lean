import Dynarec.Proofs.Emulator.Refinement

/-!
# What an emulator counts

Each slice that comes to an answer is charged for with what was taken from the downcount, as long as
that fits a signed word (`Emulator.Charged`).  It fits if the slices are not within an overshoot of
the largest (`exact_of_drives`); a slice of the largest size that ends beyond it is not charged for
(`largest_slice_overflows`).  A slice that fails is not charged for at all, so a run that fails is
as far behind as that slice came (`uncounted_of_error`).
-/

namespace Dynarec

open Machine

namespace Emulator

variable {H : Type} {handler : SyscallHandler H} {options : Options} {e e₁ e' : Emulator}
  {target n k : Nat} {h h₁ h' : H} {m : Machine} {engine : Engine}

/-- **Slices that were charged for**, one after the other, and what they cost together. -/
inductive Charged (handler : SyscallHandler H) (target : Nat) (e : Emulator) (h : H) :
    Nat → Emulator → H → Prop
  | none : Charged handler target e h 0 e h
  | slice {n k : Nat} {e₁ : Emulator} {h₁ : H} {exit : RunExit} {engine : Engine} {m : Machine}
      (before : Charged handler target e h n e₁ h₁) (goes : e₁.Goes target)
      (ran : e₁.runSlice target = .ok (.ok exit, engine, m))
      (spent : (e₁.nextSlice target).toInt - m.core.downcount.toInt = k) (fits : k < 2 ^ 31) :
      Charged handler target e h (n + k)
        ⟨engine, (attend handler exit h₁ m).2, e₁.cycles + k, e₁.sliceCycles⟩
        (attend handler exit h₁ m).1

/-- A handler leaves memory where it is. -/
def KeepsLow (handler : SyscallHandler H) : Prop :=
  ∀ code h (m : Machine), m.memory.Low → (handler code h m).2.memory.Low

theorem KeepsLow.attend (x : KeepsLow handler) (exit : RunExit) (h : H) (hlow : m.memory.Low) :
    (attend handler exit h m).2.memory.Low := by
  cases exit with
  | syscall code => exact x code h m hlow
  | budget | stopped => exact hlow

theorem Charged.cycles (x : Charged handler target e h n e₁ h₁) : e₁.cycles = e.cycles + n := by
  induction x with
  | none => rfl
  | slice _ _ _ _ _ ih =>
    dsimp only
    omega

theorem Leaves.drives (x : e.Leaves options target engine m) (hslice : 1 ≤ e.sliceCycles.toInt)
    (n : Nat)
    {m' : Machine} (hlow : m'.memory.Low) : Drives options ⟨engine, m', n, e.sliceCycles⟩ :=
  ⟨x.reached, hlow, hslice⟩

/-- **Slices leave the engine what it is.** -/
theorem Charged.drives (hsize : options.Addressable) (hhandler : KeepsLow handler)
    (x : e.Drives options) (hcharged : Charged handler target e h n e₁ h₁) :
    e₁.Drives options ∧ e₁.engine.overshoot options = e.engine.overshoot options ∧
      e₁.sliceCycles = e.sliceCycles := by
  induction hcharged with
  | none => exact ⟨x, rfl, rfl⟩
  | slice _ goes ran _ _ ih =>
    obtain ⟨x₁, hovershoot, hsame⟩ := ih
    obtain ⟨_, _, _, hrun, hleaves⟩ := x₁.runSlice hsize goes.cycles
    cases ran.symm.trans hrun
    exact ⟨hleaves.drives x₁.slice _ (hhandler.attend _ _ hleaves.low),
      hleaves.overshoot.trans hovershoot, hsame⟩

/-- **What a slice takes from the downcount.** -/
theorem Leaves.spent (x : e.Leaves options target engine m) : ∃ k : Nat,
    (e.nextSlice target).toInt - m.core.downcount.toInt = k ∧
      (k : Int) ≤ (e.nextSlice target).toInt + e.engine.overshoot options := by
  have hfloor := x.floor
  have hle := x.le
  exact ⟨((e.nextSlice target).toInt - m.core.downcount.toInt).toNat, by omega, by omega⟩

theorem sliceUsed_of_spent {slice downcount : Int32} (hspent : slice.toInt - downcount.toInt = k) :
    sliceUsed slice downcount = if k < 2 ^ 31 then .ok k else .error .sliceCycles := by
  rw [sliceUsed, hspent]
  by_cases hfits : k < 2 ^ 31
  · rw [if_pos hfits, if_pos (by omega), Int.toNat_natCast]
  · rw [if_neg hfits, if_neg (by omega)]

/-- **A slice that comes to an answer** is charged for, if what it took fits. -/
theorem slices_of_spent (hgoes : e.Goes target) {exit : RunExit}
    (hran : e.runSlice target = .ok (.ok exit, engine, m))
    (hspent : (e.nextSlice target).toInt - m.core.downcount.toInt = k) (fuel : Nat) :
    slices handler target (fuel + 1) e h =
      if k < 2 ^ 31 then
        slices handler target fuel
          ⟨engine, (attend handler exit h m).2, e.cycles + k, e.sliceCycles⟩ (attend handler exit h m).1
      else .error .sliceCycles := by
  rw [slices_of_goes hgoes, hran]
  show (sliceUsed (e.nextSlice target) m.core.downcount >>= _) = _
  rw [sliceUsed_of_spent hspent]
  split <;> rfl

/-- **Slices that are not within an overshoot of the largest** are never too large to be charged for. -/
theorem Drives.slices_ne (hsize : options.Addressable) (hhandler : KeepsLow handler)
    (x : e.Drives options)
    (hroom : e.sliceCycles.toInt + e.engine.overshoot options < 2 ^ 31) (fuel : Nat) :
    slices handler target fuel e h ≠ .error .sliceCycles := by
  induction fuel generalizing e h with
  | zero => exact nofun
  | succ fuel ih =>
    by_cases hgoes : e.Goes target
    · obtain ⟨result, engine, m, hran, hleaves⟩ := x.runSlice hsize hgoes.cycles
      cases result with
      | error failure =>
        rw [slices_of_goes hgoes, hran]
        exact nofun
      | ok exit =>
        obtain ⟨k, hspent, hle⟩ := hleaves.spent
        have hslice := toInt_nextSlice_le x.slice target
        rw [slices_of_spent hgoes hran hspent, if_pos (by omega)]
        refine ih (hleaves.drives x.slice _ (hhandler.attend _ _ hleaves.low)) ?_
        rw [hleaves.overshoot]
        exact hroom
    · obtain ⟨reason, machine, hstop, -, -⟩ := slices_of_not_goes hgoes handler fuel h
      rw [hstop]
      exact nofun

/-- **Where slices failed**: behind those that were charged for, in one that was not. -/
theorem Charged.of_error (hsize : options.Addressable) (hhandler : KeepsLow handler)
    (x : e.Drives options) (hcharged : Charged handler target e h n e₁ h₁) {fuel : Nat}
    {failure : Failure} (hrun : slices handler target fuel e₁ h₁ = .ok (.error failure, e', h')) :
    ∃ n' k e₂, Charged handler target e h n' e₂ h' ∧ e₂.Goes target ∧
      e₂.runSlice target = .ok (.error failure, e'.engine, e'.machine) ∧
      (e₂.nextSlice target).toInt - e'.machine.core.downcount.toInt = (k : Nat) ∧
      e'.cycles = e₂.cycles ∧ e'.sliceCycles = e₂.sliceCycles := by
  induction fuel generalizing n e₁ h₁ with
  | zero => cases hrun
  | succ fuel ih =>
    by_cases hgoes : e₁.Goes target
    · obtain ⟨result, engine, m, hran, hleaves⟩ :=
        (hcharged.drives hsize hhandler x).1.runSlice hsize hgoes.cycles
      obtain ⟨k, hspent, -⟩ := hleaves.spent
      cases result with
      | error failure' =>
        rw [slices_of_goes hgoes, hran] at hrun
        cases hrun
        exact ⟨n, k, e₁, hcharged, hgoes, hran, hspent, rfl, rfl⟩
      | ok exit =>
        rw [slices_of_spent hgoes hran hspent] at hrun
        split at hrun
        · rename_i hfits
          exact ih (hcharged.slice hgoes hran hspent hfits) hrun
        · cases hrun
    · obtain ⟨reason, machine, hstop, -, -⟩ := slices_of_not_goes hgoes handler fuel h₁
      rw [hstop] at hrun
      cases hrun

end Emulator

open Emulator in
/-- **Slices are counted exactly, if they are not too large.**  Whichever engine runs, and however
many slices were charged for before, where the loop goes on it runs a slice that takes some of the
downcount, and no more than the slice and the overshoot of the engine.  What it took is charged for
if it fits a signed word, and so it does in every slice if the slices of the emulator are further
from the largest than the overshoot. -/
theorem exact_of_drives {options : Options} (hsize : options.Addressable) {e : Emulator}
    (x : e.Drives options) {H : Type} {handler : SyscallHandler H} (hhandler : KeepsLow handler)
    (target : Nat) (h : H) :
    (∀ n e₁ h₁, Charged handler target e h n e₁ h₁ → e₁.cycles = e.cycles + n ∧
      (e₁.Goes target → ∃ result engine m, ∃ k : Nat, e₁.runSlice target = .ok (result, engine, m) ∧
        (e₁.nextSlice target).toInt - m.core.downcount.toInt = k ∧
        (k : Int) ≤ (e₁.nextSlice target).toInt + e.engine.overshoot options ∧
        ∀ exit, result = .ok exit → ∀ fuel, slices handler target (fuel + 1) e₁ h₁ =
          if k < 2 ^ 31 then
            slices handler target fuel
              ⟨engine, (attend handler exit h₁ m).2, e₁.cycles + k, e₁.sliceCycles⟩
              (attend handler exit h₁ m).1
          else .error .sliceCycles)) ∧
    (e.sliceCycles.toInt + e.engine.overshoot options < 2 ^ 31 →
      e.runUntil handler target h ≠ .error .sliceCycles) := by
  refine ⟨fun n e₁ h₁ hcharged => ⟨hcharged.cycles, fun hgoes => ?_⟩, fun hroom =>
    x.slices_ne hsize hhandler hroom _⟩
  obtain ⟨x₁, hovershoot, -⟩ := hcharged.drives hsize hhandler x
  obtain ⟨result, engine, m, hran, hleaves⟩ := x₁.runSlice hsize hgoes.cycles
  obtain ⟨k, hspent, hle⟩ := hleaves.spent
  refine ⟨result, engine, m, k, hran, hspent, hovershoot ▸ hle, ?_⟩
  rintro exit rfl fuel
  exact slices_of_spent hgoes hran hspent fuel

theorem runOne_spinning {d : Int32} (hd : 0 < d.toInt) :
    runOne (spinningMachine.at 0x1000 d) = .ok .normal (spinningMachine.at 0x1000 (d - 1 - 1)) := by
  have hclosed : spinningMachine.Closed := ⟨rfl, rfl⟩
  have hmin : Int32.minValue.toInt = -2 ^ 31 := rfl
  have hne : ∀ d : Int32, -2 ^ 31 < d.toInt → d ≠ Int32.minValue := fun d hlt heq => by
    rw [heq] at hlt
    exact absurd hlt (by decide)
  have hless : (d - 1).toInt = d.toInt - 1 := toInt_sub_one (by omega)
  have houtcome : spinningMachine.core.branchOutcome ⟨0x08000400⟩ 0x1000 = ⟨true, 0x1000, false⟩ := rfl
  have hbranch : step (spinningMachine.at 0x1000 d) =
      .ok .normal (spinningMachine.inSlot 0x1004 (d - 1) 0x1000) := by
    have hfetch : spinningMachine.memory.fetch? 0x1000 = some 0x08000400 := by decide +kernel
    have hstep := step_branch (i := ⟨0x08000400⟩) hclosed hfetch (by decide) (hne d (by omega))
      (by rw [houtcome]; decide)
    rw [houtcome] at hstep
    exact hstep
  have hnop : execute ⟨0⟩ 0x1004 spinningMachine = .ok .normal spinningMachine := rfl
  have hslot : step (spinningMachine.inSlot 0x1004 (d - 1) 0x1000) =
      .ok .normal (spinningMachine.at 0x1000 (d - 1 - 1)) :=
    step_inSlot hclosed (by decide +kernel) (by decide) hnop (hne _ (by omega))
  rw [runOne, hbranch]
  dsimp only
  rw [if_pos (show (spinningMachine.inSlot 0x1004 (d - 1) 0x1000).core.inDelaySlot = true from rfl)]
  exact hslot

/-- **The loop ends one cycle too late** when it begins with an odd number of cycles. -/
theorem interpretSteps_spinning {fuel k : Nat} (hk : k ≤ fuel) {d : Int32} (hd : d.toInt = 2 * k - 1) :
    interpretSteps fuel (spinningMachine.at 0x1000 d) =
      .ok (.budget, spinningMachine.at 0x1000 (-1)) := by
  induction k generalizing fuel d with
  | zero =>
    obtain rfl : d = -1 := Int32.toInt_inj.mp hd
    cases fuel with
    | zero => rfl
    | succ fuel => exact if_pos (show (-1 : Int32) ≤ 0 by decide)
  | succ k ih =>
    obtain ⟨fuel, rfl⟩ : ∃ n, fuel = n + 1 := ⟨fuel - 1, by omega⟩
    have hpos : 0 < d.toInt := by omega
    have hone : (d - 1).toInt = d.toInt - 1 := toInt_sub_one (by omega)
    have htwo : (d - 1 - 1).toInt = 2 * k - 1 := by
      rw [toInt_sub_one (by omega)]
      omega
    have hgoes : ¬ (spinningMachine.at 0x1000 d).core.downcount ≤ 0 :=
      Int32.not_le.mpr (Int32.lt_iff_toInt_lt.mpr hpos)
    have hruns : (!(spinningMachine.at 0x1000 d).core.isRunning ||
      (spinningMachine.at 0x1000 d).core.exitRequested) = false := rfl
    rw [interpretSteps, if_neg hgoes, hruns, if_neg Bool.false_ne_true, runOne_spinning hpos]
    exact ih (by omega) htwo

open Emulator in
/-- The jump is run in slices of fifty cycles. -/
theorem exact_of_spinning :
    let e := Emulator.mk .interpreter spinningMachine 0 50
    (∃ result engine m, ∃ k : Nat, e.runSlice 10 = .ok (result, engine, m) ∧
      (e.nextSlice 10).toInt - m.core.downcount.toInt = k) ∧
      e.runUntil ignoreSyscalls 10 () ≠ .error .sliceCycles := by
  intro e
  have hlow : spinningMachine.memory.Low := by
    unfold Memory.Low
    decide
  have x : e.Drives {} := ⟨nofun, hlow, by decide⟩
  have hkeeps : KeepsLow ignoreSyscalls := fun _ _ _ => id
  obtain ⟨hexact, hfits⟩ := exact_of_drives (by decide) x hkeeps 10 ()
  obtain ⟨result, engine, m, k, hran, hspent, -⟩ := (hexact 0 e () .none).2 ⟨rfl, rfl, by decide⟩
  exact ⟨⟨result, engine, m, k, hran, hspent⟩, hfits (by decide)⟩

open Emulator in
/-- **The largest slice is not charged for** when it ends beyond it: what it took does not fit. -/
theorem largest_slice_overflows :
    let e := Emulator.mk .interpreter spinningMachine 0 Int32.maxValue
    e.nextSlice (2 ^ 31 - 1) = Int32.maxValue ∧
    (∃ m, e.runSlice (2 ^ 31 - 1) = .ok (.ok .budget, .interpreter, m) ∧ m.core.downcount = -1) ∧
    e.runUntil ignoreSyscalls (2 ^ 31 - 1) () = .error .sliceCycles := by
  intro e
  have hslice : e.nextSlice (2 ^ 31 - 1) = Int32.maxValue := by decide +kernel
  have hrun : e.runSlice (2 ^ 31 - 1) =
      .ok (.ok .budget, .interpreter, spinningMachine.at 0x1000 (-1)) := by
    have hsteps : (spinningMachine.setDowncount Int32.maxValue).interpretSlice =
        .ok (.budget, spinningMachine.at 0x1000 (-1)) :=
      interpretSteps_spinning (k := 2 ^ 30) (d := Int32.maxValue) (by decide) (by decide)
    rw [runSlice, hslice, runEngine, hsteps]
    rfl
  refine ⟨hslice, ⟨_, hrun, rfl⟩, ?_⟩
  rw [runUntil, slices_of_goes ⟨rfl, rfl, by decide⟩, hrun, hslice]
  rfl

open Emulator in
/-- **A slice that fails is not counted.**  Where a run fails, the cycles are those of the slices
that came to an answer; what the last one took from the downcount is missing.  So if the emulator
was as far as the reference, some instructions behind those that were counted, it is as much further
behind as that. -/
theorem uncounted_of_error {options : Options} (hsize : options.Addressable) {e : Emulator}
    (x : e.Drives options) {H : Type} {handler : SyscallHandler H} (hhandler : KeepsLow handler)
    {target : Nat} {h h' : H} {failure : Failure} {e' : Emulator}
    (hfails : e.runUntil handler target h = .ok (.error failure, e', h')) :
    ∃ n k e₁, Charged handler target e h n e₁ h' ∧ e₁.Goes target ∧
      e₁.runSlice target = .ok (.error failure, e'.engine, e'.machine) ∧
      e'.cycles = e.cycles + n ∧ e'.cycles < target ∧
      (e'.nextSlice target).toInt - e'.machine.core.downcount.toInt = (k : Nat) ∧
      ∀ p lag, Blind handler → Undisturbed handler p → Refines handler p lag e h →
        Refines handler p (lag + k) e' h' := by
  obtain ⟨n, k, e₁, hcharged, hgoes, hran, hspent, hcycles, hslice⟩ :=
    Charged.of_error hsize hhandler x .none hfails
  have hnext : e'.nextSlice target = e₁.nextSlice target := by
    rw [nextSlice, nextSlice, hcycles, hslice]
  rw [← hnext] at hspent
  refine ⟨n, k, e₁, hcharged, hgoes, hran, hcycles.trans hcharged.cycles, hcycles ▸ hgoes.cycles,
    hspent, fun p lag hblind hstays hrefines => ?_⟩
  obtain ⟨_, -, _, _, -, hbad⟩ | ⟨k', ⟨-, hspent'⟩, hrefines', -⟩ :=
    hrefines.slices hblind hstays hfails
  · cases hbad
  · obtain rfl : k' = k := by omega
    exact hrefines'

/-- Options with a code space of five words. -/
def tightSpace : Options := { codeSpaceSize := 40 }

/-- A recompiler with that space, before any block. -/
def tightRecompiler : Recompiler where
  options := tightSpace
  cache := BlockCache.empty true
    { words := #[], capacity := 5, overflowed := false, labels := #[], references := [] }
  assumesDefault := true
  distrusted := []
  stats := {}

/-- An emulator with it, and two instructions of which the second does not fit. -/
def tightEmulator : Emulator :=
  ⟨.recompiler tightRecompiler,
    ⟨Core.start 0x1000,
      (Memory.create 0x1000 8).overlay 0 [0x00, 0x00, 0x00, 0x00, 0x01, 0x10, 0x01, 0x24]⟩, 0, 50⟩

/-- A run that fails, when requests are ignored. -/
def Emulator.failedRun? (e : Emulator) (target : Nat) : Option (Failure × Emulator) :=
  match e.runUntil ignoreSyscalls target () with
  | .ok (.error failure, e', _) => some (failure, e')
  | _ => none

theorem Emulator.runUntil_of_failedRun? {e e' : Emulator} {target : Nat} {failure : Failure}
    (h : e.failedRun? target = some (failure, e')) :
    e.runUntil ignoreSyscalls target () = .ok (.error failure, e', ()) := by
  rw [failedRun?] at h
  split at h
  · rename_i hrun
    cases h
    exact hrun
  · cases h

open Emulator in
/-- The run fails behind the first instruction, which the reference takes. -/
theorem uncounted_of_tight :
    ∃ e', tightEmulator.runUntil ignoreSyscalls 10 () =
        .ok (.error (.codeSpaceExhausted 0x1004), e', ()) ∧ e'.cycles = 0 ∧
      ∃ g, reference ignoreSyscalls 1 ((), tightEmulator.machine) = some ((), g) ∧
        Agrees e'.machine g := by
  have hruns : (tightEmulator.failedRun? 10).map (fun x => (x.1, x.2.cycles,
      (x.2.nextSlice 10).toInt - x.2.machine.core.downcount.toInt)) =
        some (.codeSpaceExhausted 0x1004, 0, 1) := by decide +kernel
  obtain ⟨⟨failure, e'⟩, hrun, hleft⟩ := Option.map_eq_some_iff.mp hruns
  obtain ⟨rfl, hleft⟩ := Prod.mk.inj hleft
  have hzero : e'.cycles = 0 := (Prod.mk.inj hleft).1
  have htaken : (e'.nextSlice 10).toInt - e'.machine.core.downcount.toInt = 1 :=
    (Prod.mk.inj hleft).2
  have hfails := runUntil_of_failedRun? hrun
  have horderly : tightEmulator.machine.memory.Orderly :=
    ⟨by unfold Memory.Low; decide, by decide, nofun⟩
  have hcreate : Recompiler.create tightSpace = .ok tightRecompiler := rfl
  have hdrives : tightEmulator.Drives tightSpace :=
    ⟨fun _ heq => Engine.recompiler.inj heq ▸ .create hcreate, horderly.low, by decide⟩
  have hstays : Undisturbed ignoreSyscalls ((), tightEmulator.machine) :=
    undisturbed_of_endsUnchanged (n := 3) (by decide +kernel)
  have hrefines : Refines ignoreSyscalls ((), tightEmulator.machine) 0 tightEmulator () :=
    .create (by decide) hcreate horderly ⟨rfl, rfl⟩ rfl (by decide) ()
  obtain ⟨n, k, e₁, -, -, -, -, -, hspent, hbehind⟩ :=
    uncounted_of_error (by decide) hdrives (fun _ _ _ => id) hfails
  obtain ⟨-, -, g, hreached, hin⟩ := hbehind _ 0 blind_ignoreSyscalls hstays hrefines
  have hone : e'.cycles + (0 + k) = 1 := by omega
  rw [hone] at hreached
  exact ⟨e', hfails, hzero, g, hreached, hin.agrees⟩

open Emulator in
/-- **An instruction retired that was not counted**: the program counter is behind it, and so is
that of the reference after one instruction. -/
theorem failed_run_uncounted :
    (tightEmulator.failedRun? 10).map (fun x =>
      (x.1, x.2.cycles, x.2.machine.core.pc, x.2.machine.core.downcount)) =
        some (.codeSpaceExhausted 0x1004, 0, 0x1004, 9) ∧
    (reference ignoreSyscalls 1 ((), tightEmulator.machine)).map (·.2.core.pc) = some 0x1004 ∧
    tightEmulator.machine.core.pc = 0x1000 := by
  decide +kernel

end Dynarec
