import Dynarec.Emulator
import Dynarec.Proofs.Recompiler.History
import Dynarec.Proofs.Recompiler.Upkeep

/-!
# Overshoot

The budget is looked at between blocks only, and a block is charged for as a whole, so a run goes
beyond its budget by the rest of a block.  A block has no more instructions than the options allow
and one delay slot (`Options.blockLength`), and what the interpreter takes over is charged the same
way, so the downcount never falls below minus that number (`Session.Keeps.overshoot`).  Slices of an
emulator add up to no more than that beyond their target (`overshoot_of_reached`).
-/

namespace Dynarec

variable {options : Options} {r : Recompiler} {m : Machine}

/-- **A reached recompiler is sound with every machine** whose memory is low. -/
theorem Recompiler.Reached.sound (hsize : options.Addressable) (h : r.Reached options) :
    r.options = options ∧
      ∃ origin, ∀ m : Machine, m.memory.Low → Session.SoundBy origin none ⟨r, m⟩ := by
  induction h with
  | @create r made =>
    have horderly : (Memory.create 0 0).Orderly := Memory.orderly_create (by decide)
    obtain ⟨x, hoptions⟩ : Session.Sound (fun _ => .create 0 0) ⟨r, ⟨Core.start 0, .create 0 0⟩⟩ ∧ _ :=
      Session.sound_create made hsize horderly _
    exact ⟨hoptions, _, fun m hm => x.unwatched hm⟩
  | @act r m action s _ low done ih =>
    obtain ⟨hoptions, origin, hsound⟩ := ih
    by_cases hrun : action = .run
    · subst hrun
      obtain ⟨p, hp, rfl⟩ := ok_of_map done
      obtain ⟨p', hp', ⟨origin', seen', x⟩, hsame, -⟩ := (hsound m low).run
      cases hp.symm.trans hp'
      exact ⟨hsame.trans hoptions, origin', fun m' hm' => x.unwatched hm'⟩
    · obtain ⟨s', hact, x, hsame, -⟩ := (hsound m low).act hrun
      cases done.symm.trans hact
      exact ⟨hsame.trans hoptions, _, fun m' hm' => x.unwatched hm'⟩

namespace Session

variable {origin : Nat → Memory} {seen : Option (Nat → Memory)}

/-- **A run leaves the downcount above a bound**, if it had cycles left.  It ends for want of cycles
only when they are used up. -/
theorem Keeps.overshoot {s : Session} (x : SoundBy origin seen s) (hd : 0 < s.cyclesLeft) :
    ∃ p, s.run = .ok p ∧ p.2.machine.memory.Low ∧
      -(s.recompiler.options.blockLength : Int) ≤ p.2.cyclesLeft ∧
      (p.1 = .ok .budget → p.2.cyclesLeft ≤ 0) := by
  obtain ⟨p, hrun, ⟨origin', seen', x'⟩, hfinished⟩ := x.finishes
  have hstart : s.Floored s.recompiler.options := by
    rw [Floored]
    omega
  have hfloor := hfinished.floor hstart
  rw [Floored] at hfloor
  exact ⟨p, hrun, x'.low, by omega, hfinished.spent⟩

end Session

namespace Emulator

/-- **An emulator that runs a reached recompiler**, as long as its memory is low.  A slice is one
cycle at least. -/
structure Recompiles (options : Options) (e : Emulator) : Prop where
  engine : ∃ r, e.engine = .recompiler r ∧ r.Reached options
  low : e.machine.memory.Low
  slice : 1 ≤ e.sliceCycles.toInt

variable {e : Emulator} {target : Nat}

/-- The next slice reaches the target at most, and is one cycle at least. -/
theorem toInt_nextSlice (hslice : 1 ≤ e.sliceCycles.toInt) (hlt : e.cycles < target) :
    0 < (e.nextSlice target).toInt ∧ (e.nextSlice target).toInt ≤ target - e.cycles := by
  have hsmall := e.sliceCycles.toInt_lt
  have hle : Nat.min (target - e.cycles) e.sliceCycles.toInt.toNat ≤ target - e.cycles :=
    Nat.min_le_left _ _
  have hle' : Nat.min (target - e.cycles) e.sliceCycles.toInt.toNat ≤ e.sliceCycles.toInt.toNat :=
    Nat.min_le_right _ _
  have hpos : 0 < Nat.min (target - e.cycles) e.sliceCycles.toInt.toNat :=
    Nat.lt_min.mpr ⟨by omega, by omega⟩
  rw [nextSlice, Int32.toInt_ofNat_of_lt (by omega)]
  omega

theorem sliceUsed_eq {slice downcount : Int32} {used : Nat}
    (h : sliceUsed slice downcount = .ok used) : used = (slice.toInt - downcount.toInt).toNat := by
  rw [sliceUsed] at h
  split at h
  · exact (Except.ok.inj h).symm
  · cases h

/-- A core that is stopped has not come to its target. -/
theorem stopReason?_ne (state : RunState) : stopReason? state ≠ some .cycleTarget := by
  cases state <;> exact nofun

/-- Nor did the outside ask for control. -/
theorem stopReason?_ne_exitRequested (state : RunState) : stopReason? state ≠ some .exitRequested := by
  cases state <;> exact nofun

/-- **One slice.** -/
theorem Recompiles.runEngine (hsize : options.Addressable) (x : e.Recompiles options)
    (hlt : e.cycles < target) :
    ∃ result r m, Emulator.runEngine e.engine (e.machine.setDowncount (e.nextSlice target)) =
        .ok (result, .recompiler r, m) ∧ r.Reached options ∧ m.memory.Low ∧
      -(options.blockLength : Int) ≤ m.core.downcount.toInt := by
  obtain ⟨r, hengine, hreached⟩ := x.engine
  obtain ⟨hoptions, origin, hsound⟩ := hreached.sound hsize
  have hlow : (e.machine.setDowncount (e.nextSlice target)).memory.Low := x.low
  obtain ⟨p, hrun, hlow', hfloor, -⟩ := (hsound _ hlow).overshoot
    (toInt_nextSlice x.slice hlt).1
  have hact : Session.act ⟨r, e.machine.setDowncount (e.nextSlice target)⟩ .run = .ok p.2 := by
    rw [Session.act, hrun]
    rfl
  refine ⟨p.1, p.2.recompiler, p.2.machine, ?_, .act hreached hlow hact, hlow', hoptions ▸ hfloor⟩
  rw [hengine, Emulator.runEngine, hrun]
  rfl

/-- **Slices stop at most that far beyond the target**, if they started no further. -/
theorem Recompiles.slices {H : Type} {handler : SyscallHandler H}
    (hhandler : ∀ code h (m : Machine), m.memory.Low → (handler code h m).2.memory.Low)
    (hsize : options.Addressable) {fuel : Nat} {h h' : H} {e' : Emulator} (x : e.Recompiles options)
    (hcycles : e.cycles ≤ target + options.blockLength)
    (hrun : Emulator.slices handler target fuel e h = .ok (.ok .cycleTarget, e', h')) :
    target ≤ e'.cycles ∧ e'.cycles ≤ target + options.blockLength := by
  induction fuel generalizing e h with
  | zero => cases hrun
  | succ fuel ih =>
    obtain ⟨engine, machine, cycles, size⟩ := e
    have hcycles : cycles ≤ target + options.blockLength := hcycles
    rw [Emulator.slices] at hrun
    split at hrun
    · rename_i reason hstop
      cases hrun
      exact absurd hstop (stopReason?_ne _)
    · split at hrun
      · cases hrun
      · split at hrun
        · rename_i hge
          cases hrun
          exact ⟨hge, hcycles⟩
        · rename_i hlt
          obtain ⟨result, r, m, hengine, hreached, hlow, hfloor⟩ :=
            x.runEngine hsize (Nat.lt_of_not_le hlt)
          obtain ⟨hpos, hslice⟩ := toInt_nextSlice x.slice (Nat.lt_of_not_le hlt)
          dsimp only at hrun
          dsimp only at hengine hslice
          rw [hengine] at hrun
          dsimp only [bind, Except.bind] at hrun
          cases result with
          | error failure => cases hrun
          | ok exit =>
            obtain ⟨used, hused, hrest⟩ := ok_of_bind hrun
            have hsum : cycles + used ≤ target + options.blockLength := by
              rw [sliceUsed_eq hused]
              omega
            have hnext : ∀ m' : Machine, m'.memory.Low →
                (Emulator.mk (.recompiler r) m' (cycles + used) size).Recompiles options :=
              fun m' hm' => ⟨⟨r, rfl, hreached⟩, hm', x.slice⟩
            cases exit with
            | syscall code => exact ih (hnext _ (hhandler code h m hlow)) hsum hrest
            | budget | stopped => exact ih (hnext m hlow) hsum hrest

end Emulator

open Session Emulator in
/-- **Overshoot is bounded.**  A block has `blockLength` instructions at most in front of the one
that ends it.  Whatever was done with a recompiler, a run of it with cycles left comes to an answer
in which the downcount is not below minus that number; if it ended for want of cycles, none are
left.  So when an emulator stops at the cycles that it was to run, it has run no more than that
beyond them. -/
theorem overshoot_of_reached {options : Options} (hsize : options.Addressable) {r : Recompiler}
    (hr : r.Reached options) :
    (∀ m : Machine, m.memory.Low → 0 < m.core.downcount.toInt →
      ∃ p, (Session.mk r m).run = .ok p ∧ -(options.blockLength : Int) ≤ p.2.cyclesLeft ∧
        (p.1 = .ok .budget → p.2.cyclesLeft ≤ 0)) ∧
    ∀ (H : Type) (handler : SyscallHandler H),
      (∀ code h (m : Machine), m.memory.Low → (handler code h m).2.memory.Low) →
      ∀ (m : Machine) (cycles : Nat) (slice : Int32), m.memory.Low → 1 ≤ slice.toInt →
      ∀ (target : Nat) (h h' : H) (e' : Emulator), cycles < target →
        (Emulator.mk (.recompiler r) m cycles slice).runUntil handler target h =
          .ok (.ok .cycleTarget, e', h') →
        target ≤ e'.cycles ∧ e'.cycles ≤ target + options.blockLength := by
  refine ⟨fun m hm hd => ?_, fun H handler hhandler m cycles slice hm hslice target h h' e' hlt
    hrun => ?_⟩
  · obtain ⟨hoptions, origin, hsound⟩ := hr.sound hsize
    obtain ⟨p, hp, -, hfloor, hspent⟩ := (hsound m hm).overshoot hd
    exact ⟨p, hp, hoptions ▸ hfloor, hspent⟩
  · refine Recompiles.slices hhandler hsize ⟨⟨r, rfl, hr⟩, hm, hslice⟩ ?_ hrun
    show cycles ≤ _
    omega

/-- A block of two instructions is run for a budget of one cycle. -/
theorem overshoot_least :
    (∃ p, leastSession.run = .ok p ∧ -128 ≤ p.2.cyclesLeft) ∧
    ∃ e', (Emulator.mk (.recompiler leastRecompiler) leastMachine 0 1).runUntil ignoreSyscalls 1 () =
        .ok (.ok .cycleTarget, e', ()) ∧ e'.cycles = 2 ∧ 1 ≤ e'.cycles ∧ e'.cycles ≤ 1 + 128 := by
  have hreached : leastRecompiler.Reached leastSpace := .create rfl
  have hlow : leastMachine.memory.Low := (Memory.orderly_create (by decide)).low
  obtain ⟨hrun, hemulator⟩ := overshoot_of_reached (by decide) hreached
  have hstops : (match (Emulator.mk (.recompiler leastRecompiler) leastMachine 0 1).runUntil
      ignoreSyscalls 1 () with
    | .ok (.ok .cycleTarget, e', _) => e'.cycles == 2
    | _ => false) = true := by decide +kernel
  refine ⟨?_, ?_⟩
  · obtain ⟨p, hp, hfloor, -⟩ := hrun leastSession.machine hlow (by decide)
    exact ⟨p, hp, hfloor⟩
  · split at hstops
    · rename_i e' h' hok
      exact ⟨e', hok, eq_of_beq hstops, hemulator Unit ignoreSyscalls (fun _ _ _ => id) leastMachine 0 1
        hlow (by decide) 1 () () e' (by decide) hok⟩
    · cases hstops

end Dynarec
