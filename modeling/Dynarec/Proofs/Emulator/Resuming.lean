import Dynarec.Proofs.Emulator.Refinement

/-!
# An emulator that goes on

An emulator goes on from wherever it stopped.  Only the difference of its cycles to their target
matters to what it does next (`Emulator.slices_since`), and its machine rests between two
instructions (`Emulator.slices_rests`).  So when its session is sound, the next run does to the
machine what the reference does to it (`Emulator.repeats_of_sound`), whatever came before.
-/

namespace Dynarec

open Machine

namespace Emulator

variable {H : Type} {handler : SyscallHandler H} {h h' : H} {e e' : Emulator} {target fuel n : Nat}
  {result : Except Failure StopReason} {P : Session → Prop}

/-! ### What slices keep -/

/-- **An emulator that recompiles**, with a property of its session. -/
def Holds (P : Session → Prop) (e : Emulator) : Prop :=
  ∃ r, e.engine = .recompiler r ∧ P ⟨r, e.machine⟩

/-- **A property of sessions that runs keep**, whatever the outside stores between them. -/
structure Kept (P : Session → Prop) : Prop where
  happens : ∀ {s s' : Session} {label : Option Session.Action}, P s → Session.Happens label s s' → P s'
  outside : ∀ {s : Session} {m : Machine}, P s → Memory.Stores s.machine.memory m.memory →
    P ⟨s.recompiler, m⟩

theorem Kept.goesOn (x : Kept P) {s s' : Session} (h : P s) (hgoes : s.GoesOn s') : P s' := by
  induction hgoes with
  | refl => exact h
  | tail _ hstep ih =>
    obtain ⟨label, hnext, -⟩ := hstep
    exact x.happens ih hnext

/-- What holds of some session may be known of its emulator. -/
theorem Holds.imp {Q : Session → Prop} (h : e.Holds P) (himp : ∀ s, P s → Q s) : e.Holds Q := by
  obtain ⟨r, hengine, hr⟩ := h
  exact ⟨r, hengine, himp _ hr⟩

/-- **One slice.** -/
theorem Kept.runSlice (x : Kept P) (h : e.Holds P) {answer : Except Failure RunExit} {engine : Engine}
    {m : Machine} (hrun : e.runSlice target = .ok (answer, engine, m)) :
    ∃ r, engine = .recompiler r ∧ P ⟨r, m⟩ := by
  obtain ⟨r, hengine, hr⟩ := h
  rw [Emulator.runSlice, hengine, runEngine] at hrun
  obtain ⟨p, hp, hpure⟩ := ok_of_bind hrun
  cases hpure
  have hset : P ⟨r, e.machine.setDowncount (e.nextSlice target)⟩ := x.outside hr .refl
  exact ⟨_, rfl, x.goesOn hset (Session.goesOn_turns hp)⟩

/-- **Slices keep what runs keep**, if the handler only stores to memory. -/
theorem Kept.slices (x : Kept P) (hhandler : ∀ code h (m : Machine), Memory.Stores m.memory
      (handler code h m).2.memory) (hholds : e.Holds P)
    (hrun : Emulator.slices handler target fuel e h = .ok (result, e', h')) : e'.Holds P := by
  induction fuel generalizing e h with
  | zero => cases hrun
  | succ fuel ih =>
    by_cases hgoes : e.Goes target
    · rw [slices_of_goes hgoes] at hrun
      obtain ⟨⟨answer, engine, m⟩, hslice, hrest⟩ := ok_of_bind hrun
      obtain ⟨r, rfl, hr⟩ := x.runSlice hholds hslice
      cases answer with
      | error failure =>
        cases hrest
        exact ⟨r, rfl, hr⟩
      | ok exit =>
        obtain ⟨used, -, hrest⟩ := ok_of_bind hrest
        refine ih ⟨r, rfl, x.outside hr ?_⟩ hrest
        cases exit with
        | syscall code => exact hhandler code h m
        | budget | stopped => exact .refl
    · obtain ⟨r, hengine, hr⟩ := hholds
      obtain ⟨reason, machine, hstop, -, hmachine⟩ := slices_of_not_goes hgoes handler fuel h
      cases hstop.symm.trans hrun
      refine ⟨r, hengine, ?_⟩
      rcases hmachine with rfl | rfl
      · exact hr
      · exact x.outside hr .refl

/-- **A sound session**, whatever is watched in it. -/
def SomeSound (s : Session) : Prop := ∃ origin seen, Session.SoundBy origin seen s

theorem kept_someSound : Kept SomeSound where
  happens := by
    rintro s s' label ⟨origin, seen, x⟩ hnext
    exact ⟨_, _, (x.happens hnext).1⟩
  outside := by
    rintro s m ⟨origin, seen, x⟩ hstores
    exact ⟨origin, seen, Session.Keeps.stores x m hstores⟩

/-- **Slices that begin at rest end so**, whatever the memory holds. -/
theorem slices_rests (hhandler : Blind handler) (hsound : e.Holds SomeSound)
    (hrests : e.machine.Resting)
    (hrun : Emulator.slices handler target fuel e h = .ok (result, e', h')) : e'.machine.Resting := by
  induction fuel generalizing e h with
  | zero => cases hrun
  | succ fuel ih =>
    by_cases hgoes : e.Goes target
    · rw [slices_of_goes hgoes] at hrun
      obtain ⟨⟨answer, engine, m⟩, hslice, hrest⟩ := ok_of_bind hrun
      obtain ⟨r, rfl, hr⟩ := kept_someSound.runSlice hsound hslice
      have hends : m.Between ∨ answer = .ok .stopped ∧ m.Faulted := by
        obtain ⟨r₀, hengine, origin, seen, x⟩ := hsound
        rw [runSlice, hengine, runEngine] at hslice
        obtain ⟨p, hp, hpure⟩ := ok_of_bind hslice
        cases hpure
        have hset : (e.machine.setDowncount (e.nextSlice target)).Resting :=
          hrests.imp (·.of_sameSlot ⟨rfl, rfl, rfl⟩) fun h => h
        have x₀ : Session.SoundBy origin seen ⟨r₀, e.machine.setDowncount (e.nextSlice target)⟩ :=
          Session.Keeps.stores x _ .refl
        exact x₀.turns_rests hset hp
      cases answer with
      | error failure =>
        cases hrest
        exact .inl (hends.resolve_right (by simp))
      | ok exit =>
        obtain ⟨used, -, hrest⟩ := ok_of_bind hrest
        cases exit with
        | syscall code =>
          have hbetween : m.Between := hends.resolve_right (by simp)
          have hstores : Memory.Stores m.memory (handler code h m).2.memory :=
            hhandler.memory code h m ▸ .refl
          exact ih ⟨r, rfl, kept_someSound.outside hr hstores⟩
            (.inl (hbetween.of_sameSlot (hhandler.slot code h m))) hrest
        | budget | stopped => exact ih ⟨r, rfl, hr⟩ (hends.imp_right And.right) hrest
    · obtain ⟨reason, machine, hstop, -, hmachine⟩ := slices_of_not_goes hgoes handler fuel h
      cases hstop.symm.trans hrun
      rcases hmachine with rfl | rfl
      · exact hrests
      · exact hrests.imp (·.of_sameSlot ⟨rfl, rfl, rfl⟩) fun h => h

/-! ### Counting from somewhere else -/

/-- The emulator with its cycles counted from `n` on. -/
def since (e : Emulator) (n : Nat) : Emulator := ⟨e.engine, e.machine, e.cycles - n, e.sliceCycles⟩

theorem nextSlice_since (hn : n ≤ e.cycles) :
    (e.since n).nextSlice (target - n) = e.nextSlice target := by
  have hsame : target - n - (e.cycles - n) = target - e.cycles := by omega
  show Int32.ofNat (Nat.min (target - n - (e.cycles - n)) _) = _
  rw [hsame]
  rfl

/-- **Only the difference of the cycles to their target matters.** -/
theorem slices_since (hn : n ≤ e.cycles)
    (hrun : Emulator.slices handler target fuel e h = .ok (result, e', h')) :
    n ≤ e'.cycles ∧ e'.sliceCycles = e.sliceCycles ∧
      Emulator.slices handler (target - n) fuel (e.since n) h = .ok (result, e'.since n, h') := by
  induction fuel generalizing e h with
  | zero => cases hrun
  | succ fuel ih =>
    by_cases hgoes : e.Goes target
    · have hgoes' : (e.since n).Goes (target - n) :=
        ⟨hgoes.running, hgoes.attended, Nat.sub_lt_sub_right hn hgoes.cycles⟩
      rw [slices_of_goes hgoes] at hrun
      obtain ⟨⟨answer, engine, m⟩, hslice, hrest⟩ := ok_of_bind hrun
      have hslice' : (e.since n).runSlice (target - n) = .ok (answer, engine, m) := by
        rw [runSlice, nextSlice_since hn]
        exact hslice
      rw [slices_of_goes hgoes', hslice', nextSlice_since hn]
      dsimp only [bind, Except.bind]
      cases answer with
      | error failure =>
        cases hrest
        exact ⟨hn, rfl, rfl⟩
      | ok exit =>
        obtain ⟨used, hused, hrest⟩ := ok_of_bind hrest
        have hcounted : (e.since n).cycles + used = e.cycles + used - n := (Nat.sub_add_comm hn).symm
        dsimp only
        rw [hused]
        dsimp only
        rw [hcounted]
        exact ih (Nat.le_add_right_of_le hn) hrest
    · obtain ⟨engine, machine, cycles, size⟩ := e
      have hn : n ≤ cycles := hn
      rw [Emulator.slices] at hrun
      rw [since, Emulator.slices]
      dsimp only at hrun ⊢
      split at hrun
      · cases hrun
        exact ⟨hn, rfl, rfl⟩
      · rename_i hrunning
        split at hrun
        · rename_i hrequested
          rw [if_pos hrequested]
          cases hrun
          exact ⟨hn, rfl, rfl⟩
        · rename_i hattended
          rw [if_neg hattended]
          split at hrun
          · rename_i hcycles
            rw [if_pos (show target - n ≤ cycles - n by omega)]
            cases hrun
            exact ⟨hn, rfl, rfl⟩
          · rename_i hcycles
            exact absurd ⟨hrunning, Bool.eq_false_iff.mpr hattended, Nat.lt_of_not_le hcycles⟩ hgoes

/-! ### What a run does -/

/-- **A run does what the reference does to the same machine**: it stops where the reference faults,
or it comes to where as many instructions lead as it counted cycles. -/
def Repeats (handler : SyscallHandler H) (target : Nat) (h : H) (e : Emulator)
    (result : Except Failure StopReason) (h' : H) (e' : Emulator) : Prop :=
  (∃ k ≤ e.engine.arrears, ∃ t g, Stalled handler (h, e.machine) k (e'.since e.cycles) h' t g ∧
      result = .ok t.stopReason) ∨
    ∃ n g, Uncounted target e' n result ∧
      reference handler (e'.cycles - e.cycles + n) (h, e.machine) = some (h', g) ∧
      Agrees e'.machine g

theorem Uncounted.of_since (hn : n ≤ e'.cycles) {lag : Nat}
    (h : Uncounted (target - n) (e'.since n) lag result) : Uncounted target e' lag result := by
  cases result with
  | ok reason => exact h
  | error failure =>
    obtain ⟨hlt, hcycles⟩ := h
    have hlt : e'.cycles - n < target - n := hlt
    rw [nextSlice_since hn] at hcycles
    exact ⟨by omega, hcycles⟩

/-- **A run of a sound session repeats the reference**, whatever came before. -/
theorem repeats_of_sound (hhandler : Blind handler)
    (hsound : e.Holds fun s => ∃ origin, Session.Sound origin s) (hslice : 1 ≤ e.sliceCycles.toInt)
    (hrests : e.machine.Resting) (hstays : Undisturbed handler (h, e.machine))
    (hrun : e.runUntil handler target h = .ok (result, e', h')) :
    Repeats handler target h e result h' e' := by
  rw [runUntil] at hrun
  obtain ⟨hle, -, hsince⟩ := slices_since (Nat.le_refl e.cycles) hrun
  rcases hrests with hbetween | ⟨pc, word, hfaulted⟩
  · obtain ⟨r, hengine, origin, hr⟩ := hsound
    have x : Refines handler (h, e.machine) 0 (e.since e.cycles) h := by
      refine ⟨⟨r, hengine, origin, hr⟩, hslice, e.machine, ?_, .refl _, hbetween.closed, hbetween.zero⟩
      show reference handler (e.cycles - e.cycles + 0) (h, e.machine) = _
      rw [Nat.sub_self]
      rfl
    refine (x.slices hhandler hstays hsince).imp ?_ ?_
    · rintro ⟨k, hshort, t, g, hstalled, heq⟩
      exact ⟨k, hshort, t, g, (Nat.zero_add k).symm ▸ hstalled, heq⟩
    · rintro ⟨n, huncounted, ⟨-, -, g, hreached, hin⟩, -⟩
      exact ⟨n, g, huncounted.of_since hle, (Nat.zero_add n).symm ▸ hreached, hin.agrees⟩
  · -- nothing runs behind a fault
    have hstate : stopReason? e.machine.core.runState = some (.fault pc word) := by
      rw [hfaulted]
      rfl
    obtain ⟨rfl, rfl, rfl⟩ := slices_of_stopped hstate hrun
    refine .inr ⟨0, e'.machine, rfl, ?_, .refl _⟩
    rw [Nat.sub_self]
    rfl

end Emulator

end Dynarec
