import Dynarec.Proofs.Emulator.Refinement

/-!
# An emulator that interprets

The interpreter takes the instructions of the reference one by one, each with its delay slot, so its
slices come to where the reference comes.  Between two instructions it looks at the run state and at
the cycles that are left, so wherever no delay slot is open the reference runs and has cycles left,
up to a fault (`Emulator.Interprets.faults`).  A recompiler looks at both as well, though not as
often; so it cannot have stopped before the fault, and ends for the same one
(`Emulator.Interprets.same_fault`).
-/

namespace Dynarec

open Machine

namespace Emulator

variable {H : Type} {handler : SyscallHandler H} {p q : H × Machine} {h h' : H}
  {g g₁ m m' : Machine} {e e' : Emulator} {t : Trap} {i j k n lag target fuel : Nat}

/-! ### Where the reference fails -/

/-- The reference goes no further than to its fault. -/
theorem Stalled.le (x : Stalled handler p lag e h t g) (hn : reference handler n p = some q) :
    n ≤ e.cycles + lag := by
  by_contra hlt
  obtain ⟨k, rfl⟩ : ∃ k, n = e.cycles + lag + 1 + k := ⟨n - (e.cycles + lag + 1), by omega⟩
  obtain ⟨m, hfails⟩ := x.fails
  have hnone : reference handler (e.cycles + lag + 1) p = none := by
    rw [reference, x.reached]
    show referenceStep handler (h, g) = none
    rw [referenceStep, stride, hfails]
  rw [reference_add, hnone] at hn
  cases hn

/-- **The reference has one fault.** -/
theorem Stalled.unique {lag' : Nat} {t' : Trap} {g' : Machine} (x : Stalled handler p lag e h t g)
    (x' : Stalled handler p lag' e' h' t' g') :
    e.cycles + lag = e'.cycles + lag' ∧ h = h' ∧ t = t' ∧ g = g' := by
  have hsame : e.cycles + lag = e'.cycles + lag' := Nat.le_antisymm (x'.le x.reached) (x.le x'.reached)
  have hreached := x.reached
  rw [hsame, x'.reached] at hreached
  cases hreached
  obtain ⟨m, hfails⟩ := x.fails
  obtain ⟨m', hfails'⟩ := x'.fails
  cases hfails.symm.trans hfails'
  exact ⟨hsame, rfl, rfl, rfl⟩

/-! ### What the interpreter looks at -/

/-- **From `i` on and before `j` the reference runs and has cycles left**, wherever no delay slot is
open. -/
def Watched (handler : SyscallHandler H) (p : H × Machine) (target i j : Nat) : Prop :=
  ∀ c, i ≤ c → c < j → ∀ q, reference handler c p = some q → q.2.core.inDelaySlot = false →
    c < target ∧ q.2.core.runState = .running

theorem Watched.trans (x : Watched handler p target i j) (y : Watched handler p target j k) :
    Watched handler p target i k := fun c hi hk q hq hslot =>
  (Nat.lt_or_ge c j).elim (fun hj => x c hi hj q hq hslot) fun hj => y c hj hk q hq hslot

theorem watched_none : Watched handler p target i i := fun _ hi hj => absurd hj (Nat.not_lt.mpr hi)

/-- **One instruction with its delay slot**, that begins with a cycle left. -/
theorem watched_instruction (hreached : reference handler i p = some (h, g))
    (hruns : g.core.runState = .running) (hlt : i < target) (hpasses : Passes n g g₁)
    (hlast : BeforeLast n g₁) : Watched handler p target i (i + n + 1) := by
  intro c hi hc q hq hslot
  rcases Nat.eq_or_lt_of_le hi with rfl | hafter
  · cases hreached.symm.trans hq
    exact ⟨hlt, hruns⟩
  · obtain ⟨rfl, hopen⟩ : n = 1 ∧ g₁.core.inDelaySlot = true := hlast.resolve_left (by omega)
    obtain rfl : c = i + 1 := by omega
    cases (reference_trans hreached (reference_of_passes hpasses)).symm.trans hq
    rw [hslot] at hopen
    cases hopen

/-- **Steps of the interpreter** come to where the reference comes, or stop where it fails. -/
theorem interpretSteps_follows {exit : RunExit} (hreached : reference handler i p = some (h, g))
    (hin : InStep m g) (hbudget : i + m.core.downcount.toInt ≤ target)
    (hok : interpretSteps fuel m = .ok (exit, m')) :
    ∃ n : Nat, m.core.downcount.toInt = m'.core.downcount.toInt + n ∧
      ((exit = .stopped ∧ ∃ t g', reference handler (i + n) p = some (h, g') ∧
          g'.spent.Fails (.trap t) ∧ m'.Coincides (g'.fault t) ∧
          Watched handler p target i (i + n + 1)) ∨
        ∃ event g', reference handler (i + n) p = some (answer handler event h g') ∧
          InStep m' g' ∧ exit.Shows event ∧ Watched handler p target i (i + n) ∧
          (m'.core.runState = m.core.runState ∨ ∃ pc, m'.core.runState = .stopped pc)) := by
  induction fuel generalizing i m g with
  | zero =>
    cases hok
    exact ⟨0, (Int.add_zero _).symm, .inr ⟨.normal, g, hreached, hin, .of_ne (by simp) (by simp),
      watched_none, .inl rfl⟩⟩
  | succ fuel ih =>
    rw [interpretSteps] at hok
    split at hok
    · cases hok
      exact ⟨0, (Int.add_zero _).symm, .inr ⟨.normal, g, hreached, hin, .of_ne (by simp) (by simp),
        watched_none, .inl rfl⟩⟩
    · rename_i hd
      have hpos : 0 < m.core.downcount.toInt := Int32.lt_iff_toInt_lt.mp (Int32.not_le.mp hd)
      split at hok
      · cases hok
        exact ⟨0, (Int.add_zero _).symm, .inr ⟨.normal, g, hreached, hin, .of_ne (by simp) (by simp),
          watched_none, .inl rfl⟩⟩
      · rename_i hgoes
        have hrunning : m.core.runState = .running := by
          rw [Bool.or_eq_true, not_or, Bool.not_eq_true', Bool.not_eq_false] at hgoes
          exact eq_of_beq hgoes.1
        have hruns : g.core.runState = .running := hin.agrees.runState_eq.trans hrunning
        cases hrun : runOne m with
        | error er m₁ =>
          rw [hrun] at hok
          cases er with
          | violation v => cases hok
          | trap t =>
            cases hok
            obtain ⟨n, g', hpasses, hlast, hfails, hthere, hcycles⟩ := hin.runOne_trap hrun
            exact ⟨n, hcycles, .inl ⟨rfl, t, g',
              reference_trans hreached (reference_of_passes hpasses), hfails, hthere,
              watched_instruction hreached hruns (by omega) hpasses hlast⟩⟩
        | ok event m₁ =>
          obtain ⟨n, g₁, g', hpasses, hlast, hstride, hin', hcycles, -⟩ := hin.runOne hrun
          have hcomes := reference_trans hreached (reference_of_comes (.last hpasses hstride))
          have hwatched : Watched handler p target i (i + (n + 1)) :=
            watched_instruction hreached hruns (by omega) hpasses hlast
          have hstate : m₁.core.runState = m.core.runState ∨
              ∃ pc, m₁.core.runState = .stopped pc := by
            rw [← hin'.agrees.runState_eq, ← hin.agrees.runState_eq, ← hpasses.runState]
            exact (control_step hstride).2.imp_right And.right
          rw [hrun] at hok
          cases event with
          | normal =>
            obtain ⟨n', hcycles', hends⟩ := ih hcomes hin' (by omega) hok
            refine ⟨n + 1 + n', by omega, hends.imp ?_ ?_⟩
            · rintro ⟨hstopped, t, g'', hreached', hfails, hthere, hrest⟩
              exact ⟨hstopped, t, g'', Nat.add_assoc i (n + 1) n' ▸ hreached', hfails, hthere,
                Nat.add_assoc i (n + 1) n' ▸ hwatched.trans hrest⟩
            · rintro ⟨event, g'', hreached', hin'', hshows, hrest, hstate'⟩
              refine ⟨event, g'', Nat.add_assoc i (n + 1) n' ▸ hreached', hin'', hshows,
                Nat.add_assoc i (n + 1) n' ▸ hwatched.trans hrest, ?_⟩
              rcases hstate' with hsame | hstopped
              · rw [hsame]
                exact hstate
              · exact .inr hstopped
          | syscall code =>
            cases hok
            exact ⟨n + 1, hcycles, .inr ⟨_, g', hcomes, hin', fun other => by
              rw [RunExit.syscall.injEq, StepEvent.syscall.injEq], hwatched, hstate⟩⟩
          | breakpoint =>
            cases hok
            exact ⟨n + 1, hcycles, .inr ⟨_, g', hcomes, hin', .of_ne (by simp) (by simp), hwatched,
              hstate⟩⟩

/-! ### Slices -/

/-- **An emulator that interprets has come to where the reference comes.** -/
structure Interprets (handler : SyscallHandler H) (p : H × Machine) (e : Emulator) (h : H) : Prop where
  engine : e.engine = .interpreter
  slice : 1 ≤ e.sliceCycles.toInt
  reached : ∃ g, reference handler e.cycles p = some (h, g) ∧ InStep e.machine g

/-- **An emulator that interprets faults where the reference does**, and the reference ran there
with cycles left. -/
theorem Interprets.faults (hhandler : Provided handler) (x : Interprets handler p e h)
    (hsane : ∀ pc word, e.machine.core.runState ≠ .faulted pc word) {pc word : UInt32}
    (hrun : slices handler target fuel e h = .ok (.ok (.fault pc word), e', h')) :
    ∃ t g, Stalled handler p 0 e' h' t g ∧ .fault pc word = t.stopReason ∧
      Watched handler p target e.cycles (e'.cycles + 1) := by
  induction fuel generalizing e h with
  | zero => cases hrun
  | succ fuel ih =>
    by_cases hgoes : e.Goes target
    · obtain ⟨g, hreached, hin⟩ := x.reached
      obtain ⟨hpos, hle⟩ := toInt_nextSlice x.slice hgoes.cycles
      have hin₀ : InStep (e.machine.setDowncount (e.nextSlice target)) g :=
        hin.of_agrees (.of_clocked (d := e.nextSlice target) (x := e.machine.core.exitRequested) rfl
          (.refl _))
      rw [slices_of_goes hgoes] at hrun
      obtain ⟨⟨result, engine, m⟩, hslice, hrest⟩ := ok_of_bind hrun
      rw [runSlice, x.engine, runEngine] at hslice
      obtain ⟨⟨exit, m'⟩, hsteps, hpure⟩ := ok_of_bind hslice
      cases hpure
      obtain ⟨used, hused, hrest⟩ := ok_of_bind hrest
      have hused := sliceUsed_eq hused
      have hbudget : (e.cycles : Int) + (e.nextSlice target).toInt ≤ target := by omega
      obtain ⟨n, hcycles, hends⟩ := interpretSteps_follows hreached hin₀ hbudget hsteps
      have hcycles : (e.nextSlice target).toInt = m.core.downcount.toInt + n := hcycles
      obtain rfl : used = n := by omega
      rcases hends with ⟨rfl, t, g', hthere, hfails, hcoincides, hwatched⟩ |
        ⟨event, g', hthere, hin', hshows, hwatched, hstate⟩
      · have hstalled : Stalled handler p 0 ⟨.interpreter, m, e.cycles + used, e.sliceCycles⟩ h t g' :=
          ⟨hthere, hfails, hcoincides⟩
        obtain ⟨heq, rfl, rfl⟩ := slices_of_stopped hstalled.state hrest
        exact ⟨t, g', hstalled, Except.ok.inj heq, hwatched⟩
      · obtain ⟨-, g₁, hanswer, hin₁⟩ := hhandler.blind.attend hshows h hin'
        have hnext : Interprets handler p
            ⟨.interpreter, (attend handler exit h m).2, e.cycles + used, e.sliceCycles⟩
            (attend handler exit h m).1 := ⟨rfl, x.slice, g₁, hanswer ▸ hthere, hin₁⟩
        have hrunning : e.machine.core.runState = .running := by
          have hnone := hgoes.running
          revert hnone
          cases e.machine.core.runState <;> simp [stopReason?]
        have hstate : m.core.runState = .running ∨ ∃ pc, m.core.runState = .stopped pc :=
          hstate.imp_left fun hsame => hsame.trans hrunning
        have hsane' : ∀ pc word,
            (attend handler exit h m).2.core.runState ≠ .faulted pc word := fun pc word hfault => by
          rcases (hhandler.quiet.attend exit h m).2 with hsame | hhalted
          · rcases hstate with hstate | ⟨_, hstate⟩
            · cases hfault.symm.trans (hsame.trans hstate)
            · cases hfault.symm.trans (hsame.trans hstate)
          · cases hfault.symm.trans hhalted
        obtain ⟨t, g'', hstalled, heq, hrest'⟩ := ih hnext hsane' hrest
        exact ⟨t, g'', hstalled, heq, hwatched.trans hrest'⟩
    · obtain ⟨reason, machine, hstop, hrests, -⟩ := slices_of_not_goes hgoes handler fuel h
      cases hstop.symm.trans hrun
      cases hrests with
      | stopped state =>
        exfalso
        revert state
        cases hstate : e.machine.core.runState with
        | faulted pc word => exact absurd hstate (hsane pc word)
        | _ => simp [stopReason?]

/-- **A recompiler faults where the interpreter does.**  It leaves the same machine and the same
state of the handler behind, and counted fewer cycles by the instructions of a block at most. -/
theorem Interprets.same_fault (hhandler : Provided handler) (hstays : Undisturbed handler p)
    {e₁ e₁' e₂ e₂' : Emulator} {h₁ h₂ : H} {fuel₁ fuel₂ : Nat} (x₁ : Interprets handler p e₁ h)
    (x₂ : Refines handler p 0 e₂ h) (hzero : e₁.cycles = 0)
    (hsane : ∀ pc word, e₁.machine.core.runState ≠ .faulted pc word)
    (hattended : e₂.machine.core.exitRequested = false) {pc word : UInt32} {reason : StopReason}
    (hrun₁ : slices handler target fuel₁ e₁ h = .ok (.ok (.fault pc word), e₁', h₁))
    (hrun₂ : slices handler target fuel₂ e₂ h = .ok (.ok reason, e₂', h₂)) :
    reason = .fault pc word ∧ h₂ = h₁ ∧ e₂'.machine.Coincides e₁'.machine ∧
      e₂'.cycles ≤ e₁'.cycles ∧ e₁'.cycles ≤ e₂'.cycles + e₂.engine.arrears := by
  obtain ⟨t, g, hstalled, hfault, hwatched⟩ := x₁.faults hhandler hsane hrun₁
  rcases x₂.slices hhandler.blind hstays hrun₂ with
    ⟨k, hshort, t', g', hstalled', heq⟩ | ⟨n, hnone, hrefines, hsettles⟩
  · obtain ⟨hsame, rfl, rfl, rfl⟩ := hstalled.unique hstalled'
    exact ⟨(Except.ok.inj heq).trans hfault.symm, rfl, hstalled'.there.trans hstalled.there.symm,
      by omega, by omega⟩
  · -- it would have stopped where the interpreter goes on
    exfalso
    obtain rfl : n = 0 := hnone
    obtain ⟨-, -, g', hreached, hin⟩ := hrefines
    have hle := hstalled.le hreached
    obtain ⟨hlt, hruns⟩ := hwatched e₂'.cycles (by omega) (by omega) _ hreached
      (hin.agrees.slot_eq.trans hin.closed.inDelaySlot)
    rcases hsettles.rests reason rfl with hstate | rfl | ⟨-, hcycles⟩
    · rw [← hin.agrees.runState_eq, hruns] at hstate
      cases hstate
    · exact hsettles.attended hhandler.quiet hattended rfl
    · omega

end Emulator

open Emulator in
/-- **The engines fault alike**, from any machine in which register zero holds zero and no delay
slot is open, when no step of the reference overwrites an instruction that is fetched later. -/
theorem same_fault_of_create {options : Options} (hsize : options.Addressable) {r : Recompiler}
    (hr : Recompiler.create options = .ok r) {H : Type} {handler : SyscallHandler H}
    (hhandler : Provided handler) {m : Machine} (hm : m.memory.Orderly) (hclosed : m.Closed)
    (hz : m.core.ZeroKept) {slice : Int32} (hslice : 1 ≤ slice.toInt) {h h₁ h₂ : H}
    (hstays : Undisturbed handler (h, m)) {target : Nat} {pc word : UInt32} {reason : StopReason}
    {e₁ e₂ : Emulator}
    (hrun₁ : (Emulator.mk .interpreter m 0 slice).runUntil handler target h =
      .ok (.ok (.fault pc word), e₁, h₁))
    (hrun₂ : (Emulator.mk (.recompiler r) m 0 slice).runUntil handler target h =
      .ok (.ok reason, e₂, h₂)) :
    reason = .fault pc word ∧ h₂ = h₁ ∧ e₂.machine.Coincides e₁.machine ∧ e₂.cycles ≤ e₁.cycles ∧
      e₁.cycles ≤ e₂.cycles + options.blockLength := by
  have x₁ : Interprets handler (h, m) ⟨.interpreter, m, 0, slice⟩ h :=
    ⟨rfl, hslice, m, rfl, .refl m, hclosed, hz⟩
  have x₂ : Refines handler (h, m) 0 ⟨.recompiler r, m, 0, slice⟩ h :=
    Refines.create hsize hr hm hclosed hz hslice h
  have hoptions : r.options = options := ((Recompiler.Reached.create hr).sound hsize).1
  by_cases hgoes : (Emulator.mk .interpreter m 0 slice).Goes target
  · have hsane : ∀ pc word, m.core.runState ≠ .faulted pc word := fun pc word hfault => by
      have hrunning := hgoes.running
      rw [hfault] at hrunning
      cases hrunning
    have hsame := x₁.same_fault hhandler hstays x₂ rfl hsane hgoes.attended hrun₁ hrun₂
    rw [Engine.arrears, hoptions] at hsame
    exact hsame
  · -- the core was stopped before
    obtain ⟨reason', machine, hstop, hrests, hmachine⟩ := slices_of_not_goes hgoes handler _ h
    cases hstop.symm.trans hrun₁
    cases hrests with
    | stopped state =>
      have state : stopReason? m.core.runState = some (.fault pc word) := state
      obtain ⟨heq, rfl, rfl⟩ :=
        slices_of_stopped (e := ⟨.recompiler r, m, 0, slice⟩) state hrun₂
      refine ⟨Except.ok.inj heq, rfl, ?_, Nat.le_refl _, Nat.le_add_right _ _⟩
      rcases hmachine with rfl | rfl <;> exact ⟨rfl, .refl _⟩

end Dynarec
