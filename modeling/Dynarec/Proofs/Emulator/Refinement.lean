import Dynarec.Console
import Dynarec.Proofs.Emulator.Slices
import Dynarec.Proofs.Recompiler.Termination
import Dynarec.Proofs.Recompiler.Tracking

/-!
# An emulator refines the reference

The reference takes one instruction after the other and answers every request to the system
(`Emulator.reference`).  A slice of a recompiler ends where the reference comes to, as many cycles
later as it took instructions, so slices and calls do (`Emulator.Refines.slices`,
`Emulator.Refines.calls`).  The invariant is `Emulator.Refines`.  Slices that end for a fault end
where the reference fails (`Emulator.Stalled`), with the instructions of the last block uncounted.
What it asks of a handler is that it sees no more than the guest does (`Emulator.Blind`); the
handlers at hand are of this kind (`Emulator.Provided.blind`).
-/

namespace Dynarec

open Machine

/-- Why an emulator ends that came to an instruction that cannot be done. -/
def Trap.stopReason : Trap → StopReason
  | .unimplemented word pc => .fault pc word
  | .fetchFault pc => .fault pc 0

/-- How many instructions in front of a fault an engine may leave uncounted. -/
def Engine.arrears : Engine → Nat
  | .interpreter => 0
  | .recompiler r => r.options.blockLength

namespace Emulator

variable {H : Type} {handler : SyscallHandler H} {p p' p'' : H × Machine} {h h' : H} {g g' m : Machine}
  {event : StepEvent} {i n k : Nat}

/-! ### The reference with its handler -/

/-- What is left after a step that reported an event. -/
def answer (handler : SyscallHandler H) (event : StepEvent) (h : H) (g : Machine) : H × Machine :=
  match event with
  | .syscall code => handler code h g
  | _ => (h, g)

/-- **One instruction of the reference**, and the answer to a request. -/
def referenceStep (handler : SyscallHandler H) (p : H × Machine) : Option (H × Machine) :=
  match stride p.2 with
  | .ok event g => some (answer handler event p.1 g)
  | .error _ _ => none

/-- **The reference after a number of instructions**, if it comes so far. -/
def reference (handler : SyscallHandler H) : Nat → H × Machine → Option (H × Machine)
  | 0, p => some p
  | n + 1, p => (reference handler n p).bind (referenceStep handler)

theorem reference_add (k n : Nat) :
    reference handler (k + n) p = (reference handler k p).bind (reference handler n) := by
  induction n with
  | zero => exact (Option.bind_fun_some _).symm
  | succ n ih =>
    show (reference handler (k + n) p).bind _ = _
    rw [ih, Option.bind_assoc]
    rfl

theorem reference_trans (h : reference handler k p = some p') (h' : reference handler n p' = some p'') :
    reference handler (k + n) p = some p'' := by
  rw [reference_add, h]
  exact h'

/-- Instructions that report no event need no answer. -/
theorem reference_of_passes (x : Passes n g g') : reference handler n (h, g) = some (h, g') := by
  induction x with
  | zero => rfl
  | succ _ next ih =>
    rw [reference, ih]
    show referenceStep handler (h, _) = _
    rw [referenceStep, next]
    rfl

theorem reference_of_comes (x : Comes g n event g') :
    reference handler n (h, g) = some (answer handler event h g') := by
  cases x with
  | none passes => exact reference_of_passes passes
  | last passes next =>
    rw [reference, reference_of_passes passes]
    show referenceStep handler (h, _) = _
    rw [referenceStep, next]

/-! ### Instructions that stay as they are -/

/-- **No step of the reference overwrites an instruction that it fetches later.** -/
def Undisturbed (handler : SyscallHandler H) (p : H × Machine) : Prop :=
  ∀ i before after, reference handler i p = some before → referenceStep handler before = some after →
    ∀ j later, reference handler j after = some later → ∀ k < 4,
      after.2.memory.read8 (later.2.core.pc + UInt32.ofNat k) =
        before.2.memory.read8 (later.2.core.pc + UInt32.ofNat k)

/-- **What the reference fetches is what was there before**, at every time before. -/
theorem Undisturbed.fetches (x : Undisturbed handler p) (hp : reference handler i p = some p')
    (hn : reference handler n p' = some p'') : p''.2.Fetches p'.2.memory := by
  suffices h : ∀ later j, reference handler j p'' = some later → ∀ k < 4,
      p''.2.memory.read8 (later.2.core.pc + UInt32.ofNat k) =
        p'.2.memory.read8 (later.2.core.pc + UInt32.ofNat k) from h p'' 0 rfl
  induction n generalizing p'' with
  | zero =>
    cases hn
    exact fun _ _ _ _ _ => rfl
  | succ n ih =>
    intro later j hlater k hk
    obtain ⟨q, hq, hstep⟩ := Option.bind_eq_some_iff.mp hn
    have hfrom : reference handler (1 + j) q = some later := by
      rw [reference_add]
      exact (congrArg (Option.bind · _) hstep).trans hlater
    exact (x _ q p'' (reference_trans hp hq) hstep j later hlater k hk).trans
      (ih hq later _ hfrom k hk)

theorem Undisturbed.calm (x : Undisturbed handler p) (hp : reference handler i p = some (h, g)) :
    g.Calm := by
  intro i g₁ hbefore j g₂ hbetween
  have hreached : reference handler _ p = some (h, g₁) :=
    reference_trans hp (reference_of_passes hbefore)
  exact x.fetches hreached (reference_of_passes hbetween)

/-- The reference ends after a number of instructions, and memory is what it was until then. -/
def endsUnchanged (handler : SyscallHandler H) (p : H × Machine) (n : Nat) : Bool :=
  (reference handler n p).isNone && (List.range n).all fun k =>
    (reference handler k p).all fun q =>
      q.2.memory.base == p.2.memory.base && q.2.memory.bytes.data == p.2.memory.bytes.data

/-- A program that stores nothing overwrites nothing. -/
theorem undisturbed_of_endsUnchanged (hends : endsUnchanged handler p n = true) :
    Undisturbed handler p := by
  rw [endsUnchanged, Bool.and_eq_true, List.all_eq_true] at hends
  have halike : ∀ k q, reference handler k p = some q → p.2.memory.Alike q.2.memory := fun k q hq => by
    rcases Nat.lt_or_ge k n with hlt | hge
    · have hsame := hends.2 k (List.mem_range.mpr hlt)
      rw [hq, Option.all_some, Bool.and_eq_true, beq_iff_eq, beq_iff_eq] at hsame
      exact ⟨hsame.1, ByteArray.ext hsame.2⟩
    · rw [← Nat.add_sub_cancel' hge, reference_add, Option.isNone_iff_eq_none.mp hends.1] at hq
      cases hq
  intro i before after hbefore hafter j later _ k _
  have hnext := (congrArg (Option.bind · (referenceStep handler)) hbefore).trans hafter
  exact ((halike i _ hbefore).symm.trans (halike (i + 1) _ hnext)).read _ 1

/-! ### Handlers -/

/-- **A handler sees no more than the guest does**, and leaves alone what a session relies on. -/
structure Blind (handler : SyscallHandler H) : Prop where
  state : ∀ {m g : Machine} (code : UInt32) (h : H), Agrees m g →
    (handler code h g).1 = (handler code h m).1
  agrees : ∀ {m g : Machine} (code : UInt32) (h : H), Agrees m g →
    Agrees (handler code h m).2 (handler code h g).2
  memory : ∀ (code : UInt32) (h : H) (m : Machine), (handler code h m).2.memory = m.memory
  slot : ∀ (code : UInt32) (h : H) (m : Machine), m.SameSlot (handler code h m).2

theorem blind_ignoreSyscalls : Blind ignoreSyscalls where
  state _ _ _ := rfl
  agrees _ _ a := a
  memory _ _ _ := rfl
  slot _ _ m := .refl m

end Emulator

namespace Console

open Emulator

variable {memory memory' : Memory}

theorem textLength_alike (x : memory.Alike memory') (room : Nat) (address : UInt32) (count : Nat) :
    textLength memory' room address count = textLength memory room address count := by
  induction room generalizing address count with
  | zero => rfl
  | succ room ih =>
    have hcontains : memory'.contains address 1 = memory.contains address 1 :=
      congrArg Option.isSome (x.offset? address 1)
    have hread : memory'.read8 address = memory.read8 address := x.read address 1
    rw [textLength, textLength, hcontains, hread, ih]

/-- The console reads the same text. -/
theorem textAt_alike (x : memory.Alike memory') (address : UInt32) :
    textAt memory' address = textAt memory address := by
  have hread : ∀ a, memory'.read8 a = memory.read8 a := fun a => x.read a 1
  rw [textAt, textAt, textBytes, textBytes, textLength_alike x, x.size]
  simp only [hread]

theorem blind : Blind Console.syscall where
  state {m g} code c a := by
    have hgpr : g.core.gpr 4 = m.core.gpr 4 := by
      rw [a.core]
      rfl
    unfold syscall
    dsimp only
    split <;> simp only [hgpr, textAt_alike a.memory]
  agrees {m g} code c a := by
    unfold syscall
    dsimp only
    split
    case h_4 => exact ⟨by rw [a.core]; rfl, a.memory⟩
    all_goals exact a
  memory code c m := by
    unfold syscall
    dsimp only
    split <;> rfl
  slot code c m := by
    unfold syscall
    dsimp only
    split <;> exact ⟨rfl, rfl, rfl⟩

end Console

namespace Emulator

variable {H : Type} {handler : SyscallHandler H} {p : H × Machine} {h h' : H} {g g' m : Machine}
  {event : StepEvent} {n k lag target : Nat} {e e' : Emulator}

/-- **The handlers at hand.** -/
inductive Provided : {H : Type} → SyscallHandler H → Prop
  | ignore : Provided ignoreSyscalls
  | console : Provided Console.syscall

theorem Provided.blind (x : Provided handler) : Blind handler := by
  cases x with
  | ignore => exact blind_ignoreSyscalls
  | console => exact Console.blind

/-- **A handler asks for no control**, and does nothing to a core that runs but halt it. -/
structure Quiet (handler : SyscallHandler H) : Prop where
  exitRequested : ∀ (code : UInt32) (h : H) (m : Machine),
    (handler code h m).2.core.exitRequested = m.core.exitRequested
  runState : ∀ (code : UInt32) (h : H) (m : Machine),
    (handler code h m).2.core.runState = m.core.runState ∨
      (handler code h m).2.core.runState = .halted

theorem Provided.quiet (x : Provided handler) : Quiet handler := by
  cases x with
  | ignore => exact ⟨fun _ _ _ => rfl, fun _ _ _ => .inl rfl⟩
  | console =>
    refine ⟨fun code c m => ?_, fun code c m => ?_⟩
    · unfold Console.syscall
      dsimp only
      split <;> rfl
    · unfold Console.syscall
      dsimp only
      split
      case h_4 => exact .inr rfl
      all_goals exact .inl rfl

/-- What follows a slice is as quiet. -/
theorem Quiet.attend (x : Quiet handler) (exit : RunExit) (h : H) (m : Machine) :
    (attend handler exit h m).2.core.exitRequested = m.core.exitRequested ∧
      ((attend handler exit h m).2.core.runState = m.core.runState ∨
        (attend handler exit h m).2.core.runState = .halted) := by
  cases exit with
  | syscall code => exact ⟨x.exitRequested code h m, x.runState code h m⟩
  | budget | stopped => exact ⟨rfl, .inl rfl⟩

/-- **Machines that are in step stay so** through the answer to a request. -/
theorem Blind.inStep (x : Blind handler) (code : UInt32) (h : H) (hin : InStep m g) :
    InStep (handler code h m).2 (handler code h g).2 where
  agrees := x.agrees code h hin.agrees
  closed := (x.slot code h m).closed hin.closed
  zero := (x.slot code h m).zeroKept hin.zero

/-- **What follows a slice** is what the reference answers. -/
theorem Blind.attend (x : Blind handler) {exit : RunExit} (hshows : exit.Shows event) (h : H)
    (hin : InStep m g) : (attend handler exit h m).2.memory = m.memory ∧
      ∃ g', answer handler event h g = ((attend handler exit h m).1, g') ∧
        InStep (attend handler exit h m).2 g' := by
  cases exit with
  | syscall code =>
    obtain rfl : event = .syscall code := (hshows code).mp rfl
    exact ⟨x.memory code h m, (handler code h g).2, Prod.ext (x.state code h hin.agrees) rfl,
      x.inStep code h hin⟩
  | budget | stopped =>
    refine ⟨rfl, g, ?_, hin⟩
    cases event with
    | syscall code => cases (hshows code).mpr rfl
    | normal | breakpoint => rfl

/-! ### Slices -/

/-- **What an emulator and its handler came to is what the reference comes to**, some instructions
after those that were counted. -/
structure Refines (handler : SyscallHandler H) (p : H × Machine) (lag : Nat) (e : Emulator) (h : H) :
    Prop where
  engine : ∃ r, e.engine = .recompiler r ∧ ∃ origin, Session.Sound origin ⟨r, e.machine⟩
  slice : 1 ≤ e.sliceCycles.toInt
  reached : ∃ g, reference handler (e.cycles + lag) p = some (h, g) ∧ InStep e.machine g

/-- Neither the downcount nor a request for control matters. -/
theorem Refines.of_clocked {machine : Machine} {d : Int32} {b : Bool} (x : Refines handler p lag e h)
    (hmachine : machine = e.machine.clocked d b) :
    Refines handler p lag ⟨e.engine, machine, e.cycles, e.sliceCycles⟩ h := by
  obtain ⟨⟨r, hengine, origin, hsound⟩, hslice, g, hreached, hin⟩ := x
  subst hmachine
  exact ⟨⟨r, hengine, origin, Session.Keeps.stores hsound _ .refl⟩, hslice, g, hreached,
    hin.of_agrees (.of_clocked rfl (.refl _))⟩

/-- **An emulator stopped at a fault of the reference**, `lag` instructions behind those that it
counted. -/
structure Stalled (handler : SyscallHandler H) (p : H × Machine) (lag : Nat) (e : Emulator) (h : H)
    (t : Trap) (g : Machine) : Prop where
  reached : reference handler (e.cycles + lag) p = some (h, g)
  fails : g.spent.Fails (.trap t)
  there : e.machine.Coincides (g.fault t)

/-- The loop ends for the fault. -/
theorem Stalled.state {t : Trap} (x : Stalled handler p lag e h t g) :
    stopReason? e.machine.core.runState = some t.stopReason := by
  have hstate : (g.fault t).core.runState = e.machine.core.runState := by rw [x.there.core]
  rw [← hstate]
  cases t <;> rfl

/-- **A slice follows the reference**, to a fault of it if that is what it ends for. -/
theorem Refines.runSlice (x : Refines handler p lag e h) (hstays : Undisturbed handler p)
    {result : Except Failure RunExit} {engine : Engine}
    (hrun : e.runSlice target = .ok (result, engine, m)) :
    ((∃ r, engine = .recompiler r ∧ ∃ origin, Session.Sound origin ⟨r, m⟩) ∧
      engine.arrears = e.engine.arrears) ∧
      ((result = .ok .stopped ∧ ∃ k ≤ e.engine.arrears, ∃ n t g',
        reference handler (e.cycles + lag + (n + k)) p = some (h, g') ∧ g'.spent.Fails (.trap t) ∧
          m.Coincides (g'.fault t) ∧ (e.nextSlice target).toInt = m.core.downcount.toInt + (n : Nat)) ∨
        ∃ n event g', reference handler (e.cycles + lag + n) p = some (answer handler event h g') ∧
          InStep m g' ∧ (e.nextSlice target).toInt = m.core.downcount.toInt + n ∧
          m.core.exitRequested = e.machine.core.exitRequested ∧ Session.Shown result event) := by
  obtain ⟨⟨r, hengine, origin, hsound⟩, -, g, hreached, hin⟩ :=
    x.of_clocked (d := e.nextSlice target) (b := e.machine.core.exitRequested) rfl
  have hengine : e.engine = .recompiler r := hengine
  rw [Emulator.runSlice, hengine, runEngine] at hrun
  obtain ⟨q, hq, hpure⟩ := ok_of_bind hrun
  cases hpure
  obtain ⟨hends, ⟨origin', hsound'⟩, hoptions⟩ := hsound.turns_tracks hin (hstays.calm hreached) hq
  have harrears : (Engine.recompiler q.2.recompiler).arrears = e.engine.arrears := by
    rw [hengine, Engine.arrears, hoptions, Engine.arrears]
  refine ⟨⟨⟨_, rfl, origin', hsound'⟩, harrears⟩, hends.imp ?_ ?_⟩
  · rintro ⟨hstopped, k, hshort, t, g', ⟨n, hpasses, hcycles⟩, hfails, hthere⟩
    refine ⟨hstopped, k, hengine ▸ hshort, n, t, g', ?_, hfails, hthere, hcycles⟩
    exact reference_trans hreached (reference_of_passes hpasses)
  · rintro ⟨n, event, g', hcomes, hin', hcycles, hsame, hshown⟩
    exact ⟨n, event, g', reference_trans hreached (reference_of_comes hcomes), hin', hcycles, hsame,
      hshown⟩

/-- **What was not counted** when slices ended: nothing, but for a slice that failed. -/
def Uncounted (target : Nat) (e : Emulator) (lag : Nat) : Except Failure StopReason → Prop
  | .ok _ => lag = 0
  | .error _ => e.cycles < target ∧
    (e.nextSlice target).toInt = e.machine.core.downcount.toInt + lag

/-- **How slices end** that stop at no fault: nobody asks for control, if nobody did before and the
handler does not. -/
structure Settles (handler : SyscallHandler H) (target : Nat) (e e' : Emulator)
    (result : Except Failure StopReason) : Prop where
  rests : ∀ reason, result = .ok reason →
    stopReason? e'.machine.core.runState = some reason ∨ reason = .exitRequested ∨
      reason = .cycleTarget ∧ target ≤ e'.cycles
  attended : Quiet handler → e.machine.core.exitRequested = false → result ≠ .ok .exitRequested

/-- **Slices follow the reference**, to a fault of it if that is what they end for. -/
theorem Refines.slices (hhandler : Blind handler) (hstays : Undisturbed handler p) {fuel : Nat}
    {result : Except Failure StopReason} (x : Refines handler p lag e h)
    (hrun : Emulator.slices handler target fuel e h = .ok (result, e', h')) :
    (∃ k ≤ e.engine.arrears, ∃ t g, Stalled handler p (lag + k) e' h' t g ∧
        result = .ok t.stopReason) ∨
      ∃ n, Uncounted target e' n result ∧ Refines handler p (lag + n) e' h' ∧
        Settles handler target e e' result := by
  induction fuel generalizing e h with
  | zero => cases hrun
  | succ fuel ih =>
    by_cases hgoes : e.Goes target
    · rw [slices_of_goes hgoes] at hrun
      obtain ⟨⟨result', engine, m⟩, hslice, hrest⟩ := ok_of_bind hrun
      obtain ⟨⟨⟨r, rfl, origin, hsound⟩, harrears⟩, hends⟩ := x.runSlice hstays hslice
      cases result' with
      | error failure =>
        cases hrest
        obtain ⟨hbad, -⟩ | ⟨n, event, g', hreached, hin, hcycles, -, rfl⟩ := hends
        · cases hbad
        · exact .inr ⟨n, ⟨hgoes.cycles, hcycles⟩, ⟨⟨r, rfl, origin, hsound⟩, x.slice, g',
            Nat.add_assoc e.cycles lag n ▸ hreached, hin⟩, nofun, fun _ _ => nofun⟩
      | ok exit =>
        obtain ⟨used, hused, hrest⟩ := ok_of_bind hrest
        have hused := sliceUsed_eq hused
        obtain ⟨hstopped, k, hshort, n, t, g', hreached, hfails, hthere, hcycles⟩ |
          ⟨n, event, g', hreached, hin, hcycles, hsame, hshown⟩ := hends
        · cases hstopped
          obtain rfl : used = n := by omega
          have hstalled : Stalled handler p (lag + k)
              ⟨.recompiler r, m, e.cycles + used, e.sliceCycles⟩ h t g' := by
            refine ⟨?_, hfails, hthere⟩
            show reference handler (e.cycles + used + (lag + k)) p = _
            rw [← hreached]
            congr 1
            omega
          obtain ⟨rfl, rfl, rfl⟩ := slices_of_stopped hstalled.state hrest
          exact .inl ⟨k, hshort, t, g', hstalled, rfl⟩
        · obtain rfl : used = n := by omega
          obtain ⟨hmemory, g₁, hanswer, hin₁⟩ := hhandler.attend hshown h hin
          have hnext : Refines handler p lag
              ⟨.recompiler r, (attend handler exit h m).2, e.cycles + used, e.sliceCycles⟩
              (attend handler exit h m).1 := by
            refine ⟨⟨r, rfl, origin, Session.Keeps.stores hsound _ (hmemory ▸ .refl)⟩, x.slice, g₁, ?_,
              hin₁⟩
            show reference handler (e.cycles + used + lag) p = _
            rw [← hanswer, Nat.add_right_comm]
            exact hreached
          refine (ih hnext hrest).imp (fun h => harrears ▸ h) ?_
          rintro ⟨n, huncounted, hrefines, hsettles⟩
          refine ⟨n, huncounted, hrefines, hsettles.rests, fun hquiet hattended => ?_⟩
          refine hsettles.attended hquiet (Eq.trans ?_ hattended)
          exact (hquiet.attend exit h m).1.trans hsame
    · obtain ⟨reason, machine, hstop, hrests, hmachine⟩ := slices_of_not_goes hgoes handler fuel h
      cases hstop.symm.trans hrun
      have hstate : machine.core.runState = e.machine.core.runState := by
        rcases hmachine with rfl | rfl <;> rfl
      refine .inr ⟨0, rfl, ?_, ?_, fun _ hattended => ?_⟩
      · rcases hmachine with rfl | rfl
        · exact x
        · exact x.of_clocked (d := e.machine.core.downcount) (b := false) rfl
      · rintro _ ⟨⟩
        cases hrests with
        | stopped state => exact .inl (hstate ▸ state)
        | requested => exact .inr (.inl rfl)
        | reached cycles => exact .inr (.inr ⟨rfl, cycles⟩)
      · rintro ⟨⟩
        cases hrests with
        | stopped state => exact stopReason?_ne_exitRequested _ state
        | requested request => exact absurd (request.symm.trans hattended) (by decide)

/-! ### Calls -/

/-- **Calls one after the other**, each with cycles to reach of its own.  Each gave a reason for its
end, and none a fault. -/
inductive Calls (handler : SyscallHandler H) : Emulator → H → Emulator → H → Prop
  | none {e : Emulator} {h : H} : Calls handler e h e h
  | call {e e₁ e₂ : Emulator} {h h₁ h₂ : H} {target : Nat} {reason : StopReason}
      (before : Calls handler e h e₁ h₁)
      (ends : e₁.runUntil handler target h₁ = .ok (.ok reason, e₂, h₂))
      (sane : ∀ pc word, reason ≠ .fault pc word) : Calls handler e h e₂ h₂

theorem Refines.calls (hhandler : Blind handler) (hstays : Undisturbed handler p)
    (x : Refines handler p 0 e h) (hcalls : Calls handler e h e' h') : Refines handler p 0 e' h' := by
  induction hcalls with
  | none => exact x
  | call _ ends sane ih =>
    obtain ⟨k, -, t, g, -, hfault⟩ | ⟨lag, rfl, x', -⟩ := (ih x).slices hhandler hstays ends
    · cases t <;> exact absurd (Except.ok.inj hfault) (sane _ _)
    · exact x'

/-- A new emulator has come to where the reference begins. -/
theorem Refines.create {options : Options} (hsize : options.Addressable) {r : Recompiler}
    (hr : Recompiler.create options = .ok r) (hm : m.memory.Orderly) (hclosed : m.Closed)
    (hz : m.core.ZeroKept) {slice : Int32} (hslice : 1 ≤ slice.toInt) (h : H) :
    Refines handler (h, m) 0 ⟨.recompiler r, m, 0, slice⟩ h :=
  ⟨⟨r, rfl, fun _ => m.memory, (Session.sound_create hr hsize hm _).1⟩, hslice, m, rfl, .refl m,
    hclosed, hz⟩

end Emulator

open Emulator in
/-- **An emulator refines the reference over whole runs.**  It begins with any machine in which
register zero holds zero and no delay slot is open, whatever its slices and its options, as long as
jumps reach all of the code space, and no step of the reference overwrites an instruction that is
fetched later.  After any calls that ended without a fault, as many instructions of the reference as
the emulator counted cycles lead to a machine that agrees with it, and to the same state of the
handler. -/
theorem refines_of_calls {options : Options} (hsize : options.Addressable) {r : Recompiler}
    (hr : Recompiler.create options = .ok r) {H : Type} {handler : SyscallHandler H}
    (hhandler : Provided handler) {m : Machine} (hm : m.memory.Orderly) (hclosed : m.Closed)
    (hz : m.core.ZeroKept) {slice : Int32} (hslice : 1 ≤ slice.toInt) {h h' : H} {e' : Emulator}
    (hstays : Undisturbed handler (h, m))
    (hcalls : Calls handler ⟨.recompiler r, m, 0, slice⟩ h e' h') :
    ∃ g, reference handler e'.cycles (h, m) = some (h', g) ∧ Agrees e'.machine g := by
  obtain ⟨-, -, g, hreached, hin⟩ :=
    (Refines.create hsize hr hm hclosed hz hslice h).calls hhandler.blind hstays hcalls
  exact ⟨g, hreached, hin.agrees⟩

namespace Emulator

/-- Why a run ends that has an answer, and how many cycles were counted until then. -/
def stops? (e : Emulator) (target : Nat) : Option (StopReason × Nat) :=
  (e.runUntil ignoreSyscalls target ()).toOption.bind fun p =>
    p.1.toOption.map fun reason => (reason, p.2.1.cycles)

theorem runUntil_of_stops? {e : Emulator} {target n : Nat} {reason : StopReason}
    (h : e.stops? target = some (reason, n)) :
    ∃ e', e.runUntil ignoreSyscalls target () = .ok (.ok reason, e', ()) ∧ e'.cycles = n := by
  obtain ⟨⟨result, e', _⟩, hrun, h⟩ := Option.bind_eq_some_iff.mp h
  obtain ⟨reason', hreason, h⟩ := Option.map_eq_some_iff.mp h
  cases h
  exact ⟨e', ok_of_toOption hreason ▸ ok_of_toOption hrun, rfl⟩

end Emulator

/-- A machine with two instructions: load a character, and request to print it. -/
def printingMachine : Machine :=
  ⟨Core.start 0x1000,
    (Memory.create 0x1000 8).overlay 0 [0x41, 0x00, 0x04, 0x24, 0x8C, 0x00, 0x00, 0x00]⟩

open Emulator in
/-- Two cycles print the character. -/
theorem refines_printing :
    ∃ e', Calls Console.syscall ⟨.recompiler leastRecompiler, printingMachine, 0, 50⟩ {} e' ⟨"A"⟩ ∧
      ∃ g, reference Console.syscall 2 ({}, printingMachine) = some (⟨"A"⟩, g) ∧
        Agrees e'.machine g := by
  have hruns : (match (Emulator.mk (.recompiler leastRecompiler) printingMachine 0 50).runUntil
      Console.syscall 2 {} with
    | .ok (.ok .cycleTarget, e', h') => e'.cycles == 2 && h' == ⟨"A"⟩
    | _ => false) = true := by decide +kernel
  have horderly : printingMachine.memory.Orderly := ⟨by unfold Memory.Low; decide, by decide, nofun⟩
  have hstays : Undisturbed Console.syscall ({}, printingMachine) :=
    undisturbed_of_endsUnchanged (n := 3) (by decide +kernel)
  split at hruns
  · rename_i e' h' hok
    rw [Bool.and_eq_true, beq_iff_eq, beq_iff_eq] at hruns
    obtain ⟨htwo, rfl⟩ := hruns
    have hcalls := Calls.call .none hok nofun
    have hcreate : Recompiler.create leastSpace = .ok leastRecompiler := rfl
    have hreached := refines_of_calls (by decide) hcreate .console (m := printingMachine) horderly
      ⟨rfl, rfl⟩ rfl (by decide) hstays hcalls
    rw [htwo] at hreached
    exact ⟨e', hcalls, hreached⟩
  · cases hruns

end Dynarec
