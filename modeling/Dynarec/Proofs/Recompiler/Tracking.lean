import Dynarec.Proofs.Recompiler.Following

/-!
# Runs track the reference

A machine is in step with the reference when both agree and no delay slot is open.  A turn of the
dispatcher that begins in step ends in step, as many cycles later as the reference took instructions
(`Session.Keeps.turn_tracks`), and so does a run (`Session.Keeps.turns_tracks`).  A turn that ends
for a fault ends where the reference fails (`Machine.Stalls`), but the instructions of the last
block were not counted.
-/

namespace Dynarec

open Host

namespace Machine

variable {m m' g g' : Machine} {n k : Nat} {event : StepEvent}

/-- **A machine is in step with the reference** between two instructions. -/
structure InStep (m g : Machine) : Prop where
  agrees : Agrees m g
  closed : m.Closed
  zero : m.core.ZeroKept

/-- What the guest does not see of a machine may change. -/
theorem InStep.of_agrees (x : InStep m g) (a : Agrees m m') : InStep m' g where
  agrees := a.symm.trans x.agrees
  closed := ⟨by rw [a.core]; exact x.closed.inDelaySlot, by rw [a.core]; exact x.closed.branchTarget⟩
  zero := by
    rw [a.core]
    exact x.zero

/-- **Instructions of the reference**, the last of which reports the event. -/
inductive Comes (g : Machine) : Nat → StepEvent → Machine → Prop
  | none {n : Nat} {g' : Machine} (passes : Passes n g g') : Comes g n .normal g'
  | last {n : Nat} {event : StepEvent} {g' g'' : Machine} (passes : Passes n g g')
      (next : stride g' = .ok event g'') : Comes g (n + 1) event g''

theorem Comes.passes (x : Comes g n .normal g') : Passes n g g' := by
  cases x with
  | none passes => exact passes
  | last passes next => exact .succ passes next

theorem Comes.after {g₀ : Machine} (x : Comes g n event g') (h : Passes k g₀ g) :
    Comes g₀ (k + n) event g' := by
  cases x with
  | none passes => exact .none (h.trans passes)
  | last passes next => exact .last (h.trans passes) next

/-- What a machine retires, and one more step. -/
theorem Retires.comes_last {m'' : Machine} (h : Retires n m m') (hstep : step m' = .ok event m'')
    (a : Agrees m g) : ∃ g', Comes g (n + 1) event g' ∧ Agrees m'' g' := by
  obtain ⟨g₁, hpasses, a₁⟩ := h.passes a
  obtain ⟨g', hstride, a'⟩ := a₁.stride hstep
  exact ⟨g', .last hpasses hstride, a'⟩

/-- **A machine came to another while the reference took instructions**, one for each cycle. -/
def Tracks (m m' g : Machine) (shows : StepEvent → Prop) : Prop :=
  ∃ n event g', Comes g n event g' ∧ InStep m' g' ∧
    m.core.downcount.toInt = m'.core.downcount.toInt + n ∧
    m'.core.exitRequested = m.core.exitRequested ∧ shows event

theorem Tracks.after {m₁ g₁ : Machine} {shows : StepEvent → Prop} (x : Tracks m₁ m' g₁ shows)
    (h : Passes n g g₁) (hcycles : m.core.downcount.toInt = m₁.core.downcount.toInt + n)
    (hrequest : m₁.core.exitRequested = m.core.exitRequested) : Tracks m m' g shows := by
  obtain ⟨k, event, g', hcomes, hin, hleft, hsame, hshows⟩ := x
  exact ⟨n + k, event, g', hcomes.after h, hin, by omega, hsame.trans hrequest, hshows⟩

/-- **A machine stopped at a fault of the reference**, `k` instructions further than what it took of
its downcount. -/
structure Stalls (k : Nat) (t : Trap) (m m' g g' : Machine) : Prop where
  passes : ∃ n : Nat, Passes (n + k) g g' ∧ m.core.downcount.toInt = m'.core.downcount.toInt + n
  fails : g'.spent.Fails (.trap t)
  there : m'.Coincides (g'.fault t)

theorem Stalls.after {t : Trap} {m₁ g₁ : Machine} (x : Stalls k t m₁ m' g₁ g') (h : Passes n g g₁)
    (hcycles : m.core.downcount.toInt = m₁.core.downcount.toInt + n) : Stalls k t m m' g g' := by
  obtain ⟨i, hpasses, hleft⟩ := x.passes
  exact ⟨⟨n + i, Nat.add_assoc n i k ▸ h.trans hpasses, by omega⟩, x.fails, x.there⟩

theorem Agrees.beforeLast (a : Agrees m g) (h : BeforeLast n m) : BeforeLast n g :=
  h.imp_right fun h => ⟨h.1, a.slot_eq.trans h.2⟩

/-- **An instruction with its delay slot** keeps a machine in step. -/
theorem InStep.runOne (hin : InStep m g) (hok : Machine.runOne m = .ok event m') :
    ∃ n g₁ g', Passes n g g₁ ∧ BeforeLast n g₁ ∧ stride g₁ = .ok event g' ∧ InStep m' g' ∧
      m.core.downcount.toInt = m'.core.downcount.toInt + (n + 1 : Nat) ∧
      m'.core.exitRequested = m.core.exitRequested := by
  obtain ⟨hclosed, n, m₁, hretires, hlast, hstep⟩ := hin.closed.runOne hok
  obtain ⟨g₁, hpasses, a₁⟩ := hretires.passes hin.agrees
  obtain ⟨g', hstride, a'⟩ := a₁.stride hstep
  have hdown := hretires.downcount_step hstep
  exact ⟨n, g₁, g', hpasses, a₁.beforeLast hlast, hstride,
    ⟨a', hclosed, (gpr_zero_step hstep).trans (hretires.zeroKept hin.zero)⟩, by omega,
    (control_step hstep).1.trans hretires.exitRequested⟩

/-- **Where it cannot be done** the reference fails: at once, or in the delay slot. -/
theorem InStep.runOne_trap (hin : InStep m g) {t : Trap}
    (htrap : Machine.runOne m = .error (.trap t) m') :
    ∃ n g', Passes n g g' ∧ BeforeLast n g' ∧ g'.spent.Fails (.trap t) ∧
      (m'.fault t).Coincides (g'.fault t) ∧
      m.core.downcount.toInt = m'.core.downcount.toInt + n := by
  obtain ⟨n, hretires, hlast, hfails⟩ := hin.closed.runOne_trap htrap
  obtain ⟨g', hpasses, a'⟩ := hretires.passes hin.agrees
  have hdown := hretires.downcount
  exact ⟨n, g', hpasses, a'.beforeLast hlast, a'.spent.fails hfails, a'.coincides.fault t, by omega⟩

/-! ### Between two instructions -/

/-- **A machine between two instructions**: no delay slot is open, and register zero holds zero. -/
structure Between (m : Machine) : Prop where
  closed : m.Closed
  zero : m.core.ZeroKept

/-- **A machine that stopped at a fault.** -/
def Faulted (m : Machine) : Prop := ∃ pc word, m.core.runState = .faulted pc word

/-- **A machine at rest**: between two instructions, or stopped at a fault. -/
def Resting (m : Machine) : Prop := m.Between ∨ m.Faulted

theorem Faulted.not_running (h : m.Faulted) : m.core.runState ≠ .running := by
  obtain ⟨pc, word, hfaulted⟩ := h
  rw [hfaulted]
  exact nofun

theorem Between.of_sameSlot (h : m.Between) (x : SameSlot m m') : m'.Between :=
  ⟨x.closed h.closed, x.zeroKept h.zero⟩

theorem Between.of_core (h : m.Between) (hcore : m'.core = m.core) : m'.Between :=
  h.of_sameSlot ⟨by rw [hcore], by rw [hcore], by rw [hcore]⟩

theorem Resting.of_core (h : m.Resting) (hcore : m'.core = m.core) : m'.Resting :=
  h.imp (·.of_core hcore) fun ⟨pc, word, hfaulted⟩ => ⟨pc, word, hcore ▸ hfaulted⟩

/-- An instruction with its delay slot. -/
theorem Between.runOne (h : m.Between) (hok : Machine.runOne m = .ok event m') : m'.Between := by
  obtain ⟨hclosed, n, m₁, hretires, -, hstep⟩ := h.closed.runOne hok
  exact ⟨hclosed, (gpr_zero_step hstep).trans (hretires.zeroKept h.zero)⟩

end Machine

open Machine

/-- A turn or a run ended for the last event. -/
def RunExit.Shows (exit : RunExit) (event : StepEvent) : Prop :=
  ∀ code, exit = .syscall code ↔ event = .syscall code

/-- Neither is a request to the system. -/
theorem RunExit.Shows.of_ne {exit : RunExit} {event : StepEvent} (hexit : ∀ code, exit ≠ .syscall code)
    (hevent : ∀ code, event ≠ .syscall code) : exit.Shows event :=
  fun code => ⟨fun h => absurd h (hexit code), fun h => absurd h (hevent code)⟩

def Turn.Shows : Turn → StepEvent → Prop
  | .done exit, event => exit.Shows event
  | _, event => event = .normal

namespace Session

variable {origin : Nat → Memory} {s s' : Session} {g : Machine}

/-- **A session stopped at a fault of the reference.**  What it took of its downcount lags behind by
the instructions of a block at most. -/
def Stalls (s s' : Session) (g : Machine) : Prop :=
  ∃ k ≤ s.recompiler.options.blockLength, ∃ t g', Machine.Stalls k t s.machine s'.machine g g'

theorem Stalls.after {s₁ : Session} {g₁ : Machine} {n : Nat} (x : s₁.Stalls s' g₁)
    (hoptions : s₁.recompiler.options = s.recompiler.options) (h : Passes n g g₁)
    (hcycles : s.cyclesLeft = s₁.cyclesLeft + n) : s.Stalls s' g := by
  obtain ⟨k, hshort, t, g', hstalls⟩ := x
  exact ⟨k, hoptions ▸ hshort, t, g', hstalls.after h hcycles⟩

/-- **Interpreting an instruction** keeps a machine in step. -/
theorem interpretOne_tracks (hin : InStep s.machine g) {turn : Turn}
    (hok : s.interpretOne = .ok (turn, s')) :
    (turn = .done .stopped ∧ s.Stalls s' g) ∨ Tracks s.machine s'.machine g turn.Shows := by
  obtain ⟨r, m⟩ := s
  have hin : InStep m g := hin
  rw [Session.interpretOne] at hok
  cases hrun : Machine.runOne m with
  | error e m' =>
    rw [hrun] at hok
    cases e with
    | trap t =>
      cases hok
      obtain ⟨n, g', hpasses, -, hfails, hthere, hcycles⟩ := hin.runOne_trap hrun
      exact .inl ⟨rfl, 0, Nat.zero_le _, t, g', ⟨n, hpasses, hcycles⟩, hfails, hthere⟩
    | violation v => cases hok
  | ok event m' =>
    obtain ⟨n, g₁, g', hpasses, -, hstride, hin', hcycles, hsame⟩ := hin.runOne hrun
    rw [hrun] at hok
    cases event <;> cases hok <;>
      refine .inr ⟨n + 1, _, g', .last hpasses hstride, hin', hcycles, hsame, ?_⟩
    · exact rfl
    · exact fun code => by rw [RunExit.syscall.injEq, StepEvent.syscall.injEq]
    · exact fun code => ⟨by simp, by simp⟩

/-- **Doing what native code returned for** keeps a machine in step. -/
theorem serve_tracks {r : Recompiler} {M m : Machine} {reason : ExitReason} (hin : InStep M g)
    (hfollows : M.Follows r.options.blockLength reason m) (hsame : M.SameControl m) {turn : Turn}
    (hok : Session.serve ⟨r, m⟩ reason = .ok (turn, s')) :
    (turn = .done .stopped ∧ Stalls ⟨r, M⟩ s' g) ∨ Tracks M s'.machine g turn.Shows := by
  have hagrees := hin.agrees
  have hclosed := hsame.closed hin.closed
  have hz := hsame.zeroKept hin.zero
  cases hfollows with
  | @quiet n _ _ hquiet hretires =>
    obtain ⟨g', hpasses, a'⟩ := hretires.passes hagrees
    have hdown := hretires.downcount
    have hcycles : M.core.downcount.toInt = m.core.downcount.toInt + n := by omega
    have hdone : Tracks M m g (· = .normal) :=
      ⟨n, .normal, g', .none hpasses, ⟨a', hclosed, hz⟩, hcycles, hsame.exitRequested, rfl⟩
    cases reason with
    | dispatch =>
      cases hok
      exact .inr hdone
    | interpret =>
      have hone := interpretOne_tracks (s := ⟨r, m⟩) ⟨a', hclosed, hz⟩ hok
      exact hone.imp (fun h => ⟨h.1, h.2.after rfl hpasses hcycles⟩)
        (·.after hpasses hcycles hsame.exitRequested)
    | modifierMismatch a =>
      rw [Session.serve] at hok
      obtain ⟨⟨_, r'⟩, -, hrest⟩ := ok_of_bind hok
      cases hrest
      exact .inr hdone
    | syscall _ | breakpoint | fault _ | badCode _ => exact hquiet.elim
  | @syscall n request G' _ hretires hstep =>
    obtain ⟨g', hcomes, a'⟩ := hretires.comes_last hstep hagrees
    have hdown := hretires.downcount_step hstep
    cases hok
    refine .inr ⟨n + 1, _, g', hcomes, ⟨a', hclosed, hz⟩, ?_, hsame.exitRequested, fun code => ?_⟩
    · show M.core.downcount.toInt = m.core.downcount.toInt + (n + 1 : Nat)
      omega
    · rw [RunExit.syscall.injEq, StepEvent.syscall.injEq]
  | @breakpoint n G' _ hretires hstep =>
    obtain ⟨g', hcomes, a'⟩ := hretires.comes_last hstep hagrees
    have hdown := hretires.downcount_step hstep
    cases hok
    refine .inr ⟨n + 1, _, g', hcomes, ⟨a', hclosed, hz⟩, ?_, hsame.exitRequested,
      fun code => ⟨by simp, by simp⟩⟩
    show M.core.downcount.toInt = m.core.downcount.toInt + (n + 1 : Nat)
    omega
  | @fault n k t G' _ hretires hfaults hshort hclock =>
    obtain ⟨G, hrest, hfails, hthere⟩ := hfaults
    obtain ⟨g', hpasses, a'⟩ := (hretires.trans hrest).passes hagrees
    have hdown := hretires.downcount
    cases hok
    refine .inl ⟨rfl, k, hshort, t, g', ⟨n, hpasses, ?_⟩, a'.spent.fails hfails,
      (hthere.trans a'.coincides).fault t⟩
    show M.core.downcount.toInt = m.core.downcount.toInt + n
    rw [hclock]
    omega

/-- **A turn of the dispatcher** keeps a machine in step. -/
theorem Keeps.turn_tracks (x : Sound origin s) (hruns : s.Runs)
    (hfresh : s.machine.memory.changed = #[]) (hin : InStep s.machine g) (hcalm : g.Calm) {turn : Turn}
    (hok : s.turn = .ok (turn, s')) :
    (turn = .done .stopped ∧ s.Stalls s' g) ∨ Tracks s.machine s'.machine g turn.Shows := by
  obtain ⟨⟨result, s₁⟩, hentry, henters, hsteady, x₁⟩ := x.entry s.machine.core.pc
  have hcore : s₁.machine.core = s.machine.core := hsteady.core
  have hin₁ : InStep s₁.machine g :=
    hin.of_agrees ⟨by rw [hcore]; rfl, hsteady.memory⟩
  have hcycles : s₁.cyclesLeft = s.cyclesLeft := by rw [cyclesLeft, hcore, cyclesLeft]
  have hpending : s₁.machine.eventPending = false := by
    rw [Machine.eventPending, hcore, hruns.attended, hruns.running, Memory.hasChangedCode,
      hsteady.quiet hfresh]
    rfl
  suffices h : (turn = .done .stopped ∧ s₁.Stalls s' g) ∨ Tracks s₁.machine s'.machine g turn.Shows by
    have hzero : s.cyclesLeft = s₁.cyclesLeft + (0 : Nat) := by omega
    exact h.imp (fun h => ⟨h.1, h.2.after hsteady.options (.zero g) hzero⟩)
      (·.after (.zero g) hzero (congrArg Core.exitRequested hcore))
  rw [Session.turn, hentry] at hok
  dsimp only [bind, Except.bind] at hok
  rcases henters with ⟨id, b, rfl, hb, hstart⟩ | ⟨e, rfl, -⟩
  · have hd : 0 < s₁.cyclesLeft := hcycles ▸ hruns.cycles
    have hpc : s₁.machine.core.pc = b.start := (congrArg Core.pc hcore).trans hstart.symm
    obtain ⟨⟨reason, m⟩, hrun, hserve⟩ := ok_of_bind hok
    obtain ⟨hfollows, hsame⟩ := x₁.follows hb hpc hpending hin₁.closed hin₁.zero hd
      (hcalm.steady hin₁.agrees) hrun
    exact serve_tracks hin₁ hfollows hsame hserve
  · dsimp only at hok
    split at hok
    · exact interpretOne_tracks hin₁ hok
    · cases hok
      exact .inr ⟨0, .normal, g, .none (.zero g), hin₁, (Int.add_zero _).symm, rfl, rfl⟩

/-! ### Whole runs -/

/-- **A run ended for the last event**; one that failed did so after none. -/
def Shown (result : Except Failure RunExit) (event : StepEvent) : Prop :=
  match result with
  | .ok exit => exit.Shows event
  | .error _ => event = .normal

/-- An end for nothing that the guest did. -/
theorem tracks_idle {m m' : Machine} (hin : InStep m' g) (hcore : m'.core = m.core) {exit : RunExit}
    (hexit : ∀ code, exit ≠ .syscall code) : Tracks m m' g (Shown (.ok exit)) :=
  ⟨0, .normal, g, .none (.zero g), hin, by rw [hcore]; omega, by rw [hcore],
    fun code => ⟨fun heq => absurd heq (hexit code), by simp⟩⟩

/-- **A run keeps a machine in step.** -/
theorem Keeps.turns_tracks {fuel : Nat} (x : Sound origin s) (hin : InStep s.machine g)
    (hcalm : g.Calm) {p : Answer RunExit} (hok : Session.turns fuel s = .ok p) :
    ((p.1 = .ok .stopped ∧ s.Stalls p.2 g) ∨ Tracks s.machine p.2.machine g (Shown p.1)) ∧
      (∃ origin', Sound origin' p.2) ∧ p.2.recompiler.options = s.recompiler.options := by
  induction fuel generalizing origin s g with
  | zero => cases hok
  | succ fuel ih =>
    obtain ⟨s₁, hdrop, x₁, ht, hmachine⟩ := x.dropChanged
    have x₁ : Sound origin s₁ := by
      rw [Sound, SoundBy, ht.space.offset]
      exact x₁
    have hcore : s₁.machine.core = s.machine.core := by rw [hmachine]
    have hcycles : s₁.cyclesLeft = s.cyclesLeft := by rw [cyclesLeft, hcore, cyclesLeft]
    have hin₁ : InStep s₁.machine g := by
      rw [hmachine]
      exact hin.of_agrees ⟨rfl, rfl, rfl⟩
    rw [Session.turns, hdrop] at hok
    dsimp only [bind, Except.bind] at hok
    split at hok
    · cases hok
      exact ⟨.inr (tracks_idle hin₁ hcore (by simp)), ⟨origin, x₁⟩, ht.options⟩
    · rename_i hgoes
      split at hok
      · cases hok
        exact ⟨.inr (tracks_idle hin₁ hcore (by simp)), ⟨origin, x₁⟩, ht.options⟩
      · rename_i hd
        have hruns : s₁.Runs := by
          rw [Bool.or_eq_true, not_or, Bool.not_eq_true', Bool.not_eq_true] at hgoes
          exact ⟨by simpa using hgoes.1, hgoes.2, Int32.lt_iff_toInt_lt.mp (Int32.not_le.mp hd)⟩
        have hfresh : s₁.machine.memory.changed = #[] := by rw [hmachine]; rfl
        obtain ⟨⟨turn, s₂⟩, hturn, x₂, hoptions, -⟩ := x₁.turn hruns.cycles
        have htracks := x₁.turn_tracks hruns hfresh hin₁ hcalm hturn
        rw [hturn] at hok
        have hzero : s.cyclesLeft = s₁.cyclesLeft + (0 : Nat) := by omega
        have hfrom : ∀ {shows}, Tracks s₁.machine s₂.machine g shows →
            Tracks s.machine s₂.machine g shows := fun h =>
          h.after (.zero g) hzero (congrArg Core.exitRequested hcore)
        cases turn with
        | again =>
          obtain ⟨n, event, g', hcomes, hin', hleft, hsame, rfl⟩ :=
            hfrom (htracks.resolve_left (by simp))
          obtain ⟨hrest, hsound, hkept⟩ := ih x₂ hin' (hcalm.passes hcomes.passes) hok
          exact ⟨hrest.imp (fun h => ⟨h.1, h.2.after (hoptions.trans ht.options) hcomes.passes hleft⟩)
            (·.after hcomes.passes hleft hsame), hsound, hkept.trans (hoptions.trans ht.options)⟩
        | done exit =>
          cases hok
          refine ⟨htracks.imp (fun h => ⟨?_, h.2.after ht.options (.zero g) hzero⟩) hfrom, ⟨_, x₂⟩,
            hoptions.trans ht.options⟩
          rw [Turn.done.inj h.1]
        | failed e =>
          cases hok
          exact ⟨.inr (hfrom (htracks.resolve_left (by simp))), ⟨_, x₂⟩, hoptions.trans ht.options⟩

/-! ### Runs rest between two instructions -/

/-- A fault stops a machine. -/
theorem faulted_fault (m : Machine) (t : Trap) : (m.fault t).Faulted := by
  cases t with
  | unimplemented word pc => exact ⟨pc, word, rfl⟩
  | fetchFault pc => exact ⟨pc, 0, rfl⟩

theorem interpretOne_rests (hrests : s.machine.Between) {turn : Turn}
    (hok : s.interpretOne = .ok (turn, s')) :
    s'.machine.Between ∨ turn = .done .stopped ∧ s'.machine.Faulted := by
  obtain ⟨r, m⟩ := s
  rw [Session.interpretOne] at hok
  cases hrun : Machine.runOne m with
  | error e m' =>
    rw [hrun] at hok
    cases e with
    | trap t =>
      cases hok
      exact .inr ⟨rfl, faulted_fault m' t⟩
    | violation v => cases hok
  | ok event m' =>
    have hbetween : m'.Between := hrests.runOne hrun
    rw [hrun] at hok
    cases event <;> cases hok <;> exact .inl hbetween

theorem serve_rests {r : Recompiler} {m : Machine} (hrests : m.Between) {reason : ExitReason}
    {turn : Turn} (hok : Session.serve ⟨r, m⟩ reason = .ok (turn, s')) :
    s'.machine.Between ∨ turn = .done .stopped ∧ s'.machine.Faulted := by
  cases reason with
  | interpret => exact interpretOne_rests (s := ⟨r, m⟩) hrests hok
  | fault t =>
    cases hok
    exact .inr ⟨rfl, faulted_fault m t⟩
  | modifierMismatch a =>
    rw [Session.serve] at hok
    obtain ⟨p, -, hok⟩ := ok_of_bind hok
    cases hok
    exact .inl hrests
  | dispatch | syscall _ | breakpoint | badCode _ =>
    cases hok
    exact .inl hrests

/-- **A turn of the dispatcher** ends between two instructions, or at a fault. -/
theorem Keeps.turn_rests {seen : Option (Nat → Memory)} (x : SoundBy origin seen s)
    (hrests : s.machine.Between) {turn : Turn} (hok : s.turn = .ok (turn, s')) :
    s'.machine.Between ∨ turn = .done .stopped ∧ s'.machine.Faulted := by
  obtain ⟨⟨result, r₁, m₁⟩, hentry, -, hsteady, -⟩ := x.entry s.machine.core.pc
  have hcore : m₁.core = s.machine.core := hsteady.core
  have hrests₁ : m₁.Between := hrests.of_core hcore
  rw [Session.turn, hentry] at hok
  dsimp only [bind, Except.bind] at hok
  cases result with
  | ok entry =>
    obtain ⟨⟨reason, m⟩, hrun, hserve⟩ := ok_of_bind hok
    exact serve_rests (hrests₁.of_sameSlot (sameControl_run hrun).toSameSlot) hserve
  | error e =>
    dsimp only at hok
    split at hok
    · exact interpretOne_rests (s := ⟨r₁, m₁⟩) hrests₁ hok
    · cases hok
      exact .inl hrests₁

/-- **A run that begins at rest ends so**, whatever the memory holds. -/
theorem Keeps.turns_rests {seen : Option (Nat → Memory)} {fuel : Nat} (x : SoundBy origin seen s)
    (hrests : s.machine.Resting) {p : Answer RunExit} (hok : Session.turns fuel s = .ok p) :
    p.2.machine.Between ∨ p.1 = .ok .stopped ∧ p.2.machine.Faulted := by
  induction fuel generalizing origin seen s with
  | zero => cases hok
  | succ fuel ih =>
    obtain ⟨s₁, hdrop, x₁, ht, hmachine⟩ := x.dropChanged
    have x₁ : SoundBy origin seen s₁ := by
      rw [SoundBy, ht.space.offset]
      exact x₁
    have hcore : s₁.machine.core = s.machine.core := by rw [hmachine]
    have hrests₁ : s₁.machine.Resting := hrests.of_core hcore
    rw [Session.turns, hdrop] at hok
    dsimp only [bind, Except.bind] at hok
    split at hok
    · cases hok
      exact hrests₁.imp_right fun h => ⟨rfl, h⟩
    · rename_i hgoes
      rw [Bool.or_eq_true, not_or, Bool.not_eq_true', Bool.not_eq_false] at hgoes
      have hbetween : s₁.machine.Between := hrests₁.resolve_right fun hfaulted =>
        hfaulted.not_running (eq_of_beq hgoes.1)
      split at hok
      · cases hok
        exact .inl hbetween
      · rename_i hd
        obtain ⟨⟨turn, s₂⟩, hturn, x₂, -⟩ := x₁.turn (Int32.lt_iff_toInt_lt.mp (Int32.not_le.mp hd))
        have hrests₂ := x₁.turn_rests hbetween hturn
        rw [hturn] at hok
        cases turn with
        | again => exact ih x₂ (.inl (hrests₂.resolve_right (by simp))) hok
        | done exit =>
          cases hok
          exact hrests₂.imp_right fun h => ⟨congrArg Except.ok (Turn.done.inj h.1), h.2⟩
        | failed e =>
          cases hok
          exact .inl (hrests₂.resolve_right (by simp))

end Session

end Dynarec
