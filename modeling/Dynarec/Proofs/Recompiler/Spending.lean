import Dynarec.Proofs.Recompiler.Turns

/-!
# Runs only spend

Nothing that is done with cycles left raises the downcount: native code charges at every way out and
nowhere gives back (`Fabric.le_of_handedBack`), and what is interpreted takes cycles.  So after a
turn and after a run there is no more of the downcount than before it (`Session.Keeps.le_of_turn`,
`Session.Keeps.le_of_run`).
-/

namespace Dynarec

open Host

/-- **Native code leaves no more of the downcount** than it began with. -/
theorem Fabric.le_of_handedBack {inRegister : Bool} {code : Array HostWord} {pieces : Set Piece}
    {x₀ : Piece} {d₀ : Int32} {c₀ : Cursor} {reason : ExitReason} {m : Machine}
    (f : Fabric inRegister code pieces)
    (hback : HandedBack inRegister code pieces x₀ d₀ c₀ reason m) (hd : 0 < d₀.toInt) :
    m.core.downcount.toInt ≤ d₀.toInt := by
  obtain ⟨-, hs, hends⟩ := hback
  rename_i x d c h m
  have hdown : (putBack inRegister h m).core.downcount = x.cycles h m := by
    rw [Piece.cycles, f.register x hs.mem]
    rfl
  have hle : d.toInt ≤ d₀.toInt := by
    rcases hs.since hd with ⟨-, heq, -⟩ | ⟨hless, -⟩
    · exact heq ▸ Int.le_refl _
    · exact Int.le_of_lt hless
  rw [hdown]
  cases hends with
  | check _ clock | guard _ _ _ clock | fault _ clock =>
    rw [clock]
    exact hle
  | leave behind mem how clock =>
    rw [clock]
    exact Int.le_trans (f.lt_cycles hs.mem mem (Fabric.pos_of_lt hs hd behind).1).2 hle

namespace Session

variable {origin : Nat → Memory} {seen : Option (Nat → Memory)} {s : Session} {r : Recompiler}
  {m : Machine}

namespace Keeps

theorem le_of_interpretOne (hlow : s.machine.memory.Low) (hclock : -2 ^ 31 + 1 < s.cyclesLeft)
    {p : Turn × Session} (hok : s.interpretOne = .ok p) : p.2.cyclesLeft ≤ s.cyclesLeft := by
  obtain ⟨r, m⟩ := s
  rw [Session.interpretOne] at hok
  rcases Machine.runOne_cases (m := m) hlow hclock with
    ⟨t, m', hrun, hle, -⟩ | ⟨event, m', hrun, hlt, -⟩
  · rw [hrun] at hok
    cases hok
    exact hle
  · rw [hrun] at hok
    cases event <;> cases hok <;> exact Int.le_of_lt hlt

/-- **Doing what native code returned for.** -/
theorem le_of_serve {d : Int} {reason : ExitReason} (hlow : m.memory.Low)
    (hle : m.core.downcount.toInt ≤ d)
    (hclock : reason = .interpret → -2 ^ 31 + 1 < m.core.downcount.toInt) {p : Turn × Session}
    (hok : Session.serve ⟨r, m⟩ reason = .ok p) : p.2.cyclesLeft ≤ d := by
  cases reason with
  | interpret => exact Int.le_trans (le_of_interpretOne (s := ⟨r, m⟩) hlow (hclock rfl) hok) hle
  | modifierMismatch a =>
    rw [Session.serve] at hok
    obtain ⟨⟨_, r'⟩, -, hrest⟩ := ok_of_bind hok
    cases hrest
    exact hle
  | dispatch | syscall _ | breakpoint | fault _ | badCode _ =>
    cases hok
    exact hle

/-- **A turn leaves no more of the downcount** than there was. -/
theorem le_of_turn (x : SoundBy origin seen s) (hd : 0 < s.cyclesLeft) {p : Turn × Session}
    (hok : s.turn = .ok p) : p.2.cyclesLeft ≤ s.cyclesLeft := by
  obtain ⟨⟨result, s₁⟩, hentry, henters, hsteady, x₁⟩ := x.entry s.machine.core.pc
  have hcycles : s₁.cyclesLeft = s.cyclesLeft := by rw [cyclesLeft, hsteady.core, cyclesLeft]
  have hd : 0 < s₁.cyclesLeft := hcycles ▸ hd
  rw [← hcycles]
  rw [Session.turn, hentry] at hok
  dsimp only [bind, Except.bind] at hok
  rcases henters with ⟨id, b, rfl, hb, hstart⟩ | ⟨e, rfl, -⟩
  · have fabric := x₁.stocked.fabric x₁.consistent
    obtain ⟨y, hy, -, -, hentry'⟩ := x₁.stocked.exists_piece hb
    obtain ⟨reason, m, hrun, hback⟩ := fabric.run_of_pos hy x₁.low hd le_rfl
    rw [hentry'] at hrun
    obtain ⟨⟨reason', m'⟩, hrun', hserve⟩ := ok_of_bind hok
    cases hrun.symm.trans hrun'
    have hserve : Session.serve ⟨s₁.recompiler, m⟩ reason = .ok p := hserve
    have hlow : m.memory.Low := x₁.low.of_stores (stores_run hrun)
    have hle : m.core.downcount.toInt ≤ s₁.cyclesLeft := fabric.le_of_handedBack hback hd
    refine le_of_serve hlow hle (fun heq => ?_) hserve
    subst heq
    exact (fabric.spent hback hd).1
  · dsimp only at hok
    split at hok
    · exact le_of_interpretOne (s := s₁) x₁.low (by omega) hok
    · cases hok
      exact Int.le_refl _

theorem le_of_turns {fuel : Nat} (x : SoundBy origin seen s) {p : Answer RunExit}
    (hok : Session.turns fuel s = .ok p) : p.2.cyclesLeft ≤ s.cyclesLeft := by
  induction fuel generalizing origin seen s with
  | zero => cases hok
  | succ fuel ih =>
    obtain ⟨s₁, hdrop, x₁, ht, hmachine⟩ := x.dropChanged
    have x₁ : SoundBy origin seen s₁ := by
      rw [SoundBy, ht.space.offset]
      exact x₁
    have hcore : s₁.machine.core = s.machine.core := by rw [hmachine]
    have hcycles : s₁.cyclesLeft = s.cyclesLeft := by rw [cyclesLeft, hcore, cyclesLeft]
    rw [← hcycles]
    rw [Session.turns, hdrop] at hok
    dsimp only [bind, Except.bind] at hok
    split at hok
    · cases hok
      exact Int.le_refl _
    · split at hok
      · cases hok
        exact Int.le_refl _
      · rename_i hd
        have hd₁ : 0 < s₁.cyclesLeft := Int32.lt_iff_toInt_lt.mp (Int32.not_le.mp hd)
        obtain ⟨⟨turn, s₂⟩, hturn, x₂, -, -⟩ := x₁.turn hd₁
        have hle : s₂.cyclesLeft ≤ s₁.cyclesLeft := le_of_turn (p := (turn, s₂)) x₁ hd₁ hturn
        rw [hturn] at hok
        cases turn with
        | again =>
          have hrest : p.2.cyclesLeft ≤ s₂.cyclesLeft := ih x₂ hok
          exact Int.le_trans hrest hle
        | done exit | failed e =>
          cases hok
          exact hle

/-- **A run leaves no more of the downcount** than there was. -/
theorem le_of_run (x : SoundBy origin seen s) {p : Answer RunExit} (hok : s.run = .ok p) :
    p.2.cyclesLeft ≤ s.cyclesLeft := le_of_turns x hok

end Keeps

end Session

end Dynarec
