import Dynarec.Proofs.Recompiler.Sound

/-!
# Turns of the dispatcher

A turn of a sound session with cycles left breaks no promise and leaves the session sound.  One
after which the dispatcher goes on has lowered the downcount, or a guard failed at an address that
becomes distrusted by it (`Session.Advances`).  So a run comes to its end within the turns that it
is given (`Session.Keeps.run`).
-/

namespace Dynarec

open Host

theorem Recompiler.mem_insertAddress_iff {a b : UInt32} {l : List UInt32} :
    b ∈ insertAddress a l ↔ b = a ∨ b ∈ l := by
  induction l with
  | nil => rw [insertAddress, List.mem_singleton]; simp
  | cons c rest ih =>
    rw [insertAddress]
    split
    · exact List.mem_cons
    · split
      · rename_i heq
        rw [eq_of_beq heq]
        simp
      · rw [List.mem_cons, ih, List.mem_cons]
        tauto

namespace Session

variable {origin : Nat → Memory} {seen : Option (Nat → Memory)} {s s' : Session} {r : Recompiler}
    {m m' : Machine}

/-- The downcount of the machine. -/
def cyclesLeft (s : Session) : Int := s.machine.core.downcount.toInt

/-- **What the guest may do**: it stores nothing in the cache and learns nothing. -/
structure Served (s s' : Session) : Prop where
  options : s'.recompiler.options = s.recompiler.options
  assumes : s'.recompiler.assumesDefault = s.recompiler.assumesDefault
  compiled : s'.recompiler.stats.blocksCompiled = s.recompiler.stats.blocksCompiled
  size : s'.recompiler.cache.blocks.size = s.recompiler.cache.blocks.size

/-- **The downcount did not fall far below zero**: by no more than a block and the last instruction
of it can take. -/
def Floored (options : Options) (s : Session) : Prop := 0 ≤ options.blockLength + s.cyclesLeft

/-- **A turn without a failed guard.**  If the dispatcher goes on, some cycles were used. -/
structure Ahead (s : Session) (p : Turn × Session) : Prop where
  learned : p.2.recompiler.distrusted = s.recompiler.distrusted
  counted : p.2.recompiler.stats.modifierMismatches = s.recompiler.stats.modifierMismatches
  lower : p.1 = .again → p.2.cyclesLeft < s.cyclesLeft
  failure : ∀ e, p.1 = .failed e → ∃ start, e = .codeSpaceExhausted start
  /-- Only the dispatcher finds that the cycles are used up. -/
  unspent : p.1 ≠ .done .budget
  floor : p.2.Floored s.recompiler.options

/-- **A turn in which a guard failed** at an address that was not distrusted, and is from then on.
If no cycles were used it is the address where the turn began. -/
structure Mismatch (s : Session) (a : UInt32) (p : Turn × Session) : Prop where
  again : p.1 = .again
  trusted : a ∉ s.recompiler.distrusted
  learned : p.2.recompiler.distrusted = Recompiler.insertAddress a s.recompiler.distrusted
  counted : p.2.recompiler.stats.modifierMismatches = s.recompiler.stats.modifierMismatches + 1
  back : p.2.machine.core.pc = a
  lower : p.2.cyclesLeft < s.cyclesLeft ∨
    p.2.cyclesLeft = s.cyclesLeft ∧ a = s.machine.core.pc
  floor : p.2.Floored s.recompiler.options

/-- **What a turn comes to** in which native code returned for a reason. -/
def AdvancesBy (s : Session) (p : Turn × Session) : ExitReason → Prop
  | .modifierMismatch a => s.Mismatch a p
  | _ => s.Ahead p

/-- **In the next turn a guard fails**: that of a block at an address. -/
def FailsGuard (s : Session) (a : UInt32) : Prop :=
  ∃ entry s₁ m, s.entry s.machine.core.pc = .ok (.ok entry, s₁) ∧
    Host.run s₁.recompiler.options.downcountInRegister s₁.recompiler.cache.code.words s₁.nativeFuel
      entry s₁.machine = .ok (.modifierMismatch a, m)

/-- **What a turn comes to.** -/
def Advances (s : Session) (p : Turn × Session) : Prop :=
  s.Ahead p ∧ (∀ a, ¬ s.FailsGuard a) ∨ ∃ a, s.FailsGuard a ∧ s.Mismatch a p

namespace Keeps

/-- **Interpreting one instruction.** -/
theorem interpretOne (x : SoundBy origin seen s) (hclock : -2 ^ 31 + 1 < s.cyclesLeft)
    (hleft : 2 ≤ s.recompiler.options.blockLength + s.cyclesLeft) :
    ∃ p, s.interpretOne = .ok p ∧ SoundBy origin seen p.2 ∧ Served s p.2 ∧ Ahead s p := by
  obtain ⟨r, m⟩ := s
  have hleft : 2 ≤ (r.options.blockLength : Int) + m.core.downcount.toInt := hleft
  rw [Session.interpretOne]
  have xcount : SoundBy origin seen ⟨r.count fun stats =>
    { stats with interpreted := stats.interpreted + 1 }, m⟩ := x.count _
  rcases Machine.runOne_cases (m := m) x.low hclock with
    ⟨t, m', hrun, -, hfloor⟩ | ⟨event, m', hrun, hlower, hfloor⟩
  · have hstores := Machine.stores_runOne_trap hrun
    rw [hrun]
    refine ⟨_, rfl, Keeps.stores xcount (m'.fault t) hstores, ⟨rfl, rfl, rfl, rfl⟩,
      ⟨rfl, rfl, (by simp), (by simp), (by simp), ?_⟩⟩
    show 0 ≤ (r.options.blockLength : Int) + m'.core.downcount.toInt
    omega
  · have hstores := Machine.stores_runOne hrun
    have hsound := Keeps.stores xcount m' hstores
    have hfloor : Floored r.options ⟨r, m'⟩ := by
      show 0 ≤ (r.options.blockLength : Int) + m'.core.downcount.toInt
      omega
    rw [hrun]
    cases event with
    | normal =>
      exact ⟨_, rfl, hsound, ⟨rfl, rfl, rfl, rfl⟩, ⟨rfl, rfl, fun _ => hlower, (by simp), (by simp),
        hfloor⟩⟩
    | syscall code =>
      exact ⟨_, rfl, hsound, ⟨rfl, rfl, rfl, rfl⟩, ⟨rfl, rfl, (by simp), (by simp), (by simp), hfloor⟩⟩
    | breakpoint =>
      exact ⟨_, rfl, hsound, ⟨rfl, rfl, rfl, rfl⟩, ⟨rfl, rfl, (by simp), (by simp), (by simp), hfloor⟩⟩

/-- No block is left at an address that was invalidated. -/
theorem start_ne_of_overlaps {free id : Nat} {b : Block} {a length : UInt32}
    (x : Keeps origin seen free s) (hb : s.recompiler.cache.IsValid id b)
    (hno : b.overlaps a (BlockCache.rangeEnd a length) = false) : b.start ≠ a := by
  rintro rfl
  have hlt : b.start < b.stop := x.consistent.index.nonempty id b hb
  have hend : b.start < BlockCache.rangeEnd b.start length := by
    have hlt' := UInt32.lt_iff_toNat_lt.mp hlt
    have hstop := b.stop.toNat_lt
    rw [BlockCache.rangeEnd]
    split
    · rename_i hsmall
      have hone : 1 ≤ Nat.max length.toNat 1 := Nat.le_max_right _ _
      rw [UInt32.lt_iff_toNat_lt, UInt32.toNat_ofNat_of_lt' hsmall]
      omega
    · rw [UInt32.lt_iff_toNat_lt]
      show b.start.toNat < 4294967295
      omega
  rw [Block.overlaps, decide_eq_true hend, decide_eq_true hlt] at hno
  cases hno

/-- **An address that was invalidated may be distrusted.** -/
theorem distrust {free : Nat} {a length : UInt32} (x : Keeps origin seen free ⟨r, m⟩)
    (hno : ∀ id b, r.cache.IsValid id b → b.overlaps a (BlockCache.rangeEnd a length) = false) :
    Keeps origin seen free ⟨r.distrust a, m⟩ where
  consistent := x.consistent
  stocked := x.stocked
  low := x.low
  watches := x.watches
  trusting id b hb hassumes hmem := by
    rcases Recompiler.mem_insertAddress_iff.mp hmem with heq | hmem
    · exact start_ne_of_overlaps x hb (hno id b hb) heq
    · exact x.trusting id b hb hassumes hmem

/-- **Doing what native code returned for.** -/
theorem serve (x : SoundBy origin seen ⟨r, m⟩) {d₀ : Int32} {y₀ : Piece} {reason : ExitReason}
    (hspent : Spent (r.cache.pieces r.options origin) y₀ d₀ m reason)
    (hfloor : (reason.behind : Int) ≤ r.options.blockLength + m.core.downcount.toInt)
    (hcode : ∀ offset, reason ≠ .badCode offset) (hstart : y₀.setting.start = s.machine.core.pc)
    (hd₀ : s.machine.core.downcount = d₀)
    (hoptions : r.options = s.recompiler.options)
    (hlearned : r.distrusted = s.recompiler.distrusted)
    (hcounted : r.stats.modifierMismatches = s.recompiler.stats.modifierMismatches) :
    ∃ p, Session.serve ⟨r, m⟩ reason = .ok p ∧ SoundBy origin seen p.2 ∧ Served ⟨r, m⟩ p.2 ∧
      AdvancesBy s p reason := by
  have hd : s.cyclesLeft = d₀.toInt := congrArg Int32.toInt hd₀
  have hleft : Floored s.recompiler.options ⟨r, m⟩ := by
    rw [Floored, ← hoptions]
    exact Int.le_trans (Int.natCast_nonneg _) hfloor
  cases reason with
  | dispatch =>
    refine ⟨_, rfl, x, ⟨rfl, rfl, rfl, rfl⟩, ⟨hlearned, hcounted, fun _ => ?_, nofun, nofun, hleft⟩⟩
    rw [hd]
    exact hspent
  | interpret =>
    obtain ⟨hlow, hle⟩ := hspent
    obtain ⟨p, hone, hsound, hserved, hahead⟩ := x.interpretOne hlow hfloor
    refine ⟨p, hone, hsound, hserved, ⟨hahead.learned.trans hlearned,
      hahead.counted.trans hcounted, fun hagain => ?_, hahead.failure, hahead.unspent,
      hoptions ▸ hahead.floor⟩⟩
    rw [hd]
    exact Int.lt_of_lt_of_le (hahead.lower hagain) hle
  | syscall code =>
    exact ⟨_, rfl, x, ⟨rfl, rfl, rfl, rfl⟩, ⟨hlearned, hcounted, nofun, nofun, nofun, hleft⟩⟩
  | breakpoint =>
    exact ⟨_, rfl, x, ⟨rfl, rfl, rfl, rfl⟩, ⟨hlearned, hcounted, nofun, nofun, nofun, hleft⟩⟩
  | fault t =>
    exact ⟨_, rfl, Keeps.stores x (m.fault t) .refl, ⟨rfl, rfl, rfl, rfl⟩,
      ⟨hlearned, hcounted, nofun, nofun, nofun, hleft⟩⟩
  | badCode offset => exact absurd rfl (hcode offset)
  | modifierMismatch a =>
    obtain ⟨hpc, y, ⟨id, b, hb, hy, hembeds⟩, hya, hassumes, hlower⟩ := hspent
    have hba : b.start = a := (congrArg Block.start hembeds.outline).trans hya
    have htrusted : a ∉ r.distrusted := by
      rw [← hba]
      exact x.trusting id b hb ((congrArg Block.assumesDefault hembeds.outline).trans
        (decide_eq_true hassumes))
    obtain ⟨n, r', hinvalidate, x', ht, hno⟩ := Keeps.invalidate (x.count fun stats =>
      { stats with modifierMismatches := stats.modifierMismatches + 1 }) a 4
    have x' : SoundBy origin seen ⟨r', m⟩ := by
      rw [SoundBy, ht.space.offset]
      exact x'
    refine ⟨(.again, ⟨r'.distrust a, m⟩), ?_, x'.distrust hno,
      ⟨ht.options, ht.assumes, ht.compiled, ht.size⟩,
      ⟨rfl, hlearned ▸ htrusted, ?_, ?_, hpc, ?_, hleft⟩⟩
    · rw [Session.serve]
      dsimp only
      rw [hinvalidate]
      rfl
    · show Recompiler.insertAddress a r'.distrusted = _
      rw [ht.distrusted]
      exact congrArg _ hlearned
    · exact ht.mismatches.trans (congrArg (· + 1) hcounted)
    · rcases hlower with hlower | ⟨rfl, heq⟩
      · exact .inl (hd ▸ hlower)
      · exact .inr ⟨(congrArg Int32.toInt heq).trans hd.symm, hya.symm.trans hstart⟩

/-- **Running native code** from the entry of a block at the program counter. -/
theorem runNative (x : SoundBy origin seen s) (hd : 0 < s.cyclesLeft) {id : Nat} {b : Block}
    (hb : s.recompiler.cache.IsValid id b) (hstart : b.start = s.machine.core.pc) :
    ∃ reason m p, Host.run s.recompiler.options.downcountInRegister s.recompiler.cache.code.words
        s.nativeFuel b.normalEntry s.machine = .ok (reason, m) ∧
      s.runNative b.normalEntry = .ok p ∧ SoundBy origin seen p.2 ∧ Served s p.2 ∧
      AdvancesBy s p reason := by
  have fabric := x.stocked.fabric x.consistent
  obtain ⟨y, hy, hystart, -, hentry⟩ := x.stocked.exists_piece hb
  have hfuel : (s.machine.core.downcount.toInt.toNat + 2) * (s.recompiler.cache.code.words.size + 2) ≤
      s.nativeFuel := le_rfl
  obtain ⟨reason, m, hrun, hback⟩ := fabric.run_of_pos hy x.low hd hfuel
  rw [hentry] at hrun
  have hstores := Host.stores_run hrun
  obtain ⟨p, hserve, hsound, hserved, hadvances⟩ :=
    Keeps.serve (s := s) (Keeps.stores x m hstores) (fabric.spent hback hd)
      (fabric.floor (BlockCache.within_pieces _ _ _) hback hd) hback.ne_badCode
      (hystart.trans hstart) rfl rfl rfl rfl
  refine ⟨reason, m, p, hrun, ?_, hsound, ⟨hserved.options, hserved.assumes, hserved.compiled,
    hserved.size⟩, hadvances⟩
  rw [Session.runNative]
  dsimp only
  rw [hrun]
  exact hserve

/-- A failure to find the entry that is not local is want of space. -/
theorem exhausted_of_refuses {address : UInt32} {e : Failure} (h : Lowering.Refuses address e)
    (hlocal : e.isLocal = false) : e = .codeSpaceExhausted address := by
  rcases h with ⟨wanted, rfl⟩ | rfl | rfl
  · cases hlocal
  · rfl
  · cases hlocal

end Keeps

/-- The memories that blocks were compiled from do not change when none is made. -/
theorem Served.soundAfter {s₁ : Session} (h : Served s₁ s')
    (x : SoundBy (originsAfter origin s s₁) (seen.map fun f => originsAfter f s s₁) s') :
    SoundAfter origin seen s s' := by
  have hsame : ∀ f : Nat → Memory, originsAfter f s s' = originsAfter f s s₁ := fun f => by
    rw [originsAfter, originsAfter, h.compiled, h.size]
  rw [SoundAfter, hsame, funext hsame]
  exact x

/-- What is in front of a turn may be prepared. -/
theorem Steady.ahead {s₁ : Session} (h : Steady s s₁) {p : Turn × Session} (hp : Ahead s₁ p) :
    Ahead s p := by
  have hcycles : s₁.cyclesLeft = s.cyclesLeft :=
    congrArg (fun core => core.downcount.toInt) h.core
  exact ⟨hp.learned.trans h.distrusted, hp.counted.trans h.mismatches,
    fun hagain => hcycles ▸ hp.lower hagain, hp.failure, hp.unspent, h.options ▸ hp.floor⟩

theorem Steady.mismatch {s₁ : Session} (h : Steady s s₁) {p : Turn × Session} {a : UInt32}
    (hp : Mismatch s₁ a p) : Mismatch s a p := by
  have hcycles : s₁.cyclesLeft = s.cyclesLeft :=
    congrArg (fun core => core.downcount.toInt) h.core
  refine ⟨hp.again, h.distrusted ▸ hp.trusted, h.distrusted ▸ hp.learned,
    h.mismatches ▸ hp.counted, hp.back, ?_, h.options ▸ hp.floor⟩
  rw [← hcycles, ← h.core]
  exact hp.lower

/-- **A turn that runs native code** comes to what the code returned for. -/
theorem Steady.advances {s₁ : Session} (h : Steady s s₁) {p : Turn × Session} {entry : Nat}
    {reason : ExitReason} {m : Machine}
    (hentry : s.entry s.machine.core.pc = .ok (.ok entry, s₁))
    (hrun : Host.run s₁.recompiler.options.downcountInRegister s₁.recompiler.cache.code.words
      s₁.nativeFuel entry s₁.machine = .ok (reason, m)) (hp : AdvancesBy s₁ p reason) :
    Advances s p := by
  have honly : ∀ a, s.FailsGuard a → reason = .modifierMismatch a := by
    rintro a ⟨entry', s₁', m', hentry', hrun'⟩
    cases hentry.symm.trans hentry'
    cases hrun.symm.trans hrun'
    rfl
  cases reason with
  | modifierMismatch a => exact .inr ⟨a, ⟨entry, s₁, m, hentry, hrun⟩, h.mismatch hp⟩
  | _ => exact .inl ⟨h.ahead hp, fun a ha => nomatch honly a ha⟩

/-- **A turn of the dispatcher** with cycles left. -/
theorem Keeps.turn (x : SoundBy origin seen s) (hd : 0 < s.cyclesLeft) :
    ∃ p, s.turn = .ok p ∧ SoundAfter origin seen s p.2 ∧
      p.2.recompiler.options = s.recompiler.options ∧ Advances s p := by
  obtain ⟨⟨result, s₁⟩, hentry, henters, hsteady, x₁⟩ := x.entry s.machine.core.pc
  have hcore : s₁.machine.core = s.machine.core := hsteady.core
  have hd₁ : 0 < s₁.cyclesLeft := by
    rw [cyclesLeft, hcore]
    exact hd
  rw [Session.turn, hentry]
  dsimp only [bind, Except.bind]
  rcases henters with ⟨id, b, rfl, hb, hstart⟩ | ⟨e, rfl, hrefuses⟩
  · obtain ⟨reason, m, p, hhost, hrun, hsound, hserved, hadvances⟩ :=
      Keeps.runNative x₁ hd₁ hb (hstart.trans (congrArg Core.pc hcore.symm))
    exact ⟨p, hrun, hserved.soundAfter hsound, hserved.options.trans hsteady.options,
      Steady.advances hsteady hentry hhost hadvances⟩
  · have hnone : ∀ a, ¬ s.FailsGuard a := by
      rintro a ⟨entry', s₁', m', hentry', -⟩
      cases hentry.symm.trans hentry'
    dsimp only
    split
    · have hone : 1 ≤ s₁.recompiler.options.blockLength := Nat.le_max_right _ _
      obtain ⟨p, hone, hsound, hserved, hahead⟩ := Keeps.interpretOne (s := s₁) x₁ (by omega) (by omega)
      exact ⟨p, hone, hserved.soundAfter hsound, hserved.options.trans hsteady.options,
        .inl ⟨Steady.ahead hsteady hahead, hnone⟩⟩
    · rename_i hlocal
      refine ⟨_, rfl, x₁, hsteady.options,
        .inl ⟨Steady.ahead hsteady ⟨rfl, rfl, nofun, fun e he => ?_, nofun, ?_⟩, hnone⟩⟩
      · cases he
        exact ⟨_, Keeps.exhausted_of_refuses hrefuses (Bool.eq_false_iff.mpr hlocal)⟩
      · show 0 ≤ (_ : Int) + s₁.cyclesLeft
        omega

/-! ### Whole runs -/

/-- **What falls with every turn** after which the dispatcher goes on. -/
def potential (s : Session) : Nat :=
  2 * s.cyclesLeft.toNat + if s.machine.core.pc ∈ s.recompiler.distrusted then 0 else 1

theorem Advances.potential_lt {p : Turn × Session} (h : Advances s p) (hagain : p.1 = .again)
    (hd : 0 < s.cyclesLeft) : p.2.potential < s.potential := by
  have hbound : ∀ t : Session, 2 * t.cyclesLeft.toNat ≤ t.potential ∧
      t.potential ≤ 2 * t.cyclesLeft.toNat + 1 := fun t => by
    rw [potential]
    split <;> omega
  have hnew := hbound p.2
  have hold := hbound s
  have hlt : p.2.cyclesLeft < s.cyclesLeft → p.2.potential < s.potential := fun hlower => by omega
  rcases h with ⟨h, -⟩ | ⟨a, -, h⟩
  · exact hlt (h.lower hagain)
  · rcases h.lower with hlower | ⟨hsame, rfl⟩
    · exact hlt hlower
    · rw [potential, potential, hsame, if_neg h.trusted, if_pos]
      · omega
      · rw [h.back, h.learned]
        exact Recompiler.mem_insertAddress_iff.mpr (.inl rfl)

/-- **What a run comes to.**  It fails only for want of space. -/
structure Finished (s : Session) (p : Answer RunExit) : Prop where
  options : p.2.recompiler.options = s.recompiler.options
  failure : ∀ e, p.1 = .error e → ∃ start, e = .codeSpaceExhausted start
  floor : s.Floored s.recompiler.options → p.2.Floored s.recompiler.options
  spent : p.1 = .ok .budget → p.2.cyclesLeft ≤ 0

/-- What is in front of a run may be prepared. -/
theorem Finished.of_eq {s₁ : Session} {p : Answer RunExit} (h : Finished s₁ p)
    (hoptions : s₁.recompiler.options = s.recompiler.options)
    (hfloor : s.Floored s.recompiler.options → s₁.Floored s.recompiler.options) : Finished s p :=
  ⟨h.options.trans hoptions, h.failure, fun hs => hoptions ▸ h.floor (hoptions ▸ hfloor hs), h.spent⟩

theorem Advances.floor {p : Turn × Session} (h : Advances s p) :
    p.2.Floored s.recompiler.options := by
  rcases h with ⟨hahead, -⟩ | ⟨a, -, hmismatch⟩
  · exact hahead.floor
  · exact hmismatch.floor

/-- **A run with enough turns comes to its end.** -/
theorem Keeps.turns {fuel : Nat} (x : SoundBy origin seen s) (hfuel : s.potential < fuel) :
    ∃ p, Session.turns fuel s = .ok p ∧ (∃ origin' seen', SoundBy origin' seen' p.2) ∧
      Finished s p := by
  induction fuel generalizing origin seen s with
  | zero => omega
  | succ fuel ih =>
    obtain ⟨s₁, hdrop, x₁, ht, hmachine⟩ := x.dropChanged
    have x₁ : SoundBy origin seen s₁ := by
      rw [SoundBy, ht.space.offset]
      exact x₁
    have hcore : s₁.machine.core = s.machine.core := by rw [hmachine]
    have hpotential : s₁.potential = s.potential := by
      rw [potential, potential, cyclesLeft, cyclesLeft, hcore, ht.distrusted]
    have hfloor : s.Floored s.recompiler.options → s₁.Floored s.recompiler.options := by
      rw [Floored, Floored, cyclesLeft, cyclesLeft, hcore]
      exact id
    rw [Session.turns, hdrop]
    dsimp only [bind, Except.bind]
    split
    · exact ⟨_, rfl, ⟨origin, seen, x₁⟩, ht.options, (by simp), hfloor, (by simp)⟩
    · split
      · rename_i hd
        exact ⟨_, rfl, ⟨origin, seen, x₁⟩, ht.options, (by simp), hfloor,
          fun _ => Int32.le_iff_toInt_le.mp hd⟩
      · rename_i hd
        have hd₁ : 0 < s₁.cyclesLeft := Int32.lt_iff_toInt_lt.mp (Int32.not_le.mp hd)
        obtain ⟨⟨turn, s₂⟩, hturn, x₂, hoptions, hadvances⟩ := x₁.turn hd₁
        have hleft : s₂.Floored s.recompiler.options := ht.options ▸ hadvances.floor
        rw [hturn]
        cases turn with
        | again =>
          have hlt := hadvances.potential_lt rfl hd₁
          obtain ⟨p, hrest, hsound, hfinished⟩ := ih x₂ (by omega)
          exact ⟨p, hrest, hsound, hfinished.of_eq (hoptions.trans ht.options) fun _ => hleft⟩
        | done exit =>
          refine ⟨_, rfl, ⟨_, _, x₂⟩, hoptions.trans ht.options, (by simp), fun _ => hleft,
            fun he => ?_⟩
          cases he
          rcases hadvances with ⟨hahead, -⟩ | ⟨a, -, hmismatch⟩
          · exact absurd rfl hahead.unspent
          · cases hmismatch.again
        | failed e =>
          refine ⟨_, rfl, ⟨_, _, x₂⟩, hoptions.trans ht.options, fun e' he' => ?_, fun _ => hleft,
            (by simp)⟩
          cases he'
          rcases hadvances with ⟨hahead, -⟩ | ⟨a, -, hmismatch⟩
          · exact hahead.failure e rfl
          · cases hmismatch.again

/-- **A run of a sound session comes to its end.** -/
theorem Keeps.finishes (x : SoundBy origin seen s) :
    ∃ p, s.run = .ok p ∧ (∃ origin' seen', SoundBy origin' seen' p.2) ∧ Finished s p := by
  refine Keeps.turns x ?_
  have hfuel : s.turnFuel = 2 * s.cyclesLeft.toNat + 2 := rfl
  rw [potential, hfuel]
  split <;> omega

/-- A run of a sound session fails only for want of space. -/
theorem Keeps.run (x : SoundBy origin seen s) :
    ∃ p, s.run = .ok p ∧ (∃ origin' seen', SoundBy origin' seen' p.2) ∧
      p.2.recompiler.options = s.recompiler.options ∧
      ∀ e, p.1 = .error e → ∃ start, e = .codeSpaceExhausted start := by
  obtain ⟨p, hrun, hsound, hfinished⟩ := x.finishes
  exact ⟨p, hrun, hsound, hfinished.options, hfinished.failure⟩

end Session

end Dynarec
