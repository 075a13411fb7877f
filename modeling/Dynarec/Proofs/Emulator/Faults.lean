import Dynarec.Proofs.Emulator.Interpreting
import Dynarec.Proofs.Recompiler.Termination

/-!
# What a fault costs

Every way out of a block charges for the instructions of the visit that it ends.  An instruction
that the interpreter refuses ends the visit without a charge, so that the downcount is what it was
where the block was entered.  The interpreter charges for the instructions in front of the one that
it refuses (`fault_cycles_differ`).  Apart from the cycles a fault is precise: both engines end for
the same one, with the same machine (`charges_of_exit`).
-/

namespace Dynarec

open Host

namespace Session

variable {origin : Nat → Memory} {seen : Option (Nat → Memory)} {s : Session}

/-- **The last visit of a run** that entered a block with a machine: it began where the run did or
at the checked entry of a valid block, and went on in the code of the valid block `b'`. -/
structure LastVisit (s : Session) (b : Block) (m : Machine) (began ended : Cursor) (b' : Block) :
    Prop where
  before : s.Visits b m began
  since : Reaches s.recompiler.cache.code.words began ended
  entry : began.offset = b.normalEntry ∨ s.AtLinked began
  valid : ∃ id, s.recompiler.cache.IsValid id b'
  began : b'.codeStart ≤ began.offset ∧ began.offset < b'.codeEnd
  ended : b'.codeStart ≤ ended.offset ∧ ended.offset < b'.codeEnd

/-- **What a visit costs**, by the reason for which it ended.  It is nothing at a fault, at the
guard, and at the test of a block that was linked.  Behind that it is a cycle for every instruction
of the block, a branch that is left to the interpreter not being one; where the block goes on at
another address the last one may be missing, since the slot of a likely branch may be skipped.  It
is never more than a block has, `most` instructions and a delay slot. -/
def Costs (most : Nat) (b' : Block) (ended : Cursor) (before after : Int)
    (reason : ExitReason) : Prop :=
  ∃ n : Nat, before = after + n ∧
    match reason with
    | .fault _ | .modifierMismatch _ => n = 0
    | .dispatch => (n = 0 ↔ ended.offset = b'.codeStart) ∧ n ≤ most + 1 ∧
      (n ≠ 0 → n = b'.instructions.toNat ∨ n + 1 = b'.instructions.toNat)
    | .syscall _ | .breakpoint => 1 ≤ n ∧ n ≤ most + 1 ∧ n = b'.instructions.toNat
    | .interpret => n + 1 ≤ most ∧ n = b'.instructions.toNat
    | .badCode _ => False

/-- **A run that hands back charges for its last visit, unless it ends at a fault.** -/
theorem Keeps.costs (x : SoundBy origin seen s) (hd : 0 < s.cyclesLeft) {id : Nat} {b : Block}
    (hb : s.recompiler.cache.IsValid id b) :
    ∃ reason m began ended b', Host.run s.recompiler.options.downcountInRegister
        s.recompiler.cache.code.words s.nativeFuel b.normalEntry s.machine = .ok (reason, m) ∧
      s.LastVisit b s.machine began ended b' ∧
      Costs s.recompiler.options.blockLength b' ended (s.cyclesAt began) m.core.downcount.toInt
        reason := by
  have fabric := x.stocked.fabric x.consistent
  have hwithin := BlockCache.within_pieces s.recompiler.options origin s.recompiler.cache
  obtain ⟨y₀, hy₀, -, -, hentry⟩ := x.stocked.exists_piece hb
  have hfuel : (s.machine.core.downcount.toInt.toNat + 2) *
      (s.recompiler.cache.code.words.size + 2) ≤ s.nativeFuel := le_rfl
  obtain ⟨reason, m, hrun, hback⟩ := fabric.run_of_pos hy₀ x.low hd hfuel
  rw [hentry] at hrun hback
  obtain ⟨⟨e, hbefore, hsince, hthere, hcycles, hbegan⟩, hs, hends⟩ := hback
  rename_i y d c h m
  obtain ⟨id', b', hb', hembeds, hin⟩ := BlockCache.exists_block hs.mem hthere
  obtain ⟨hstart, hend, hchecked, -⟩ := hembeds.range
  have hlast := hs.holds.lt_length
  have hentered : e.offset = b.normalEntry ∨ s.AtLinked e :=
    hbegan.imp (fun heq => by rw [heq]) fun hbase => ⟨id', b', hb', hbase.trans hchecked.symm⟩
  refine ⟨reason, _, e, c, b', hrun,
    ⟨hbefore, hsince, hentered, ⟨id', hb'⟩, hin, by omega, by omega⟩, ?_⟩
  have hdown : (putBack s.recompiler.options.downcountInRegister h m).core.downcount =
      y.cycles h m := by
    rw [Piece.cycles, fabric.register y hs.mem]
    rfl
  rw [cyclesAt, hcycles, hdown]
  cases hends with
  | check there clock =>
    rw [clock]
    exact ⟨0, (Int.add_zero _).symm, iff_of_true rfl (there.trans hstart.symm), Nat.zero_le _,
      fun hne => absurd rfl hne⟩
  | guard _ _ _ clock | fault _ clock =>
    rw [clock]
    exact ⟨0, (Int.add_zero _).symm, rfl⟩
  | @leave way reason behind mem how clock =>
    obtain ⟨hcharged, hsmall, hle, hleast⟩ :=
      fabric.charged hwithin hs.mem mem (Fabric.pos_of_lt hs hd behind).1
    rw [clock]
    have hpos : (∀ pc, way.op ≠ .exitInterpret pc) → 1 ≤ way.amount.toNat := fun hop =>
      hleast.resolve_left fun h => h.elim hop
    have hmost : way.amount.toNat ≤ s.recompiler.options.blockLength + 1 := by omega
    have hpays := BlockCache.pays_of_embeds hs.mem hembeds way mem
    have hall : (∀ t, way.op ≠ .exitDispatch t) → way.amount.toNat = b'.instructions.toNat :=
      fun hop => congrArg UInt32.toNat (hpays.resolve_right fun h => h.2.elim hop)
    refine ⟨way.amount.toNat, hcharged, ?_⟩
    cases reason with
    | dispatch =>
      have hone : 1 ≤ way.amount.toNat := hpos fun pc hpc => by
        rcases how with ⟨_, hop⟩ | ⟨_, hop⟩ <;> rw [hop] at hpc <;> cases hpc
      refine ⟨iff_of_false (by omega) (by omega), hmost, fun _ => hpays.imp ?_ fun hless => ?_⟩
      · exact congrArg UInt32.toNat
      · rw [← hless.1, UInt32.toNat_add, UInt32.toNat_one]
        omega
    | interpret =>
      obtain ⟨pc, hop⟩ := how
      refine ⟨?_, hall fun t heq => by rw [hop] at heq; cases heq⟩
      rw [hop] at hle
      have hle : way.amount.toNat + 2 ≤ s.recompiler.options.blockLength + 1 := hle
      omega
    | syscall code | breakpoint =>
      obtain ⟨pc, hop⟩ := how
      exact ⟨hpos fun pc' heq => (by rw [hop] at heq; cases heq), hmost,
        hall fun t heq => by rw [hop] at heq; cases heq⟩
    | modifierMismatch | fault | badCode => exact how.elim

end Session

open Session Emulator in
/-- **A fault is precise, but not charged.**  Whatever was done with a recompiler, native code that
is entered with cycles left at a valid block hands back, and charges for all that its last visit
executed unless that ends at a fault.  Where an emulator that interprets ends for a fault, one that
recompiles ends for the same fault, if it does not fail: with the same machine, but for its cycles
and the delay slot that it may leave open, and with fewer cycles by the instructions of a block at
most.  No step of the reference may overwrite an instruction that is fetched later. -/
theorem charges_of_exit {options : Options} (hsize : options.Addressable) :
    (∀ r, r.Reached options → ∀ m : Machine, m.memory.Low → 0 < m.core.downcount.toInt →
      ∀ id b, r.cache.IsValid id b →
        ∃ reason m' began ended b', Host.run r.options.downcountInRegister r.cache.code.words
            (Session.mk r m).nativeFuel b.normalEntry m = .ok (reason, m') ∧
          (Session.mk r m).LastVisit b m began ended b' ∧
          Costs options.blockLength b' ended ((Session.mk r m).cyclesAt began)
            m'.core.downcount.toInt reason) ∧
    ∀ r, Recompiler.create options = .ok r → ∀ {H : Type} {handler : SyscallHandler H},
      Provided handler → ∀ m : Machine, m.memory.Orderly → m.Closed → m.core.ZeroKept →
      ∀ slice : Int32, 1 ≤ slice.toInt → ∀ h : H, Undisturbed handler (h, m) →
      ∀ target pc word e₁ h₁ reason e₂ h₂,
        (Emulator.mk .interpreter m 0 slice).runUntil handler target h =
          .ok (.ok (.fault pc word), e₁, h₁) →
        (Emulator.mk (.recompiler r) m 0 slice).runUntil handler target h =
          .ok (.ok reason, e₂, h₂) →
        reason = .fault pc word ∧ h₂ = h₁ ∧ e₂.machine.Coincides e₁.machine ∧
          e₂.cycles ≤ e₁.cycles ∧ e₁.cycles ≤ e₂.cycles + options.blockLength := by
  refine ⟨fun r hr m hm hd id b hb => ?_, ?_⟩
  · obtain ⟨hoptions, origin, hsound⟩ := hr.sound hsize
    exact hoptions ▸ (hsound m hm).costs hd hb
  · intro r hr H handler hhandler m hm hclosed hz slice hslice h hstays target pc word e₁ h₁ reason
      e₂ h₂
    exact same_fault_of_create hsize hr hhandler hm hclosed hz hslice hstays

/-- A machine whose second instruction is none. -/
def faultyMachine : Machine :=
  ⟨Core.start 0x1000,
    (Memory.create 0x1000 8).overlay 0 [0x01, 0x00, 0x08, 0x24, 0xFF, 0xFF, 0xFF, 0xFF]⟩

/-- The run of its block ends for the fault. -/
def Session.faultsIn (s : Session) (b : Block) (m : Machine) : Bool :=
  match Host.run s.recompiler.options.downcountInRegister s.recompiler.cache.code.words
    (Session.mk s.recompiler m).nativeFuel b.normalEntry m with
  | .ok (.fault t, _) => t == .unimplemented 0xFFFFFFFF 0x1004
  | _ => false

open Session Emulator in
/-- Its block is entered with five cycles left, and five are left at the fault.  The emulators end
for the same fault. -/
theorem charges_of_fault :
    (∃ s b m' began ended b',
      (Session.mk roomyRecompiler faultyMachine).act (.lower 0x1000 true) = .ok s ∧
      s.recompiler.cache.IsValid 0 b ∧
      Host.run s.recompiler.options.downcountInRegister s.recompiler.cache.code.words
        (Session.mk s.recompiler (faultyMachine.setDowncount 5)).nativeFuel b.normalEntry
        (faultyMachine.setDowncount 5) = .ok (.fault (.unimplemented 0xFFFFFFFF 0x1004), m') ∧
      (Session.mk s.recompiler (faultyMachine.setDowncount 5)).LastVisit b
        (faultyMachine.setDowncount 5) began ended b' ∧
      Costs roomySpace.blockLength b' ended
        ((Session.mk s.recompiler (faultyMachine.setDowncount 5)).cyclesAt began)
        m'.core.downcount.toInt (.fault (.unimplemented 0xFFFFFFFF 0x1004))) ∧
    ∃ e₁ e₂,
      (Emulator.mk .interpreter faultyMachine 0 50).runUntil ignoreSyscalls 10 () =
        .ok (.ok (.fault 0x1004 0xFFFFFFFF), e₁, ()) ∧
      (Emulator.mk (.recompiler roomyRecompiler) faultyMachine 0 50).runUntil ignoreSyscalls 10 () =
        .ok (.ok (.fault 0x1004 0xFFFFFFFF), e₂, ()) ∧
      e₂.machine.Coincides e₁.machine ∧ e₂.cycles ≤ e₁.cycles ∧
      e₁.cycles ≤ e₂.cycles + roomySpace.blockLength := by
  have hcreate : Recompiler.create roomySpace = .ok roomyRecompiler := rfl
  have horderly : faultyMachine.memory.Orderly := ⟨by unfold Memory.Low; decide, by decide, nofun⟩
  obtain ⟨hcharges, hprecise⟩ := charges_of_exit (show roomySpace.Addressable by decide)
  constructor
  · have hends : ((Session.mk roomyRecompiler faultyMachine).act (.lower 0x1000 true)).toOption.any
        (fun s => s.recompiler.cache.blocks[0]?.any fun b =>
          b.valid && s.faultsIn b (faultyMachine.setDowncount 5)) = true := by decide +kernel
    obtain ⟨s, hs, hends⟩ := (Option.any_eq_true _ _).mp hends
    have hact := ok_of_toOption hs
    obtain ⟨b, hb, hends⟩ := (Option.any_eq_true _ _).mp hends
    obtain ⟨hvalid, hfaults⟩ := Bool.and_eq_true_iff.mp hends
    obtain ⟨reason, m', began, ended, b', hrun, hvisit, hcosts⟩ :=
      hcharges s.recompiler (.act (.create hcreate) horderly.low hact)
        (faultyMachine.setDowncount 5) horderly.low (by decide) 0 b ⟨hb, hvalid⟩
    rw [Session.faultsIn, hrun] at hfaults
    cases reason with
    | fault t =>
      obtain rfl := eq_of_beq hfaults
      exact ⟨s, b, m', began, ended, b', hact, ⟨hb, hvalid⟩, hrun, hvisit, hcosts⟩
    | _ => cases hfaults
  · have hinterprets : (Emulator.mk .interpreter faultyMachine 0 50).stops? 10 =
        some (.fault 0x1004 0xFFFFFFFF, 1) := by decide +kernel
    have hrecompiles : (Emulator.mk (.recompiler roomyRecompiler) faultyMachine 0 50).stops? 10 =
        some (.fault 0x1004 0xFFFFFFFF, 0) := by decide +kernel
    have hstays : Undisturbed ignoreSyscalls ((), faultyMachine) :=
      undisturbed_of_endsUnchanged (n := 2) (by decide +kernel)
    obtain ⟨e₁, hrun₁, -⟩ := runUntil_of_stops? hinterprets
    obtain ⟨e₂, hrun₂, -⟩ := runUntil_of_stops? hrecompiles
    obtain ⟨-, -, hsame⟩ := hprecise roomyRecompiler hcreate .ignore faultyMachine horderly
      ⟨rfl, rfl⟩ rfl 50 (by decide) () hstays 10 0x1004 0xFFFFFFFF _ _ _ _ _ hrun₁ hrun₂
    exact ⟨e₁, e₂, hrun₁, hrun₂, hsame⟩

/-- An emulator with eight bytes of memory, an image in it, and slices of fifty cycles. -/
def Emulator.loaded? (recompile : Bool) (image : List UInt8) : Option Emulator := do
  let engine ← (Engine.create recompile {}).toOption
  let loaded ← ((Emulator.create engine 0x1000 8 50).loadImage 0x1000 image 0x1000).toOption
  loaded.toOption

/-- **The engines count differently** when the second instruction is none: both stop at it, and the
interpreter has charged for the first. -/
theorem fault_cycles_differ :
    let stops := fun recompile => do
      let e ← Emulator.loaded? recompile [0x01, 0x00, 0x08, 0x24, 0xFF, 0xFF, 0xFF, 0xFF]
      let (result, e, _) ← (e.runUntil ignoreSyscalls 10 ()).toOption
      return (result.toOption, e.cycles)
    stops false = some (some (.fault 0x1004 0xFFFFFFFF), 1) ∧
      stops true = some (some (.fault 0x1004 0xFFFFFFFF), 0) := by
  decide +kernel

end Dynarec
