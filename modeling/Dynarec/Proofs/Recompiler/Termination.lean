import Dynarec.Proofs.Guest.Images
import Dynarec.Proofs.Recompiler.Safety

/-!
# Runs come to an end

Native code that goes from block to block through links has less of the downcount left at every
entry (`Session.Keeps.cycles_lt_of_visits`, `Session.Keeps.cycles_lt_of_linked`).  A turn of the
dispatcher after which it goes on lowers the downcount, or ends at a guard that failed; and a guard
fails at an address once at most, until what was learned is loaded (`Session.Keeps.not_failsGuard`).
-/

namespace Dynarec

open Host

namespace Session

variable {origin : Nat → Memory} {s s' : Session}

/-- **Whether a guard fails** in the next turn can be found out by taking it. -/
theorem failsGuard_iff {a : UInt32} : s.FailsGuard a ↔
    (s.entry s.machine.core.pc).toOption.any (fun p => p.1.toOption.any fun entry =>
      (Host.run p.2.recompiler.options.downcountInRegister p.2.recompiler.cache.code.words
        p.2.nativeFuel entry p.2.machine).toOption.any fun q => q.1 == .modifierMismatch a) = true := by
  constructor
  · rintro ⟨entry, s₁, m, hentry, hrun⟩
    rw [hentry]
    show (Host.run _ _ _ entry _).toOption.any _ = true
    rw [hrun]
    exact beq_self_eq_true _
  · intro h
    obtain ⟨⟨result, s₁⟩, hentry, h⟩ := (Option.any_eq_true _ _).mp h
    obtain ⟨entry, hok, h⟩ := (Option.any_eq_true _ _).mp h
    obtain ⟨⟨reason, m⟩, hrun, h⟩ := (Option.any_eq_true _ _).mp h
    obtain rfl := eq_of_beq h
    obtain rfl := ok_of_toOption hok
    exact ⟨entry, s₁, m, ok_of_toOption hentry, ok_of_toOption hrun⟩

instance (a : UInt32) : Decidable (s.FailsGuard a) := decidable_of_iff _ failsGuard_iff.symm

/-- The downcount in a run of native code. -/
def cyclesAt (s : Session) (spot : Cursor) : Int :=
  (cycles s.recompiler.options.downcountInRegister spot.host spot.machine).toInt

/-- **A run stands at the checked entry of a valid block**, where links lead. -/
def AtLinked (s : Session) (spot : Cursor) : Prop :=
  ∃ id b, s.recompiler.cache.IsValid id b ∧ spot.offset = b.checkedEntry

namespace Keeps

/-- The checked entry where a run stands is that of the piece that it stands in. -/
theorem base_eq (x : Sound origin s) {y : Piece} {d : Int32} {spot : Cursor}
    (hy : y ∈ s.recompiler.cache.pieces s.recompiler.options origin) (h : y.Holds d spot)
    (hlinked : s.AtLinked spot) : spot.offset = y.base ∧ s.cyclesAt spot = d.toInt := by
  obtain ⟨id, b, hb, hoffset⟩ := hlinked
  have hembeds := x.embeds_of_holds hb hy h (hoffset ▸ (x.entries_mem hb).1)
  have hbase : spot.offset = y.base := hoffset.trans hembeds.range.2.2.1
  refine ⟨hbase, ?_⟩
  cases h with
  | inside _ _ _ clock =>
    rw [← clock, Piece.cycles, (x.stocked.fabric x.consistent).register y hy]
    rfl
  | leaving there behind => omega

/-- **The first link that a run takes** finds less of the downcount than the run began with. -/
theorem cycles_lt_of_visits (x : Sound origin s) {id : Nat} {b : Block}
    (hb : s.recompiler.cache.IsValid id b) {m : Machine} (hlow : m.memory.Low)
    (hd : 0 < m.core.downcount.toInt) {spot : Cursor} (h : s.Visits b m spot)
    (hlinked : s.AtLinked spot) : s.cyclesAt spot < m.core.downcount.toInt := by
  obtain ⟨-, y₀, y, d, -, hstands⟩ := x.stands hb hlow h
  obtain ⟨hbase, hcycles⟩ := x.base_eq hstands.mem hstands.holds hlinked
  rw [hcycles]
  rcases hstands.since hd with ⟨-, -, hlt⟩ | ⟨hless, -⟩
  · omega
  · exact hless

/-- **Between two links** that a run takes some of the downcount is used. -/
theorem cycles_lt_of_linked (x : Sound origin s) {id : Nat} {b : Block}
    (hb : s.recompiler.cache.IsValid id b) {m : Machine} (hlow : m.memory.Low)
    {spot spot' : Cursor} (h : s.Visits b m spot) (hlinked : s.AtLinked spot)
    (hsteps : Relation.TransGen (Step s.recompiler.cache.code.words) spot spot')
    (hlinked' : s.AtLinked spot') : s.cyclesAt spot' < s.cyclesAt spot := by
  have fabric := x.stocked.fabric x.consistent
  obtain ⟨hlow', y₀, y, d, -, hstands⟩ := x.stands hb hlow h
  obtain ⟨hbase, hcycles⟩ := x.base_eq hstands.mem hstands.holds hlinked
  obtain ⟨next, hstep, hrest⟩ := Relation.TransGen.head'_iff.mp hsteps
  -- at the entry a run with cycles left goes on behind the test
  obtain ⟨hd, hafter⟩ : 0 < d.toInt ∧ y.Holds d next ∧ y.base < next.offset := by
    obtain ⟨op, hop, hgoes⟩ := fabric.step hstands.mem hstands.holds hlow'
    cases hstep with
    | next hop' hperform =>
      cases hop.symm.trans hop'
      rw [hperform] at hgoes
      refine ⟨(hgoes.2 hbase).1, hgoes.1, ?_⟩
      show y.base < spot.offset + 1
      omega
    | jump hop' hperform =>
      cases hop.symm.trans hop'
      rw [hperform] at hgoes
      have hlt := hgoes.1
      omega
  have hstands' : Stands (s.recompiler.cache.pieces s.recompiler.options origin) y d y d next :=
    ⟨hstands.mem, hafter.1, fun _ => .inl rfl, fun _ => .inl ⟨rfl, rfl, hafter.2⟩⟩
  obtain ⟨-, z, d', hstands''⟩ :=
    fabric.stands_reaches hstands' (hlow'.of_stores hstep.stores) hrest
  obtain ⟨hbase', hcycles'⟩ := x.base_eq hstands''.mem hstands''.holds hlinked'
  rw [hcycles, hcycles']
  rcases hstands''.since hd with ⟨-, -, hlt⟩ | ⟨hless, -⟩
  · omega
  · exact hless

end Keeps

namespace Keeps

/-- What is distrusted stays so. -/
theorem distrusted_of_goesOn (x : Sound origin s) (h : s.GoesOn s') :
    (∃ origin', Sound origin' s') ∧
      ∀ a ∈ s.recompiler.distrusted, a ∈ s'.recompiler.distrusted := by
  induction h with
  | refl => exact ⟨⟨origin, x⟩, fun _ => id⟩
  | tail _ hstep ih =>
    obtain ⟨⟨origin', x'⟩, hkeeps⟩ := ih
    obtain ⟨label, hhappens, hload⟩ := hstep
    obtain ⟨hsound, -, hlearned⟩ := x'.happens hhappens
    exact ⟨⟨_, hsound⟩, fun a ha => hlearned hload a (hkeeps a ha)⟩

/-- **A turn in which a guard fails** makes its address distrusted, which it was not. -/
theorem mismatch_of_failsGuard (x : Sound origin s) (hruns : s.Runs) {a : UInt32}
    (h : s.FailsGuard a) {p : Turn × Session} (hturn : s.turn = .ok p) : s.Mismatch a p := by
  obtain ⟨p', hturn', -, -, hadvances⟩ := x.turn hruns.cycles
  cases hturn.symm.trans hturn'
  rcases hadvances with ⟨-, hnone⟩ | ⟨b, ⟨entry, s₁, m, hentry, hrun⟩, hmismatch⟩
  · exact absurd h (hnone a)
  · obtain ⟨entry', s₁', m', hentry', hrun'⟩ := h
    cases hentry.symm.trans hentry'
    cases hrun.symm.trans hrun'
    exact hmismatch

/-- **A guard fails at an address once**, as long as nothing is loaded. -/
theorem not_failsGuard (x : Sound origin s) (hruns : s.Runs) {a : UInt32} (h : s.FailsGuard a)
    {p : Turn × Session} (hturn : s.turn = .ok p) {s' : Session} (hgoes : p.2.GoesOn s')
    (hruns' : s'.Runs) : ¬ s'.FailsGuard a := by
  intro h'
  have hmismatch := x.mismatch_of_failsGuard hruns h hturn
  obtain ⟨p', hturn', hsound, -⟩ := x.turn hruns.cycles
  cases hturn.symm.trans hturn'
  obtain ⟨⟨origin', x'⟩, hkeeps⟩ := Keeps.distrusted_of_goesOn hsound hgoes
  obtain ⟨p', hturn', -⟩ := x'.turn hruns'.cycles
  refine (x'.mismatch_of_failsGuard hruns' h' hturn').trusted (hkeeps a ?_)
  rw [hmismatch.learned]
  exact Recompiler.mem_insertAddress_iff.mpr (.inl rfl)

end Keeps

end Session

open Session in
/-- **Runs come to an end.**  All that actions come to has a history, turn by turn, and of every
session with a history: a run yields an answer after finitely many turns and steps of native code.
A turn after which the dispatcher goes on lowers the downcount, or a guard failed in it.  In native
code that is entered with cycles left, every link that is taken finds less of them than the entry
before.  A guard fails at an address once at most until something is loaded, and no block at a
distrusted address assumes anything. -/
theorem ends_of_history {options : Options} (hsize : options.Addressable) {r : Recompiler}
    (hr : Recompiler.create options = .ok r) {m₀ : Machine} (hm₀ : m₀.memory.Orderly) :
    (∀ s, Becomes ⟨r, m₀⟩ s → ∃ origin, History ⟨r, m₀⟩ origin s) ∧
    ∀ origin s, History ⟨r, m₀⟩ origin s →
      (∃ p, s.run = .ok p ∧ s.GoesOn p.2) ∧
      (s.Runs → ∃ p, s.turn = .ok p ∧
        (p.1 = .again → p.2.cyclesLeft < s.cyclesLeft ∨ ∃ a, s.FailsGuard a)) ∧
      (∀ id b (m : Machine), s.recompiler.cache.IsValid id b → m.memory.Low →
        0 < m.core.downcount.toInt → ∀ spot, s.Visits b m spot → s.AtLinked spot →
          s.cyclesAt spot < m.core.downcount.toInt ∧
          ∀ spot', Relation.TransGen (Step s.recompiler.cache.code.words) spot spot' →
            s.AtLinked spot' → s.cyclesAt spot' < s.cyclesAt spot) ∧
      (∀ a p s', s.Runs → s.FailsGuard a → s.turn = .ok p → p.2.GoesOn s' → s'.Runs →
        ¬ s'.FailsGuard a) ∧
      ∀ id b, s.recompiler.cache.IsValid id b → b.assumesDefault = true →
        b.start ∉ s.recompiler.distrusted := by
  refine ⟨fun s => History.becomes, fun origin s h => ?_⟩
  obtain ⟨x, -⟩ := h.sound fun origin => (sound_create hr hsize hm₀ origin).1
  refine ⟨?_, fun hruns => ?_, fun id b m hb hlow hd spot hspot hlinked => ⟨?_, ?_⟩,
    fun a p s' hruns hfails hturn hgoes hruns' => ?_, x.trusting⟩
  · obtain ⟨p, hrun, -⟩ := x.run
    exact ⟨p, hrun, goesOn_turns hrun⟩
  · obtain ⟨p, hturn, -, -, hadvances⟩ := x.turn hruns.cycles
    refine ⟨p, hturn, fun hagain => ?_⟩
    rcases hadvances with ⟨hahead, -⟩ | ⟨a, hfails, -⟩
    · exact .inl (hahead.lower hagain)
    · exact .inr ⟨a, hfails⟩
  · exact x.cycles_lt_of_visits hb hlow hd hspot hlinked
  · exact fun spot' hsteps hlinked' => x.cycles_lt_of_linked hb hlow hspot hlinked hsteps hlinked'
  · exact x.not_failsGuard hruns hfails hturn hgoes hruns'

/-- A machine whose two instructions jump to the first. -/
def spinningMachine : Machine :=
  ⟨Core.start 0x1000,
    (Memory.create 0x1000 8).overlay 0 [0x00, 0x04, 0x00, 0x08, 0x00, 0x00, 0x00, 0x00]⟩

namespace Session

/-- A new session of it with five cycles left. -/
def spinningSession : Session :=
  ⟨roomyRecompiler, ⟨{ spinningMachine.core with downcount := 5 }, spinningMachine.memory⟩⟩

/-- Native code goes from the first block to the first block, and does so again. -/
def spins (s : Session) : Bool :=
  s.recompiler.cache.blocks[0]?.any fun b => b.valid &&
    (Host.stepsLater s.recompiler.cache.code.words 3 ⟨b.normalEntry,
      Host.startState s.recompiler.options.downcountInRegister spinningSession.machine,
      spinningSession.machine⟩).any fun spot => spot.offset == b.checkedEntry &&
        (Host.stepsLater s.recompiler.cache.code.words 4 spot).any fun spot' =>
          spot'.offset == b.checkedEntry

/-- The session with a modifier pending. -/
def prefixed (s : Session) : Session :=
  ⟨s.recompiler, ⟨s.machine.core.setModifier .source 0, s.machine.memory⟩⟩

end Session

open Session in
/-- A block that jumps to itself is linked to itself: native code comes through the link again and
again, with less of the downcount.  With a modifier pending its guard fails, once. -/
theorem ends_spinning : ∃ s,
    spinningSession.act (.lower 0x1000 true) = .ok s ∧
      (∃ b spot spot', s.recompiler.cache.IsValid 0 b ∧ s.Visits b spinningSession.machine spot ∧
        s.AtLinked spot ∧ s.AtLinked spot' ∧ s.cyclesAt spot < 5 ∧ s.cyclesAt spot' < s.cyclesAt spot) ∧
      s.prefixed.FailsGuard 0x1000 ∧ (∃ p, s.prefixed.run = .ok p ∧ s.prefixed.GoesOn p.2) ∧
      ∃ p, s.prefixed.turn = .ok p ∧ p.1 = .again ∧
        ∀ s', p.2.GoesOn s' → s'.Runs → ¬ s'.FailsGuard 0x1000 := by
  have horderly : spinningSession.machine.memory.Orderly :=
    ⟨by unfold Memory.Low; decide, by decide, fun r hr => absurd hr (Array.not_mem_empty r)⟩
  have hcreate : Recompiler.create roomySpace = .ok roomyRecompiler := rfl
  obtain ⟨hhistory, hends⟩ := ends_of_history (by decide) hcreate horderly
  have hspins : (spinningSession.act (.lower 0x1000 true)).toOption.any (fun s => s.spins &&
      (s.prefixed.Runs && s.prefixed.FailsGuard 0x1000) &&
      s.prefixed.turn.toOption.any fun p => p.1 == .again) = true := by decide +kernel
  obtain ⟨s, hlower, hspins⟩ := (Option.any_eq_true _ _).mp hspins
  have hlower := ok_of_toOption hlower
  simp only [Bool.and_eq_true, decide_eq_true_eq] at hspins
  obtain ⟨⟨hspins, hruns, hfails⟩, hturn⟩ := hspins
  have hbecomes : Becomes spinningSession s := .single ⟨_, hlower⟩
  refine ⟨s, hlower, ?_, hfails, ?_⟩
  · obtain ⟨origin, h⟩ := hhistory s hbecomes
    obtain ⟨-, -, hlinks, -⟩ := hends origin _ h
    obtain ⟨b, hb, hspins⟩ := (Option.any_eq_true _ _).mp hspins
    obtain ⟨hvalid, hspins⟩ := Bool.and_eq_true_iff.mp hspins
    obtain ⟨spot, hsteps, hspins⟩ := (Option.any_eq_true _ _).mp hspins
    obtain ⟨hoffset, hspins⟩ := Bool.and_eq_true_iff.mp hspins
    obtain ⟨spot', hsteps', hoffset'⟩ := (Option.any_eq_true _ _).mp hspins
    have hlinked : s.AtLinked spot := ⟨0, b, ⟨hb, hvalid⟩, eq_of_beq hoffset⟩
    have hlinked' : s.AtLinked spot' := ⟨0, b, ⟨hb, hvalid⟩, eq_of_beq hoffset'⟩
    have hvisits : s.Visits b spinningSession.machine spot :=
      (Host.transGen_of_stepsLater hsteps).to_reflTransGen
    obtain ⟨hless, hmore⟩ := hlinks 0 b _ ⟨hb, hvalid⟩ horderly.low (by decide) spot hvisits hlinked
    exact ⟨b, spot, spot', ⟨hb, hvalid⟩, hvisits, hlinked, hlinked', hless,
      hmore spot' (Host.transGen_of_stepsLater hsteps') hlinked'⟩
  · obtain ⟨origin, h⟩ := hhistory s.prefixed (hbecomes.tail ⟨.setCore s.prefixed.machine.core, rfl⟩)
    obtain ⟨hrun, -, -, honce, -⟩ := hends origin _ h
    obtain ⟨p, hturn, hagain⟩ := (Option.any_eq_true _ _).mp hturn
    have hturn := ok_of_toOption hturn
    exact ⟨hrun, p, hturn, eq_of_beq hagain, fun s' => honce _ p s' hruns hfails hturn⟩

end Dynarec
