import Dynarec.Proofs.Recompiler.History

/-!
# Compiled code is well formed

A run that enters a valid block decodes words of valid blocks only, jumps inside a block or to the
checked entry of a valid one, and ends at an exit, whatever the state of the guest is
(`Session.Keeps.safeAt`, `Session.Keeps.leaves`).  This holds of every session that actions come to,
so that a run of it fails for want of space at most (`wellFormed_of_becomes`).
-/

namespace Dynarec

open Host

variable {origin : Nat → Memory} {seen : Option (Nat → Memory)} {c : BlockCache} {options : Options}

/-! ### The range of a piece -/

theorem BlockCache.Embeds.range {b : Block} {x : Piece} (h : c.Embeds b x) :
    b.codeStart = x.base ∧ b.codeEnd = x.base + x.ops.length ∧ b.checkedEntry = x.base ∧
      b.normalEntry = x.base + 1 :=
  ⟨congrArg Block.codeStart h.outline,
    (congrArg Block.codeEnd h.outline).trans (Piece.Compiled.codeEnd_eq x),
    congrArg Block.checkedEntry h.outline, congrArg Block.normalEntry h.outline⟩

/-- A run that stands in a piece stands in its code. -/
theorem Piece.Holds.lt_length {x : Piece} {d : Int32} {spot : Cursor} (h : x.Holds d spot) :
    x.base ≤ spot.offset ∧ spot.offset < x.base + x.ops.length := by
  cases h with
  | inside there found =>
    have hlt := (List.getElem?_eq_some_iff.mp found).1
    omega
  | leaving there _ found =>
    have hlt := (List.getElem?_eq_some_iff.mp found).1
    omega

/-- **The block of a piece** that a run stands in. -/
theorem BlockCache.exists_block {x : Piece} (hx : x ∈ c.pieces options origin) {d : Int32}
    {spot : Cursor} (h : x.Holds d spot) : ∃ id b, c.IsValid id b ∧ c.Embeds b x ∧
      b.codeStart ≤ spot.offset ∧ spot.offset < b.codeEnd := by
  obtain ⟨id, b, hb, -, hembeds⟩ := hx
  obtain ⟨hstart, hend, -⟩ := hembeds.range
  refine ⟨id, b, hb, hembeds, ?_⟩
  rw [hstart, hend]
  exact h.lt_length

namespace Session

variable {s : Session}

/-- **Where a run has come** that entered a block with a machine. -/
def Visits (s : Session) (b : Block) (m : Machine) (spot : Cursor) : Prop :=
  Reaches s.recompiler.cache.code.words
    ⟨b.normalEntry, startState s.recompiler.options.downcountInRegister m, m⟩ spot

/-- **The next word of a run is safe**: it is an operation of a valid block, and if it jumps, it
jumps inside the block or to the checked entry of a valid block. -/
def SafeAt (s : Session) (spot : Cursor) : Prop :=
  ∃ id b op, s.recompiler.cache.IsValid id b ∧ b.codeStart ≤ spot.offset ∧ spot.offset < b.codeEnd ∧
    operationAt? s.recompiler.cache.code.words spot.offset = some op ∧
    ∀ target h m, op.perform spot.host spot.machine = .jump target h m →
      b.codeStart ≤ target ∧ target < b.codeEnd ∨
        ∃ id' b', s.recompiler.cache.IsValid id' b' ∧ target = b'.checkedEntry

/-- **A run ends at an exit** when it has enough steps, and not for a word that is no operation. -/
def Leaves (s : Session) (b : Block) (m : Machine) : Prop :=
  ∃ spot op reason h m', s.Visits b m spot ∧
    operationAt? s.recompiler.cache.code.words spot.offset = some op ∧
    op.perform spot.host spot.machine = .exit reason h m' ∧ (∀ offset, reason ≠ .badCode offset) ∧
    ∃ fuel, Host.run s.recompiler.options.downcountInRegister s.recompiler.cache.code.words fuel
      b.normalEntry m = .ok (reason, putBack s.recompiler.options.downcountInRegister h m')

namespace Keeps

/-- **A run that entered a valid block stands in one.** -/
theorem stands (x : SoundBy origin seen s) {id : Nat} {b : Block} (hb : s.recompiler.cache.IsValid id b)
    {m : Machine} (hlow : m.memory.Low) {spot : Cursor} (h : s.Visits b m spot) :
    spot.machine.memory.Low ∧ ∃ y₀ y d, y₀.base + 1 = b.normalEntry ∧
      Stands (s.recompiler.cache.pieces s.recompiler.options origin) y₀ m.core.downcount y d spot := by
  have fabric := x.stocked.fabric x.consistent
  obtain ⟨y₀, hy₀, -, -, hentry⟩ := x.stocked.exists_piece hb
  have hstart := fabric.stands_entry hy₀
    (cycles_startState s.recompiler.options.downcountInRegister m)
  rw [hentry] at hstart
  obtain ⟨hlow', y, d, hstands⟩ := fabric.stands_reaches hstart hlow h
  exact ⟨hlow', y₀, y, d, hentry, hstands⟩

/-- A run that stands in a piece and in the code of a block stands in the piece of the block. -/
theorem embeds_of_holds (x : SoundBy origin seen s) {id : Nat} {b : Block}
    (hb : s.recompiler.cache.IsValid id b) {y : Piece} {d : Int32} {spot : Cursor}
    (hy : y ∈ s.recompiler.cache.pieces s.recompiler.options origin) (h : y.Holds d spot)
    (hin : b.codeStart ≤ spot.offset ∧ spot.offset < b.codeEnd) :
    s.recompiler.cache.Embeds b y := by
  obtain ⟨id', b', hb', hembeds, hin'⟩ := BlockCache.exists_block hy h
  obtain rfl := x.stocked.parted.id_eq hb'.1 hb.1 hin' hin
  exact hb'.unique hb ▸ hembeds

/-- The entries of a valid block are in its code. -/
theorem entries_mem (x : SoundBy origin seen s) {id : Nat} {b : Block}
    (hb : s.recompiler.cache.IsValid id b) :
    (b.codeStart ≤ b.checkedEntry ∧ b.checkedEntry < b.codeEnd) ∧
      b.codeStart ≤ b.normalEntry ∧ b.normalEntry < b.codeEnd := by
  obtain ⟨y, hy, hembeds⟩ := x.stocked.compiled id b hb
  obtain ⟨hstart, hend, hchecked, hnormal⟩ := hembeds.range
  obtain ⟨op, hop, -⟩ := Sketch.next_of_not_final hy.neat y.ops_zero (fun h => h)
  have hlt : 1 < y.ops.length := (List.getElem?_eq_some_iff.mp hop).1
  omega

/-- **Every word that a run comes to is safe.** -/
theorem safeAt (x : SoundBy origin seen s) {id : Nat} {b : Block} (hb : s.recompiler.cache.IsValid id b)
    {m : Machine} (hlow : m.memory.Low) {spot : Cursor} (h : s.Visits b m spot) : s.SafeAt spot := by
  have fabric := x.stocked.fabric x.consistent
  obtain ⟨hlow', y₀, y, d, -, hstands⟩ := x.stands hb hlow h
  obtain ⟨op, hop, hgoes⟩ := fabric.step hstands.mem hstands.holds hlow'
  obtain ⟨id', b', hb', hembeds, hstart, hend⟩ := BlockCache.exists_block hstands.mem hstands.holds
  refine ⟨id', b', op, hb', hstart, hend, hop, fun target h m hperform => ?_⟩
  rw [hperform] at hgoes
  obtain ⟨-, ⟨-, hholds⟩ | ⟨z, ⟨id'', b'', hb'', -, hembeds'⟩, rfl, -⟩⟩ := hgoes
  · obtain ⟨hstart', hend', -⟩ := hembeds.range
    rw [hstart', hend']
    exact .inl hholds.lt_length
  · exact .inr ⟨id'', b'', hb'', hembeds'.range.2.2.1.symm⟩

/-- **Every run that enters a valid block ends at an exit.** -/
theorem leaves (x : SoundBy origin seen s) {id : Nat} {b : Block} (hb : s.recompiler.cache.IsValid id b)
    {m : Machine} (hlow : m.memory.Low) : s.Leaves b m := by
  have fabric := x.stocked.fabric x.consistent
  obtain ⟨y₀, hy₀, -, -, hentry⟩ := x.stocked.exists_piece hb
  have hstart := fabric.stands_entry hy₀
    (cycles_startState s.recompiler.options.downcountInRegister m)
  rw [hentry] at hstart
  have hbudget : Fabric.Budget s.recompiler.cache.code.words.size y₀ m.core.downcount
      ⟨b.normalEntry, startState s.recompiler.options.downcountInRegister m, m⟩
      ((2 ^ 31 + 1) * s.recompiler.cache.code.words.size + 1) := by
    refine .inr ⟨2 ^ 31, fun way _ _ => ?_, ?_⟩
    · have hlt := (m.core.downcount - way.amount.toInt32).toInt_lt
      omega
    · rw [Nat.succ_mul]
      dsimp only
      omega
  obtain ⟨spot, op, reason, h, m', hreach, hop, hperform, hrun⟩ :=
    fabric.handsBack hy₀ hstart.holds hlow hbudget
  obtain ⟨hlow', y, d, hstands⟩ := fabric.stands_reaches hstart hlow hreach
  obtain ⟨op', hop', hgoes⟩ := fabric.step hstands.mem hstands.holds hlow'
  rw [hop, Option.some_inj] at hop'
  rw [← hop', hperform] at hgoes
  refine ⟨spot, op, reason, h, m', hreach, hop, hperform, fun offset => ?_,
    (2 ^ 31 + 1) * s.recompiler.cache.code.words.size + 1, ?_⟩
  · have hends : y.Ends d spot h m' reason := hgoes
    exact hends.ne_badCode offset
  · rw [run_eq, hrun]
    rfl

end Keeps

end Session

open Session in
/-- **Compiled code is well formed.**  Whatever was done with a session, a run that enters a valid
block decodes operations of valid blocks only, jumps inside a block or to the checked entry of a
valid block, and ends at an exit, in every state of the guest.  So a run of the session breaks no
promise and meets no bad code, and the only way in which it fails is that the code space is too
small for a block. -/
theorem wellFormed_of_becomes {options : Options} (hsize : options.Addressable) {r : Recompiler}
    (hr : Recompiler.create options = .ok r) {m₀ : Machine} (hm₀ : m₀.memory.Orderly) {s : Session}
    (h : Becomes ⟨r, m₀⟩ s) :
    (∀ id b (m : Machine), s.recompiler.cache.IsValid id b → m.memory.Low →
      (∀ spot, s.Visits b m spot → s.SafeAt spot) ∧ s.Leaves b m) ∧
    ∃ p, s.run = .ok p ∧ ∀ e, p.1 = .error e → ∃ start, e = .codeSpaceExhausted start := by
  obtain ⟨origin, hhistory⟩ := History.becomes h
  obtain ⟨x, -⟩ := hhistory.sound fun origin => (sound_create hr hsize hm₀ origin).1
  obtain ⟨p, hrun, -, -, hfail⟩ := x.run
  exact ⟨fun id b m hb hlow => ⟨fun spot hat => x.safeAt hb hlow hat, x.leaves hb hlow⟩,
    p, hrun, hfail⟩

open Session in
/-- Two instructions of a memory are compiled. -/
theorem wellFormed_compiled :
    ∃ s, (Session.mk leastRecompiler leastMachine).act (.lower 0x1000 true) = .ok s ∧
      s.recompiler.cache.valid.length = 1 ∧
      (∀ id b, s.recompiler.cache.IsValid id b →
        (∀ spot, s.Visits b leastMachine spot → s.SafeAt spot) ∧ s.Leaves b leastMachine) ∧
      ∃ p, s.run = .ok p := by
  have hmade : ((Session.mk leastRecompiler leastMachine).act (.lower 0x1000 true)).toOption.map
      (fun s => s.recompiler.cache.valid.length) = some 1 := by decide +kernel
  have horderly : leastMachine.memory.Orderly := Memory.orderly_create (by decide)
  cases hact : (Session.mk leastRecompiler leastMachine).act (.lower 0x1000 true) with
  | error v =>
    rw [hact] at hmade
    cases hmade
  | ok s =>
    rw [hact] at hmade
    have hcreate : Recompiler.create leastSpace = .ok leastRecompiler := rfl
    obtain ⟨hcode, p, hrun, -⟩ :=
      wellFormed_of_becomes (by decide) hcreate horderly (.single ⟨_, hact⟩)
    exact ⟨s, rfl, Option.some.inj hmade, fun id b hb => hcode id b leastMachine hb horderly.low,
      p, hrun⟩

end Dynarec
