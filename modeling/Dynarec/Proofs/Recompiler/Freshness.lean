import Dynarec.Proofs.Recompiler.Safety

/-!
# No stale code is entered

The bytes of a valid block are those that it was compiled from, except bytes that lie in a queued
range.  This holds whenever something happened to a session, and at every step of native code
(`Session.Keeps.accounted_of_visits`).  Behind the entry of a block nothing is queued
(`Session.Keeps.calm_of_visits`), so a block whose code was overwritten is never run.
-/

namespace Dynarec

open Host

namespace Session

variable {origin recorded : Nat → Memory} {seen : Option (Nat → Memory)} {s : Session} {id : Nat}
    {b : Block} {m : Machine} {spot : Cursor}

/-- **The bytes of a block are those of another memory.** -/
def Unchanged (b : Block) (compiled memory : Memory) : Prop :=
  ∀ a, b.contains a = true → memory.read8 a = compiled.read8 a

/-- **Every byte of a block is that of another memory, or lies in a queued range.** -/
def Accounted (b : Block) (compiled memory : Memory) : Prop :=
  ∀ a, b.contains a = true → memory.read8 a = compiled.read8 a ∨ memory.Queued a

theorem Accounted.unchanged {compiled memory : Memory} (h : Accounted b compiled memory)
    (hempty : memory.changed = #[]) : Unchanged b compiled memory := fun a ha => by
  refine (h a ha).resolve_right ?_
  rintro ⟨r, hr, -⟩
  rw [hempty] at hr
  exact Array.not_mem_empty r hr

/-- When nothing wants attention nothing is queued. -/
theorem changed_of_calm (h : m.eventPending = false) : m.memory.changed = #[] := by
  rw [Machine.eventPending, Bool.or_eq_false_iff, Bool.or_eq_false_iff, Memory.hasChangedCode,
    Bool.not_eq_false'] at h
  exact Array.isEmpty_iff.mp h.1.2

namespace Keeps

/-- **At every step of a run** the bytes of valid blocks are accounted for. -/
theorem accounted_of_visits (x : SoundBy origin (some recorded) s) {b₀ : Block}
    (h : s.Visits b₀ s.machine spot) (hb : s.recompiler.cache.IsValid id b) :
    Accounted b (recorded id) spot.machine.memory :=
  (x.watched.stores (Reaches.stores h)).fresh id b hb

/-- **Behind the entry of a block nothing wants attention**, if that is so where native code was
entered. -/
theorem calm_of_visits (x : SoundBy origin seen s) {id₀ : Nat} {b₀ : Block}
    (hb₀ : s.recompiler.cache.IsValid id₀ b₀) (hlow : m.memory.Low) (hcalm : m.eventPending = false)
    (h : s.Visits b₀ m spot) (hb : s.recompiler.cache.IsValid id b)
    (hoffset : spot.offset = b.normalEntry) : spot.machine.eventPending = false := by
  have fabric := x.stocked.fabric x.consistent
  -- the piece that a run stands in at the entry of a block is that of the block
  have hpiece : ∀ {y : Piece} {d : Int32},
      y ∈ s.recompiler.cache.pieces s.recompiler.options origin → y.Holds d spot →
        spot.offset = y.base + 1 := fun {y d} hy hholds => by
    have hembeds := x.embeds_of_holds hb hy hholds (hoffset ▸ (x.entries_mem hb).2)
    exact hoffset.trans hembeds.range.2.2.2
  cases h with
  | refl => exact hcalm
  | @tail before _ hreach hstep =>
    obtain ⟨hlow', y₀, y, d, -, hstands⟩ := x.stands hb₀ hlow hreach
    obtain ⟨op, hop, hgoes⟩ := fabric.step hstands.mem hstands.holds hlow'
    cases hstep with
    | next hop' hperform =>
      cases hop.symm.trans hop'
      rw [hperform] at hgoes
      have hbase : before.offset + 1 = y.base + 1 := hpiece hstands.mem hgoes.1
      obtain ⟨-, hsame, hpending⟩ := hgoes.2 (Nat.succ.inj hbase)
      dsimp only
      rw [hsame]
      exact hpending
    | jump hop' hperform =>
      cases hop.symm.trans hop'
      rw [hperform] at hgoes
      obtain ⟨hlt, ⟨hfar, hholds⟩ | ⟨z, hz, rfl, way, hway, hleave, hholds⟩⟩ := hgoes
      · have hbase := hpiece hstands.mem hholds
        dsimp only at hbase
        omega
      · have hbase := hpiece hz hholds
        dsimp only at hbase
        omega

end Keeps

end Session

open Session in
/-- **No stale code is entered.**  All that actions come to has a history, turn by turn, with the
memory that each block was compiled from.  In every session with a history each valid block is what
lowering made of that memory, and a byte of it that is not what it was lies in a queued range.  The
next turn enters the code of a block that starts at the program counter; at every step of it the
same is true, and wherever the body of a block begins its bytes are those that it was compiled from. -/
theorem fresh_of_history {options : Options} (hsize : options.Addressable) {r : Recompiler}
    (hr : Recompiler.create options = .ok r) {m₀ : Machine} (hm₀ : m₀.memory.Orderly) :
    (∀ s, Becomes ⟨r, m₀⟩ s → ∃ origin, History ⟨r, m₀⟩ origin s) ∧
    ∀ origin s, History ⟨r, m₀⟩ origin s →
      (∀ p, s.run = .ok p → s.GoesOn p.2) ∧
      (∀ id b, s.recompiler.cache.IsValid id b →
        Accounted b (origin id) s.machine.memory ∧
        ∃ setting code compiled space, setting.memory.Alike (origin id) ∧
          lowerBlock setting code = (.ok compiled, space) ∧ compiled.outline = b.outline) ∧
      (s.Runs → s.machine.memory.changed = #[] → ∀ entry s',
        s.entry s.machine.core.pc = .ok (.ok entry, s') →
        ∃ id₀ b₀, s'.recompiler.cache.IsValid id₀ b₀ ∧ b₀.start = s.machine.core.pc ∧
          entry = b₀.normalEntry ∧
          ∀ spot, s'.Visits b₀ s'.machine spot → ∀ id b, s'.recompiler.cache.IsValid id b →
            Accounted b (originsAfter origin s s' id) spot.machine.memory ∧
            (spot.offset = b.normalEntry →
              Unchanged b (originsAfter origin s s' id) spot.machine.memory)) := by
  refine ⟨fun s => History.becomes, fun origin s h => ?_⟩
  obtain ⟨x, -⟩ := h.sound fun origin => (sound_create hr hsize hm₀ origin).1
  refine ⟨fun p => goesOn_turns, fun id b hb => ⟨x.watched.fresh id b hb, ?_⟩,
    fun hruns hempty entry s' hentry => ?_⟩
  · obtain ⟨y, hy, hembeds⟩ := x.stocked.compiled id b hb
    obtain ⟨code, -, -, hlower⟩ := hy.lowered
    exact ⟨y.setting, code, y.block, _, hy.source, hlower, hembeds.outline.symm⟩
  · obtain ⟨p, hentry', henters, hsteady, x'⟩ := x.entry s.machine.core.pc
    cases hentry.symm.trans hentry'
    rcases henters with ⟨id₀, b₀, hok, hb₀, hstart⟩ | ⟨e, herror, -⟩
    · cases hok
      have hcalm : s'.machine.eventPending = false := by
        have hcore : s'.machine.core = s.machine.core := hsteady.core
        rw [Machine.eventPending, hcore, hruns.attended, hruns.running, Memory.hasChangedCode,
          hsteady.quiet hempty]
        rfl
      refine ⟨id₀, b₀, hb₀, hstart, rfl, fun spot hspot id b hb => ?_⟩
      have haccounted := Keeps.accounted_of_visits x' hspot hb
      refine ⟨haccounted, fun hoffset => haccounted.unchanged (changed_of_calm ?_)⟩
      exact Keeps.calm_of_visits x' hb₀ x'.low hcalm hspot hb hoffset
    · cases herror

namespace Session

variable {s s' : Session}

/-- A memory that all blocks were compiled from stays so as long as it is not written. -/
theorem originsAfter_const {memory : Memory} (h : s.machine.memory = memory) :
    originsAfter (fun _ => memory) s s' = fun _ => memory := by
  rw [originsAfter]
  split
  · rfl
  · rw [h, Function.update_eq_self]

/-- A new session with two cycles left. -/
def roomySession : Session := ⟨roomyRecompiler, leastSession.machine⟩

/-- A block is compiled, its first instruction is overwritten, and the change is attended to. -/
def rewritten : Except Violation (Session × Session) := do
  let s ← roomySession.act (.lower 0x1000 true)
  let s ← s.act (.store .word 0x1000 0x0D)
  let s' ← s.dropChanged
  return (s, s')

/-- The first block is valid, and its first instruction is another. -/
def overwritten (s : Session) : Bool :=
  s.machine.memory.read8 0x1000 == 0x0D &&
    s.recompiler.cache.blocks[0]?.any fun b => b.valid && b.contains 0x1000

/-- The first block is not entered any more, but a new one. -/
def renews (s : Session) : Bool :=
  s.Runs && s.machine.core.pc == 0x1000 && (s.entry 0x1000).toOption.any fun p =>
    p.1.toOption.isSome && p.2.recompiler.stats.blocksCompiled ==
      s.recompiler.stats.blocksCompiled + 1 &&
      p.2.recompiler.cache.blocks.size == 2 && p.2.recompiler.cache.blocks[0]?.all fun b => !b.valid

end Session

open Session in
/-- A compiled block is overwritten: the byte lies in a queued range, and the block that is entered
next was compiled from what is there. -/
theorem fresh_rewritten :
    ∃ s₁ s₂ entry s', rewritten = .ok (s₁, s₂) ∧
      (∃ b, s₁.recompiler.cache.IsValid 0 b ∧ b.contains 0x1000 = true ∧
        s₁.machine.memory.read8 0x1000 = 0x0D ∧ s₁.machine.memory.Queued 0x1000) ∧
      s₂.entry 0x1000 = .ok (.ok entry, s') ∧
      ∃ b₀, s'.recompiler.cache.IsValid 1 b₀ ∧ b₀.start = 0x1000 ∧ entry = b₀.normalEntry ∧
        ∀ spot, s'.Visits b₀ s'.machine spot → spot.offset = b₀.normalEntry →
          Unchanged b₀ s₂.machine.memory spot.machine.memory := by
  have horderly : roomySession.machine.memory.Orderly := Memory.orderly_create (by decide)
  have hcreate : Recompiler.create roomySpace = .ok roomyRecompiler := rfl
  have hfresh := (fresh_of_history (by decide) hcreate horderly).2
  have hends : rewritten.toOption.any (fun p => p.1.overwritten && p.2.renews) = true := by
    decide +kernel
  obtain ⟨⟨s₁, s₂⟩, hrewritten, hends⟩ := (Option.any_eq_true _ _).mp hends
  have hrewritten := ok_of_toOption hrewritten
  obtain ⟨hover, hrenews⟩ := Bool.and_eq_true_iff.mp hends
  -- what happened to the session
  obtain ⟨s₀, hlower, hrest⟩ := ok_of_bind hrewritten
  obtain ⟨_, hstore, hrest⟩ := ok_of_bind hrest
  obtain ⟨_, hdrop, hrest⟩ := ok_of_bind hrest
  cases hrest
  have hlowers : Action.lower 0x1000 true ≠ .run := by simp
  have hstores : Action.store .word 0x1000 0x0D ≠ .run := by simp
  have h₀ : History roomySession _ s₀ := History.start.step (.act hlowers hlower)
  have h₁ := h₀.step (.act hstores hstore)
  have h₂ := h₁.step (.drop hdrop)
  refine ⟨s₁, s₂, ?_⟩
  -- the block that was compiled from the memory at the start
  have hsame : s₁.recompiler = s₀.recompiler := by
    obtain ⟨memory, -, rfl⟩ := ok_of_map hstore
    rfl
  have horigin : originsAfter (fun _ => roomySession.machine.memory) roomySession s₀ = _ :=
    originsAfter_const rfl
  have hqueued : ∃ b, s₁.recompiler.cache.IsValid 0 b ∧ b.contains 0x1000 = true ∧
      s₁.machine.memory.read8 0x1000 = 0x0D ∧ s₁.machine.memory.Queued 0x1000 := by
    obtain ⟨hread, hblock⟩ := Bool.and_eq_true_iff.mp hover
    obtain ⟨b, hb, hblock⟩ := (Option.any_eq_true _ _).mp hblock
    obtain ⟨hvalid, hin⟩ := Bool.and_eq_true_iff.mp hblock
    have hread := eq_of_beq hread
    refine ⟨b, ⟨hb, hvalid⟩, hin, hread, ?_⟩
    have haccounted := ((hfresh _ _ h₁).2.1 0 b ⟨hb, hvalid⟩).1 0x1000 hin
    rw [horigin, originsAfter_same (by rw [hsame]), hread] at haccounted
    exact haccounted.resolve_left (by decide)
  -- the block that is entered
  simp only [renews, Bool.and_eq_true, decide_eq_true_eq, beq_iff_eq] at hrenews
  obtain ⟨⟨hruns, hpc⟩, hentry⟩ := hrenews
  obtain ⟨⟨result, s'⟩, hentry, hnew⟩ := (Option.any_eq_true _ _).mp hentry
  have hentry := ok_of_toOption hentry
  simp only [Bool.and_eq_true, beq_iff_eq] at hnew
  obtain ⟨⟨⟨hok, hcompiled⟩, hsize⟩, hgone⟩ := hnew
  obtain ⟨entry, hok⟩ := Option.isSome_iff_exists.mp hok
  obtain rfl := ok_of_toOption hok
  have hempty : s₂.machine.memory.changed = #[] := by
    obtain ⟨r, -, hdone⟩ := ok_of_bind hdrop
    cases hdone
    rfl
  obtain ⟨id, b₀, hb₀, hstart, heq, hspots⟩ :=
    (hfresh _ _ h₂).2.2 hruns hempty entry s' (hpc ▸ hentry)
  obtain rfl : id = 1 := by
    have hlt := hb₀.lt_size
    have hne : id ≠ 0 := fun hzero => by
      rw [hzero] at hb₀
      rw [hb₀.1] at hgone
      simp [hb₀.2] at hgone
    omega
  refine ⟨entry, s', hrewritten, hqueued, hentry, b₀, hb₀, hstart.trans hpc, heq,
    fun spot hspot hoffset => ?_⟩
  have hbytes := (hspots spot hspot 1 b₀ hb₀).2 hoffset
  rw [originsAfter_next hcompiled hsize, Function.update_self] at hbytes
  exact hbytes

end Dynarec
