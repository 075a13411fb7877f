import Dynarec.Proofs.Recompiler.History

/-!
# The end of the address space

The address after the last byte of a store has to exist, so that stores fail in a window that
reaches to the end of the address space, and nowhere else (`Memory.stores_complete_iff`).  In a
window that ends eight bytes below it everything that is done with a session completes, and the
bytes of every block are marked, found and dropped (`completes_of_becomes`).
-/

namespace Dynarec

namespace Memory

variable {m : Memory}

/-- **Every store completes** exactly when the window ends below the end of the address space. -/
theorem stores_complete_iff (hwindow : m.base.toNat + m.size ≤ 2 ^ 32) (hsize : 0 < m.size) :
    (∀ address data, ∃ m', m.store address data = .ok m') ↔ m.base.toNat + m.size < 2 ^ 32 := by
  have hbase := m.base.toNat_lt
  constructor
  · intro hall
    -- the last byte of the window
    have hlast : (UInt32.ofNat (m.base.toNat + m.size - 1)).toNat = m.base.toNat + m.size - 1 :=
      UInt32.toNat_ofNat_of_lt' (by
        show _ < 4294967296
        omega)
    have hin : m.contains (UInt32.ofNat (m.base.toNat + m.size - 1)) 1 = true :=
      contains_iff.mpr ⟨by omega, by omega⟩
    by_contra hend
    exact store_ok_iff.mp (hall (UInt32.ofNat (m.base.toNat + m.size - 1)) [0])
      ⟨hin, by rw [hlast, List.length_singleton]; omega⟩
  · intro hend address data
    exact store_ok_iff.mpr (not_breaks hend _)

end Memory

namespace Session

variable {origin : Nat → Memory} {seen : Option (Nat → Memory)} {s : Session}

/-- **Everything that is done with a sound session completes.** -/
theorem Keeps.completes (x : SoundBy origin seen s) (action : Action) :
    ∃ s', s.act action = .ok s' := by
  by_cases hrun : action = .run
  · subst hrun
    obtain ⟨p, hp, -⟩ := x.run
    exact ⟨p.2, by rw [Session.act, hp]; rfl⟩
  · obtain ⟨s', hact, -⟩ := x.act hrun
    exact ⟨s', hact⟩

/-- **Dropping the blocks of a range** drops every block that overlaps it. -/
theorem Keeps.not_isValid_of_overlaps (x : SoundBy origin seen s) {start length : UInt32} {s' : Session}
    (hact : s.act (.invalidate start length) = .ok s') {id : Nat} {b : Block}
    (hb : s.recompiler.cache.IsValid id b)
    (hov : b.overlaps start (BlockCache.rangeEnd start length) = true) (b' : Block) :
    ¬ s'.recompiler.cache.IsValid id b' := by
  intro hb'
  obtain ⟨n, r', hinvalidate, -, ht, hno⟩ := Keeps.invalidate (r := s.recompiler) x start length
  obtain ⟨p, hp, rfl⟩ := ok_of_map hact
  cases hinvalidate.symm.trans hp
  obtain ⟨b₀, hb₀, ho⟩ := ht.fewer id b' hb'
  obtain rfl := hb₀.unique hb
  have hfree := hno id b' hb'
  rw [Block.overlaps, Block.start_eq_of_outline ho, Block.stop_eq_of_outline ho] at hfree
  cases hfree.symm.trans hov

end Session

open Session in
/-- **Away from the end of the address space everything completes.**  A window up to the end of the
address space has stores that fail, and only such a window.  If the window ends eight bytes below
it, everything that is done with a session completes, the bytes of every block are marked as far as
they lie in the window, the block is found at each of them, and dropping a range that overlaps the
block drops it. -/
theorem completes_of_becomes (m : Memory) (hwindow : m.base.toNat + m.size ≤ 2 ^ 32)
    (hpos : 0 < m.size) :
    ((∀ address data, ∃ m', m.store address data = .ok m') ↔ m.base.toNat + m.size < 2 ^ 32) ∧
    (m.Orderly → ∀ (options : Options) (r : Recompiler) (core : Core) (s : Session),
      options.Addressable → Recompiler.create options = .ok r → Becomes ⟨r, ⟨core, m⟩⟩ s →
        (∀ action, ∃ s', s.act action = .ok s') ∧
        ∀ id b, s.recompiler.cache.IsValid id b →
          (∀ a, b.contains a = true → s.recompiler.cache.containing? a = some b ∧
            (a.toNat < s.machine.memory.base.toNat + s.machine.memory.size →
              s.machine.memory.Marked a)) ∧
          ∀ start length s', s.act (.invalidate start length) = .ok s' →
            b.overlaps start (BlockCache.rangeEnd start length) = true →
            ∀ b', ¬ s'.recompiler.cache.IsValid id b') := by
  refine ⟨Memory.stores_complete_iff hwindow hpos, fun horderly options r core s hsize hr h => ?_⟩
  obtain ⟨origin, hhistory⟩ := History.becomes h
  obtain ⟨x, -⟩ := hhistory.sound fun origin => (sound_create hr hsize horderly origin).1
  refine ⟨x.completes, fun id b hb => ⟨fun a ha => ⟨?_, x.watched.marked id b hb a ha⟩,
    fun start length s' hact hov => x.not_isValid_of_overlaps hact hb hov⟩⟩
  exact x.consistent.index.containing?_eq_some_iff.mpr ⟨⟨id, hb⟩, ha⟩

open Session in
/-- The block of two instructions is found at each of its bytes. -/
theorem completes_least :
    ∃ s, (Session.mk leastRecompiler leastMachine).act (.lower 0x1000 true) = .ok s ∧
      s.recompiler.cache.valid.length = 1 ∧ (∀ action, ∃ s', s.act action = .ok s') ∧
      ∀ id b, s.recompiler.cache.IsValid id b → ∀ a, b.contains a = true →
        s.recompiler.cache.containing? a = some b := by
  have hmade : ((Session.mk leastRecompiler leastMachine).act (.lower 0x1000 true)).toOption.map
      (fun s => s.recompiler.cache.valid.length) = some 1 := by decide +kernel
  have horderly : leastMachine.memory.Orderly := Memory.orderly_create (by decide)
  cases hact : (Session.mk leastRecompiler leastMachine).act (.lower 0x1000 true) with
  | error v =>
    rw [hact] at hmade
    cases hmade
  | ok s =>
    rw [hact] at hmade
    obtain ⟨-, hsessions⟩ := completes_of_becomes leastMachine.memory (by decide) (by decide)
    obtain ⟨hcompletes, hblocks⟩ := hsessions horderly leastSpace leastRecompiler leastMachine.core s
      (by decide) rfl (.single ⟨_, hact⟩)
    exact ⟨s, rfl, Option.some.inj hmade, hcompletes, fun id b hb a ha => ((hblocks id b hb).1 a ha).1⟩

/-- In a window up to the end of the address space the last byte cannot be stored. -/
theorem store_last_fails :
    (Memory.create 0xFFFFFFF0 16).contains 0xFFFFFFFF 1 = true ∧
      ((Memory.create 0xFFFFFFF0 16).write8 0xFFFFFFFF 1).toOption.isNone = true := by
  decide +kernel

end Dynarec
