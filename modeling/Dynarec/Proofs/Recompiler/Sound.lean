import Dynarec.Proofs.Guest.Watch
import Dynarec.Proofs.Recompiler.Space
import Dynarec.Proofs.Recompiler.Stock

/-!
# Sound sessions

A session is sound when its cache is consistent and its code is that of compiled blocks, when the
bytes of every valid block are watched, and when no valid block assumes anything at a distrusted
address (`Session.Sound`).  What a session does to its cache and to its memory never breaks a
promise, and leaves it sound.
-/

namespace Dynarec

open Host

namespace BlockCache

variable {c c' : BlockCache} {origin : Nat → Memory} {m m' : Memory}

/-- **The bytes of valid blocks are watched**: those in the window are marked, and one that is not
what it was when the block was compiled lies in a queued range. -/
structure Watched (origin : Nat → Memory) (c : BlockCache) (m : Memory) : Prop where
  orderly : m.Orderly
  window : ∀ id b, c.IsValid id b → (origin id).base = m.base ∧ (origin id).size = m.size
  marked : ∀ id b, c.IsValid id b → ∀ a, b.contains a = true →
    a.toNat < m.base.toNat + m.size → m.Marked a
  fresh : ∀ id b, c.IsValid id b → ∀ a, b.contains a = true →
    m.read8 a = (origin id).read8 a ∨ m.Queued a

/-- **The valid blocks of a cache are some of those of another**, up to links. -/
def Fewer (c c' : BlockCache) : Prop :=
  ∀ id b', c'.IsValid id b' → ∃ b, c.IsValid id b ∧ b'.outline = b.outline

theorem Fewer.refl (c : BlockCache) : Fewer c c := fun _ b hb => ⟨b, hb, rfl⟩

theorem Fewer.trans {c'' : BlockCache} (x : Fewer c c') (y : Fewer c' c'') : Fewer c c'' :=
  fun id b'' hb'' => by
    obtain ⟨b', hb', ho'⟩ := y id b'' hb''
    obtain ⟨b, hb, ho⟩ := x id b' hb'
    exact ⟨b, hb, ho'.trans ho⟩

/-- The bytes of a block are in its outline. -/
theorem contains_of_outline {b b' : Block} (ho : b'.outline = b.outline) (a : UInt32) :
    b'.contains a = b.contains a := by
  rw [Block.contains, Block.contains, Block.start_eq_of_outline ho, Block.stop_eq_of_outline ho]

theorem Watched.fewer (w : Watched origin c m) (x : Fewer c c') : Watched origin c' m where
  orderly := w.orderly
  window id b' hb' := by
    obtain ⟨b, hb, -⟩ := x id b' hb'
    exact w.window id b hb
  marked id b' hb' a ha := by
    obtain ⟨b, hb, ho⟩ := x id b' hb'
    exact w.marked id b hb a (contains_of_outline ho a ▸ ha)
  fresh id b' hb' a ha := by
    obtain ⟨b, hb, ho⟩ := x id b' hb'
    exact w.fresh id b hb a (contains_of_outline ho a ▸ ha)

/-- A byte outside the window reads as zero. -/
theorem read8_of_not_mem {a : UInt32}
    (hout : ¬ (m.base.toNat ≤ a.toNat ∧ a.toNat < m.base.toNat + m.size)) : m.read8 a = 0 := by
  rw [Memory.read8_eq, if_neg hout]

/-- **Stores keep the bytes of code watched.** -/
theorem Watched.stores (w : Watched origin c m) (x : Memory.Stores m m') : Watched origin c m' where
  orderly := x.orderly w.orderly
  window id b hb := by
    obtain ⟨hbase, hsize, -⟩ := x.same
    rw [hbase, hsize]
    exact w.window id b hb
  marked id b hb a ha hin := by
    obtain ⟨hbase, hsize, -⟩ := x.same
    rw [hbase, hsize] at hin
    exact x.marked.mpr (w.marked id b hb a ha hin)
  fresh id b hb a ha := by
    obtain ⟨hbase, hsize, -⟩ := x.same
    by_cases hin : m.base.toNat ≤ a.toNat ∧ a.toNat < m.base.toNat + m.size
    · rcases w.fresh id b hb a ha with hsame | hqueued
      · by_cases heq : m'.read8 a = m.read8 a
        · exact .inl (heq.trans hsame)
        · exact .inr (Memory.Stores.queued_of_read8_ne w.orderly x (w.marked id b hb a ha hin.2) heq)
      · exact .inr (Memory.Stores.queued w.orderly x hqueued)
    · obtain ⟨hbase', hsize'⟩ := w.window id b hb
      refine .inl ?_
      rw [read8_of_not_mem (by rw [hbase, hsize]; exact hin),
        read8_of_not_mem (by rw [hbase', hsize']; exact hin)]

theorem watched_clear (c : BlockCache) (origin : Nat → Memory) (h : m.Orderly) :
    Watched origin c.clear m :=
  ⟨h, fun id b hb => absurd hb (c.not_isValid_clear id b),
    fun id b hb => absurd hb (c.not_isValid_clear id b),
    fun id b hb => absurd hb (c.not_isValid_clear id b)⟩

/-- **A stored block is watched** when its bytes are marked, as long as the cache has lost no others
than it overlaps. -/
theorem Watched.mark (w : Watched origin c m) {n : Nat} {new : Block}
    (hstart : m.base.toNat ≤ new.start.toNat)
    (hvalid : ∀ id b, c'.IsValid id b → (∃ b₀, c.IsValid id b₀ ∧ b.outline = b₀.outline ∧ id ≠ n) ∨
      id = n ∧ b.outline = new.outline) :
    Watched (Function.update origin n m) c' (m.markCode new.start new.stop) := by
  obtain ⟨hbase, hbytes, hchanged, -⟩ := m.markCode_same new.start new.stop
  have halike : m.Alike (m.markCode new.start new.stop) := ⟨hbase, hbytes⟩
  refine ⟨w.orderly.markCode _ _, fun id b hb => ?_, fun id b hb a ha hin => ?_,
    fun id b hb a ha => ?_⟩
  · rw [hbase, halike.size]
    rcases hvalid id b hb with ⟨b₀, hb₀, -, hne⟩ | ⟨rfl, -⟩
    · rw [Function.update_of_ne hne]
      exact w.window id b₀ hb₀
    · rw [Function.update_self]
      exact ⟨rfl, rfl⟩
  · rw [hbase, halike.size] at hin
    rcases hvalid id b hb with ⟨b₀, hb₀, ho, -⟩ | ⟨-, ho⟩
    · exact (w.marked id b₀ hb₀ a (contains_of_outline ho a ▸ ha) hin).markCode _ _
    · rw [contains_of_outline ho, Block.contains, Bool.and_eq_true, decide_eq_true_eq,
        decide_eq_true_eq, UInt32.le_iff_toNat_le, UInt32.lt_iff_toNat_lt] at ha
      exact Memory.marked_markCode w.orderly hstart ha.1 ha.2 hin
  · rw [Memory.read8, halike.read, Memory.Queued, hchanged]
    rcases hvalid id b hb with ⟨b₀, hb₀, ho, hne⟩ | ⟨rfl, -⟩
    · rw [Function.update_of_ne hne]
      exact w.fresh id b₀ hb₀ a (contains_of_outline ho a ▸ ha)
    · rw [Function.update_self]
      exact .inl rfl

/-- The address after a range that lies below the end of the address space. -/
theorem toNat_rangeEnd {start length : UInt32} (h : start.toNat + Nat.max length.toNat 1 < 2 ^ 32) :
    (rangeEnd start length).toNat = start.toNat + Nat.max length.toNat 1 := by
  rw [rangeEnd, if_pos h]
  exact UInt32.toNat_ofNat_of_lt' h

/-- A block ends where the range of its bytes does. -/
theorem rangeEnd_sub {start stop : UInt32} (h : start < stop) :
    rangeEnd start (stop - start) = stop := by
  have hlt := UInt32.lt_iff_toNat_lt.mp h
  have hsub := UInt32.toNat_sub_of_le _ _ (UInt32.le_of_lt h)
  have hmax : Nat.max (stop - start).toNat 1 = stop.toNat - start.toNat := by
    rw [hsub]
    exact Nat.max_eq_left (by omega)
  have hstop := stop.toNat_lt
  refine UInt32.toNat_inj.mp ?_
  rw [toNat_rangeEnd (by rw [hmax]; omega), hmax]
  omega

/-- A block of which a byte lies in a range overlaps the range. -/
theorem overlaps_of_covers {b : Block} {r : ChangedRange} {a : UInt32} (ha : b.contains a = true)
    (hr : r.Covers a) : b.overlaps r.start (rangeEnd r.start r.length) = true := by
  rw [Block.contains, Bool.and_eq_true, decide_eq_true_eq, decide_eq_true_eq,
    UInt32.le_iff_toNat_le, UInt32.lt_iff_toNat_lt] at ha
  obtain ⟨hlow, hhigh⟩ := hr
  have hmax : Nat.max r.length.toNat 1 = r.length.toNat := Nat.max_eq_left (by omega)
  have hend : a.toNat < (rangeEnd r.start r.length).toNat := by
    by_cases hsmall : r.start.toNat + Nat.max r.length.toNat 1 < 2 ^ 32
    · rw [toNat_rangeEnd hsmall, hmax]
      exact hhigh
    · -- a block ends at the last address at most
      have hstop := b.stop.toNat_lt
      rw [rangeEnd, if_neg hsmall]
      show a.toNat < 4294967295
      omega
  rw [Block.overlaps, Bool.and_eq_true, decide_eq_true_eq, decide_eq_true_eq,
    UInt32.lt_iff_toNat_lt, UInt32.lt_iff_toNat_lt]
  omega

end BlockCache

/-! ### Dropping blocks -/

/-- **A recompiler that only lost blocks.**  Words from `free` on were not changed. -/
structure Recompiler.Trims (free : Nat) (r r' : Recompiler) : Prop where
  options : r'.options = r.options
  assumes : r'.assumesDefault = r.assumesDefault
  distrusted : r'.distrusted = r.distrusted
  compiled : r'.stats.blocksCompiled = r.stats.blocksCompiled
  mismatches : r'.stats.modifierMismatches = r.stats.modifierMismatches
  size : r'.cache.blocks.size = r.cache.blocks.size
  space : r.cache.SameSpace r'.cache
  word : ∀ p, free ≤ p → r'.cache.code.word? p = r.cache.code.word? p
  fewer : r.cache.Fewer r'.cache

namespace Recompiler.Trims

variable {free : Nat} {r r' r'' : Recompiler}

theorem refl (r : Recompiler) : Trims free r r :=
  ⟨rfl, rfl, rfl, rfl, rfl, rfl, .refl _, fun _ _ => rfl, .refl _⟩

theorem trans (x : Trims free r r') (y : Trims free r' r'') : Trims free r r'' :=
  ⟨y.options.trans x.options, y.assumes.trans x.assumes, y.distrusted.trans x.distrusted,
    y.compiled.trans x.compiled, y.mismatches.trans x.mismatches, y.size.trans x.size,
    x.space.trans y.space, fun p hp => (y.word p hp).trans (x.word p hp), x.fewer.trans y.fewer⟩

end Recompiler.Trims

/-- What the block at an address is compiled from. -/
def Recompiler.settingAt (r : Recompiler) (memory : Memory) (address : UInt32)
    (entry : EntryAssumption) : Setting :=
  ⟨memory, r.options, address, entry, r.cache.nextStartAfter? address⟩

/-- Nothing is assumed at a distrusted address. -/
theorem Recompiler.not_mem_of_entryAssumption {r : Recompiler} {address : UInt32} {allowed : Bool}
    (h : r.entryAssumption address allowed = .noModifiers) : address ∉ r.distrusted := by
  rw [Recompiler.entryAssumption] at h
  split at h
  · rename_i hassumes
    rw [Bool.and_eq_true, Bool.not_eq_true'] at hassumes
    exact fun hmem => by rw [List.contains_iff_mem.mpr hmem] at hassumes; cases hassumes.2
  · cases h

namespace Session

variable {origin recorded : Nat → Memory} {seen : Option (Nat → Memory)} {free : Nat}
  {s s' : Session} {r : Recompiler} {m : Machine}

/-- **What a sound session keeps**, if its stored blocks lie in front of `free`.  The memory that
the block of a number was compiled from is its `origin`.  The bytes of blocks are watched against
the memories that were `seen`, if there are such. -/
structure Keeps (origin : Nat → Memory) (seen : Option (Nat → Memory)) (free : Nat) (s : Session) :
    Prop where
  consistent : s.recompiler.cache.Consistent
  stocked : BlockCache.Stocked s.recompiler.options origin free s.recompiler.cache
  low : s.machine.memory.Low
  watches : ∀ recorded ∈ seen, s.recompiler.cache.Watched recorded s.machine.memory
  /-- A distrusted address has no block that assumes anything. -/
  trusting : ∀ id b, s.recompiler.cache.IsValid id b → b.assumesDefault = true →
    b.start ∉ s.recompiler.distrusted

/-- **A sound session**, whose blocks are watched against memories that were seen. -/
abbrev SoundBy (origin : Nat → Memory) (seen : Option (Nat → Memory)) (s : Session) : Prop :=
  Keeps origin seen s.recompiler.cache.code.offset s

/-- **A sound session**, whose blocks are watched against what they were compiled from. -/
abbrev Sound (origin : Nat → Memory) (s : Session) : Prop := SoundBy origin (some origin) s

namespace Keeps

theorem watched (x : Keeps origin (some recorded) free s) :
    s.recompiler.cache.Watched recorded s.machine.memory := x.watches recorded rfl

theorem orderly (x : Keeps origin (some recorded) free s) : s.machine.memory.Orderly :=
  x.watched.orderly

/-- **A session that nothing is watched in** is sound with any memory. -/
theorem unwatched (x : Keeps origin seen free ⟨r, m⟩) {m' : Machine} (hm : m'.memory.Low) :
    Keeps origin none free ⟨r, m'⟩ :=
  ⟨x.consistent, x.stocked, hm, nofun, x.trusting⟩

/-- **Dropping the blocks of a range.**  No block is left that shares a byte with it. -/
theorem invalidate (x : Keeps origin seen free ⟨r, m⟩) (start length : UInt32) :
    ∃ n r', r.invalidate start length = .ok (n, r') ∧ Keeps origin seen free ⟨r', m⟩ ∧
      Recompiler.Trims free r r' ∧ ∀ id b, r'.cache.IsValid id b →
        b.overlaps start (BlockCache.rangeEnd start length) = false := by
  obtain ⟨n, c', hinvalidate, hc', hstocked, hspace, hsize, hword, hleft⟩ :=
    x.stocked.invalidate x.consistent start length
  have hfewer : r.cache.Fewer c' := fun id b' hb' => by
    obtain ⟨b, hb, ho, -⟩ := hleft id b' hb'
    exact ⟨b, hb, ho⟩
  refine ⟨n, Recompiler.count { r with cache := c' } fun stats =>
    { stats with blocksInvalidated := stats.blocksInvalidated + n }, ?_, ⟨hc', hstocked, x.low,
    fun f hf => (x.watches f hf).fewer hfewer, fun id b' hb' hassumes => ?_⟩,
    ⟨rfl, rfl, rfl, rfl, rfl, hsize, hspace, hword, hfewer⟩, fun id b' hb' => ?_⟩
  · rw [Recompiler.invalidate, hinvalidate]
    rfl
  · obtain ⟨b, hb, ho⟩ := hfewer id b' hb'
    rw [Block.start_eq_of_outline ho]
    exact x.trusting id b hb ((congrArg Block.assumesDefault ho).symm.trans hassumes)
  · obtain ⟨b, -, ho, hno⟩ := hleft id b' hb'
    rw [Block.overlaps, Block.start_eq_of_outline ho, Block.stop_eq_of_outline ho]
    exact hno

/-- **Dropping the blocks of several ranges.** -/
theorem invalidateAll (x : Keeps origin seen free ⟨r, m⟩) (ranges : List ChangedRange) :
    ∃ r', r.invalidateAll ranges = .ok r' ∧ Keeps origin seen free ⟨r', m⟩ ∧
      Recompiler.Trims free r r' ∧ ∀ id b, r'.cache.IsValid id b → ∀ range ∈ ranges,
        b.overlaps range.start (BlockCache.rangeEnd range.start range.length) = false := by
  induction ranges generalizing r with
  | nil => exact ⟨r, rfl, x, .refl r, fun _ _ _ _ h => absurd h List.not_mem_nil⟩
  | cons range rest ih =>
    obtain ⟨n, r₁, hone, x₁, ht₁, hno₁⟩ := x.invalidate range.start range.length
    obtain ⟨r₂, hrest, x₂, ht₂, hno₂⟩ := ih x₁
    refine ⟨r₂, ?_, x₂, ht₁.trans ht₂, fun id b hb range' hmem => ?_⟩
    · rw [Recompiler.invalidateAll, hone]
      exact hrest
    · rcases List.mem_cons.mp hmem with rfl | hmem
      · obtain ⟨b₁, hb₁, ho⟩ := ht₂.fewer id b hb
        rw [Block.overlaps, Block.start_eq_of_outline ho, Block.stop_eq_of_outline ho]
        exact hno₁ id b₁ hb₁
      · exact hno₂ id b hb range' hmem

/-- **Splitting at an address.** -/
theorem split (x : Keeps origin seen free ⟨r, m⟩) (address : UInt32) :
    ∃ r', r.split address = .ok r' ∧ Keeps origin seen free ⟨r', m⟩ ∧ Recompiler.Trims free r r' := by
  rw [Recompiler.split]
  cases r.cache.containing? address with
  | none => exact ⟨r, rfl, x, .refl r⟩
  | some block =>
    obtain ⟨n, r', hinvalidate, x', ht, -⟩ := x.invalidate block.start (block.stop - block.start)
    refine ⟨r', ?_, x', ht⟩
    dsimp only
    rw [hinvalidate]
    rfl

/-- **Dropping the blocks whose code was overwritten** empties the queue. -/
theorem dropChanged (x : Keeps origin seen free s) :
    ∃ s', s.dropChanged = .ok s' ∧ Keeps origin seen free s' ∧
      Recompiler.Trims free s.recompiler s'.recompiler ∧
      s'.machine = ⟨s.machine.core, s.machine.memory.takeChangedCode.2⟩ := by
  obtain ⟨r, ⟨core, memory⟩⟩ := s
  obtain ⟨r', hdrop, x', ht, hno⟩ := x.invalidateAll memory.takeChangedCode.1
  refine ⟨⟨r', ⟨core, memory.takeChangedCode.2⟩⟩, ?_, ⟨x'.consistent, x'.stocked, x.low,
    fun f hf => ⟨(x.watches f hf).orderly.takeChangedCode, (x'.watches f hf).window,
    (x'.watches f hf).marked,
      fun id b hb a ha => ?_⟩, x'.trusting⟩, ht, rfl⟩
  · rw [Session.dropChanged]
    dsimp only
    rw [hdrop]
    rfl
  · -- a byte that is not what it was lies in a range whose blocks were dropped
    refine .inl (((x'.watches f hf).fresh id b hb a ha).resolve_right ?_)
    rintro ⟨range, hrange, hcovers⟩
    have hov := BlockCache.overlaps_of_covers ha hcovers
    rw [hno id b hb range (Array.mem_toList_iff.mpr hrange)] at hov
    cases hov

/-! ### Storing and clearing -/

/-- **Stores to memory keep a session sound.** -/
theorem stores (x : Keeps origin seen free ⟨r, m⟩) (m' : Machine)
    (hstores : Memory.Stores m.memory m'.memory) : Keeps origin seen free ⟨r, m'⟩ :=
  ⟨x.consistent, x.stocked, x.low.of_stores hstores,
    fun f hf => (x.watches f hf).stores hstores, x.trusting⟩

/-- What was counted does not matter. -/
theorem count (x : Keeps origin seen free ⟨r, m⟩) (f : Statistics → Statistics) :
    Keeps origin seen free ⟨r.count f, m⟩ :=
  ⟨x.consistent, x.stocked, x.low, x.watches, x.trusting⟩

/-- **Clearing.** -/
theorem clear (x : Keeps origin seen free s) : SoundBy origin seen s.clear := by
  have hempty : s.clear.recompiler.cache.code.offset = 0 := BlockCache.offset_clear _
  rw [SoundBy, hempty]
  exact ⟨BlockCache.consistent_clear _, x.stocked.clear origin, x.low,
    fun f hf => BlockCache.watched_clear _ _ (x.watches f hf).orderly.clearCodeMarks,
    fun id b hb => absurd hb (BlockCache.not_isValid_clear _ id b)⟩

end Keeps

/-! ### Making blocks -/

/-- **What making a block leaves alone**: what the guest sees of its memory, its core, and what was
learned.  An empty queue stays empty. -/
structure Steady (s s' : Session) : Prop where
  options : s'.recompiler.options = s.recompiler.options
  assumes : s'.recompiler.assumesDefault = s.recompiler.assumesDefault
  distrusted : s'.recompiler.distrusted = s.recompiler.distrusted
  mismatches : s'.recompiler.stats.modifierMismatches = s.recompiler.stats.modifierMismatches
  core : s'.machine.core = s.machine.core
  memory : s.machine.memory.Alike s'.machine.memory
  quiet : s.machine.memory.changed = #[] → s'.machine.memory.changed = #[]

namespace Steady

theorem refl (s : Session) : Steady s s := ⟨rfl, rfl, rfl, rfl, rfl, .refl _, id⟩

theorem trans {s'' : Session} (x : Steady s s') (y : Steady s' s'') : Steady s s'' :=
  ⟨y.options.trans x.options, y.assumes.trans x.assumes, y.distrusted.trans x.distrusted,
    y.mismatches.trans x.mismatches, y.core.trans x.core, x.memory.trans y.memory, y.quiet ∘ x.quiet⟩

theorem clear (s : Session) : Steady s s.clear :=
  ⟨rfl, rfl, rfl, rfl, rfl, ⟨rfl, rfl⟩, fun _ => rfl⟩

theorem of_trims {r' : Recompiler} (x : Recompiler.Trims free r r') : Steady ⟨r, m⟩ ⟨r', m⟩ :=
  ⟨x.options, x.assumes, x.distrusted, x.mismatches, rfl, .refl _, id⟩

end Steady

/-- **The code of a block was appended** to a session that is sound without it. -/
structure Appended (origin : Nat → Memory) (seen : Option (Nat → Memory)) (address : UInt32)
    (entry : EntryAssumption) (x : Piece) (s : Session) : Prop where
  keeps : Keeps origin seen x.base s
  compiled : x.Compiled s.recompiler.options s.machine.memory
  start : x.setting.start = address
  entry : x.setting.entry = entry
  word : ∀ i op, x.ops[i]? = some op →
    s.recompiler.cache.code.word? (x.base + i) = some op.encode
  last : x.block.codeEnd = s.recompiler.cache.code.offset

/-- **How appending a block ends**: the block is refused, or its code was appended. -/
def AppendsTo (origin : Nat → Memory) (seen : Option (Nat → Memory)) (address : UInt32)
    (entry : EntryAssumption) (p : Except Failure Block × Session) : Prop :=
  (∃ e, p.1 = .error e ∧ Lowering.Refuses address e ∧ SoundBy origin seen p.2) ∨
    ∃ x : Piece, p.1 = .ok x.block ∧ Appended origin seen address entry x p.2

namespace Keeps

/-- **Code was appended behind the stored blocks**, or none was. -/
theorem grow (x : Keeps origin seen free ⟨r, m⟩) {code : CodeSpace}
    (hcode : BlockCache.CodeExtends r.cache.code code) (hclean : code.Clean)
    (hfits : code.offset ≤ code.capacity) (hcapacity : code.capacity = r.cache.code.capacity) :
    Keeps origin seen free ⟨{ r with cache := { r.cache with code := code } }, m⟩ :=
  ⟨x.consistent.grow hcode, x.stocked.grow hcode hclean hfits hcapacity, x.low,
    fun f hf => (x.watches f hf).fewer fun _ b hb => ⟨b, hb, rfl⟩, x.trusting⟩

/-- What an attempt is made of. -/
theorem attempt_eq (r : Recompiler) (m : Machine) (address : UInt32) (entry : EntryAssumption) :
    Session.attempt ⟨r, m⟩ address entry = ((lowerBlock
      (r.settingAt m.memory address entry) r.cache.code).1, ⟨{ r with cache := { r.cache with
        code := (lowerBlock (r.settingAt m.memory address entry) r.cache.code).2 } }, m⟩) := rfl

/-- **An attempt that is refused** emits nothing. -/
theorem attempt_refused (x : SoundBy origin seen ⟨r, m⟩) {address : UInt32} {entry : EntryAssumption}
    (hwords : (lowerBlock (r.settingAt m.memory address entry) r.cache.code).2.words =
      r.cache.code.words) :
    SoundBy origin seen (Session.attempt ⟨r, m⟩ address entry).2 := by
  obtain ⟨hclean', hcapacity⟩ := clean_lowerBlock
    (Prod.mk.eta.symm : lowerBlock (r.settingAt m.memory address entry) r.cache.code = (_, _))
  have hoffset : (lowerBlock (r.settingAt m.memory address entry) r.cache.code).2.offset =
      r.cache.code.offset := congrArg Array.size hwords
  rw [attempt_eq]
  show Keeps origin seen (lowerBlock (r.settingAt m.memory address entry) r.cache.code).2.offset _
  rw [hoffset]
  refine x.grow ⟨hoffset.ge, fun k _ => congrArg (·[k]?) hwords⟩ hclean' ?_ hcapacity
  rw [hoffset, hcapacity]
  exact x.stocked.fits

/-- **An attempt that succeeds** appends the code of a piece. -/
theorem attempt_appended (x : SoundBy origin seen ⟨r, m⟩) {address : UInt32} {entry : EntryAssumption}
    {y : Piece} (hsetting : y.setting = r.settingAt m.memory address entry)
    (hbase : y.base = r.cache.code.offset) (hy : y.Compiled r.options m.memory)
    (hlower : lowerBlock (r.settingAt m.memory address entry) r.cache.code =
      (.ok y.block, r.cache.code.extend y.ops))
    (hfits : r.cache.code.offset + y.ops.length ≤ r.cache.code.capacity) :
    (Session.attempt ⟨r, m⟩ address entry).1 = .ok y.block ∧
      Appended origin seen address entry y (Session.attempt ⟨r, m⟩ address entry).2 := by
  obtain ⟨hclean', hcapacity⟩ := clean_lowerBlock hlower
  rw [attempt_eq, hlower]
  have hword : ∀ i op, y.ops[i]? = some op →
      (r.cache.code.extend y.ops).word? (y.base + i) = some op.encode := fun i op hop => by
    show (r.cache.code.words ++ (y.ops.map Operation.encode).toArray)[y.base + i]? = _
    rw [hbase, CodeSpace.offset, Array.getElem?_append_right (Nat.le_add_right _ _),
      Nat.add_sub_cancel_left, List.getElem?_toArray, List.getElem?_map, hop]
    rfl
  refine ⟨rfl, ?_, hy, congrArg Setting.start hsetting, congrArg Setting.entry hsetting, hword, ?_⟩
  · rw [hbase]
    refine x.grow (BlockCache.codeExtends_extend _ _) hclean' ?_ hcapacity
    rw [CodeSpace.offset_extend, hcapacity]
    exact hfits
  · rw [Piece.Compiled.codeEnd_eq, hbase]
    exact (CodeSpace.offset_extend _ _).symm

/-- **One attempt.** -/
theorem attempt (x : SoundBy origin seen s) (address : UInt32) (entry : EntryAssumption) :
    AppendsTo origin seen address entry (s.attempt address entry) ∧
      Steady s (s.attempt address entry).2 ∧
      (s.attempt address entry).2.recompiler.stats.blocksCompiled =
        s.recompiler.stats.blocksCompiled := by
  obtain ⟨r, m⟩ := s
  refine ⟨?_, ⟨rfl, rfl, rfl, rfl, rfl, .refl _, id⟩, rfl⟩
  have hlow : (r.settingAt m.memory address entry).memory.Low := x.low
  rcases lowerBlock_cases hlow x.stocked.clean x.stocked.fits with
    ⟨e, hrefuses, herror, hwords⟩ | ⟨y, hsetting, hbase, hy, hlower, hfits⟩
  · exact .inl ⟨e, herror, hrefuses, x.attempt_refused hwords⟩
  · exact .inr ⟨y, x.attempt_appended hsetting hbase hy hlower hfits⟩

/-- **Appending a block**, with a second attempt when the code space ran out. -/
theorem append (x : SoundBy origin seen s) (address : UInt32) (entry : EntryAssumption) :
    AppendsTo origin seen address entry (s.append address entry) ∧
      Steady s (s.append address entry).2 ∧
      (s.append address entry).2.recompiler.stats.blocksCompiled =
        s.recompiler.stats.blocksCompiled := by
  obtain ⟨hone, hsteady, hcount⟩ := x.attempt address entry
  rcases append_cases s address entry with ⟨heq, -⟩ | heq
  · rw [heq]
    exact ⟨hone, hsteady, hcount⟩
  · rw [heq]
    have hcleared : SoundBy origin seen (s.attempt address entry).2.clear := by
      rcases hone with ⟨-, -, -, hsound⟩ | ⟨y, -, happended⟩
      · exact hsound.clear
      · exact happended.keeps.clear
    obtain ⟨htwo, hsteady', hcount'⟩ := hcleared.attempt address entry
    exact ⟨htwo, (hsteady.trans (.clear _)).trans hsteady', hcount'.trans hcount⟩

end Keeps

/-- **Storing a block that was appended.**  Its bytes are marked, and are those that it was compiled
from. -/
theorem Appended.insert {address : UInt32} {entry : EntryAssumption} {y : Piece}
    (x : Appended origin seen address entry y s)
    (htrust : entry = .noModifiers → address ∉ s.recompiler.distrusted) :
    ∃ id s', s.insert y.block = .ok (id, s') ∧ s'.recompiler.cache.blocks.size = id + 1 ∧
      SoundBy (Function.update origin id s.machine.memory)
        (seen.map fun f => Function.update f id s.machine.memory) s' ∧ Steady s s' ∧
      s'.recompiler.stats.blocksCompiled = s.recompiler.stats.blocksCompiled + 1 ∧
      ∃ b, s'.recompiler.cache.IsValid id b ∧ b.start = address := by
  obtain ⟨r, ⟨core, memory⟩⟩ := s
  have hy : y.Compiled r.options memory := x.compiled
  obtain ⟨hbase, -, hlt, hstop⟩ := hy.covers.bounds x.keeps.low
  have hlt' : y.block.start < y.block.stop := UInt32.lt_iff_toNat_lt.mpr hlt
  -- the blocks that it overlaps go first
  obtain ⟨n, r₁, hinvalidate, x₁, ht, hno⟩ :=
    x.keeps.invalidate y.block.start (y.block.stop - y.block.start)
  rw [BlockCache.rangeEnd_sub hlt'] at hno
  have hword : ∀ i op, y.ops[i]? = some op → r₁.cache.code.word? (y.base + i) = some op.encode :=
    fun i op hop => (ht.word _ (Nat.le_add_right _ _)).trans (x.word i op hop)
  have hy₁ : y.Compiled r₁.options memory := ht.options ▸ hy
  -- then it is stored behind the others
  have hadmits := x₁.stocked.admits hy₁ hword hno
  obtain ⟨c, hinsert, hconsistent, hre⟩ := x₁.consistent.insert hadmits
  have hspace := BlockCache.sameSpace_insert hinsert
  have hlast : y.block.codeEnd = r₁.cache.code.offset := x.last.trans ht.space.offset.symm
  have hstored : (r₁.cache.store y.block).SameSpace c :=
    (BlockCache.SameSpace.of_code rfl rfl : (r₁.cache.store y.block).SameSpace r₁.cache).trans hspace
  have hstocked := (x₁.stocked.store hy₁ hword hlast).relinked hre hstored
  have hsize : c.blocks.size = r₁.cache.blocks.size + 1 := hre.size_blocks.trans (Array.size_push _)
  obtain ⟨hmbase, hmbytes, hmchanged, -⟩ := memory.markCode_same y.block.start y.block.stop
  have hvalid : ∀ id b, c.IsValid id b → (∃ b₀, r₁.cache.IsValid id b₀ ∧
      b.outline = b₀.outline ∧ id ≠ r₁.cache.blocks.size) ∨
        id = r₁.cache.blocks.size ∧ b.outline = y.block.outline := fun id b hb => by
    obtain ⟨b₀, hb₀, ho⟩ := hre.isValid_rev hb
    rcases BlockCache.isValid_store_iff.mp hb₀ with hb₀ | ⟨rfl, rfl⟩
    · exact .inl ⟨b₀, hb₀, ho.symm, hb₀.lt_size.ne⟩
    · exact .inr ⟨rfl, ho.symm.trans (Block.outline_fresh rfl)⟩
  refine ⟨r₁.cache.blocks.size, ⟨Recompiler.count { r₁ with cache := c } fun stats =>
    { stats with blocksCompiled := stats.blocksCompiled + 1 },
      ⟨core, memory.markCode y.block.start y.block.stop⟩⟩, ?_, hsize, ⟨hconsistent, ?_,
      (⟨hmbase, hmbytes⟩ : memory.Alike _).low x.keeps.low, fun f hf => ?_, fun id b hb hassumes => ?_⟩,
    ⟨ht.options, ht.assumes, ht.distrusted, ht.mismatches, rfl, ⟨hmbase, hmbytes⟩, fun h =>
      hmchanged.trans h⟩,
    congrArg (· + 1) ht.compiled, ?_⟩
  · rw [Session.insert]
    dsimp only
    rw [Recompiler.insert, if_neg (UInt32.not_lt.mpr (UInt32.le_of_lt hlt')), hinvalidate]
    dsimp only [bind, Except.bind]
    rw [hinsert]
    rfl
  · show BlockCache.Stocked r₁.options _ c.code.offset c
    rw [hspace.offset, ← hlast]
    exact hstocked
  · obtain ⟨f, hf', rfl⟩ := Option.map_eq_some_iff.mp hf
    exact (x₁.watches f hf').mark hbase hvalid
  · show b.start ∉ r₁.distrusted
    rw [ht.distrusted]
    rcases hvalid id b hb with ⟨b₀, hb₀, ho, -⟩ | ⟨-, ho⟩
    · rw [Block.start_eq_of_outline ho, ← ht.distrusted]
      exact x₁.trusting id b₀ hb₀ ((congrArg Block.assumesDefault ho).symm.trans hassumes)
    · have hassumes' : decide (y.setting.entry = .noModifiers) = true :=
        (congrArg Block.assumesDefault ho).symm.trans hassumes
      rw [Block.start_eq_of_outline ho]
      show y.setting.start ∉ r.distrusted
      rw [x.start]
      exact htrust (x.entry.symm.trans (of_decide_eq_true hassumes'))
  · obtain ⟨b', hb', ho⟩ := hre.isValid (BlockCache.isValid_store_iff.mpr (.inr ⟨rfl, rfl⟩))
    exact ⟨b', hb', (Block.start_eq_of_outline ho).trans x.start⟩

/-! ### Finding or making a block -/

/-- **The memories that blocks were compiled from**, after something happened to a session.  A block
that was made has the last number, and was compiled from the memory in front of what happened. -/
def originsAfter (origin : Nat → Memory) (s s' : Session) : Nat → Memory :=
  if s'.recompiler.stats.blocksCompiled = s.recompiler.stats.blocksCompiled then origin
  else Function.update origin (s'.recompiler.cache.blocks.size - 1) s.machine.memory

theorem originsAfter_same (h : s'.recompiler.stats.blocksCompiled =
    s.recompiler.stats.blocksCompiled) : originsAfter origin s s' = origin := if_pos h

theorem originsAfter_next {id : Nat} (h : s'.recompiler.stats.blocksCompiled =
    s.recompiler.stats.blocksCompiled + 1) (hsize : s'.recompiler.cache.blocks.size = id + 1) :
    originsAfter origin s s' = Function.update origin id s.machine.memory := by
  rw [originsAfter, if_neg (by omega), hsize, Nat.add_sub_cancel]

/-- **A session that is sound after something happened.** -/
abbrev SoundAfter (origin : Nat → Memory) (seen : Option (Nat → Memory)) (s s' : Session) : Prop :=
  SoundBy (originsAfter origin s s') (seen.map fun f => originsAfter f s s') s'

theorem Keeps.of_same (x : SoundBy origin seen s') (h : s'.recompiler.stats.blocksCompiled =
    s.recompiler.stats.blocksCompiled) : SoundAfter origin seen s s' := by
  have hsame : (fun f : Nat → Memory => originsAfter f s s') = id :=
    funext fun f => originsAfter_same h
  rw [SoundAfter, originsAfter_same h, hsame, Option.map_id]
  exact x

/-- Memories with the same bytes will do. -/
theorem Keeps.alike {origin' : Nat → Memory} {seen' : Option (Nat → Memory)}
    (x : SoundBy origin seen s) (horigin : ∀ i, (origin i).Alike (origin' i))
    (hseen : ∀ f' ∈ seen', ∃ f ∈ seen, ∀ i, (f i).Alike (f' i)) : SoundBy origin' seen' s := by
  refine ⟨x.consistent, ⟨x.stocked.parted, x.stocked.clean, x.stocked.free_le, x.stocked.fits,
    x.stocked.small, x.stocked.linking, fun i b hb => ?_⟩, x.low, fun f' hf' => ?_, x.trusting⟩
  · obtain ⟨y, hy, hembeds⟩ := x.stocked.compiled i b hb
    exact ⟨y, hy.alike (horigin i), hembeds⟩
  · obtain ⟨f, hf, hsame⟩ := hseen f' hf'
    have hwatched := x.watches f hf
    refine ⟨hwatched.orderly, fun i b hb => ?_, hwatched.marked, fun i b hb a ha => ?_⟩
    · obtain ⟨hbase, hsize⟩ := hwatched.window i b hb
      rw [(hsame i).base, (hsame i).size]
      exact ⟨hbase, hsize⟩
    · rw [Memory.read8, Memory.read8, (hsame i).read]
      exact hwatched.fresh i b hb a ha

theorem alike_update {m m' : Memory} (halike : m.Alike m') (f : Nat → Memory) (id i : Nat) :
    (Function.update f id m i).Alike (Function.update f id m' i) := by
  by_cases hi : i = id
  · subst hi
    rw [Function.update_self, Function.update_self]
    exact halike
  · rw [Function.update_of_ne hi, Function.update_of_ne hi]
    exact .refl _

/-- **A block starts at an address.** -/
def HasBlock (s : Session) (address : UInt32) (id : Nat) : Prop :=
  ∃ b, s.recompiler.cache.IsValid id b ∧ b.start = address

/-- **How making a block ends**: with a block at the address, or a refusal. -/
def Makes (address : UInt32) (p : Answer Nat) : Prop :=
  (∃ id, p.1 = .ok id ∧ HasBlock p.2 address id) ∨
    ∃ e, p.1 = .error e ∧ Lowering.Refuses address e

/-- **Making the block at an address.** -/
theorem Keeps.lowerNew (x : SoundBy origin seen s) (address : UInt32) (allowed : Bool) :
    ∃ p, s.lowerNew address allowed = .ok p ∧ Makes address p ∧ Steady s p.2 ∧
      SoundAfter origin seen s p.2 := by
  -- a full cache is cleared first
  obtain ⟨s₁, hs₁, x₁, hsteady₁, hcount₁⟩ : ∃ s₁, s₁ = (if s.recompiler.cache.stored ≥
      s.recompiler.options.maxBlocks then s.clear else s) ∧ SoundBy origin seen s₁ ∧ Steady s s₁ ∧
      s₁.recompiler.stats.blocksCompiled = s.recompiler.stats.blocksCompiled := by
    refine ⟨_, rfl, ?_⟩
    split
    · exact ⟨x.clear, .clear s, rfl⟩
    · exact ⟨x, .refl s, rfl⟩
  rw [Session.lowerNew]
  dsimp only
  rw [← hs₁]
  obtain ⟨r₁, m₁⟩ := s₁
  obtain ⟨r₂, hsplit, x₂, ht⟩ := x₁.split address
  have x₂ : SoundBy origin seen ⟨r₂, m₁⟩ := by
    rw [SoundBy, ht.space.offset]
    exact x₂
  have hsteady₂ := hsteady₁.trans (.of_trims ht)
  rw [hsplit]
  dsimp only [bind, Except.bind]
  obtain ⟨hends, hsteady₃, hcount₃⟩ := x₂.append address (r₁.entryAssumption address allowed)
  have hcount := (hcount₃.trans ht.compiled).trans hcount₁
  have hsteady := hsteady₂.trans hsteady₃
  generalize Session.append ⟨r₂, m₁⟩ address (r₁.entryAssumption address allowed) = p at *
  obtain ⟨result, s₃⟩ := p
  rcases hends with ⟨e, rfl, hrefuses, hsound⟩ | ⟨y, rfl, happended⟩
  · exact ⟨_, rfl, .inr ⟨e, rfl, hrefuses⟩, hsteady, hsound.of_same hcount⟩
  · obtain ⟨id, s₄, hinsert, hsize, hsound, hsteady₄, hcount₄, hblock⟩ :=
      happended.insert fun hentry => by
        rw [hsteady₃.distrusted, ht.distrusted]
        exact Recompiler.not_mem_of_entryAssumption hentry
    dsimp only at hinsert ⊢
    rw [hinsert]
    refine ⟨_, rfl, .inl ⟨id, rfl, hblock⟩, hsteady.trans hsteady₄, ?_⟩
    have hnext : ∀ f : Nat → Memory, originsAfter f s s₄ = Function.update f id s.machine.memory :=
      fun f => originsAfter_next (hcount₄.trans (congrArg (· + 1) hcount)) hsize
    have hsame := hsteady.memory.symm
    refine Keeps.alike hsound (fun i => ?_) fun f' hf' => ?_
    · rw [hnext]
      exact alike_update hsame origin id i
    · obtain ⟨f, hf, rfl⟩ := Option.map_eq_some_iff.mp hf'
      refine ⟨_, Option.map_eq_some_iff.mpr ⟨f, hf, rfl⟩, fun i => ?_⟩
      rw [hnext]
      exact alike_update hsame f id i

/-- **Finding or making the block at an address.** -/
theorem Keeps.lower (x : SoundBy origin seen s) (address : UInt32) (allowed : Bool) :
    ∃ p, s.lower address allowed = .ok p ∧ Makes address p ∧ Steady s p.2 ∧
      SoundAfter origin seen s p.2 := by
  rw [Session.lower]
  cases hfind : s.recompiler.cache.find? address with
  | none => exact x.lowerNew address allowed
  | some id =>
    exact ⟨_, rfl, .inl ⟨id, rfl, x.consistent.index.find?_eq_some_iff.mp hfind⟩, .refl s,
      Keeps.of_same x rfl⟩

/-- **How native code at an address is found**: at the entry of a block that starts there, or the
block is refused. -/
def Enters (address : UInt32) (p : Answer Nat) : Prop :=
  (∃ id b, p.1 = .ok b.normalEntry ∧ p.2.recompiler.cache.IsValid id b ∧ b.start = address) ∨
    ∃ e, p.1 = .error e ∧ Lowering.Refuses address e

/-- **The entry at an address is found**: a block that was made is there. -/
theorem Keeps.entry (x : SoundBy origin seen s) (pc : UInt32) :
    ∃ p, s.entry pc = .ok p ∧ Enters pc p ∧ Steady s p.2 ∧
      SoundAfter origin seen s p.2 := by
  obtain ⟨r, m⟩ := s
  rw [Session.entry]
  dsimp only
  cases hlookup : r.cache.lookup? pc with
  | some b =>
    obtain ⟨id, hfind, rfl⟩ := Option.map_eq_some_iff.mp hlookup
    obtain ⟨b, hb, hstart⟩ := x.consistent.index.find?_eq_some_iff.mp hfind
    exact ⟨_, rfl, .inl ⟨id, b, congrArg (fun b => Except.ok (Block.normalEntry b)) hb.blockAt, hb,
      hstart⟩, ⟨rfl, rfl, rfl, rfl, rfl, .refl _, fun h => h⟩, Keeps.of_same (x.count _) rfl⟩
  | none =>
    have xmiss : SoundBy origin seen ⟨r.count fun stats =>
      { stats with cacheMisses := stats.cacheMisses + 1 }, m⟩ := x.count _
    obtain ⟨⟨result, s'⟩, hlower, hmakes, hsteady, hsound⟩ :=
      xmiss.lower pc m.core.hasDefaultModifiers
    have hsteady' : Steady ⟨r, m⟩ s' :=
      ⟨hsteady.options, hsteady.assumes, hsteady.distrusted, hsteady.mismatches, hsteady.core,
        hsteady.memory, hsteady.quiet⟩
    dsimp only
    rw [hlower]
    rcases hmakes with ⟨id, rfl, b, hb, hstart⟩ | ⟨e, rfl, hrefuses⟩
    · have hblock : s'.recompiler.cache.block? id = some b := hb.1
      dsimp only [bind, Except.bind]
      rw [hblock]
      exact ⟨_, rfl, .inl ⟨id, b, rfl, hb, hstart⟩, hsteady', hsound⟩
    · exact ⟨_, rfl, .inr ⟨e, rfl, hrefuses⟩, hsteady', hsound⟩

end Session

end Dynarec
