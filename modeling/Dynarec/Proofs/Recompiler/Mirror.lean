import Dynarec.Proofs.Recompiler.Turns
import Dynarec.Proofs.Recompiler.Visits

/-!
# Sessions without links

`Options.plain` turns links off and keeps the downcount in the core.  A session mirrors another one
when it has these options, the same machine, the same blocks and the same counters, hits of the
cache apart (`Session.Mirrors`).  Each block was lowered to the code of one piece on one side, and
to that of its plain piece on the other.  What is done to the cache keeps the mirror image: dropping
blocks, clearing, and making blocks.
-/

namespace Dynarec

open Host

/-! ### Plain pieces -/

/-- **The same options without links**, and with the downcount in the core. -/
def Options.plain (options : Options) : Options :=
  { options with linkBlocks := false, downcountInRegister := false }

/-- The same block without links, and with the downcount in the core. -/
def Setting.plain (s : Setting) : Setting := { s with options := s.options.plain }

/-- **The same piece without links**, and with the downcount in the core. -/
def Piece.plain (x : Piece) : Piece := { x with setting := x.setting.plain }

theorem Setting.twin_plain (s : Setting) : s.Twin s.plain := ⟨rfl, rfl⟩

namespace Piece

/-- **A visit is the same.** -/
theorem visit_plain (x : Piece) : x.plain.visit = x.visit := rfl

end Piece

namespace BlockCache

variable {c c' d d' : BlockCache} {options options' : Options} {origin origin' : Nat → Memory}
  {free free' : Nat}

theorem Alike.store (h : Alike c d) (b : Block) : Alike (c.store b) (d.store b) where
  index := by
    have hsize : d.blocks.size = c.blocks.size := h.stored
    show insertEntry ⟨b.start, d.blocks.size⟩ d.index = insertEntry ⟨b.start, c.blocks.size⟩ c.index
    rw [h.index, hsize]
  outline i := by
    have hsize : d.blocks.size = c.blocks.size := h.stored
    have ho := h.outline i
    rw [outline?, outline?] at ho ⊢
    rw [blocks_store, blocks_store, Array.getElem?_push, Array.getElem?_push, hsize]
    split
    · rfl
    · exact ho

/-! ### Mirrored caches -/

/-- **A cache mirrors another one**: it has the same blocks, and as much code.  The code of a block
is that of a piece on one side, and that of its plain piece on the other. -/
structure Mirrors (options : Options) (c d : BlockCache) : Prop where
  alike : Alike c d
  offset : d.code.offset = c.code.offset
  capacity : d.code.capacity = c.code.capacity
  pieces : ∀ id b b', c.IsValid id b → d.IsValid id b' → ∃ x memory,
    x.Compiled options memory ∧ x.plain.Compiled options.plain memory ∧ c.Embeds b x ∧
      d.Embeds b' x.plain

namespace Mirrors

/-- Blocks are withdrawn on both sides. -/
theorem withdrawAll (x : Mirrors options c d) (ids : List Nat) :
    Mirrors options (c.withdrawAll ids) (d.withdrawAll ids) where
  alike := x.alike.withdrawAll ids
  offset := by
    rw [code_withdrawAll, code_withdrawAll]
    exact x.offset
  capacity := by
    rw [code_withdrawAll, code_withdrawAll]
    exact x.capacity
  pieces id b b' hb hb' := by
    obtain ⟨y, memory, hy, hy', hembeds, hembeds'⟩ := x.pieces id b b'
      (isValid_withdrawAll_iff.mp hb).1 (isValid_withdrawAll_iff.mp hb').1
    refine ⟨y, memory, hy, hy', ⟨hembeds.outline, ?_⟩, ⟨hembeds'.outline, ?_⟩⟩
    · rw [code_withdrawAll]
      exact hembeds.word
    · rw [code_withdrawAll]
      exact hembeds'.word

/-- Links are changed on both sides. -/
theorem relinked (x : Mirrors options c d) (hc : c.Parted free) (hd : d.Parted free')
    (hre : Relinked c c') (hre' : Relinked d d') (hspace : SameSpace c c') (hspace' : SameSpace d d') :
    Mirrors options c' d' where
  alike := (hre.alike.symm.trans x.alike).trans hre'.alike
  offset := (hspace'.offset.trans x.offset).trans hspace.offset.symm
  capacity := (hspace'.capacity.trans x.capacity).trans hspace.capacity.symm
  pieces id b b' hb hb' := by
    obtain ⟨b₀, hb₀, ho⟩ := hre.isValid_rev hb
    obtain ⟨b₀', hb₀', ho'⟩ := hre'.isValid_rev hb'
    obtain ⟨y, memory, hy, hy', hembeds, hembeds'⟩ := x.pieces id b₀ b₀' hb₀ hb₀'
    exact ⟨y, memory, hy, hy', hc.embeds_relinked hre hb₀ ho.symm hy.neat hembeds,
      hd.embeds_relinked hre' hb₀' ho'.symm hy'.neat hembeds'⟩

/-- **The blocks of a range are dropped on both sides.** -/
theorem invalidate (x : Mirrors options c d) (hc : c.Consistent) (hd : d.Consistent)
    (hs : Stocked options' origin free c) (ht : Stocked options'.plain origin' free' d)
    (start length : UInt32) :
    ∃ n c' d', c.invalidate start length = .ok (n, c') ∧ d.invalidate start length = .ok (n, d') ∧
      Mirrors options c' d' := by
  obtain ⟨c', hinvalidate, -, hre⟩ := hc.invalidate start length
  obtain ⟨d', hinvalidate', -, hre'⟩ := hd.invalidate start length
  rw [x.alike.overlapping] at hinvalidate' hre'
  refine ⟨_, c', d', hinvalidate, hinvalidate',
    (x.withdrawAll _).relinked (hs.withdrawAll _).parted (ht.withdrawAll _).parted hre hre' ?_ ?_⟩
  · exact (sameSpace_withdrawAll c _).symm.trans (sameSpace_invalidate hinvalidate)
  · exact (sameSpace_withdrawAll d _).symm.trans (sameSpace_invalidate hinvalidate')

/-- Code is emitted on both sides. -/
theorem grow (x : Mirrors options c d) {code code' : CodeSpace} (hcode : CodeExtends c.code code)
    (hcode' : CodeExtends d.code code') (hoffset : code'.offset = code.offset)
    (hcapacity : code'.capacity = code.capacity) :
    Mirrors options { c with code := code } { d with code := code' } where
  alike := ⟨x.alike.index, x.alike.outline⟩
  offset := hoffset
  capacity := hcapacity
  pieces id b b' hb hb' := by
    obtain ⟨y, memory, hy, hy', hembeds, hembeds'⟩ := x.pieces id b b' hb hb'
    exact ⟨y, memory, hy, hy', hembeds.grow hcode, hembeds'.grow hcode'⟩

/-- **A block is stored on both sides.** -/
theorem store (x : Mirrors options c d) {y : Piece} {memory : Memory} (hy : y.Compiled options memory)
    (hy' : y.plain.Compiled options.plain memory)
    (hword : ∀ i op, y.ops[i]? = some op → c.code.word? (y.base + i) = some op.encode)
    (hword' : ∀ i op, y.plain.ops[i]? = some op → d.code.word? (y.base + i) = some op.encode) :
    Mirrors options (c.store y.block) (d.store y.block) where
  alike := x.alike.store y.block
  offset := x.offset
  capacity := x.capacity
  pieces id b b' hb hb' := by
    have hsize : d.blocks.size = c.blocks.size := x.alike.stored
    rcases isValid_store_iff.mp hb with hb | ⟨rfl, rfl⟩ <;>
      rcases isValid_store_iff.mp hb' with hb' | ⟨heq, rfl⟩
    · obtain ⟨z, memory', hz, hz', hembeds, hembeds'⟩ := x.pieces id b b' hb hb'
      exact ⟨z, memory', hz, hz', ⟨hembeds.outline, hembeds.word⟩,
        ⟨hembeds'.outline, hembeds'.word⟩⟩
    · exact absurd (heq.trans hsize) hb.lt_size.ne
    · exact absurd hsize.symm hb'.lt_size.ne
    · exact ⟨y, memory, hy, hy', ⟨Block.outline_fresh rfl, fun i op hop _ => hword i op hop⟩,
        ⟨Block.outline_fresh rfl, fun i op hop _ => hword' i op hop⟩⟩

/-- **Both sides are cleared.** -/
theorem clear (x : Mirrors options c d) : Mirrors options c.clear d.clear where
  alike := ⟨rfl, fun _ => rfl⟩
  offset := (offset_clear d).trans (offset_clear c).symm
  capacity := x.capacity
  pieces id b _ hb := absurd hb (not_isValid_clear c id b)

end Mirrors

end BlockCache

namespace Session

variable {free : Nat} {s t : Session} {r u : Recompiler} {m : Machine}

/-- **A session mirrors another one**: it has the plain options, the same machine and the same
blocks, has learned the same, and counted the same, hits of the cache apart.  Both are sound, with
their blocks in front of `free`. -/
structure Mirrors (free : Nat) (s t : Session) : Prop where
  sound : ∃ origin, Keeps origin none free s
  plain : ∃ origin, Keeps origin none free t
  machine : t.machine = s.machine
  options : t.recompiler.options = s.recompiler.options.plain
  assumes : t.recompiler.assumesDefault = s.recompiler.assumesDefault
  distrusted : t.recompiler.distrusted = s.recompiler.distrusted
  stats : ∃ hits, t.recompiler.stats = { s.recompiler.stats with cacheHits := hits }
  cache : s.recompiler.cache.Mirrors s.recompiler.options t.recompiler.cache

/-- **A session mirrors another one**, between two actions. -/
abbrev MirroredBy (s t : Session) : Prop := Mirrors s.recompiler.cache.code.offset s t

namespace Mirrors

/-- The machine may change, as long as its memory stays low. -/
theorem withMachine (x : Mirrors free ⟨r, m⟩ ⟨u, m⟩) {m' : Machine} (hm : m'.memory.Low) :
    Mirrors free ⟨r, m'⟩ ⟨u, m'⟩ where
  sound := x.sound.imp fun _ hs => hs.unwatched hm
  plain := x.plain.imp fun _ ht => ht.unwatched hm
  machine := rfl
  options := x.options
  assumes := x.assumes
  distrusted := x.distrusted
  stats := x.stats
  cache := x.cache

theorem low (x : Mirrors free s t) : s.machine.memory.Low := by
  obtain ⟨origin, hs⟩ := x.sound
  exact hs.low

/-- The same is counted on both sides. -/
theorem count (x : Mirrors free ⟨r, m⟩ ⟨u, m⟩) {f : Statistics → Statistics}
    (hf : ∀ stats hits, ∃ hits', f { stats with cacheHits := hits } =
      { f stats with cacheHits := hits' }) :
    Mirrors free ⟨r.count f, m⟩ ⟨u.count f, m⟩ where
  sound := x.sound.imp fun _ hs => hs.count f
  plain := x.plain.imp fun _ ht => ht.count f
  machine := rfl
  options := x.options
  assumes := x.assumes
  distrusted := x.distrusted
  stats := by
    obtain ⟨hits, hstats⟩ := x.stats
    obtain ⟨hits', hsame⟩ := hf r.stats hits
    refine ⟨hits', ?_⟩
    show f u.stats = _
    have hstats : u.stats = { r.stats with cacheHits := hits } := hstats
    rw [hstats, hsame]
    rfl
  cache := x.cache

/-! ### Dropping blocks -/

/-- **The blocks of a range are dropped on both sides.** -/
theorem invalidate (x : Mirrors free ⟨r, m⟩ ⟨u, m⟩) (start length : UInt32) :
    ∃ n r' u', r.invalidate start length = .ok (n, r') ∧ u.invalidate start length = .ok (n, u') ∧
      Mirrors free ⟨r', m⟩ ⟨u', m⟩ ∧ Recompiler.Trims free r r' ∧ Recompiler.Trims free u u' ∧
      (∀ id b, r'.cache.IsValid id b →
        b.overlaps start (BlockCache.rangeEnd start length) = false) ∧
      ∀ id b, u'.cache.IsValid id b →
        b.overlaps start (BlockCache.rangeEnd start length) = false := by
  obtain ⟨origin, hs⟩ := x.sound
  obtain ⟨origin', ht⟩ := x.plain
  obtain ⟨n, r', hr, hs', htrims, hno⟩ := hs.invalidate start length
  obtain ⟨n', u', hu, ht', htrims', hno'⟩ := ht.invalidate start length
  have hoptions : u.options = r.options.plain := x.options
  have hstocked : BlockCache.Stocked r.options.plain origin' free u.cache := hoptions ▸ ht.stocked
  obtain ⟨k, c', d', hc, hd, hcache⟩ :=
    x.cache.invalidate hs.consistent ht.consistent hs.stocked hstocked start length
  have hr₁ : r.invalidate start length = .ok (k, Recompiler.count { r with cache := c' } fun stats =>
      { stats with blocksInvalidated := stats.blocksInvalidated + k }) := by
    rw [Recompiler.invalidate, hc]
    rfl
  have hu₁ : u.invalidate start length = .ok (k, Recompiler.count { u with cache := d' } fun stats =>
      { stats with blocksInvalidated := stats.blocksInvalidated + k }) := by
    rw [Recompiler.invalidate, hd]
    rfl
  cases hr.symm.trans hr₁
  cases hu.symm.trans hu₁
  refine ⟨_, _, _, hr, hu, ⟨⟨origin, hs'⟩, ⟨origin', ht'⟩, rfl, x.options, x.assumes, x.distrusted, ?_,
    hcache⟩, htrims, htrims', hno, hno'⟩
  obtain ⟨hits, hstats⟩ := x.stats
  refine ⟨hits, ?_⟩
  have hstats : u.stats = { r.stats with cacheHits := hits } := hstats
  show ({ u.stats with blocksInvalidated := u.stats.blocksInvalidated + _ } : Statistics) = _
  rw [hstats]
  rfl

/-- **The blocks of several ranges are dropped on both sides.** -/
theorem invalidateAll (x : Mirrors free ⟨r, m⟩ ⟨u, m⟩) (ranges : List ChangedRange) :
    ∃ r' u', r.invalidateAll ranges = .ok r' ∧ u.invalidateAll ranges = .ok u' ∧
      Mirrors free ⟨r', m⟩ ⟨u', m⟩ ∧ r'.cache.code.offset = r.cache.code.offset := by
  induction ranges generalizing r u with
  | nil => exact ⟨r, u, rfl, rfl, x, rfl⟩
  | cons range rest ih =>
    obtain ⟨n, r₁, u₁, hr₁, hu₁, x₁, ht₁, -⟩ := x.invalidate range.start range.length
    obtain ⟨r₂, u₂, hr₂, hu₂, x₂, hoffset⟩ := ih x₁
    refine ⟨r₂, u₂, ?_, ?_, x₂, hoffset.trans ht₁.space.offset⟩
    · rw [Recompiler.invalidateAll, hr₁]
      exact hr₂
    · rw [Recompiler.invalidateAll, hu₁]
      exact hu₂

/-- **An address is split at on both sides.** -/
theorem split (x : Mirrors free ⟨r, m⟩ ⟨u, m⟩) (address : UInt32) :
    ∃ r' u', r.split address = .ok r' ∧ u.split address = .ok u' ∧ Mirrors free ⟨r', m⟩ ⟨u', m⟩ ∧
      Recompiler.Trims free r r' ∧ Recompiler.Trims free u u' := by
  have hsame := x.cache.alike.containing? address
  rw [Recompiler.split, Recompiler.split]
  cases hfound : r.cache.containing? address with
  | none =>
    rw [hfound, Option.map_none, Option.map_eq_none_iff] at hsame
    rw [hsame]
    exact ⟨r, u, rfl, rfl, x, .refl r, .refl u⟩
  | some b =>
    rw [hfound, Option.map_some, Option.map_eq_some_iff] at hsame
    obtain ⟨b', hfound', ho⟩ := hsame
    rw [hfound']
    obtain ⟨n, r', u', hr, hu, x', ht, ht', -⟩ := x.invalidate b.start (b.stop - b.start)
    refine ⟨r', u', ?_, ?_, x', ht, ht'⟩
    · dsimp only
      rw [hr]
      rfl
    · dsimp only
      rw [Block.start_eq_of_outline ho, Block.stop_eq_of_outline ho, hu]
      rfl

/-- **Overwritten blocks are dropped on both sides.** -/
theorem dropChanged (x : MirroredBy s t) :
    ∃ s' t', s.dropChanged = .ok s' ∧ t.dropChanged = .ok t' ∧ MirroredBy s' t' ∧
      s'.machine = ⟨s.machine.core, s.machine.memory.takeChangedCode.2⟩ := by
  obtain ⟨r, ⟨core, memory⟩⟩ := s
  obtain ⟨u, m⟩ := t
  obtain rfl : m = ⟨core, memory⟩ := x.machine
  obtain ⟨r', u', hr, hu, x', hoffset⟩ := Mirrors.invalidateAll x memory.takeChangedCode.1
  have hlow : memory.takeChangedCode.2.Low := x.low
  have x' : MirroredBy ⟨r', ⟨core, memory⟩⟩ ⟨u', ⟨core, memory⟩⟩ := by
    rw [MirroredBy, hoffset]
    exact x'
  refine ⟨⟨r', ⟨core, memory.takeChangedCode.2⟩⟩, ⟨u', ⟨core, memory.takeChangedCode.2⟩⟩, ?_, ?_,
    x'.withMachine hlow, rfl⟩
  · rw [Session.dropChanged]
    dsimp only
    rw [hr]
    rfl
  · rw [Session.dropChanged]
    dsimp only
    rw [hu]
    rfl

/-- **Both sides are cleared.** -/
theorem clear (x : Mirrors free s t) : MirroredBy s.clear t.clear := by
  obtain ⟨r, ⟨core, memory⟩⟩ := s
  obtain ⟨u, m⟩ := t
  obtain rfl : m = ⟨core, memory⟩ := x.machine
  obtain ⟨origin, hs⟩ := x.sound
  obtain ⟨origin', ht⟩ := x.plain
  have hcache := BlockCache.Mirrors.clear x.cache
  have hoffset : (Session.clear ⟨u, ⟨core, memory⟩⟩).recompiler.cache.code.offset =
      (Session.clear ⟨r, ⟨core, memory⟩⟩).recompiler.cache.code.offset := hcache.offset
  refine ⟨⟨origin, hs.clear⟩, ⟨origin', hoffset ▸ ht.clear⟩, rfl, x.options, x.assumes,
    x.distrusted, ?_, hcache⟩
  obtain ⟨hits, hstats⟩ := x.stats
  refine ⟨hits, ?_⟩
  have hstats : u.stats = { r.stats with cacheHits := hits } := hstats
  show ({ u.stats with cacheClears := u.stats.cacheClears + 1 } : Statistics) = _
  rw [hstats]
  rfl

end Mirrors

/-! ### Making blocks -/

/-- **The code of a block was appended on both sides.** -/
structure MirrorsAppended (address : UInt32) (entry : EntryAssumption) (y : Piece) (s t : Session) :
    Prop where
  left : ∃ origin, Appended origin none address entry y s
  right : ∃ origin, Appended origin none address entry y.plain t
  mirrors : Mirrors y.base s t

/-- **How appending a block ends on both sides**: it is refused, or its code was appended. -/
def BothAppend (address : UInt32) (entry : EntryAssumption) (p q : Except Failure Block × Session) :
    Prop :=
  (∃ e, p.1 = .error e ∧ q.1 = .error e ∧ MirroredBy p.2 q.2) ∨
    ∃ y : Piece, p.1 = .ok y.block ∧ q.1 = .ok y.block ∧ MirrorsAppended address entry y p.2 q.2

namespace Mirrors

/-- As much code fits on both sides. -/
theorem room_eq (x : Mirrors free s t) :
    t.recompiler.cache.code.room = s.recompiler.cache.code.room := by
  obtain ⟨origin, hs⟩ := x.sound
  obtain ⟨origin', ht⟩ := x.plain
  rw [CodeSpace.room, CodeSpace.room, hs.stocked.clean.fits, ht.stocked.clean.fits,
    CodeSpace.spaceLeft, CodeSpace.spaceLeft, x.cache.capacity]
  exact congrArg (fun n => Room.mk (s.recompiler.cache.code.capacity - n) false) x.cache.offset

/-- The same is compiled on both sides. -/
theorem settingAt_eq (x : Mirrors free ⟨r, m⟩ ⟨u, m⟩) (address : UInt32) (entry : EntryAssumption) :
    u.settingAt m.memory address entry = (r.settingAt m.memory address entry).plain := by
  have hoptions : u.options = r.options.plain := x.options
  have hlimit : u.cache.nextStartAfter? address = r.cache.nextStartAfter? address :=
    x.cache.alike.nextStartAfter? address
  rw [Recompiler.settingAt, hoptions, hlimit]
  rfl

/-- Code is emitted on both sides. -/
theorem grow {free' : Nat} (x : Mirrors free ⟨r, m⟩ ⟨u, m⟩) {code code' : CodeSpace}
    (hs : ∃ origin, Keeps origin none free' ⟨{ r with cache := { r.cache with code := code } }, m⟩)
    (ht : ∃ origin, Keeps origin none free' ⟨{ u with cache := { u.cache with code := code' } }, m⟩)
    (hcode : BlockCache.CodeExtends r.cache.code code)
    (hcode' : BlockCache.CodeExtends u.cache.code code') (hoffset : code'.offset = code.offset)
    (hcapacity : code'.capacity = code.capacity) :
    Mirrors free' ⟨{ r with cache := { r.cache with code := code } }, m⟩
      ⟨{ u with cache := { u.cache with code := code' } }, m⟩ :=
  ⟨hs, ht, rfl, x.options, x.assumes, x.distrusted, x.stats,
    x.cache.grow hcode hcode' hoffset hcapacity⟩

/-- **One attempt on both sides.** -/
theorem attempt (x : MirroredBy s t) (address : UInt32) (entry : EntryAssumption) :
    BothAppend address entry (s.attempt address entry) (t.attempt address entry) := by
  obtain ⟨r, m⟩ := s
  obtain ⟨u, m'⟩ := t
  obtain rfl : m' = m := x.machine
  obtain ⟨origin, hs⟩ := x.sound
  obtain ⟨origin', ht⟩ := x.plain
  have hoffset : u.cache.code.offset = r.cache.code.offset := x.cache.offset
  have hcapacity : u.cache.code.capacity = r.cache.code.capacity := x.cache.capacity
  have ht : SoundBy origin' none ⟨u, m'⟩ := by
    rw [SoundBy, hoffset]
    exact ht
  have hsetting := Mirrors.settingAt_eq x address entry
  have hoptions : u.options = r.options.plain := x.options
  have hclean : r.cache.code.Clean := hs.stocked.clean
  have hclean' : u.cache.code.Clean := ht.stocked.clean
  have hroom : u.cache.code.room = r.cache.code.room := Mirrors.room_eq x
  have hlow : (r.settingAt m'.memory address entry).memory.Low := x.low
  rcases lowerBlock_twins hlow r.cache.code.room with ⟨e, -, hall⟩ | ⟨k, hall⟩
  · obtain ⟨herror, hwords⟩ := hall _ r.cache.code (.refl _) hclean rfl
    obtain ⟨herror', hwords'⟩ := hall _ u.cache.code (Setting.twin_plain _) hclean' hroom
    rw [← hsetting] at herror' hwords'
    have hsound := hs.attempt_refused hwords
    have hsound' := ht.attempt_refused hwords'
    rw [Keeps.attempt_eq] at hsound hsound' ⊢
    rw [Keeps.attempt_eq]
    have hsame : (lowerBlock (r.settingAt m'.memory address entry) r.cache.code).2.offset =
        r.cache.code.offset := congrArg Array.size hwords
    have hsame' : (lowerBlock (u.settingAt m'.memory address entry) u.cache.code).2.offset =
        u.cache.code.offset := congrArg Array.size hwords'
    obtain ⟨-, hspace⟩ := clean_lowerBlock
      (Prod.mk.eta.symm : lowerBlock (r.settingAt m'.memory address entry) r.cache.code = (_, _))
    obtain ⟨-, hspace'⟩ := clean_lowerBlock
      (Prod.mk.eta.symm : lowerBlock (u.settingAt m'.memory address entry) u.cache.code = (_, _))
    generalize lowerBlock (r.settingAt m'.memory address entry) r.cache.code = p at *
    generalize lowerBlock (u.settingAt m'.memory address entry) u.cache.code = q at *
    have hends : q.2.offset = p.2.offset := hsame'.trans (hoffset.trans hsame.symm)
    refine .inl ⟨e, herror, herror', Mirrors.grow x ⟨origin, hsound⟩ ⟨origin', ?_⟩
      ⟨hsame.ge, fun k _ => congrArg (·[k]?) hwords⟩
      ⟨hsame'.ge, fun k _ => congrArg (·[k]?) hwords'⟩ hends
      (hspace'.trans (hcapacity.trans hspace.symm))⟩
    show Keeps origin' none p.2.offset _
    rw [← hends]
    exact hsound'
  · obtain ⟨hy, hlower, hfits⟩ := hall _ r.cache.code (.refl _) hclean rfl hs.stocked.fits
    obtain ⟨hy', hlower', hfits'⟩ := hall _ u.cache.code (Setting.twin_plain _) hclean' hroom
      ht.stocked.fits
    have hpiece : Piece.mk (r.settingAt m'.memory address entry).plain k u.cache.code.offset =
        (Piece.mk (r.settingAt m'.memory address entry) k r.cache.code.offset).plain := by
      rw [hoffset]
      rfl
    rw [hpiece] at hy' hfits' hlower'
    rw [← hsetting] at hlower'
    have hy' : (Piece.mk (r.settingAt m'.memory address entry) k
        r.cache.code.offset).plain.Compiled u.options m'.memory := by
      rw [hoptions]
      exact hy'
    obtain ⟨hok, happended⟩ := hs.attempt_appended rfl rfl hy hlower hfits
    obtain ⟨hok', happended'⟩ := ht.attempt_appended hsetting.symm hoffset.symm hy' hlower' hfits'
    refine .inr ⟨_, hok, hok', ⟨origin, happended⟩, ⟨origin', happended'⟩, ?_⟩
    rw [Keeps.attempt_eq, hlower] at happended ⊢
    rw [Keeps.attempt_eq, hlower'] at happended' ⊢
    refine Mirrors.grow x ⟨origin, happended.keeps⟩ ⟨origin', happended'.keeps⟩
      (BlockCache.codeExtends_extend _ _) (BlockCache.codeExtends_extend _ _) ?_ hcapacity
    rw [CodeSpace.offset_extend, CodeSpace.offset_extend, hoffset, Piece.ops, Piece.ops,
      Setting.length_code, Setting.length_code]
    rfl

/-- **Appending a block on both sides.** -/
theorem append (x : MirroredBy s t) (address : UInt32) (entry : EntryAssumption) :
    BothAppend address entry (s.append address entry) (t.append address entry) := by
  have hone := x.attempt address entry
  by_cases hfull : ∃ start, (s.attempt address entry).1 = .error (.codeSpaceExhausted start)
  · obtain ⟨start, hstart⟩ := hfull
    have hcleared : MirroredBy (s.attempt address entry).2.clear (t.attempt address entry).2.clear ∧
        (t.attempt address entry).1 = .error (.codeSpaceExhausted start) := by
      rcases hone with ⟨e, he, he', hmirrors⟩ | ⟨y, hy, -⟩
      · rw [hstart] at he
        cases he
        exact ⟨hmirrors.clear, he'⟩
      · rw [hstart] at hy
        cases hy
    rw [append_of_exhausted hstart, append_of_exhausted hcleared.2]
    exact hcleared.1.attempt address entry
  · have hspace : ∀ e, (s.attempt address entry).1 = .error e → e.NotSpace := by
      intro e he start heq
      exact hfull ⟨start, by rw [he, heq]⟩
    have hspace' : ∀ e, (t.attempt address entry).1 = .error e → e.NotSpace := by
      intro e he
      rcases hone with ⟨e', he', he'', -⟩ | ⟨y, -, hy, -⟩
      · rw [he''] at he
        cases he
        exact hspace _ he'
      · rw [hy] at he
        cases he
    rw [append_of_notSpace hspace, append_of_notSpace hspace']
    exact hone

end Mirrors

/-- **A block that was appended is stored on both sides.** -/
theorem MirrorsAppended.insert {address : UInt32} {entry : EntryAssumption} {y : Piece}
    (x : MirrorsAppended address entry y s t)
    (htrust : entry = .noModifiers → address ∉ s.recompiler.distrusted) :
    ∃ id s' t', s.insert y.block = .ok (id, s') ∧ t.insert y.block = .ok (id, t') ∧
      MirroredBy s' t' := by
  obtain ⟨r, ⟨core, memory⟩⟩ := s
  obtain ⟨u, m⟩ := t
  obtain rfl : m = ⟨core, memory⟩ := x.mirrors.machine
  obtain ⟨origin, hs⟩ := x.left
  obtain ⟨origin', ht⟩ := x.right
  have hdistrusted : u.distrusted = r.distrusted := x.mirrors.distrusted
  obtain ⟨id, s', hinsert, hsize, hsound, -⟩ := hs.insert htrust
  obtain ⟨id', t', hinsert', hsize', hsound', -⟩ := ht.insert fun hentry => by
    rw [hdistrusted]
    exact htrust hentry
  -- the blocks that it overlaps go first
  have hlt : y.block.start < y.block.stop :=
    UInt32.lt_iff_toNat_lt.mpr (hs.compiled.covers.bounds hs.keeps.low).2.2.1
  obtain ⟨n, r₁, u₁, hr, hu, x₁, htrims, htrims', hno, hno'⟩ :=
    x.mirrors.invalidate y.block.start (y.block.stop - y.block.start)
  rw [BlockCache.rangeEnd_sub hlt] at hno hno'
  obtain ⟨origin₁, hs₁⟩ := x₁.sound
  obtain ⟨origin₁', ht₁⟩ := x₁.plain
  have hword : ∀ i op, y.ops[i]? = some op → r₁.cache.code.word? (y.base + i) = some op.encode :=
    fun i op hop => (htrims.word _ (Nat.le_add_right _ _)).trans (hs.word i op hop)
  have hword' : ∀ i op, y.plain.ops[i]? = some op →
      u₁.cache.code.word? (y.base + i) = some op.encode :=
    fun i op hop => (htrims'.word _ (Nat.le_add_right _ _)).trans (ht.word i op hop)
  have hy : y.Compiled r₁.options memory := htrims.options ▸ hs.compiled
  have hy' : y.plain.Compiled u₁.options memory := htrims'.options ▸ ht.compiled
  -- then it is stored behind the others
  have hadmits : r₁.cache.Admits y.block := hs₁.stocked.admits hy hword hno
  have hadmits' : u₁.cache.Admits y.block := ht₁.stocked.admits (x := y.plain) hy' hword' hno'
  obtain ⟨c, hc, -, hre⟩ := hs₁.consistent.insert hadmits
  obtain ⟨d, hd, -, hre'⟩ := ht₁.consistent.insert hadmits'
  have hlast : y.block.codeEnd = r₁.cache.code.offset := hs.last.trans htrims.space.offset.symm
  have hlast' : y.plain.block.codeEnd = u₁.cache.code.offset :=
    ht.last.trans htrims'.space.offset.symm
  have hoptions : u₁.options = r₁.options.plain := x₁.options
  have hstored : BlockCache.Mirrors r₁.options (r₁.cache.store y.block) (u₁.cache.store y.block) :=
    x₁.cache.store hy (hoptions ▸ hy') hword hword'
  have hcache : BlockCache.Mirrors r₁.options c d := by
    refine hstored.relinked (hs₁.stocked.store hy hword hlast).parted
      (ht₁.stocked.store (x := y.plain) hy' hword' hlast').parted hre hre' ?_ ?_
    · have hsame : (r₁.cache.store y.block).SameSpace r₁.cache := .of_code rfl rfl
      exact hsame.trans (BlockCache.sameSpace_insert hc)
    · have hsame : (u₁.cache.store y.block).SameSpace u₁.cache := .of_code rfl rfl
      exact hsame.trans (BlockCache.sameSpace_insert hd)
  have hs' : Session.insert ⟨r, ⟨core, memory⟩⟩ y.block = .ok (r₁.cache.blocks.size,
      ⟨Recompiler.count { r₁ with cache := c } fun stats =>
        { stats with blocksCompiled := stats.blocksCompiled + 1 },
        ⟨core, memory.markCode y.block.start y.block.stop⟩⟩) := by
    rw [Session.insert]
    dsimp only
    rw [Recompiler.insert, if_neg (UInt32.not_lt.mpr (UInt32.le_of_lt hlt)), hr]
    dsimp only [bind, Except.bind]
    rw [hc]
    rfl
  have ht' : Session.insert ⟨u, ⟨core, memory⟩⟩ y.block = .ok (u₁.cache.blocks.size,
      ⟨Recompiler.count { u₁ with cache := d } fun stats =>
        { stats with blocksCompiled := stats.blocksCompiled + 1 },
        ⟨core, memory.markCode y.block.start y.block.stop⟩⟩) := by
    rw [Session.insert]
    dsimp only
    rw [Recompiler.insert, if_neg (UInt32.not_lt.mpr (UInt32.le_of_lt hlt)), hu]
    dsimp only [bind, Except.bind]
    rw [hd]
    rfl
  cases hinsert.symm.trans hs'
  cases hinsert'.symm.trans ht'
  have hid : u₁.cache.blocks.size = r₁.cache.blocks.size := x₁.cache.alike.stored
  rw [hid] at ht'
  refine ⟨_, _, _, hs', ht', ⟨_, hsound⟩, ?_, rfl, x₁.options, x₁.assumes, x₁.distrusted, ?_, hcache⟩
  · have hoffset : c.code.offset = d.code.offset := hcache.offset.symm
    show ∃ origin, Keeps origin none c.code.offset _
    rw [hoffset]
    exact ⟨_, hsound'⟩
  · obtain ⟨hits, hstats⟩ := x₁.stats
    refine ⟨hits, ?_⟩
    have hstats : u₁.stats = { r₁.stats with cacheHits := hits } := hstats
    show ({ u₁.stats with blocksCompiled := u₁.stats.blocksCompiled + 1 } : Statistics) = _
    rw [hstats]
    rfl

namespace Mirrors

/-- **Making the block at an address on both sides.** -/
theorem lowerNew (x : MirroredBy s t) (address : UInt32) (allowed : Bool) :
    ∃ result s' t', s.lowerNew address allowed = .ok (result, s') ∧
      t.lowerNew address allowed = .ok (result, t') ∧ MirroredBy s' t' := by
  have hstored : t.recompiler.cache.stored = s.recompiler.cache.stored := x.cache.alike.stored
  have hmost : t.recompiler.options.maxBlocks = s.recompiler.options.maxBlocks := by
    rw [x.options]
    rfl
  -- a full cache is cleared first
  obtain ⟨s₁, t₁, hs₁, ht₁, x₁⟩ : ∃ s₁ t₁, s₁ = (if s.recompiler.cache.stored ≥
      s.recompiler.options.maxBlocks then s.clear else s) ∧ t₁ = (if s.recompiler.cache.stored ≥
        s.recompiler.options.maxBlocks then t.clear else t) ∧ MirroredBy s₁ t₁ := by
    refine ⟨_, _, rfl, rfl, ?_⟩
    split
    · exact x.clear
    · exact x
  rw [Session.lowerNew, Session.lowerNew]
  dsimp only
  rw [hstored, hmost, ← hs₁, ← ht₁]
  obtain ⟨r₁, m₁⟩ := s₁
  obtain ⟨u₁, m⟩ := t₁
  obtain rfl : m = m₁ := x₁.machine
  have hentry : u₁.entryAssumption address allowed = r₁.entryAssumption address allowed := by
    have hassumes : u₁.assumesDefault = r₁.assumesDefault := x₁.assumes
    have hdistrusted : u₁.distrusted = r₁.distrusted := x₁.distrusted
    rw [Recompiler.entryAssumption, Recompiler.entryAssumption, hassumes, hdistrusted]
  obtain ⟨r₂, u₂, hr, hu, x₂, htrims, -⟩ := Mirrors.split x₁ address
  have x₂ : MirroredBy ⟨r₂, m⟩ ⟨u₂, m⟩ := by
    rw [MirroredBy, htrims.space.offset]
    exact x₂
  rw [hr, hu]
  dsimp only [bind, Except.bind]
  rw [hentry]
  have hboth := x₂.append address (r₁.entryAssumption address allowed)
  obtain ⟨origin, hsound⟩ := x₂.sound
  obtain ⟨-, hsteady, -⟩ := Keeps.append hsound address (r₁.entryAssumption address allowed)
  generalize Session.append ⟨r₂, m⟩ address (r₁.entryAssumption address allowed) = p at *
  generalize Session.append ⟨u₂, m⟩ address (r₁.entryAssumption address allowed) = q at *
  obtain ⟨result, s₃⟩ := p
  obtain ⟨result', t₃⟩ := q
  rcases hboth with ⟨e, he, he', x₃⟩ | ⟨y, hy, hy', x₃⟩
  · cases he
    cases he'
    exact ⟨_, _, _, rfl, rfl, x₃⟩
  · cases hy
    cases hy'
    obtain ⟨id, s₄, t₄, hinsert, hinsert', x₄⟩ := x₃.insert fun hassumes => by
      rw [hsteady.distrusted, htrims.distrusted]
      exact Recompiler.not_mem_of_entryAssumption hassumes
    dsimp only at hinsert hinsert' ⊢
    rw [hinsert, hinsert']
    exact ⟨_, _, _, rfl, rfl, x₄⟩

/-- **Finding or making the block at an address on both sides.** -/
theorem lower (x : MirroredBy s t) (address : UInt32) (allowed : Bool) :
    ∃ result s' t', s.lower address allowed = .ok (result, s') ∧
      t.lower address allowed = .ok (result, t') ∧ MirroredBy s' t' := by
  rw [Session.lower, Session.lower, x.cache.alike.find?]
  cases s.recompiler.cache.find? address with
  | none => exact x.lowerNew address allowed
  | some id => exact ⟨_, s, t, rfl, rfl, x⟩

/-- **Where native code is entered on both sides.** -/
theorem entry (x : MirroredBy s t) (pc : UInt32) :
    ∃ result s' t', s.entry pc = .ok (result, s') ∧ t.entry pc = .ok (result, t') ∧
      MirroredBy s' t' ∧ Enters pc (result, s') ∧ Steady s s' := by
  obtain ⟨origin, hsound⟩ := x.sound
  obtain ⟨⟨result, s'⟩, hentry, henters, hsteady, -⟩ := Keeps.entry hsound pc
  refine ⟨result, s', ?_⟩
  suffices hother : ∃ t', t.entry pc = .ok (result, t') ∧ MirroredBy s' t' by
    obtain ⟨t', ht, x'⟩ := hother
    exact ⟨t', hentry, ht, x', henters, hsteady⟩
  obtain ⟨r, m⟩ := s
  obtain ⟨u, m'⟩ := t
  obtain rfl : m' = m := x.machine
  rw [Session.entry] at hentry ⊢
  dsimp only at hentry ⊢
  have hfind : u.cache.find? pc = r.cache.find? pc := x.cache.alike.find? pc
  rw [BlockCache.lookup?] at hentry ⊢
  rw [hfind]
  cases hfound : r.cache.find? pc with
  | some id =>
    rw [hfound] at hentry
    dsimp only [Option.map] at hentry ⊢
    have hsame : (u.cache.blockAt id).normalEntry = (r.cache.blockAt id).normalEntry :=
      Block.normalEntry_eq_of_outline (x.cache.alike.outline_blockAt id)
    cases hentry
    rw [hsame]
    exact ⟨_, rfl, Mirrors.count x fun stats hits => ⟨hits + 1, rfl⟩⟩
  | none =>
    rw [hfound] at hentry
    dsimp only [Option.map] at hentry ⊢
    have hmiss : MirroredBy
        ⟨r.count fun stats => { stats with cacheMisses := stats.cacheMisses + 1 }, m'⟩
        ⟨u.count fun stats => { stats with cacheMisses := stats.cacheMisses + 1 }, m'⟩ :=
      Mirrors.count x fun stats hits => ⟨hits, rfl⟩
    obtain ⟨made, s₁, t₁, hs₁, ht₁, x₁⟩ := hmiss.lower pc m'.core.hasDefaultModifiers
    rw [hs₁] at hentry
    rw [ht₁]
    cases made with
    | error e =>
      cases hentry
      exact ⟨_, rfl, x₁⟩
    | ok id =>
      have hsame := x₁.cache.alike.outline id
      rw [BlockCache.outline?, BlockCache.outline?] at hsame
      dsimp only [bind, Except.bind] at hentry ⊢
      rw [BlockCache.block?] at hentry ⊢
      cases hb : s₁.recompiler.cache.blocks[id]? with
      | none =>
        rw [hb] at hentry hsame
        rw [Option.map_none, Option.map_eq_none_iff] at hsame
        rw [hsame]
        cases hentry
        exact ⟨_, rfl, x₁⟩
      | some b =>
        rw [hb] at hentry hsame
        rw [Option.map_some, Option.map_eq_some_iff] at hsame
        obtain ⟨b', hb', ho⟩ := hsame
        have hnormal := Block.normalEntry_eq_of_outline ho
        rw [hb']
        cases hentry
        dsimp only
        rw [hnormal]
        exact ⟨_, rfl, x₁⟩

end Mirrors

end Session

end Dynarec
