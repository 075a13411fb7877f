import Dynarec.Proofs.Recompiler.Arrangement
import Dynarec.Proofs.Recompiler.Upkeep

/-!
# Making a block

To make a block at an address, a full cache is cleared, the block that the address lies in is
dropped, and code is appended, a second time in a cleared cache if it did not fit; then the blocks
that the new one overlaps are dropped, and it is stored.  All that happens in front of the last
attempt makes the cache ready for it (`Session.Readies`): the blocks that contain the address are
lost, or all blocks are.  So a block that is made displaces exactly those that it overlaps
(`BlockCache.Displaces`), and after a refusal no block contains the address (`lower_of_reached`).

Nothing is asked of the size of the code space, and every block may be made from another memory:
recompilers are in order (`Recompiler.InOrder`) whatever was done with them.
-/

namespace Dynarec

namespace BlockCache

/-- **A block displaces those that it overlaps.**  Exactly they are gone, all others stay, and it is
the only one that is new. -/
structure Displaces (c c' : BlockCache) (id : Nat) (new : Block) : Prop where
  fresh : ∀ b, ¬ c.IsValid id b
  gone : ∀ i b, c.IsValid i b → b.overlaps new.start new.stop = true → ∀ b', ¬ c'.IsValid i b'
  stays : ∀ i b, c.IsValid i b → b.overlaps new.start new.stop = false → c.Stays c' i b
  only : ∀ i b', c'.IsValid i b' → i ≠ id → ∃ b, c.IsValid i b ∧ b'.outline = b.outline

/-- A block that contains an address overlaps a range that starts there. -/
theorem overlaps_of_contains {b : Block} {address stop : UInt32} (hin : b.contains address = true)
    (hlt : address < stop) : b.overlaps address stop = true := by
  rw [Block.contains, Bool.and_eq_true, decide_eq_true_eq, decide_eq_true_eq] at hin
  rw [Block.overlaps, Bool.and_eq_true, decide_eq_true_eq, decide_eq_true_eq]
  exact ⟨UInt32.lt_of_le_of_lt hin.1 hlt, hin.2⟩

/-- The blocks that it overlaps are lost first; then it is stored. -/
theorem Displaces.of_loses {c c₁ c' : BlockCache} {new : Block} (hstored : c₁.stored = c.stored)
    (hloses : c.Loses (fun b => b.overlaps new.start new.stop = true) c₁)
    (honly : ∀ i b', c'.IsValid i b' → i ≠ c₁.stored → ∃ b, c₁.IsValid i b ∧ b'.outline = b.outline)
    (hstays : ∀ i b, c₁.IsValid i b → c₁.Stays c' i b) : c.Displaces c' c₁.stored new where
  fresh b hb := by
    have hlt : c₁.stored < c.stored := hb.lt_size
    omega
  gone i b hb hov b' hb' := by
    have hlt : i < c.stored := hb.lt_size
    obtain ⟨b₁, hb₁, -⟩ := honly i b' hb' (by omega)
    obtain ⟨b₀, hb₀, -, hleft⟩ := hloses.left i b₁ hb₁
    rw [hb₀.unique hb] at hleft
    exact hleft hov
  stays i b hb hov := (hloses.stays i b hb (Bool.eq_false_iff.mp hov)).trans
    fun b₁ hb₁ _ => hstays i b₁ hb₁
  only i b' hb' hne := by
    obtain ⟨b₁, hb₁, ho⟩ := honly i b' hb' hne
    obtain ⟨b, hb, ho', -⟩ := hloses.left i b₁ hb₁
    exact ⟨b, hb, ho.trans ho'⟩

end BlockCache

/-! ### Dropping blocks -/

namespace Recompiler

variable {options : Options} {r r' : Recompiler} {free : Nat}

/-- **A recompiler in order.**  There is always place for one block. -/
structure InOrder (options : Options) (r : Recompiler) : Prop where
  choice : r.options = options
  arranged : r.cache.Arranged r.cache.code.offset
  bounded : r.cache.stored ≤ max options.maxBlocks 1

/-- **A recompiler loses blocks** and nothing else. -/
structure Sheds (lost : Block → Prop) (r r' : Recompiler) : Prop where
  options : r'.options = r.options
  compiled : r'.stats.blocksCompiled = r.stats.blocksCompiled
  clears : r'.stats.cacheClears = r.stats.cacheClears
  stored : r'.cache.stored = r.cache.stored
  offset : r'.cache.code.offset = r.cache.code.offset
  loses : r.cache.Loses lost r'.cache

/-- **Dropping the blocks of a range.** -/
theorem sheds_invalidate (h : r.cache.Arranged free) (start length : UInt32) :
    ∃ n r', r.invalidate start length = .ok (n, r') ∧ r'.cache.Arranged free ∧
      Sheds (fun b => b.overlaps start (BlockCache.rangeEnd start length) = true) r r' := by
  obtain ⟨n, c', hinvalidate, h', hspace, hstored, hloses⟩ := h.invalidate start length
  refine ⟨n, count { r with cache := c' } fun stats =>
    { stats with blocksInvalidated := stats.blocksInvalidated + n }, ?_, h', rfl, rfl, rfl, hstored,
    hspace.offset, hloses⟩
  rw [invalidate, hinvalidate]
  rfl

/-- **Splitting drops the block that contains the address.** -/
theorem sheds_split (h : r.cache.Arranged free) (address : UInt32) :
    ∃ r', r.split address = .ok r' ∧ r'.cache.Arranged free ∧
      Sheds (fun b => b.contains address = true) r r' := by
  rw [split]
  cases hcontaining : r.cache.containing? address with
  | none =>
    have hnone : ∀ id b, r.cache.IsValid id b → ¬ b.contains address = true := fun id b hb hin => by
      rw [h.index.containing?_eq_some_iff.mpr ⟨⟨id, hb⟩, hin⟩] at hcontaining
      cases hcontaining
    exact ⟨r, rfl, h, rfl, rfl, rfl, rfl, rfl,
      (BlockCache.Loses.refl r.cache).congr fun id b hb => iff_of_false not_false (hnone id b hb)⟩
  | some block =>
    obtain ⟨⟨id, hblock⟩, hin⟩ := h.index.containing?_eq_some_iff.mp hcontaining
    have hlt := h.index.nonempty id block hblock
    obtain ⟨n, r', hinvalidate, h', hsheds⟩ := sheds_invalidate h block.start (block.stop - block.start)
    rw [BlockCache.rangeEnd_sub hlt] at hsheds
    refine ⟨r', ?_, h', hsheds.options, hsheds.compiled, hsheds.clears, hsheds.stored, hsheds.offset,
      hsheds.loses.congr fun id' b hb => ?_⟩
    · dsimp only
      rw [hinvalidate]
      rfl
    · -- no other block overlaps that block, and no other one contains the address
      constructor
      · intro hov
        obtain rfl := h.index.eq_of_overlaps hb hblock hov
        rw [hb.unique hblock]
        exact hin
      · intro hin'
        have hin' : b.contains address = true := hin'
        show b.overlaps block.start block.stop = true
        rw [Block.contains, Bool.and_eq_true, decide_eq_true_eq, decide_eq_true_eq] at hin hin'
        rw [Block.overlaps, Bool.and_eq_true, decide_eq_true_eq, decide_eq_true_eq]
        exact ⟨UInt32.lt_of_le_of_lt hin'.1 hin.2, UInt32.lt_of_le_of_lt hin.1 hin'.2⟩

end Recompiler

/-! ### Getting ready -/

namespace Session

variable {options : Options} {s s' : Session} {lost : Block → Prop} {address : UInt32}
  {entry : EntryAssumption}

/-- **A session was made ready for another block.**  Some blocks were lost, or everything was
dropped, which is counted. -/
structure Readies (options : Options) (lost : Block → Prop) (s s' : Session) : Prop where
  choice : s'.recompiler.options = options
  arranged : s'.recompiler.cache.Arranged s'.recompiler.cache.code.offset
  room : s'.recompiler.cache.stored + 1 ≤ max options.maxBlocks 1
  low : s'.machine.memory.Low
  compiled : s'.recompiler.stats.blocksCompiled = s.recompiler.stats.blocksCompiled
  blocks : s'.recompiler.stats.cacheClears = s.recompiler.stats.cacheClears ∧
      s'.recompiler.cache.stored = s.recompiler.cache.stored ∧
      s'.recompiler.cache.code.offset = s.recompiler.cache.code.offset ∧
      s.recompiler.cache.Loses lost s'.recompiler.cache ∨
    s.recompiler.stats.cacheClears < s'.recompiler.stats.cacheClears ∧
      s'.recompiler.cache.code.offset = 0 ∧ ∀ id b, ¬ s'.recompiler.cache.IsValid id b

/-- **Clearing makes ready.** -/
theorem readies_clear (hlow : s'.machine.memory.Low)
    (hoptions : s'.recompiler.options = options)
    (hcompiled : s'.recompiler.stats.blocksCompiled = s.recompiler.stats.blocksCompiled)
    (hclears : s.recompiler.stats.cacheClears ≤ s'.recompiler.stats.cacheClears) :
    Readies options lost s s'.clear where
  choice := hoptions
  arranged := by
    show s'.recompiler.cache.clear.Arranged s'.recompiler.cache.clear.code.offset
    rw [BlockCache.offset_clear]
    exact .clear _
  room := by
    show 0 + 1 ≤ _
    exact Nat.le_max_right _ _
  low := (⟨rfl, rfl⟩ : s'.machine.memory.Alike _).low hlow
  compiled := hcompiled
  blocks := .inr ⟨Nat.lt_succ_of_le hclears, BlockCache.offset_clear _,
    BlockCache.not_isValid_clear _⟩

/-- **Splitting** behind that. -/
theorem Readies.split (x : Readies options (fun _ => False) s s') (address : UInt32) :
    ∃ r, s'.recompiler.split address = .ok r ∧
      Readies options (fun b => b.contains address = true) s ⟨r, s'.machine⟩ := by
  obtain ⟨r, hsplit, harranged, hsheds⟩ := Recompiler.sheds_split x.arranged address
  refine ⟨r, hsplit, ⟨hsheds.options.trans x.choice, hsheds.offset ▸ harranged, ?_, x.low,
    hsheds.compiled.trans x.compiled, ?_⟩⟩
  · show r.cache.stored + 1 ≤ _
    rw [hsheds.stored]
    exact x.room
  · rcases x.blocks with ⟨hclears, hstored, hoffset, hloses⟩ | ⟨hclears, hoffset, hnone⟩
    · exact .inl ⟨hsheds.clears.trans hclears, hsheds.stored.trans hstored, hsheds.offset.trans hoffset,
        (hloses.trans hsheds.loses).congr fun _ _ _ => or_iff_right id⟩
    · refine .inr ⟨hsheds.clears ▸ hclears, hsheds.offset.trans hoffset, fun id b hb => ?_⟩
      obtain ⟨b', hb', -⟩ := hsheds.loses.left id b hb
      exact hnone id b' hb'

/-- A full cache is cleared. -/
theorem readies_full (x : s.recompiler.InOrder options) (hlow : s.machine.memory.Low) :
    Readies options (fun _ => False) s
    (if s.recompiler.cache.stored ≥ s.recompiler.options.maxBlocks then
      s.clear else s) := by
  split
  · exact readies_clear hlow x.choice rfl le_rfl
  · rename_i hroom
    rw [x.choice] at hroom
    exact ⟨x.choice, x.arranged, by omega, hlow, rfl, .inl ⟨rfl, rfl, rfl, .refl _⟩⟩

/-- **Appending is an attempt in a session that was made ready.** -/
theorem Readies.append (x : Readies options lost s s') (address : UInt32) (entry : EntryAssumption) :
    ∃ s₀, s'.append address entry = s₀.attempt address entry ∧ Readies options lost s s₀ := by
  rcases append_cases s' address entry with ⟨heq, -⟩ | heq
  · exact ⟨s', heq, x⟩
  · refine ⟨_, heq, readies_clear x.low x.choice x.compiled ?_⟩
    show _ ≤ s'.recompiler.stats.cacheClears
    rcases x.blocks with ⟨hclears, -⟩ | ⟨hclears, -⟩
    · exact hclears.ge
    · exact hclears.le

/-! ### The last attempt -/

/-- What is done behind the last attempt. -/
def finish (p : Except Failure Block × Session) : Except Violation (Answer Nat) :=
  match p with
  | (.error e, s) => .ok (.error e, s)
  | (.ok block, s) => do
    let (id, s) ← s.insert block
    return (.ok id, s)

/-- **Making a block is one attempt in a session that was made ready.** -/
theorem lowerNew_eq_finish (x : s.recompiler.InOrder options) (hlow : s.machine.memory.Low)
    (address : UInt32) (allowed : Bool) :
    ∃ s₀ entry, s.lowerNew address allowed = finish (s₀.attempt address entry) ∧
      Readies options (fun b => b.contains address = true) s s₀ := by
  have hfull := readies_full x hlow
  rw [lowerNew]
  dsimp only
  generalize (if s.recompiler.cache.stored ≥ s.recompiler.options.maxBlocks then s.clear else s) = s₁
    at hfull ⊢
  obtain ⟨r, hsplit, hready⟩ := hfull.split address
  obtain ⟨s₀, happend, hready⟩ := hready.append address (s₁.recompiler.entryAssumption address allowed)
  refine ⟨s₀, s₁.recompiler.entryAssumption address allowed, ?_, hready⟩
  rw [hsplit, ← happend]
  rfl

/-- **A block was made at an address.** -/
structure Made (s : Session) (address : UInt32) (id : Nat) (new : Block) (s' : Session) : Prop where
  valid : s'.recompiler.cache.IsValid id new
  start : new.start = address
  compiled : s'.recompiler.stats.blocksCompiled = s.recompiler.stats.blocksCompiled + 1
  displaces : s'.recompiler.stats.cacheClears = s.recompiler.stats.cacheClears →
    s.recompiler.cache.Displaces s'.recompiler.cache id new

/-- **A block was refused at an address.** -/
structure Refused (s : Session) (address : UInt32) (s' : Session) : Prop where
  free : ∀ id b, s'.recompiler.cache.IsValid id b → b.contains address = false
  fewer : s.recompiler.cache.Fewer s'.recompiler.cache
  offset : s'.recompiler.cache.code.offset = s.recompiler.cache.code.offset ∧
      s'.recompiler.stats.cacheClears = s.recompiler.stats.cacheClears ∨
    s'.recompiler.cache.code.offset = 0 ∧
      s.recompiler.stats.cacheClears < s'.recompiler.stats.cacheClears

/-- **An attempt that is refused** leaves all blocks as they were made ready. -/
theorem Readies.refused (x : Readies options (fun b => b.contains address = true) s s')
    (hwords : (lowerBlock (s'.recompiler.settingAt s'.machine.memory address entry)
      s'.recompiler.cache.code).2.words = s'.recompiler.cache.code.words) :
    (s'.attempt address entry).2.recompiler.InOrder options ∧
      Refused s address (s'.attempt address entry).2 := by
  obtain ⟨r, m⟩ := s'
  obtain ⟨hclean, hcapacity⟩ := clean_lowerBlock
    (Prod.mk.eta.symm : lowerBlock (r.settingAt m.memory address entry) r.cache.code = (_, _))
  rw [Keeps.attempt_eq]
  dsimp only at hwords ⊢
  generalize (lowerBlock (r.settingAt m.memory address entry) r.cache.code).2 = code at *
  have hoffset : code.offset = r.cache.code.offset := congrArg Array.size hwords
  have harranged : r.cache.Arranged r.cache.code.offset := x.arranged
  have hgrown : BlockCache.Arranged code.offset { r.cache with code := code } := by
    rw [hoffset]
    refine harranged.grow hoffset.ge hclean ?_
    rw [hoffset, hcapacity]
    exact harranged.fits
  refine ⟨⟨x.choice, hgrown, (Nat.le_succ _).trans x.room⟩, ?_⟩
  rcases x.blocks with ⟨hclears, -, hsame, hloses⟩ | ⟨hclears, hzero, hnone⟩
  · refine ⟨fun id b hb => ?_, hloses.fewer, .inl ⟨hoffset.trans hsame, hclears⟩⟩
    obtain ⟨b₀, -, ho, hleft⟩ := hloses.left id b hb
    rw [BlockCache.contains_of_outline ho]
    exact Bool.eq_false_iff.mpr hleft
  · exact ⟨fun id b hb => absurd hb (hnone id b), fun id b hb => absurd hb (hnone id b),
      .inr ⟨hoffset.trans hzero, hclears⟩⟩

/-- **An attempt that succeeds**: the block is stored in place of those that it overlaps. -/
theorem Readies.made (x : Readies options (fun b => b.contains address = true) s s') {y : Piece}
    (hstart : y.setting.start = address) (hbase : y.base = s'.recompiler.cache.code.offset)
    (hy : y.Compiled s'.recompiler.options s'.machine.memory)
    (hlower : lowerBlock (s'.recompiler.settingAt s'.machine.memory address entry)
      s'.recompiler.cache.code = (.ok y.block, s'.recompiler.cache.code.extend y.ops))
    (hfits : s'.recompiler.cache.code.offset + y.ops.length ≤ s'.recompiler.cache.code.capacity) :
    ∃ id s'', finish (s'.attempt address entry) = .ok (.ok id, s'') ∧ s''.recompiler.InOrder options ∧
      ∃ new, Made s address id new s'' := by
  obtain ⟨r, ⟨core, memory⟩⟩ := s'
  obtain ⟨hclean, hcapacity⟩ := clean_lowerBlock hlower
  rw [Keeps.attempt_eq, hlower]
  dsimp only at hbase hy hfits hclean hcapacity ⊢
  have hlt : y.block.start < y.block.stop :=
    UInt32.lt_iff_toNat_lt.mpr (hy.covers.bounds hy.low).2.2.1
  have hend : y.block.codeEnd = (r.cache.code.extend y.ops).offset := by
    rw [Piece.Compiled.codeEnd_eq, hbase, CodeSpace.offset_extend]
  -- the code is appended
  have harranged : r.cache.Arranged r.cache.code.offset := x.arranged
  have hextends := BlockCache.codeExtends_extend r.cache.code y.ops
  have hgrown : BlockCache.Arranged y.base { r.cache with code := r.cache.code.extend y.ops } := by
    rw [hbase]
    refine harranged.grow hextends.offset hclean ?_
    rw [CodeSpace.offset_extend, hcapacity]
    exact hfits
  have hgrow := BlockCache.loses_grow hextends harranged.parted.ends
  -- the blocks that it overlaps go
  obtain ⟨n, r₁, hinvalidate, h₁, hsheds⟩ := Recompiler.sheds_invalidate
    (r := { r with cache := { r.cache with code := r.cache.code.extend y.ops } }) hgrown y.block.start
    (y.block.stop - y.block.start)
  rw [BlockCache.rangeEnd_sub hlt] at hsheds
  have hleft : ∀ id b, r₁.cache.IsValid id b → b.overlaps y.block.start y.block.stop = false :=
    fun id b hb => by
      obtain ⟨b₀, -, ho, hleft⟩ := hsheds.loses.left id b hb
      rw [Block.overlaps, Block.start_eq_of_outline ho, Block.stop_eq_of_outline ho]
      exact Bool.eq_false_iff.mpr hleft
  -- it is stored
  obtain ⟨c, hinsert, h₂, hstored, ⟨new, hnew, ho⟩, honly, hstays⟩ := h₁.insert hlt hleft le_rfl
    (by rw [Piece.Compiled.codeEnd_eq]; exact Nat.le_add_right _ _) (hend.trans hsheds.offset.symm)
    fun n e => hy.exit_bounds
  have ho : new.outline = y.block.outline :=
    ho.trans ((Block.fresh_outline _).symm.trans (Block.outline_fresh rfl))
  have hstart' : new.start = y.block.start := Block.start_eq_of_outline ho
  have hstop' : new.stop = y.block.stop := Block.stop_eq_of_outline ho
  refine ⟨r₁.cache.stored, ⟨Recompiler.count { r₁ with cache := c } fun stats =>
    { stats with blocksCompiled := stats.blocksCompiled + 1 },
    ⟨core, memory.markCode y.block.start y.block.stop⟩⟩, ?_, ⟨hsheds.options.trans x.choice, h₂, ?_⟩,
    new, hnew,
    hstart'.trans hstart, congrArg (· + 1) (hsheds.compiled.trans x.compiled), fun hclears => ?_⟩
  · rw [finish]
    dsimp only
    rw [insert]
    dsimp only
    rw [Recompiler.insert, if_neg (UInt32.not_lt.mpr (UInt32.le_of_lt hlt)), hinvalidate]
    dsimp only [bind, Except.bind]
    rw [hinsert]
    rfl
  · show c.stored ≤ _
    rw [hstored, hsheds.stored]
    exact x.room
  · have hsame : r₁.stats.cacheClears = s.recompiler.stats.cacheClears := hclears
    rcases x.blocks with ⟨-, hstored₁, -, hloses⟩ | ⟨hmore, -⟩
    · refine .of_loses (hsheds.stored.trans hstored₁) (((hloses.trans hgrow).trans hsheds.loses).congr
        fun id b hb => ?_) honly hstays
      rw [hstart', hstop', or_false]
      refine or_iff_right_of_imp fun hin => ?_
      rw [show y.block.start = address from hstart]
      exact BlockCache.overlaps_of_contains hin (hstart ▸ hlt)
    · have hmore : s.recompiler.stats.cacheClears < r.stats.cacheClears := hmore
      have hclears₁ : r₁.stats.cacheClears = r.stats.cacheClears := hsheds.clears
      omega

/-- **Making a block** provides it, or is refused. -/
theorem ok_lowerNew (x : s.recompiler.InOrder options) (hlow : s.machine.memory.Low) (address : UInt32)
    (allowed : Bool) :
    ∃ p, s.lowerNew address allowed = .ok p ∧ p.2.recompiler.InOrder options ∧
      (∀ id, p.1 = .ok id → ∃ new, Made s address id new p.2) ∧
      ∀ e, p.1 = .error e → Refused s address p.2 := by
  obtain ⟨s₀, entry, heq, hready⟩ := lowerNew_eq_finish x hlow address allowed
  have hlow₀ : (s₀.recompiler.settingAt s₀.machine.memory address entry).memory.Low := hready.low
  rcases lowerBlock_cases hlow₀ hready.arranged.clean hready.arranged.fits with
    ⟨e, -, herror, hwords⟩ | ⟨y, hsetting, hbase, hy, hlower, hfits⟩
  · obtain ⟨horder, hrefused⟩ := hready.refused hwords
    refine ⟨(.error e, (s₀.attempt address entry).2), ?_, horder, fun id hid => (by cases hid),
      fun _ _ => hrefused⟩
    rw [heq, Keeps.attempt_eq, herror]
    rfl
  · obtain ⟨id, s', hfinish, horder, new, hmade⟩ :=
      hready.made (congrArg Setting.start hsetting) hbase hy hlower hfits
    refine ⟨(.ok id, s'), heq.trans hfinish, horder, fun id' hid => ?_, fun e he => (by cases he)⟩
    cases hid
    exact ⟨new, hmade⟩

/-- **Finding or making a block.** -/
theorem ok_lower (x : s.recompiler.InOrder options) (hlow : s.machine.memory.Low) (address : UInt32)
    (allowed : Bool) :
    ∃ p, s.lower address allowed = .ok p ∧ p.2.recompiler.InOrder options ∧
      (∀ id, p.1 = .ok id → ∃ new, p.2.recompiler.cache.IsValid id new ∧ new.start = address ∧
        (p.2 = s ∨ Made s address id new p.2)) ∧
      ∀ e, p.1 = .error e → Refused s address p.2 := by
  rw [lower]
  cases hfind : s.recompiler.cache.find? address with
  | none =>
    obtain ⟨p, hp, horder, hmade, hrefused⟩ := ok_lowerNew x hlow address allowed
    refine ⟨p, hp, horder, fun id hid => ?_, hrefused⟩
    obtain ⟨new, hnew⟩ := hmade id hid
    exact ⟨new, hnew.valid, hnew.start, .inr hnew⟩
  | some id =>
    obtain ⟨b, hb, hstart⟩ := x.arranged.index.find?_eq_some_iff.mp hfind
    refine ⟨(.ok id, s), rfl, x, fun id' hid => ?_, fun e he => (by cases he)⟩
    cases hid
    exact ⟨b, hb, hstart, .inl rfl⟩

end Session

/-! ### Whatever was done -/

namespace Recompiler

variable {options : Options} {r : Recompiler}

/-- **A recompiler stays in order.** -/
theorem upheld_inOrder (options : Options) : Upheld (InOrder options) where
  same := fun x hoptions hcache => by
    refine ⟨hoptions.trans x.choice, hcache ▸ x.arranged, ?_⟩
    rw [hcache]
    exact x.bounded
  clear := fun x => by
    refine ⟨x.choice, ?_, Nat.zero_le _⟩
    rw [BlockCache.offset_clear]
    exact .clear _
  invalidate := fun {r r' start length n} hok x => by
    obtain ⟨n', r₁, hinvalidate, harranged, hsheds⟩ := sheds_invalidate x.arranged start length
    cases hok.symm.trans hinvalidate
    refine ⟨hsheds.options.trans x.choice, hsheds.offset ▸ harranged, ?_⟩
    rw [hsheds.stored]
    exact x.bounded
  lower := fun {s address allowed p} hok hlow x => by
    obtain ⟨p', hlower, horder, -⟩ := Session.ok_lower x hlow address allowed
    cases hok.symm.trans hlower
    exact horder

/-- **A reached recompiler is in order.** -/
theorem Reached.inOrder (h : r.Reached options) : r.InOrder options := by
  refine (upheld_inOrder options).reached (fun r hr => ?_) h
  rw [Recompiler.create] at hr
  split at hr
  · cases hr
  · rename_i code hcode
    cases hr
    rw [CodeSpace.create?] at hcode
    split at hcode
    · cases hcode
    · cases hcode
      exact ⟨rfl, ⟨.empty _ _, .empty _ _, .empty _ _, ⟨rfl, rfl, rfl⟩, le_rfl, Nat.zero_le _⟩,
        Nat.zero_le _⟩

end Recompiler

open Session in
/-- **What making a block comes to**, for every recompiler that was reached and every low memory.
At the address there is a block then, which is found there; asking again gives the same block and
changes nothing.  If it was made and the cache was not cleared, exactly the blocks that it overlaps
are gone.  If it was refused, no block contains the address, no block is new, and no code was left
behind.  There are never more stored blocks than the options allow, or one. -/
theorem lower_of_reached {options : Options} {r : Recompiler} (hr : r.Reached options) (m : Machine)
    (hlow : m.memory.Low) (address : UInt32) (allowed : Bool) :
    ∃ p, (Session.mk r m).lower address allowed = .ok p ∧
      p.2.recompiler.cache.stored ≤ max options.maxBlocks 1 ∧
      (∀ id, p.1 = .ok id →
        ∃ new, p.2.recompiler.cache.find? address = some id ∧
          p.2.recompiler.cache.lookup? address = some new ∧ p.2.recompiler.cache.IsValid id new ∧
          new.start = address ∧
          (∀ m' allowed', (Session.mk p.2.recompiler m').lower address allowed' =
            .ok (.ok id, ⟨p.2.recompiler, m'⟩)) ∧
          (p.2 = ⟨r, m⟩ ∨
            p.2.recompiler.stats.blocksCompiled = r.stats.blocksCompiled + 1 ∧
              (p.2.recompiler.stats.cacheClears = r.stats.cacheClears →
                r.cache.Displaces p.2.recompiler.cache id new))) ∧
      ∀ e, p.1 = .error e →
        (∀ id b, p.2.recompiler.cache.IsValid id b → b.contains address = false) ∧
          (∀ id b', p.2.recompiler.cache.IsValid id b' →
            ∃ b, r.cache.IsValid id b ∧ b'.outline = b.outline) ∧
          (p.2.recompiler.cache.code.offset = r.cache.code.offset ∧
              p.2.recompiler.stats.cacheClears = r.stats.cacheClears ∨
            p.2.recompiler.cache.code.offset = 0 ∧
              r.stats.cacheClears < p.2.recompiler.stats.cacheClears) := by
  obtain ⟨p, hp, horder, hmade, hrefused⟩ :=
    ok_lower (s := ⟨r, m⟩) hr.inOrder hlow address allowed
  refine ⟨p, hp, horder.bounded, fun id hid => ?_, fun e he => ?_⟩
  · obtain ⟨new, hvalid, hstart, hhow⟩ := hmade id hid
    have hfind : p.2.recompiler.cache.find? address = some id :=
      horder.arranged.index.find?_eq_some_iff.mpr ⟨new, hvalid, hstart⟩
    refine ⟨new, hfind, ?_, hvalid, hstart, fun m' allowed' => ?_, ?_⟩
    · rw [BlockCache.lookup?, hfind, Option.map_some, hvalid.blockAt]
    · rw [lower]
      dsimp only
      rw [hfind]
    · rcases hhow with hsame | hmade
      · exact .inl hsame
      · exact .inr ⟨hmade.compiled, hmade.displaces⟩
  · obtain ⟨hfree, hfewer, hoffset⟩ := hrefused e he
    exact ⟨hfree, hfewer, hoffset⟩

/-- A block of two instructions is entered at the second one: it is gone then, and there is a block
of one instruction. -/
theorem lower_least_entered :
    ∃ s s' : Session, s.recompiler.Reached leastSpace ∧ s.machine.memory.Low ∧
      s.recompiler.cache.find? 0x1000 = some 0 ∧ s.lower 0x1004 true = .ok (.ok 1, s') ∧
      s'.recompiler.cache.stored ≤ 16384 ∧ s'.recompiler.cache.find? 0x1004 = some 1 ∧
      (∀ b, ¬ s'.recompiler.cache.IsValid 0 b) ∧ s'.lower 0x1004 false = .ok (.ok 1, s') := by
  have hcreated : leastRecompiler.Reached leastSpace := .create rfl
  have hlow : leastMachine.memory.Low := (Memory.orderly_create (by decide)).low
  obtain ⟨⟨a, s⟩, h, -, hmade, -⟩ := lower_of_reached hcreated leastMachine hlow 0x1000 true
  have hact : (Session.mk leastRecompiler leastMachine).act (.lower 0x1000 true) = .ok s := by
    rw [Session.act, h]
    rfl
  have hreached : s.recompiler.Reached leastSpace := .act hcreated hlow hact
  have hlow' : s.machine.memory.Low := (Session.alike_lower h).low hlow
  obtain ⟨⟨a', s'⟩, h', hbounded, hmade', -⟩ := lower_of_reached hreached s.machine hlow' 0x1004 true
  have hruns : ((Session.mk leastRecompiler leastMachine).lower 0x1000 true).toOption.bind (fun p =>
      (p.2.lower 0x1004 true).toOption.map fun q =>
        ([p.1.toOption, q.1.toOption],
          [p.2.recompiler.cache.lookup? 0x1000, q.2.recompiler.cache.lookup? 0x1004].map
            (Option.map Block.stop),
          [p.2.recompiler.stats, q.2.recompiler.stats].map fun stats =>
            (stats.blocksCompiled, stats.cacheClears))) =
      some ([some 0, some 1], [some 0x1008, some 0x1008], [(1, 0), (2, 0)]) := by decide +kernel
  rw [h, Except.toOption, Option.bind_some] at hruns
  dsimp only at hruns
  rw [h', Except.toOption, Option.map_some, Option.some_inj] at hruns
  simp only [Prod.mk.injEq, List.map_cons, List.cons.injEq] at hruns
  obtain ⟨⟨hid, hid', -⟩, ⟨hstop, hstop', -⟩, ⟨⟨hcompiled, hclears⟩, ⟨hcompiled', hclears'⟩, -⟩⟩ :=
    hruns
  obtain rfl : a = .ok 0 := by cases a <;> cases hid; rfl
  obtain rfl : a' = .ok 1 := by cases a' <;> cases hid'; rfl
  obtain ⟨b, hfind, hlookup, hvalid, hstart, -⟩ := hmade 0 rfl
  obtain ⟨b', hfind', hlookup', -, hstart', hagain, hhow⟩ := hmade' 1 rfl
  rw [hlookup, Option.map_some, Option.some_inj] at hstop
  rw [hlookup', Option.map_some, Option.some_inj] at hstop'
  refine ⟨s, s', hreached, hlow', hfind, h', hbounded, hfind', fun x hx => ?_, hagain s'.machine false⟩
  rcases hhow with hsame | ⟨-, hdisplaces⟩
  · rw [show s' = s from hsame, hcompiled] at hcompiled'
    cases hcompiled'
  · refine (hdisplaces (hclears'.trans hclears.symm)).gone 0 b hvalid ?_ x hx
    rw [Block.overlaps, hstart, hstop, hstart', hstop']
    decide

end Dynarec
