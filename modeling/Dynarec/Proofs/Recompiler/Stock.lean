import Dynarec.Proofs.Cache.LinkGraph
import Dynarec.Proofs.Recompiler.Native
import Dynarec.Proofs.Recompiler.Space

/-!
# What the cache has in stock

Every valid block of the cache was compiled from some memory, and its code stands in the code space
as it was emitted, the words of its exits apart (`BlockCache.Stocked`).  Stored blocks lie one
behind the other, so that changing the links of one block changes no word of another.  Dropping
blocks, changing links, emitting code and storing a compiled block keep the stock; and a consistent
stock is the fabric in which native code runs (`Stocked.fabric`).
-/

namespace Dynarec

open Host

/-! ### Compiled blocks -/

/-- **A block covers bytes of the window**: it starts in the window, and goes beyond its start. -/
theorem Memory.Covers.bounds {m : Memory} {pc stop : UInt32} (hlow : m.Low) (x : m.Covers pc stop) :
    m.base.toNat ≤ pc.toNat ∧ pc.toNat + 4 ≤ m.base.toNat + m.size ∧ pc.toNat < stop.toNat ∧
      stop.toNat ≤ m.base.toNat + m.size + 4 := by
  have hlow' : m.base.toNat + m.size + 8 ≤ 2 ^ 32 := hlow
  have hfetched : ∀ {pc word : UInt32}, m.fetch? pc = some word →
      m.base.toNat ≤ pc.toNat ∧ pc.toNat + 4 ≤ m.base.toNat + m.size := fun {pc word} hfetch => by
    obtain ⟨offset, hoffset, -⟩ := Option.map_eq_some_iff.mp hfetch
    obtain ⟨heq, hlen⟩ := Memory.offset?_eq_some_iff.mp hoffset
    omega
  induction x with
  | @last pc word stop fetched next =>
    obtain ⟨hbase, hend⟩ := hfetched fetched
    rcases next with rfl | rfl
    · rw [UInt32.toNat_add, Nat.mod_eq_of_lt (by simpa using by omega)]
      simp only [UInt32.reduceToNat]
      omega
    · rw [UInt32.toNat_add, Nat.mod_eq_of_lt (by simpa using by omega)]
      simp only [UInt32.reduceToNat]
      omega
  | @step pc word stop fetched rest ih =>
    obtain ⟨hbase, hend⟩ := hfetched fetched
    obtain ⟨-, -, hlt, hstop⟩ := ih
    have hnext : (pc + 4).toNat = pc.toNat + 4 := by
      rw [UInt32.toNat_add, Nat.mod_eq_of_lt (by simpa using by omega)]
      rfl
    omega

theorem Memory.Covers.alike {m m' : Memory} {pc stop : UInt32} (halike : m.Alike m')
    (x : m.Covers pc stop) : m'.Covers pc stop := by
  induction x with
  | last fetched next => exact .last ((halike.fetch? _).trans fetched) next
  | step fetched rest ih => exact .step ((halike.fetch? _).trans fetched) ih

namespace Piece

/-- The block of a piece. -/
def block (x : Piece) : Block := x.closing.toBlock x.setting x.base

/-- **A piece was compiled** from memory. -/
structure Compiled (options : Options) (memory : Memory) (x : Piece) : Prop where
  source : x.setting.memory.Alike memory
  choice : x.setting.options = options
  low : memory.Low
  shaped : Lowering.Shaped x.setting ∅ x.setting.start (Progress.start x.setting.start) 1
    (Lowering.room x.setting.memory + 1) 0 x.closing
  lowered : ∃ code : CodeSpace, code.Clean ∧ code.offset = x.base ∧
    lowerBlock x.setting code = (.ok x.block, code.extend x.ops)

variable {options : Options} {memory : Memory} {x : Piece}

/-- **The exits of the block of a piece** are the operations that leave for a known address. -/
theorem exits_eq (hneat : x.sketch.Neat ∅) : x.block.exits = (exitsAt x.base x.ops).toArray :=
  congrArg List.toArray (Setting.exitsAt_code hneat).symm

theorem getElem?_exits (hneat : x.sketch.Neat ∅) {n : Nat} {e : Exit}
    (he : x.block.exits[n]? = some e) :
    ∃ i, x.ops[i]? = some (.exitDispatch e.target) ∧ e.stub = x.base + i := by
  rw [exits_eq hneat, List.getElem?_toArray] at he
  exact (mem_exitsAt_iff.mp (List.mem_of_getElem? he)).2

theorem exists_exit (hneat : x.sketch.Neat ∅) {i : Nat} {t : UInt32}
    (hop : x.ops[i]? = some (.exitDispatch t)) :
    ∃ (n : Nat) (e : Exit), x.block.exits[n]? = some e ∧ e.target = t ∧ e.stub = x.base + i := by
  have hmem : ({ target := t, stub := x.base + i } : Exit) ∈ exitsAt x.base x.ops :=
    mem_exitsAt_iff.mpr ⟨rfl, i, hop, rfl⟩
  obtain ⟨n, hn⟩ := List.mem_iff_getElem?.mp hmem
  refine ⟨n, { target := t, stub := x.base + i }, ?_, rfl, rfl⟩
  rw [exits_eq hneat, List.getElem?_toArray]
  exact hn

namespace Compiled

theorem neat (h : x.Compiled options memory) : x.sketch.Neat ∅ := h.shaped.sketch

/-- Marks and the queue do not matter to what is compiled. -/
theorem alike {memory' : Memory} (h : x.Compiled options memory) (halike : memory.Alike memory') :
    x.Compiled options memory' :=
  ⟨h.source.trans halike, h.choice, halike.low h.low, h.shaped, h.lowered⟩

theorem covers (h : x.Compiled options memory) : memory.Covers x.setting.start x.block.stop :=
  .alike h.source (h.shaped.stop.resolve_right fun hne => hne.1 rfl)

theorem codeEnd_eq (x : Piece) : x.block.codeEnd = x.base + x.ops.length := by
  rw [ops, Setting.length_code, ← Nat.add_assoc]
  rfl

/-- The words of the exits are words of the block. -/
theorem exit_bounds (h : x.Compiled options memory) {n : Nat} {e : Exit}
    (he : x.block.exits[n]? = some e) : x.base ≤ e.stub ∧ e.stub < x.block.codeEnd := by
  obtain ⟨i, hi, hstub⟩ := getElem?_exits h.neat he
  have hlt : i < x.ops.length := (List.getElem?_eq_some_iff.mp hi).1
  have hend := codeEnd_eq x
  omega

end Compiled

end Piece

/-- What a block is shaped like does not depend on where the downcount is kept. -/
theorem Lowering.Shaped.twin {s s' : Setting} (htwin : s.Twin s') {G : Set HostCell} {p : Progress}
    {least most top : Nat} {k : Closing} (h : Shaped s G s.start p least most top k) :
    Shaped s' G s'.start p least most top k := by
  have hlength : s'.options.blockLength = s.options.blockLength := by
    rw [Options.blockLength, Options.blockLength, htwin.most]
  have hstart : s'.start = s.start := by rw [htwin.same]
  refine ⟨h.sketch, h.charges, h.pays, ?_, ?_⟩
  · rw [hlength]
    exact h.within
  · have hmemory : s'.memory = s.memory := by rw [htwin.same]
    rw [EndsAt, hmemory, hstart]
    exact h.stop

/-- **How lowering a block ends in all settings that compile the same instructions**, if as much
code fits: it is refused in all of them, or all append the code of a piece with the same shape. -/
theorem lowerBlock_twins {st : Setting} (hlow : st.memory.Low) (room : Room) :
    (∃ e, Lowering.Refuses st.start e ∧ ∀ st' (code : CodeSpace), st.Twin st' → code.Clean →
      code.room = room → (lowerBlock st' code).1 = .error e ∧
        (lowerBlock st' code).2.words = code.words) ∨
    ∃ k : Closing, ∀ st' (code : CodeSpace), st.Twin st' → code.Clean → code.room = room →
      code.offset ≤ code.capacity →
      (Piece.mk st' k code.offset).Compiled st'.options st'.memory ∧
        lowerBlock st' code = (.ok (Piece.mk st' k code.offset).block,
          code.extend (Piece.mk st' k code.offset).ops) ∧
        code.offset + (Piece.mk st' k code.offset).ops.length ≤ code.capacity := by
  obtain ⟨plan, hplan, hkeeps, hspace⟩ := Lowering.shape_lowerBlock st hlow.size_lt
  have hkeep := hkeeps room
  cases hk : plan room with
  | error e =>
    rw [hk] at hkeep
    refine .inl ⟨e, hkeep, fun st' code htwin hclean hroom => ?_⟩
    have hlower := hplan st' htwin code hclean
    rw [hroom, hk] at hlower
    refine ⟨congrArg Prod.fst hlower, ?_⟩
    rw [hlower]
    exact CodeSpace.words_truncate code
  | ok k =>
    rw [hk] at hkeep
    refine .inr ⟨k, fun st' code htwin hclean hroom hfits => ?_⟩
    have hlower := hplan st' htwin code hclean
    rw [hroom, hk] at hlower
    have hmemory : st'.memory = st.memory := by rw [htwin.same]
    have hshaped : Lowering.Shaped st' ∅ st'.start (Progress.start st'.start) 1
        (Lowering.room st'.memory + 1) 0 k := by
      have hstart : st'.start = st.start := by rw [htwin.same]
      have hshape : Lowering.Shaped st ∅ st.start (Progress.start st.start) 1
        (Lowering.room st.memory + 1) 0 k := hkeep
      rw [hmemory]
      have htwins := hshape.twin htwin
      rw [hstart] at htwins ⊢
      exact htwins
    have hleft : st.entries.length + k.sketch.size ≤ code.capacity - code.words.size := by
      have hle := hspace _ k hk
      rw [← hroom] at hle
      exact hle
    have hentries : st'.entries.length = st.entries.length := by
      rw [htwin.same, Setting.entries, Setting.entries, List.length_cons, List.length_cons]
    refine ⟨⟨.refl _, rfl, hmemory ▸ hlow, hshaped, code, hclean, rfl, hlower⟩, hlower, ?_⟩
    rw [CodeSpace.offset] at hfits
    rw [Piece.ops, Setting.length_code, CodeSpace.offset]
    show code.words.size + (st'.entries.length + k.sketch.size) ≤ _
    omega

/-- **Lowering a block refuses it, or appends the code of a piece.** -/
theorem lowerBlock_cases {st : Setting} (hlow : st.memory.Low) {code : CodeSpace}
    (hclean : code.Clean) (hfits : code.offset ≤ code.capacity) :
    (∃ e, Lowering.Refuses st.start e ∧ (lowerBlock st code).1 = .error e ∧
      (lowerBlock st code).2.words = code.words) ∨
    ∃ x : Piece, x.setting = st ∧ x.base = code.offset ∧ x.Compiled st.options st.memory ∧
      lowerBlock st code = (.ok x.block, code.extend x.ops) ∧
      code.offset + x.ops.length ≤ code.capacity := by
  rcases lowerBlock_twins hlow code.room with ⟨e, hrefuses, hall⟩ | ⟨k, hall⟩
  · exact .inl ⟨e, hrefuses, hall st code (.refl st) hclean rfl⟩
  · exact .inr ⟨_, rfl, rfl, hall st code (.refl st) hclean rfl hfits⟩

/-! ### The stock -/

/-- A block that is stored keeps its outline. -/
theorem Block.outline_fresh {b : Block} (hvalid : b.valid = true) : b.fresh.outline = b.outline := by
  rw [fresh, outline, outline, Array.map_map, hvalid]
  rfl

namespace BlockCache

variable {c c' : BlockCache} {options : Options} {origin : Nat → Memory} {free : Nat}

/-- **The code of a piece stands in the cache** as the code of a block, the words of its exits apart. -/
structure Embeds (c : BlockCache) (b : Block) (x : Piece) : Prop where
  outline : b.outline = x.block.outline
  word : ∀ i op, x.ops[i]? = some op → (∀ t, op ≠ .exitDispatch t) →
    c.code.word? (x.base + i) = some op.encode

/-- **Stored blocks lie one behind the other** in front of `free`, each with its exits inside. -/
structure Parted (c : BlockCache) (free : Nat) : Prop where
  ends : ∀ (id : Nat) (b : Block), c.blocks[id]? = some b → b.codeEnd ≤ free
  apart : ∀ (id : Nat) (b : Block) (id' : Nat) (b' : Block), c.blocks[id]? = some b →
    c.blocks[id']? = some b' → id < id' →
    b.codeEnd ≤ b'.codeStart
  stubs : ∀ r e, c.exit? r = some e →
    (c.blockAt r.block).codeStart ≤ e.stub ∧ e.stub < (c.blockAt r.block).codeEnd

/-- **What the cache has in stock.**  Stored blocks lie in front of `free`; the memory that the
block of a number was compiled from is its `origin`. -/
structure Stocked (options : Options) (origin : Nat → Memory) (free : Nat) (c : BlockCache) :
    Prop where
  parted : c.Parted free
  clean : c.code.Clean
  free_le : free ≤ c.code.offset
  fits : c.code.offset ≤ c.code.capacity
  small : c.code.capacity ≤ 2 ^ 32
  linking : c.linking = options.linkBlocks
  compiled : ∀ id b, c.IsValid id b → ∃ x : Piece, x.Compiled options (origin id) ∧ c.Embeds b x

/-- Of two blocks that share a word one is the other. -/
theorem Parted.id_eq (h : c.Parted free) {id id' : Nat} {b b' : Block} (hb : c.blocks[id]? = some b)
    (hb' : c.blocks[id']? = some b') {p : Nat} (hp : b.codeStart ≤ p ∧ p < b.codeEnd)
    (hp' : b'.codeStart ≤ p ∧ p < b'.codeEnd) : id = id' := by
  rcases Nat.lt_trichotomy id id' with hlt | heq | hlt
  · have hle := h.apart id b id' b' hb hb' hlt
    omega
  · exact heq
  · have hle := h.apart id' b' id b hb' hb hlt
    omega

/-- The blocks of one cache are those of another, up to links and validity. -/
theorem Parted.of_blocks (h : c.Parted free)
    (hblocks : ∀ (id : Nat) (b' : Block), c'.blocks[id]? = some b' →
      ∃ b : Block, c.blocks[id]? = some b ∧
      b'.codeStart = b.codeStart ∧ b'.codeEnd = b.codeEnd)
    (hexits : ∀ r e', c'.exit? r = some e' → ∃ e, c.exit? r = some e ∧ e.stub = e'.stub) :
    c'.Parted free where
  ends id b' hb' := by
    obtain ⟨b, hb, -, hend⟩ := hblocks id b' hb'
    exact hend ▸ h.ends id b hb
  apart id b' id' b'' hb' hb'' hlt := by
    obtain ⟨b₁, hb₁, -, hend⟩ := hblocks id b' hb'
    obtain ⟨b₂, hb₂, hstart, -⟩ := hblocks id' b'' hb''
    rw [hend, hstart]
    exact h.apart id b₁ id' b₂ hb₁ hb₂ hlt
  stubs r e' he' := by
    obtain ⟨e, he, hstub⟩ := hexits r e' he'
    obtain ⟨b', hb', -⟩ := exit?_eq_some_iff.mp he'
    obtain ⟨b, hb, hstart, hend⟩ := hblocks r.block b' hb'
    have hbounds := h.stubs r e he
    rw [blockAt_of_getElem? hb] at hbounds
    rw [blockAt_of_getElem? hb', hstart, hend, ← hstub]
    exact hbounds

theorem code_withdrawAll (c : BlockCache) (ids : List Nat) : (c.withdrawAll ids).code = c.code := by
  induction ids generalizing c with
  | nil => rfl
  | cons id rest ih => exact ih (c.withdraw id)

theorem size_withdrawAll (c : BlockCache) (ids : List Nat) :
    (c.withdrawAll ids).blocks.size = c.blocks.size := by
  induction ids generalizing c with
  | nil => rfl
  | cons id rest ih => exact (ih (c.withdraw id)).trans Array.size_modify

theorem Relinked.size_blocks (h : Relinked c c') : c'.blocks.size = c.blocks.size := h.alike.stored

theorem sameSpace_withdrawAll (c : BlockCache) (ids : List Nat) :
    SameSpace c (c.withdrawAll ids) :=
  .of_code (code_withdrawAll c ids) (linking_withdrawAll ids)

namespace Parted

/-! ### Changing links -/

theorem relinked (h : c.Parted free) (hre : Relinked c c') : c'.Parted free :=
  h.of_blocks
    (fun id b' hb' => by
      obtain ⟨b, hb, ho⟩ := hre.block?_rev hb'
      exact ⟨b, hb, (congrArg Block.codeStart ho).symm, (congrArg Block.codeEnd ho).symm⟩)
    (fun r e' he' => by
      obtain ⟨e, he, -, hstub⟩ := hre.exit?_rev he'
      exact ⟨e, he, hstub⟩)

/-- **No word of a block changes with links but those of its exits**, since a word of it that is the
word of an exit is that of an exit of its own. -/
theorem word?_relinked (h : c.Parted free) (hre : Relinked c c') {id : Nat} {b : Block}
    (hb : c.blocks[id]? = some b) {p : Nat} (hp : b.codeStart ≤ p ∧ p < b.codeEnd)
    (hne : ∀ e ∈ b.exits, e.stub ≠ p) : c'.code.word? p = c.code.word? p := by
  refine hre.word p fun r e he hstub => ?_
  obtain ⟨b₁, hb₁, hexit⟩ := exit?_eq_some_iff.mp he
  have hbounds := h.stubs r e he
  rw [blockAt_of_getElem? hb₁, hstub] at hbounds
  rw [h.id_eq hb₁ hb hbounds hp, hb, Option.some_inj] at hb₁
  subst hb₁
  exact hne e (Array.mem_of_getElem? hexit) hstub

/-- Words behind `free` are not changed with links. -/
theorem word?_behind (h : c.Parted free) (hre : Relinked c c') {p : Nat} (hp : free ≤ p) :
    c'.code.word? p = c.code.word? p := by
  refine hre.word p fun r e he hstub => ?_
  obtain ⟨b, hb, -⟩ := exit?_eq_some_iff.mp he
  have hbounds := h.stubs r e he
  have hend := h.ends r.block b hb
  rw [blockAt_of_getElem? hb] at hbounds
  omega

/-- **Changing links keeps the code of a block.** -/
theorem embeds_relinked (h : c.Parted free) (hre : Relinked c c') {id : Nat} {b b' : Block}
    (hb : c.IsValid id b) (hb' : b'.outline = b.outline) {x : Piece} (hneat : x.sketch.Neat ∅)
    (hembeds : c.Embeds b x) : c'.Embeds b' x where
  outline := hb'.trans hembeds.outline
  word i op hop hne := by
    have hlength : i < x.ops.length := (List.getElem?_eq_some_iff.mp hop).1
    have hstart : b.codeStart = x.base := congrArg Block.codeStart hembeds.outline
    have hend : b.codeEnd = x.base + x.ops.length :=
      (congrArg Block.codeEnd hembeds.outline).trans (Piece.Compiled.codeEnd_eq x)
    refine (h.word?_relinked hre hb.1 ⟨by omega, by omega⟩ fun e he hstub => ?_).trans
      (hembeds.word i op hop hne)
    -- an exit with that word would be an operation that leaves
    obtain ⟨n, hn⟩ := Array.mem_iff_getElem?.mp he
    have hout : x.block.outline.exits[n]? = some { e with linked := false } := by
      rw [← hembeds.outline, Block.outline, Array.getElem?_map, hn]
      rfl
    rw [Block.outline, Array.getElem?_map, Option.map_eq_some_iff] at hout
    obtain ⟨e', he', heq⟩ := hout
    obtain ⟨j, hj, hstub'⟩ := Piece.getElem?_exits hneat he'
    have hsame : e'.stub = e.stub := (Exit.mk.inj heq).2.1
    have hij : j = i := by omega
    rw [hij, hop, Option.some_inj] at hj
    exact hne _ hj

/-! ### Withdrawing, storing and clearing -/

theorem withdraw (h : c.Parted free) (id : Nat) : (c.withdraw id).Parted free :=
  h.of_blocks
    (fun i b' hb' => by
      rw [blocks_withdraw] at hb'
      split at hb'
      · obtain ⟨b, hb, rfl⟩ := Option.map_eq_some_iff.mp hb'
        exact ⟨b, hb, rfl, rfl⟩
      · exact ⟨b', hb', rfl, rfl⟩)
    (fun r e' he' => ⟨e', (exit?_withdraw id r).symm.trans he', rfl⟩)

theorem withdrawAll (h : c.Parted free) (ids : List Nat) : (c.withdrawAll ids).Parted free := by
  induction ids generalizing c with
  | nil => exact h
  | cons id rest ih => exact ih (h.withdraw id)

theorem grow (h : c.Parted free) (code : CodeSpace) : Parted { c with code := code } free :=
  ⟨h.ends, h.apart, h.stubs⟩

/-- **A block is stored behind the others.** -/
theorem store (h : c.Parted free) {b : Block} (hfree : free ≤ b.codeStart)
    (hcode : b.codeStart ≤ b.codeEnd)
    (hstubs : ∀ (n : Nat) (e : Exit), b.exits[n]? = some e →
      b.codeStart ≤ e.stub ∧ e.stub < b.codeEnd) :
    (c.store b).Parted b.codeEnd := by
  have hstored : ∀ {id : Nat} {x : Block}, (c.store b).blocks[id]? = some x →
      c.blocks[id]? = some x ∧ id < c.blocks.size ∨ id = c.blocks.size ∧ x = b.fresh := by
    intro id x hx
    rw [blocks_store, Array.getElem?_push] at hx
    split at hx
    · rename_i hid
      exact .inr ⟨hid, (Option.some.inj hx).symm⟩
    · exact .inl ⟨hx, (Array.getElem?_eq_some_iff.mp hx).1⟩
  refine ⟨fun id x hx => ?_, fun id x id' x' hx hx' hlt => ?_, fun r e he => ?_⟩
  · rcases hstored hx with ⟨hx, -⟩ | ⟨-, rfl⟩
    · exact (h.ends id x hx).trans (hfree.trans hcode)
    · exact le_rfl
  · rcases hstored hx with ⟨hx, hid⟩ | ⟨rfl, rfl⟩ <;>
      rcases hstored hx' with ⟨hx', hid'⟩ | ⟨rfl, rfl⟩
    · exact h.apart id x id' x' hx hx' hlt
    · exact (h.ends id x hx).trans hfree
    · omega
    · omega
  · rw [exit?_store] at he
    split at he
    · rename_i hr
      obtain ⟨e', he', rfl⟩ := Option.map_eq_some_iff.mp he
      rw [hr, blockAt_store_self]
      exact hstubs _ e' he'
    · rename_i hr
      rw [blockAt_store hr]
      exact h.stubs r e he

theorem empty (linking : Bool) (code : CodeSpace) : (BlockCache.empty linking code).Parted 0 where
  ends id b hb := by simp [BlockCache.empty] at hb
  apart id b id' b' hb := by simp [BlockCache.empty] at hb
  stubs r e he := by simp [BlockCache.empty, exit?] at he

theorem clear (c : BlockCache) : c.clear.Parted 0 :=
  have h := Parted.empty c.linking c.code.reset
  ⟨h.ends, h.apart, h.stubs⟩

end Parted

/-- Words that are appended leave those in front of them as they are. -/
theorem codeExtends_extend (code : CodeSpace) (ops : List Operation) :
    CodeExtends code (code.extend ops) where
  offset := by
    rw [CodeSpace.offset_extend]
    exact Nat.le_add_right _ _
  word _ hk := Array.getElem?_append_left hk

/-- Emitting code keeps the code of a block. -/
theorem Embeds.grow {b : Block} {x : Piece} (hembeds : c.Embeds b x) {code : CodeSpace}
    (hcode : CodeExtends c.code code) : Embeds { c with code := code } b x where
  outline := hembeds.outline
  word i op hop hne := by
    have hword := hembeds.word i op hop hne
    have hlt : x.base + i < c.code.offset := (Array.getElem?_eq_some_iff.mp hword).1
    exact (hcode.word _ hlt).trans hword

namespace Stocked

/-- **Changing links keeps the stock.** -/
theorem relinked (h : Stocked options origin free c) (hre : Relinked c c') (hspace : SameSpace c c') :
    Stocked options origin free c' where
  parted := h.parted.relinked hre
  clean := hspace.clean h.clean
  free_le := by
    rw [hspace.offset]
    exact h.free_le
  fits := by
    rw [hspace.offset, hspace.capacity]
    exact h.fits
  small := by
    rw [hspace.capacity]
    exact h.small
  linking := hspace.linking.trans h.linking
  compiled id b' hb' := by
    obtain ⟨b, hb, ho⟩ := hre.isValid_rev hb'
    obtain ⟨x, hx, hembeds⟩ := h.compiled id b hb
    exact ⟨x, hx, h.parted.embeds_relinked hre hb ho.symm hx.neat hembeds⟩

/-- **Withdrawing blocks keeps the stock.** -/
theorem withdraw (h : Stocked options origin free c) (id : Nat) :
    Stocked options origin free (c.withdraw id) where
  parted := h.parted.withdraw id
  clean := h.clean
  free_le := h.free_le
  fits := h.fits
  small := h.small
  linking := h.linking
  compiled i b hb := by
    obtain ⟨x, hx, hembeds⟩ := h.compiled i b (isValid_withdraw_iff.mp hb).1
    exact ⟨x, hx, hembeds.outline, hembeds.word⟩

theorem withdrawAll (h : Stocked options origin free c) (ids : List Nat) :
    Stocked options origin free (c.withdrawAll ids) := by
  induction ids generalizing c with
  | nil => exact h
  | cons id rest ih => exact ih (h.withdraw id)

/-- **Dropping the blocks of a range keeps the stock.**  What is left was there before, and shares
no byte with the range. -/
theorem invalidate (h : Stocked options origin free c) (hc : c.Consistent) (start length : UInt32) :
    ∃ n c', c.invalidate start length = .ok (n, c') ∧ c'.Consistent ∧
      Stocked options origin free c' ∧ c.SameSpace c' ∧ c'.blocks.size = c.blocks.size ∧
      (∀ p, free ≤ p → c'.code.word? p = c.code.word? p) ∧
      ∀ id b', c'.IsValid id b' → ∃ b, c.IsValid id b ∧ b'.outline = b.outline ∧
        b.overlaps start (rangeEnd start length) = false := by
  obtain ⟨c', hinvalidate, hc', hre⟩ := hc.invalidate start length
  have hspace := sameSpace_invalidate hinvalidate
  have h' := (h.withdrawAll (c.overlapping start (rangeEnd start length))).relinked hre
    ((sameSpace_withdrawAll c _).symm.trans hspace)
  refine ⟨_, c', hinvalidate, hc', h', hspace, ?_, fun p hp => ?_, fun id b' hb' => ?_⟩
  · rw [hre.size_blocks, size_withdrawAll]
  · rw [(h.withdrawAll _).parted.word?_behind hre hp, code_withdrawAll]
  · obtain ⟨b, hb, ho⟩ := hre.isValid_rev hb'
    obtain ⟨hb, hleft⟩ := isValid_withdrawAll_iff.mp hb
    refine ⟨b, hb, ho.symm, Bool.eq_false_iff.mpr fun hov => hleft ?_⟩
    exact hc.index.mem_overlapping_iff.mpr ⟨b, hb, hov⟩

/-- **Emitting code keeps the stock.** -/
theorem grow (h : Stocked options origin free c) {code : CodeSpace} (hcode : CodeExtends c.code code)
    (hclean : code.Clean) (hfits : code.offset ≤ code.capacity)
    (hcapacity : code.capacity = c.code.capacity) :
    Stocked options origin free { c with code := code } where
  parted := h.parted.grow code
  clean := hclean
  free_le := h.free_le.trans hcode.offset
  fits := hfits
  small := hcapacity.le.trans h.small
  linking := h.linking
  compiled id b hb := by
    obtain ⟨x, hx, hembeds⟩ := h.compiled id b hb
    exact ⟨x, hx, hembeds.grow hcode⟩

/-- **Storing a compiled block keeps the stock**, if its code was emitted last. -/
theorem store {x : Piece} {memory : Memory} (h : Stocked options origin x.base c)
    (hx : x.Compiled options memory)
    (hword : ∀ i op, x.ops[i]? = some op → c.code.word? (x.base + i) = some op.encode)
    (hend : x.block.codeEnd = c.code.offset) :
    Stocked options (Function.update origin c.blocks.size memory) x.block.codeEnd
      (c.store x.block) := by
  have hbase : x.base ≤ x.block.codeEnd := by
    rw [Piece.Compiled.codeEnd_eq]
    exact Nat.le_add_right _ _
  refine ⟨h.parted.store le_rfl hbase fun n e => hx.exit_bounds, h.clean, hend.le, h.fits, h.small,
    h.linking, fun id b hb => ?_⟩
  rcases isValid_store_iff.mp hb with hb | ⟨rfl, rfl⟩
  · obtain ⟨y, hy, hembeds⟩ := h.compiled id b hb
    rw [Function.update_of_ne hb.lt_size.ne]
    exact ⟨y, hy, hembeds.outline, hembeds.word⟩
  · rw [Function.update_self]
    exact ⟨x, hx, Block.outline_fresh rfl, fun i op hop _ => hword i op hop⟩

/-- **A cleared cache has nothing in stock.** -/
theorem clear (h : Stocked options origin free c) (origin' : Nat → Memory) :
    Stocked options origin' 0 c.clear := by
  refine ⟨.clear c, CodeSpace.clean_truncate _ _, Nat.zero_le _, ?_, h.small, h.linking,
    fun id b hb => absurd hb (not_isValid_clear c id b)⟩
  rw [offset_clear]
  exact Nat.zero_le _

/-- **A compiled block may be stored** if its code was emitted last and it overlaps no valid block. -/
theorem admits {x : Piece} {memory : Memory} (h : Stocked options origin x.base c)
    (hx : x.Compiled options memory)
    (hword : ∀ i op, x.ops[i]? = some op → c.code.word? (x.base + i) = some op.encode)
    (hfree : ∀ id b, c.IsValid id b → b.overlaps x.block.start x.block.stop = false) :
    c.Admits x.block where
  nonempty := UInt32.lt_iff_toNat_lt.mpr (hx.covers.bounds hx.low).2.2.1
  free := hfree
  stub n e he := by
    obtain ⟨i, hi, hstub⟩ := Piece.getElem?_exits hx.neat he
    rw [CodeSpace.operation?, hstub, hword i _ hi]
    have hfits : (Operation.exitDispatch e.target).Fits := trivial
    exact Operation.decode?_encode hfits
  apart n e n' e' he he' heq := by
    rw [Piece.exits_eq hx.neat, List.getElem?_toArray] at he he'
    have hsorted := pairwise_exitsAt x.base x.ops
    rw [List.pairwise_iff_getElem] at hsorted
    obtain ⟨hn, rfl⟩ := List.getElem?_eq_some_iff.mp he
    obtain ⟨hn', rfl⟩ := List.getElem?_eq_some_iff.mp he'
    rcases Nat.lt_trichotomy n n' with hlt | heq' | hlt
    · have hstubs := hsorted n n' hn hn' hlt
      omega
    · exact heq'
    · have hstubs := hsorted n' n hn' hn hlt
      omega
  fresh n e r e' he he' heq := by
    have hstub := hx.exit_bounds he
    obtain ⟨b, hb, -⟩ := exit?_eq_some_iff.mp he'
    have hbounds := h.parted.stubs r e' he'
    have hend := h.parted.ends r.block b hb
    rw [blockAt_of_getElem? hb] at hbounds
    omega

end Stocked

/-! ### The fabric of a stock -/

/-- The pieces of the valid blocks. -/
def pieces (options : Options) (origin : Nat → Memory) (c : BlockCache) : Set Piece :=
  {x | ∃ id b, c.IsValid id b ∧ x.Compiled options (origin id) ∧ c.Embeds b x}

theorem Stocked.exists_piece (h : Stocked options origin free c) {id : Nat} {b : Block}
    (hb : c.IsValid id b) : ∃ x ∈ c.pieces options origin, x.setting.start = b.start ∧
      x.base = b.checkedEntry ∧ x.base + 1 = b.normalEntry := by
  obtain ⟨x, hx, hembeds⟩ := h.compiled id b hb
  exact ⟨x, ⟨id, b, hb, hx, hembeds⟩, (congrArg Block.start hembeds.outline).symm,
    (congrArg Block.checkedEntry hembeds.outline).symm,
    (congrArg Block.normalEntry hembeds.outline).symm⟩

/-- **What became of the word of an operation**: it stands there, or it is a jump to the valid block
at the target of an exit. -/
theorem Consistent.word_of_embeds (hc : c.Consistent) {id : Nat} {b : Block} {x : Piece}
    (hb : c.IsValid id b) (hneat : x.sketch.Neat ∅) (hembeds : c.Embeds b x) {i : Nat}
    {op : Operation} (hop : x.ops[i]? = some op) :
    operationAt? c.code.words (x.base + i) = some op ∨ c.linking = true ∧
      ∃ id' b', c.IsValid id' b' ∧ op = .exitDispatch b'.start ∧
        operationAt? c.code.words (x.base + i) = some (.jump (UInt32.ofNat b'.checkedEntry)) := by
  by_cases hexit : ∃ t, op = .exitDispatch t
  · obtain ⟨t, rfl⟩ := hexit
    obtain ⟨n, e, he, rfl, hstub⟩ := Piece.exists_exit hneat hop
    -- the exit of the block says what became of its word
    obtain ⟨e', he', htarget, hstub'⟩ : ∃ e', c.exit? ⟨id, n⟩ = some e' ∧
        e'.target = e.target ∧ e'.stub = e.stub := by
      have hout : b.outline.exits[n]? = x.block.outline.exits[n]? := by rw [hembeds.outline]
      rw [Block.outline, Block.outline, Array.getElem?_map, Array.getElem?_map, he,
        Option.map_some, Option.map_eq_some_iff] at hout
      obtain ⟨e', he', heq⟩ := hout
      obtain ⟨htarget, hstub', -⟩ := Exit.mk.inj heq
      exact ⟨e', exit?_eq_some_iff.mpr ⟨b, hb.1, he'⟩, htarget, hstub'⟩
    rw [← hstub, ← hstub', ← htarget]
    have hdue := due_of_exit? he'
    rw [hb.blockAt, if_pos hb.2, statusFor] at hdue
    have hshows : c.due ⟨id, n⟩ ≠ .dead → c.Shows e' (c.due ⟨id, n⟩) := fun hne =>
      hc.represents.shows rfl hne he'
    rw [hdue] at hshows
    revert hshows
    split
    · rename_i hlinking
      split
      · rename_i d hfind
        intro hshows
        obtain ⟨-, b', hb', -, hword⟩ := hshows (by simp)
        obtain ⟨b'', hvalid, hstart⟩ := hc.index.find?_eq_some_iff.mp hfind
        rw [hvalid.1, Option.some_inj] at hb'
        subst hb'
        exact .inr ⟨hlinking, d, b'', hvalid, by rw [hstart], hword⟩
      · exact fun hshows => .inl (hshows (by simp)).2
    · exact fun hshows => .inl (hshows (by simp)).2
  · refine .inl ?_
    have hword := hembeds.word i op hop fun t ht => hexit ⟨t, ht⟩
    rw [operationAt?]
    show (c.code.word? _).bind _ = _
    rw [hword]
    exact Operation.decode?_encode (Setting.fits_of_getElem?_code hneat hop)

/-- **Native code runs in the fabric of a consistent stock.** -/
theorem Stocked.fabric (h : Stocked options origin free c) (hc : c.Consistent) :
    Fabric options.downcountInRegister c.code.words (c.pieces options origin) where
  register x hx := by
    obtain ⟨_, _, _, hx, -⟩ := hx
    rw [hx.choice]
  neat x hx := by
    obtain ⟨_, _, _, hx, -⟩ := hx
    exact hx.neat
  charges x hx := by
    obtain ⟨_, _, _, hx, -⟩ := hx
    refine ⟨_, ?_, hx.shaped.charges⟩
    have hsize := hx.low.size_lt
    rw [Lowering.room, ← hx.source.size]
    omega
  word x hx i op hop := by
    obtain ⟨id, b, hb, hx, hembeds⟩ := hx
    rcases hc.word_of_embeds hb hx.neat hembeds hop with hword | ⟨-, id', b', hb', rfl, hword⟩
    · exact .inl hword
    · obtain ⟨y, hy, hystart, hybase, -⟩ := h.exists_piece hb'
      refine .inr ⟨y, hy, by rw [hystart], ?_⟩
      rw [hybase]
      exact hword
  small := h.fits.trans h.small

/-- **The pieces of a stock keep the bound of the options.** -/
theorem within_pieces (options : Options) (origin : Nat → Memory) (c : BlockCache) :
    Within options.blockLength (c.pieces options origin) := by
  rintro x ⟨_, _, _, hx, -⟩
  rw [← hx.choice]
  exact hx.shaped.within le_rfl

/-- **The ways out of a block charge for its instructions.** -/
theorem pays_of_embeds {x : Piece} (hx : x ∈ c.pieces options origin) {b : Block}
    (hembeds : c.Embeds b x) : x.sketch.tail.Pays b.instructions := by
  obtain ⟨_, _, _, hx, -⟩ := hx
  have hcount : b.instructions = x.closing.progress.count :=
    congrArg Block.instructions hembeds.outline
  rw [hcount]
  exact hx.shaped.pays

end BlockCache

end Dynarec
