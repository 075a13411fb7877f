import Dynarec.Proofs.Cache.Index

/-!
# What changing links leaves alone

Links are changed in four places: the word of an exit, its linked flag, the list of incoming exits
of a block, and the exits that wait.  Everything else about the stored blocks is their `outline`.
`Relinked c c'` says that only links were changed from `c` to `c'`, and `exit?` is the exit that a
reference names.  Look-ups answer the same in all caches that are `Alike`.
-/

namespace Dynarec

namespace Block

theorem start_eq_of_outline {b b' : Block} (h : b'.outline = b.outline) : b'.start = b.start := by
  show b'.outline.start = b.outline.start
  rw [h]

theorem stop_eq_of_outline {b b' : Block} (h : b'.outline = b.outline) : b'.stop = b.stop := by
  show b'.outline.stop = b.outline.stop
  rw [h]

theorem valid_eq_of_outline {b b' : Block} (h : b'.outline = b.outline) : b'.valid = b.valid := by
  show b'.outline.valid = b.outline.valid
  rw [h]

theorem checkedEntry_eq_of_outline {b b' : Block} (h : b'.outline = b.outline) :
    b'.checkedEntry = b.checkedEntry := by
  show b'.outline.checkedEntry = b.outline.checkedEntry
  rw [h]

theorem normalEntry_eq_of_outline {b b' : Block} (h : b'.outline = b.outline) :
    b'.normalEntry = b.normalEntry := by
  show b'.outline.normalEntry = b.outline.normalEntry
  rw [h]

end Block

namespace BlockCache

/-- The exit that a reference names. -/
def exit? (c : BlockCache) (r : ExitRef) : Option Exit :=
  (c.blocks[r.block]?).bind fun b => b.exits[r.exit]?

/-- A stored block, without its links. -/
def outline? (c : BlockCache) (id : Nat) : Option Block := (c.blocks[id]?).map Block.outline

/-- The exits that jump to a block. -/
def incoming (c : BlockCache) (id : Nat) : List ExitRef := (c.blockAt id).incoming

/-- **Every exit has an emitted word of its own.** -/
structure StubsApart (c : BlockCache) : Prop where
  emitted : ∀ r e, c.exit? r = some e → e.stub < c.code.offset
  apart : ∀ r e r' e', c.exit? r = some e → c.exit? r' = some e' → e.stub = e'.stub → r = r'

/-- **Two caches store the same blocks**, up to links and to their code. -/
structure Alike (c c' : BlockCache) : Prop where
  index : c'.index = c.index
  outline : ∀ id, c'.outline? id = c.outline? id

/-- **Only links were changed.** -/
structure Relinked (c c' : BlockCache) : Prop where
  index : c'.index = c.index
  linking : c'.linking = c.linking
  offset : c'.code.offset = c.code.offset
  outline : ∀ id, c'.outline? id = c.outline? id
  word : ∀ offset, (∀ r e, c.exit? r = some e → e.stub ≠ offset) →
    c'.code.word? offset = c.code.word? offset

theorem exit?_eq_some_iff {c : BlockCache} {r : ExitRef} {e : Exit} :
    c.exit? r = some e ↔ ∃ b, c.blocks[r.block]? = some b ∧ b.exits[r.exit]? = some e :=
  Option.bind_eq_some_iff

theorem incoming_of_getElem? {c : BlockCache} {id : Nat} {b : Block} (h : c.blocks[id]? = some b) :
    c.incoming id = b.incoming := by
  rw [incoming, blockAt_of_getElem? h]

/-- The outline of a block holds its exits, unlinked. -/
theorem outline?_exits (c : BlockCache) (r : ExitRef) :
    ((c.outline? r.block).bind fun b => b.exits[r.exit]?) =
      (c.exit? r).map fun e => { e with linked := false } := by
  rw [outline?, exit?]
  cases c.blocks[r.block]? with
  | none => rfl
  | some b =>
    rw [Option.map_some, Option.bind_some, Option.bind_some, Block.outline, Array.getElem?_map]

namespace Alike

variable {c c' c'' : BlockCache}

theorem refl (c : BlockCache) : Alike c c := ⟨rfl, fun _ => rfl⟩

theorem symm (h : Alike c c') : Alike c' c := ⟨h.index.symm, fun id => (h.outline id).symm⟩

theorem trans (h : Alike c c') (h' : Alike c' c'') : Alike c c'' :=
  ⟨h'.index.trans h.index, fun id => (h'.outline id).trans (h.outline id)⟩

/-- A block keeps all but its links. -/
theorem block? (h : Alike c c') {id : Nat} {b : Block} (hb : c.blocks[id]? = some b) :
    ∃ b', c'.blocks[id]? = some b' ∧ b'.outline = b.outline := by
  have heq := h.outline id
  rw [outline?, outline?, hb, Option.map_some, Option.map_eq_some_iff] at heq
  exact heq

theorem isValid (h : Alike c c') {id : Nat} {b : Block} (hb : c.IsValid id b) :
    ∃ b', c'.IsValid id b' ∧ b'.outline = b.outline := by
  obtain ⟨b', hb', ho⟩ := h.block? hb.1
  exact ⟨b', ⟨hb', (Block.valid_eq_of_outline ho).trans hb.2⟩, ho⟩

theorem outline_blockAt (h : Alike c c') (id : Nat) :
    (c'.blockAt id).outline = (c.blockAt id).outline := by
  have ho := h.outline id
  rw [outline?, outline?] at ho
  rw [blockAt, blockAt, Array.getD_eq_getD_getElem?, Array.getD_eq_getD_getElem?]
  cases hb : c.blocks[id]? with
  | none =>
    rw [hb, Option.map_none, Option.map_eq_none_iff] at ho
    rw [ho]
  | some b =>
    obtain ⟨b', hb', hout⟩ := h.block? hb
    rw [hb', Option.getD_some, Option.getD_some, hout]

theorem start_blockAt (h : Alike c c') (id : Nat) :
    (c'.blockAt id).start = (c.blockAt id).start :=
  Block.start_eq_of_outline (h.outline_blockAt id)

theorem stop_blockAt (h : Alike c c') (id : Nat) : (c'.blockAt id).stop = (c.blockAt id).stop :=
  Block.stop_eq_of_outline (h.outline_blockAt id)

/-! ### What a look-up answers -/

theorem find? (h : Alike c c') (address : UInt32) : c'.find? address = c.find? address := by
  rw [BlockCache.find?, BlockCache.find?, h.index]

theorem nextStartAfter? (h : Alike c c') (address : UInt32) :
    c'.nextStartAfter? address = c.nextStartAfter? address := by
  rw [BlockCache.nextStartAfter?, BlockCache.nextStartAfter?, h.index]

theorem overlapping (h : Alike c c') (start stop : UInt32) :
    c'.overlapping start stop = c.overlapping start stop := by
  have hstops : (fun id => decide (start < (c'.blockAt id).stop)) =
      fun id => decide (start < (c.blockAt id).stop) := by
    funext id
    rw [h.stop_blockAt]
  rw [BlockCache.overlapping, BlockCache.overlapping, h.index, hstops]

/-- The block that contains an address has the same outline. -/
theorem containing? (h : Alike c c') (address : UInt32) :
    (c'.containing? address).map Block.outline = (c.containing? address).map Block.outline := by
  rw [BlockCache.containing?, BlockCache.containing?, h.index]
  cases (c.index.takeWhile fun e => decide (e.start ≤ address)).getLast? with
  | none => rfl
  | some entry =>
    have hcontains : (c'.blockAt entry.id).contains address =
        (c.blockAt entry.id).contains address := by
      rw [Block.contains, Block.contains, h.start_blockAt, h.stop_blockAt]
    dsimp only [Option.bind_eq_bind, Option.bind_some]
    rw [hcontains]
    cases (c.blockAt entry.id).contains address with
    | false => rfl
    | true => exact congrArg some (h.outline_blockAt entry.id)

/-- The valid blocks have the same outlines. -/
theorem valid (h : Alike c c') : c'.valid.map Block.outline = c.valid.map Block.outline := by
  have hat : (fun e : Indexed => (c'.blockAt e.id).outline) =
      fun e => (c.blockAt e.id).outline := funext fun e => h.outline_blockAt e.id
  rw [BlockCache.valid, BlockCache.valid, h.index, List.map_map, List.map_map]
  exact congrArg (c.index.map ·) hat

theorem stored (h : Alike c c') : c'.stored = c.stored := by
  have hnone : ∀ id : Nat, c'.blocks[id]? = none ↔ c.blocks[id]? = none := by
    intro id
    have ho := h.outline id
    rw [outline?, outline?] at ho
    rw [← Option.map_eq_none_iff (f := Block.outline), ho, Option.map_eq_none_iff]
  refine Nat.le_antisymm ?_ ?_
  · exact Array.getElem?_eq_none_iff.mp ((hnone _).mpr (Array.getElem?_eq_none (Nat.le_refl _)))
  · exact Array.getElem?_eq_none_iff.mp ((hnone _).mp (Array.getElem?_eq_none (Nat.le_refl _)))

end Alike

namespace Relinked

variable {c c' c'' : BlockCache}

theorem exit?_eq (h : Relinked c c') (r : ExitRef) :
    (c'.exit? r).map (fun e => { e with linked := false }) =
      (c.exit? r).map fun e => { e with linked := false } := by
  rw [← outline?_exits, ← outline?_exits, h.outline]

/-- An exit keeps its target and its place. -/
theorem exit? (h : Relinked c c') {r : ExitRef} {e : Exit} (he : c.exit? r = some e) :
    ∃ e', c'.exit? r = some e' ∧ e'.target = e.target ∧ e'.stub = e.stub := by
  have heq := h.exit?_eq r
  rw [he, Option.map_some, Option.map_eq_some_iff] at heq
  obtain ⟨e', he', hmk⟩ := heq
  rw [Exit.mk.injEq] at hmk
  exact ⟨e', he', hmk.1, hmk.2.1⟩

theorem exit?_rev (h : Relinked c c') {r : ExitRef} {e : Exit} (he : c'.exit? r = some e) :
    ∃ e', c.exit? r = some e' ∧ e'.target = e.target ∧ e'.stub = e.stub := by
  have heq := h.exit?_eq r
  rw [he, Option.map_some, eq_comm, Option.map_eq_some_iff] at heq
  obtain ⟨e', he', hmk⟩ := heq
  rw [Exit.mk.injEq] at hmk
  exact ⟨e', he', hmk.1, hmk.2.1⟩

theorem target?_eq (h : Relinked c c') (r : ExitRef) :
    (c'.exit? r).map Exit.target = (c.exit? r).map Exit.target := by
  have heq := congrArg (Option.map Exit.target) (h.exit?_eq r)
  rw [Option.map_map, Option.map_map] at heq
  exact heq

theorem alike (h : Relinked c c') : Alike c c' := ⟨h.index, h.outline⟩

/-- A block keeps all but its links. -/
theorem block? (h : Relinked c c') {id : Nat} {b : Block} (hb : c.blocks[id]? = some b) :
    ∃ b', c'.blocks[id]? = some b' ∧ b'.outline = b.outline := h.alike.block? hb

theorem block?_rev (h : Relinked c c') {id : Nat} {b : Block} (hb : c'.blocks[id]? = some b) :
    ∃ b', c.blocks[id]? = some b' ∧ b'.outline = b.outline := h.alike.symm.block? hb

theorem refl (c : BlockCache) : Relinked c c := ⟨rfl, rfl, rfl, fun _ => rfl, fun _ _ => rfl⟩

theorem trans (h : Relinked c c') (h' : Relinked c' c'') : Relinked c c'' where
  index := h'.index.trans h.index
  linking := h'.linking.trans h.linking
  offset := h'.offset.trans h.offset
  outline id := (h'.outline id).trans (h.outline id)
  word offset hstub := by
    refine (h'.word offset fun r e he => ?_).trans (h.word offset hstub)
    obtain ⟨e', he', -, hs⟩ := h.exit?_rev he
    rw [← hs]
    exact hstub r e' he'

theorem stubsApart (h : Relinked c c') (hs : c.StubsApart) : c'.StubsApart where
  emitted r e he := by
    obtain ⟨e', he', -, hstub⟩ := h.exit?_rev he
    rw [h.offset, ← hstub]
    exact hs.emitted r e' he'
  apart r e r' e' he he' heq := by
    obtain ⟨x, hx, -, hstub⟩ := h.exit?_rev he
    obtain ⟨x', hx', -, hstub'⟩ := h.exit?_rev he'
    exact hs.apart r x r' x' hx hx' (by rw [hstub, hstub', heq])

theorem isValid (h : Relinked c c') {id : Nat} {b : Block} (hb : c.IsValid id b) :
    ∃ b', c'.IsValid id b' ∧ b'.outline = b.outline := h.alike.isValid hb

theorem isValid_rev (h : Relinked c c') {id : Nat} {b : Block} (hb : c'.IsValid id b) :
    ∃ b', c.IsValid id b' ∧ b'.outline = b.outline := h.alike.symm.isValid hb

theorem outline_blockAt (h : Relinked c c') (id : Nat) :
    (c'.blockAt id).outline = (c.blockAt id).outline := h.alike.outline_blockAt id

theorem valid_blockAt (h : Relinked c c') (id : Nat) :
    (c'.blockAt id).valid = (c.blockAt id).valid :=
  Block.valid_eq_of_outline (h.outline_blockAt id)

theorem find? (h : Relinked c c') (address : UInt32) : c'.find? address = c.find? address :=
  h.alike.find? address

/-- The index does not look at links. -/
theorem soundIndex (h : Relinked c c') (hc : c.SoundIndex) : c'.SoundIndex where
  mem_iff start id := by
    rw [h.index, hc.mem_iff]
    constructor
    · rintro ⟨b, hb, rfl⟩
      obtain ⟨b', hb', ho⟩ := h.isValid hb
      exact ⟨b', hb', Block.start_eq_of_outline ho⟩
    · rintro ⟨b, hb, rfl⟩
      obtain ⟨b', hb', ho⟩ := h.isValid_rev hb
      exact ⟨b', hb', Block.start_eq_of_outline ho⟩
  sorted := by rw [h.index]; exact hc.sorted
  nonempty id b hb := by
    obtain ⟨b', hb', ho⟩ := h.isValid_rev hb
    have hlt := hc.nonempty id b' hb'
    rw [Block.start_eq_of_outline ho, Block.stop_eq_of_outline ho] at hlt
    exact hlt
  disjoint id b id' b' hb hb' hlt := by
    obtain ⟨x, hx, ho⟩ := h.isValid_rev hb
    obtain ⟨x', hx', ho'⟩ := h.isValid_rev hb'
    have hle := hc.disjoint id x id' x' hx hx'
    rw [Block.start_eq_of_outline ho, Block.start_eq_of_outline ho', Block.stop_eq_of_outline ho] at hle
    exact hle hlt

end Relinked

/-! ### One change at a time -/

variable {c : BlockCache}

/-- The word of an exit is replaced. -/
def withWord (c : BlockCache) (offset : Nat) (op : Operation) : BlockCache :=
  { c with code := { c.code with words := c.code.words.setIfInBounds offset op.encode } }

theorem patchExit_eq (hs : c.StubsApart) {r : ExitRef} {e : Exit} (he : c.exit? r = some e)
    (op : Operation) : c.patchExit r op = .ok (c.withWord e.stub op) := by
  obtain ⟨b, hb, hx⟩ := exit?_eq_some_iff.mp he
  have hlt := hs.emitted r e he
  rw [patchExit, blockAt_of_getElem? hb, hx]
  simp only [CodeSpace.patch, if_pos hlt]
  rfl

theorem word?_withWord {offset : Nat} (h : offset < c.code.offset) (op : Operation) (k : Nat) :
    (c.withWord offset op).code.word? k =
      if offset = k then some op.encode else c.code.word? k := by
  show (c.code.words.setIfInBounds offset op.encode)[k]? = _
  rw [Array.getElem?_setIfInBounds]
  by_cases hk : offset = k
  · rw [if_pos hk, if_pos hk]
    exact if_pos h
  · rw [if_neg hk, if_neg hk]
    rfl

theorem relinked_withWord {r : ExitRef} {e : Exit} (hs : c.StubsApart) (he : c.exit? r = some e)
    (op : Operation) : Relinked c (c.withWord e.stub op) where
  index := rfl
  linking := rfl
  offset := Array.size_setIfInBounds
  outline _ := rfl
  word offset hstub := by
    rw [word?_withWord (hs.emitted r e he), if_neg (hstub r e he)]

/-- Changes of a stored block that keep its outline. -/
theorem relinked_modifyBlock {id : Nat} {f : Block → Block}
    (hf : ∀ b, (f b).outline = b.outline) : Relinked c (c.modifyBlock id f) where
  index := rfl
  linking := rfl
  offset := rfl
  outline i := by
    show ((c.blocks.modify id f)[i]?).map _ = (c.blocks[i]?).map _
    rw [Array.getElem?_modify]
    by_cases hi : id = i
    · rw [if_pos hi]
      cases c.blocks[i]? with
      | none => rfl
      | some b => exact congrArg some (hf b)
    · rw [if_neg hi]
  word _ _ := rfl

theorem relinked_setLinked (r : ExitRef) (linked : Bool) : Relinked c (c.setLinked r linked) := by
  refine relinked_modifyBlock fun b => ?_
  rw [Block.outline, Block.outline, Block.mk.injEq]
  refine ⟨rfl, rfl, rfl, rfl, rfl, rfl, ?_, rfl, rfl, rfl, rfl⟩
  refine Array.ext_getElem? fun i => ?_
  rw [Array.getElem?_map, Array.getElem?_map, Block.modifyExit, Array.getElem?_modify]
  by_cases hi : r.exit = i
  · rw [if_pos hi]
    cases b.exits[i]? <;> rfl
  · rw [if_neg hi]

theorem exit?_setLinked (r r' : ExitRef) (linked : Bool) :
    (c.setLinked r linked).exit? r' =
      if r' = r then (c.exit? r).map fun e => { e with linked := linked } else c.exit? r' := by
  show ((c.blocks.modify r.block _)[r'.block]?).bind _ = _
  rw [Array.getElem?_modify]
  by_cases hb : r.block = r'.block
  · rw [if_pos hb, exit?, exit?, hb]
    cases c.blocks[r'.block]? with
    | none => simp
    | some b =>
      show (b.exits.modify r.exit _)[r'.exit]? = _
      rw [Array.getElem?_modify]
      by_cases hn : r.exit = r'.exit
      · have hr : r' = r := by cases r; cases r'; simp_all
        rw [if_pos hn, if_pos hr, hn, Option.bind_some]
      · have hr : r' ≠ r := fun heq => hn (by rw [heq])
        rw [if_neg hn, if_neg hr, Option.bind_some]
  · have hr : r' ≠ r := fun heq => hb (by rw [heq])
    rw [if_neg hb, if_neg hr, exit?]

theorem incoming_setLinked (r : ExitRef) (linked : Bool) (id : Nat) :
    (c.setLinked r linked).incoming id = c.incoming id := by
  rw [incoming, incoming, blockAt, blockAt, Array.getD_eq_getD_getElem?,
    Array.getD_eq_getD_getElem?]
  show ((c.blocks.modify r.block _)[id]?.getD default).incoming = _
  rw [Array.getElem?_modify]
  by_cases hb : r.block = id
  · rw [if_pos hb]
    cases c.blocks[id]? <;> rfl
  · rw [if_neg hb]

/-- The incoming exits of one block are changed. -/
def modifyIncoming (c : BlockCache) (id : Nat) (f : List ExitRef → List ExitRef) : BlockCache :=
  c.modifyBlock id fun b => { b with incoming := f b.incoming }

theorem relinked_modifyIncoming (id : Nat) (f : List ExitRef → List ExitRef) :
    Relinked c (c.modifyIncoming id f) := relinked_modifyBlock fun _ => rfl

theorem exit?_modifyIncoming (id : Nat) (f : List ExitRef → List ExitRef) (r : ExitRef) :
    (c.modifyIncoming id f).exit? r = c.exit? r := by
  show ((c.blocks.modify id _)[r.block]?).bind _ = _
  rw [Array.getElem?_modify, exit?]
  by_cases hb : id = r.block
  · rw [if_pos hb]
    cases c.blocks[r.block]? <;> rfl
  · rw [if_neg hb]

theorem incoming_modifyIncoming {id : Nat} (hid : id < c.blocks.size)
    (f : List ExitRef → List ExitRef) (id' : Nat) :
    (c.modifyIncoming id f).incoming id' =
      if id' = id then f (c.incoming id) else c.incoming id' := by
  rw [incoming, incoming, incoming, blockAt, blockAt, blockAt, Array.getD_eq_getD_getElem?,
    Array.getD_eq_getD_getElem?, Array.getD_eq_getD_getElem?]
  show ((c.blocks.modify id _)[id']?.getD default).incoming = _
  rw [Array.getElem?_modify]
  by_cases hb : id' = id
  · rw [if_pos hb, hb, if_pos rfl, Array.getElem?_eq_getElem hid]
    rfl
  · rw [if_neg hb, if_neg (Ne.symm hb)]

/-- The exits that wait, and the counters, are no part of a block. -/
theorem relinked_of_blocks_of_code {c' : BlockCache} (hblocks : c'.blocks = c.blocks)
    (hcode : c'.code = c.code) (hindex : c'.index = c.index) (hlinking : c'.linking = c.linking) :
    Relinked c c' where
  index := hindex
  linking := hlinking
  offset := by rw [hcode]
  outline id := by rw [outline?, outline?, hblocks]
  word offset _ := by rw [hcode]

end BlockCache

end Dynarec
