import Dynarec.Proofs.Cache.Dropping

/-!
# The link graph

`Consistent` is the invariant of the block cache: the index is sound, every exit has a word of its
own, and every exit is in the state that is due to it.  Storing, dropping and clearing keep it, and
so does any change of the code space that keeps the emitted words.
-/

namespace Dynarec.BlockCache

variable {c c' : BlockCache}

/-- **Every exit is in the state that is due to it.** -/
structure Consistent (c : BlockCache) : Prop where
  index : c.SoundIndex
  apart : c.StubsApart
  represents : c.Represents c.due

/-! ### Dropping -/

theorem mem_zipIdx_iff {id : Nat} {b : Block} (hb : c.blocks[id]? = some b) {e : Exit} {n : Nat} :
    (e, n) ∈ b.exits.toList.zipIdx ↔ c.exit? ⟨id, n⟩ = some e := by
  rw [List.mem_zipIdx_iff_getElem?, exit?, hb, Option.bind_some, Array.getElem?_toList]

/-- Exits of other blocks stand where they stood, unless they jumped to the block. -/
theorem due_withdraw (h : c.SoundIndex) {id : Nat} {b : Block} (hb : c.IsValid id b) {r : ExitRef}
    (hr : r.block ≠ id) :
    (c.withdraw id).due r = if c.due r = .jumps id then (c.withdraw id).released id r
      else c.due r := by
  cases he : c.exit? r with
  | none =>
    rw [due_of_exit?_eq_none ((exit?_withdraw id r).trans he), due_of_exit?_eq_none he]
    simp
  | some e =>
    rw [due_of_exit? ((exit?_withdraw id r).trans he), due_of_exit? he, blockAt_withdraw hr,
      released, blockAt_withdraw hr]
    cases hv : (c.blockAt r.block).valid with
    | false => simp
    | true =>
      have hl : (c.withdraw id).linking = c.linking := rfl
      rw [if_pos rfl, if_pos rfl, statusFor, statusFor, hl, h.find?_withdraw hb]
      cases c.linking with
      | false => simp
      | true =>
        by_cases hf : c.find? e.target = some id
        · simp [hf, hr]
        · cases hf' : c.find? e.target with
          | none => simp
          | some d =>
            rw [hf'] at hf
            have hne : d ≠ id := fun heq => hf (by rw [heq])
            simp [hne]

theorem due_withdraw_self {id : Nat} {b : Block} (hb : c.IsValid id b) {r : ExitRef}
    (hr : r.block = id) : (c.withdraw id).due r = .dead := by
  cases he : (c.withdraw id).exit? r with
  | none => exact due_of_exit?_eq_none he
  | some e =>
    have hv : ((c.withdraw id).blockAt r.block).valid = false := by
      rw [blockAt, Array.getD_eq_getD_getElem?, blocks_withdraw, if_pos hr.symm, hr, hb.1]
      rfl
    rw [due_of_exit? he, hv]
    rfl

/-- **Dropping a block keeps the invariant**, and changes nothing but links besides. -/
theorem Consistent.drop (h : c.Consistent) {id : Nat} {b : Block} (hb : c.IsValid id b) :
    ∃ c', c.drop id = .ok c' ∧ c'.Consistent ∧ Relinked (c.withdraw id) c' := by
  have hw : (c.withdraw id).Represents c.due :=
    { shown := fun r hr => by
        obtain ⟨e, he, hs⟩ := h.represents.shown r hr
        refine ⟨e, by rw [exit?_withdraw, he], ?_⟩
        cases hdue : c.due r with
        | dead => trivial
        | rests => rwa [hdue] at hs
        | waits => rwa [hdue] at hs
        | jumps d =>
          rw [hdue] at hs
          obtain ⟨hl, x, hx, hstart, hop⟩ := hs
          refine ⟨hl, ?_⟩
          rw [blocks_withdraw]
          by_cases hd : id = d
          · exact ⟨{ x with valid := false, incoming := [] },
              by rw [if_pos hd, hx, Option.map_some], hstart, hop⟩
          · exact ⟨x, by rw [if_neg hd, hx], hstart, hop⟩
      incoming := fun d x hx r => by
        obtain ⟨hx, hne⟩ := isValid_withdraw_iff.mp hx
        rw [incoming, blockAt_withdraw hne]
        exact h.represents.incoming d x hx r
      pending := fun t r => by
        rw [exit?_withdraw]
        exact h.represents.pending t r }
  have hgone : ∀ x, ¬ (c.withdraw id).IsValid id x := fun x hx => (isValid_withdraw_iff.mp hx).2 rfl
  have hmem : ∀ r, r ∈ c.incoming id ↔ c.due r = .jumps id := fun r => by
    rw [← List.count_pos_iff, h.represents.incoming id b hb]
    by_cases hr : c.due r = .jumps id
    · simp [hr]
    · simp [hr]
  have hnd : (c.incoming id).Nodup := by
    rw [List.nodup_iff_count_le_one]
    intro r
    rw [h.represents.incoming id b hb]
    split <;> omega
  obtain ⟨c₁, hunlink, h₁, hre₁⟩ := hw.unlinkIncoming (c.incoming id)
    (stubsApart_withdraw h.apart id) hgone hnd (fun r hr => by
      have hdue := (hmem r).mp hr
      refine ⟨hdue, ?_⟩
      obtain ⟨-, -, e, he, hf⟩ := due_eq_jumps_iff.mp hdue
      obtain ⟨x, hx, hs⟩ := h.index.find?_eq_some_iff.mp hf
      rw [exit?_withdraw, he, Option.map_some, ← hs, hx.unique hb])
  have hsound₁ : c₁.SoundIndex := hre₁.soundIndex (h.index.withdraw hb)
  obtain ⟨b₁, hb₁, ho₁⟩ : ∃ b₁, c₁.blocks[id]? = some b₁ ∧ b₁.exits.size = b.exits.size := by
    obtain ⟨b₁, hb₁, ho⟩ := hre₁.block? (by rw [blocks_withdraw, if_pos rfl, hb.1, Option.map_some])
    refine ⟨b₁, hb₁, ?_⟩
    have hsize := congrArg (fun x : Block => x.exits.size) ho
    simpa [Block.outline] using hsize
  let exits := (c₁.blockAt id).exits.toList.zipIdx
  have hexits : ∀ e n, (e, n) ∈ exits ↔ c₁.exit? ⟨id, n⟩ = some e := fun e n => by
    rw [← mem_zipIdx_iff hb₁, ← blockAt_of_getElem? hb₁]
  obtain ⟨s₂, h₂, hre₂, hout, hsub, hdead⟩ :=
    h₁.forgetExits exits hsound₁ (fun e n hmem => (hexits e n).mp hmem)
  have hre := hre₁.trans hre₂
  refine ⟨_, ?_, ⟨hre.soundIndex (h.index.withdraw hb),
    hre.stubsApart (stubsApart_withdraw h.apart id), ?_⟩, hre⟩
  · rw [drop_eq, hb.blockAt, hunlink]
    rfl
  · have hs₂ : s₂ = (c.withdraw id).due := by
      funext r
      by_cases hr : r.block = id
      · rw [due_withdraw_self hb hr]
        cases he : c₁.exit? r with
        | some e =>
          have hr' : r = ⟨id, r.exit⟩ := by rw [← hr]
          rw [hr'] at he ⊢
          exact hdead e r.exit ((hexits e r.exit).mpr he)
        | none =>
          by_contra hne
          obtain ⟨e, he', -⟩ := h₂.shown r hne
          obtain ⟨e', he'', -⟩ := hre₂.exit?_rev he'
          rw [he] at he''
          cases he''
      · rw [hout r hr, due_withdraw h.index hb hr]
        by_cases hj : c.due r = .jumps id
        · rw [if_pos hj, if_pos ((hmem r).mpr hj)]
        · rw [if_neg hj, if_neg (fun hr' => hj ((hmem r).mp hr'))]
    rw [hre.due, ← hs₂]
    exact h₂

/-- The blocks of a list are withdrawn one after the other. -/
def withdrawAll (c : BlockCache) (ids : List Nat) : BlockCache := ids.foldl withdraw c

theorem Alike.withdraw (h : Alike c c') (id : Nat) : Alike (c.withdraw id) (c'.withdraw id) where
  index := by
    have hs : (c'.blockAt id).start = (c.blockAt id).start := h.start_blockAt id
    show c'.index.filter _ = c.index.filter _
    rw [h.index, hs]
  outline i := by
    have ho := h.outline i
    rw [outline?, outline?] at ho ⊢
    rw [blocks_withdraw, blocks_withdraw]
    by_cases hi : id = i
    · rw [if_pos hi, if_pos hi, Option.map_map, Option.map_map]
      have hcomp : Block.outline ∘ (fun b : Block => { b with valid := false, incoming := [] }) =
          (fun b : Block => { b with valid := false }) ∘ Block.outline := rfl
      rw [hcomp, ← Option.map_map, ← Option.map_map, ho]
    · rw [if_neg hi, if_neg hi, ho]

theorem Alike.withdrawAll (h : Alike c c') (ids : List Nat) :
    Alike (c.withdrawAll ids) (c'.withdrawAll ids) := by
  induction ids generalizing c c' with
  | nil => exact h
  | cons id rest ih => exact ih (h.withdraw id)

theorem Relinked.withdraw (h : Relinked c c') (id : Nat) :
    Relinked (c.withdraw id) (c'.withdraw id) where
  index := (h.alike.withdraw id).index
  linking := h.linking
  offset := h.offset
  outline := (h.alike.withdraw id).outline
  word offset hstub := h.word offset fun r e he => hstub r e (by rw [exit?_withdraw, he])

theorem isValid_withdrawAll_iff {ids : List Nat} {i : Nat} {b : Block} :
    (c.withdrawAll ids).IsValid i b ↔ c.IsValid i b ∧ i ∉ ids := by
  induction ids generalizing c with
  | nil => simp [withdrawAll]
  | cons id rest ih =>
    show ((c.withdraw id).withdrawAll rest).IsValid i b ↔ _
    rw [ih, isValid_withdraw_iff, List.mem_cons, not_or, and_assoc]

theorem Relinked.withdrawAll (h : Relinked c c') (ids : List Nat) :
    Relinked (c.withdrawAll ids) (c'.withdrawAll ids) := by
  induction ids generalizing c c' with
  | nil => exact h
  | cons id rest ih => exact ih (h.withdraw id)

/-- **Dropping several blocks keeps the invariant.** -/
theorem Consistent.dropAll (ids : List Nat) :
    ∀ {c : BlockCache}, c.Consistent → ids.Nodup → (∀ id ∈ ids, ∃ b, c.IsValid id b) →
      ∃ c', c.dropAll ids = .ok c' ∧ c'.Consistent ∧ Relinked (c.withdrawAll ids) c' := by
  induction ids with
  | nil =>
    intro c h _ _
    exact ⟨c, rfl, h, Relinked.refl c⟩
  | cons id rest ih =>
    intro c h hnd hall
    rw [List.nodup_cons] at hnd
    obtain ⟨b, hb⟩ := hall id List.mem_cons_self
    obtain ⟨c₁, hdrop, h₁, hre₁⟩ := h.drop hb
    obtain ⟨c₂, hrest, h₂, hre₂⟩ := ih h₁ hnd.2 (fun id' hid' => by
      obtain ⟨x, hx⟩ := hall id' (List.mem_cons_of_mem _ hid')
      have hne : id' ≠ id := fun heq => hnd.1 (heq ▸ hid')
      obtain ⟨x', hx', -⟩ := hre₁.isValid (isValid_withdraw_iff.mpr ⟨hx, hne⟩)
      exact ⟨x', hx'⟩)
    refine ⟨c₂, ?_, h₂, (hre₁.withdrawAll rest).trans hre₂⟩
    rw [BlockCache.dropAll, hdrop]
    exact hrest

/-- **Invalidating a range drops the blocks that share a byte with it.** -/
theorem Consistent.invalidate (h : c.Consistent) (start length : UInt32) :
    ∃ c', c.invalidate start length =
        .ok ((c.overlapping start (rangeEnd start length)).length, c') ∧
      c'.Consistent ∧
      Relinked (c.withdrawAll (c.overlapping start (rangeEnd start length))) c' := by
  obtain ⟨c', hdrop, h', hre⟩ := Consistent.dropAll _ h
    (h.index.overlapping_nodup start (rangeEnd start length)) (fun id hid => by
      obtain ⟨b, hb, -⟩ := h.index.mem_overlapping_iff.mp hid
      exact ⟨b, hb⟩)
  refine ⟨c', ?_, h', hre⟩
  rw [BlockCache.invalidate]
  simp only [hdrop]
  rfl

/-! ### Storing -/

/-- **A block that may be stored**: it covers bytes of its own, and each of its exits has a word of
its own that leaves to the dispatcher. -/
structure Admits (c : BlockCache) (b : Block) : Prop where
  nonempty : b.start < b.stop
  free : ∀ id b', c.IsValid id b' → b'.overlaps b.start b.stop = false
  stub : ∀ (n : Nat) (e : Exit), b.exits[n]? = some e →
    c.code.operation? e.stub = some (.exitDispatch e.target)
  apart : ∀ (n : Nat) (e : Exit) (n' : Nat) (e' : Exit), b.exits[n]? = some e →
    b.exits[n']? = some e' → e.stub = e'.stub → n = n'
  fresh : ∀ (n : Nat) (e : Exit) r e', b.exits[n]? = some e → c.exit? r = some e' → e.stub ≠ e'.stub

theorem lt_offset_of_operation? {code : CodeSpace} {k : Nat}
    {op : Operation} (h : code.operation? k = some op) : k < code.offset := by
  obtain ⟨w, hw, -⟩ := Option.bind_eq_some_iff.mp h
  exact (Array.getElem?_eq_some_iff.mp hw).1

theorem exit?_store (b : Block) (r : ExitRef) :
    (c.store b).exit? r =
      if r.block = c.blocks.size then
        (b.exits[r.exit]?).map fun e => { e with linked := false }
      else c.exit? r := by
  rw [exit?, exit?, blocks_store, Array.getElem?_push]
  by_cases hr : r.block = c.blocks.size
  · rw [if_pos hr, if_pos hr, Option.bind_some, Block.fresh, Block.outline, Array.getElem?_map]
  · rw [if_neg hr, if_neg hr]

theorem exit?_eq_none_of_le {r : ExitRef} (hr : c.blocks.size ≤ r.block) : c.exit? r = none := by
  rw [exit?, Array.getElem?_eq_none hr, Option.bind_none]

theorem stubsApart_store (h : c.StubsApart) {b : Block} (hb : c.Admits b) :
    (c.store b).StubsApart where
  emitted r e he := by
    rw [exit?_store] at he
    by_cases hr : r.block = c.blocks.size
    · rw [if_pos hr, Option.map_eq_some_iff] at he
      obtain ⟨x, hx, rfl⟩ := he
      exact lt_offset_of_operation? (hb.stub r.exit x hx)
    · rw [if_neg hr] at he
      exact h.emitted r e he
  apart r e r' e' he he' heq := by
    rw [exit?_store] at he he'
    by_cases hr : r.block = c.blocks.size <;> by_cases hr' : r'.block = c.blocks.size
    · rw [if_pos hr, Option.map_eq_some_iff] at he
      rw [if_pos hr', Option.map_eq_some_iff] at he'
      obtain ⟨x, hx, rfl⟩ := he
      obtain ⟨x', hx', rfl⟩ := he'
      have hn := hb.apart r.exit x r'.exit x' hx hx' heq
      cases r
      cases r'
      simp_all
    · rw [if_pos hr, Option.map_eq_some_iff] at he
      rw [if_neg hr'] at he'
      obtain ⟨x, hx, rfl⟩ := he
      exact absurd heq (hb.fresh r.exit x r' e' hx he')
    · rw [if_neg hr] at he
      rw [if_pos hr', Option.map_eq_some_iff] at he'
      obtain ⟨x', hx', rfl⟩ := he'
      exact absurd heq.symm (hb.fresh r'.exit x' r e hx' he)
    · rw [if_neg hr] at he
      rw [if_neg hr'] at he'
      exact h.apart r e r' e' he he' heq

/-- The exits of a new block rest. -/
def newExit (c : BlockCache) (b : Block) (r : ExitRef) : LinkStatus :=
  if r.block = c.blocks.size then (if r.exit < b.exits.size then .rests else .dead) else c.due r

theorem newExit_of_block {b : Block} {r : ExitRef} (hr : r.block = c.blocks.size) :
    c.newExit b r = .rests ∨ c.newExit b r = .dead := by
  rw [newExit, if_pos hr]
  by_cases hlt : r.exit < b.exits.size
  · exact .inl (if_pos hlt)
  · exact .inr (if_neg hlt)

theorem newExit_of_ne {b : Block} {r : ExitRef} (hr : r.block ≠ c.blocks.size) :
    c.newExit b r = c.due r := if_neg hr

theorem due_of_block {r : ExitRef} (hr : r.block = c.blocks.size) : c.due r = .dead :=
  due_of_exit?_eq_none (exit?_eq_none_of_le (Nat.le_of_eq hr.symm))

theorem represents_store (h : c.Consistent) {b : Block} (hb : c.Admits b) :
    (c.store b).Represents (c.newExit b) where
  shown r hr := by
    rw [exit?_store]
    rw [newExit] at hr ⊢
    by_cases hblock : r.block = c.blocks.size
    · rw [if_pos hblock] at hr ⊢
      rw [if_pos hblock]
      by_cases hlt : r.exit < b.exits.size
      · rw [if_pos hlt]
        have hx : b.exits[r.exit]? = some b.exits[r.exit] := Array.getElem?_eq_getElem hlt
        exact ⟨{ b.exits[r.exit] with linked := false }, by rw [hx, Option.map_some], rfl,
          hb.stub r.exit b.exits[r.exit] hx⟩
      · rw [if_neg hlt] at hr
        exact absurd rfl hr
    · rw [if_neg hblock] at hr ⊢
      rw [if_neg hblock]
      obtain ⟨e, he, hs⟩ := h.represents.shown r hr
      refine ⟨e, he, ?_⟩
      cases hdue : c.due r with
      | dead => trivial
      | rests => rwa [hdue] at hs
      | waits => rwa [hdue] at hs
      | jumps d =>
        rw [hdue] at hs
        obtain ⟨hl, x, hx, hstart, hop⟩ := hs
        obtain ⟨hsize, -⟩ := Array.getElem?_eq_some_iff.mp hx
        refine ⟨hl, x, ?_, hstart, hop⟩
        rw [blocks_store, Array.getElem?_push, if_neg (Nat.ne_of_lt hsize), hx]
  incoming d x hx r := by
    rcases isValid_store_iff.mp hx with hx' | ⟨rfl, rfl⟩
    · have hsize := hx'.lt_size
      rw [incoming_of_getElem? hx.1, ← incoming_of_getElem? hx'.1, h.represents.incoming d x hx']
      by_cases hblock : r.block = c.blocks.size
      · rw [due_of_block hblock]
        rcases newExit_of_block (b := b) hblock with hn | hn <;> simp [hn]
      · rw [newExit_of_ne hblock]
    · rw [incoming_of_getElem? hx.1]
      show 0 = _
      rw [if_neg]
      by_cases hblock : r.block = c.blocks.size
      · rcases newExit_of_block (b := b) hblock with hn | hn <;> simp [hn]
      · rw [newExit_of_ne hblock, due_eq_jumps_iff]
        rintro ⟨-, -, e, -, hf⟩
        obtain ⟨y, hy, -⟩ := h.index.find?_eq_some_iff.mp hf
        exact absurd hy.lt_size (Nat.lt_irrefl _)
  pending t r := by
    show c.pending.count _ = _
    rw [h.represents.pending, exit?_store]
    by_cases hblock : r.block = c.blocks.size
    · rw [due_of_block hblock]
      rcases newExit_of_block (b := b) hblock with hn | hn <;> simp [hn]
    · rw [newExit_of_ne hblock, if_neg hblock]

theorem SoundIndex.find?_store (h : c.SoundIndex) {b : Block} (hb : c.Admits b) (t : UInt32) :
    (c.store b).find? t = if t = b.start then some c.blocks.size else c.find? t := by
  have h' := h.store hb.nonempty hb.free
  by_cases ht : t = b.start
  · rw [if_pos ht, h'.find?_eq_some_iff]
    exact ⟨b.fresh, isValid_store_iff.mpr (.inr ⟨rfl, rfl⟩), ht.symm⟩
  · rw [if_neg ht]
    cases hf : c.find? t with
    | some d =>
      obtain ⟨x, hx, hs⟩ := h.find?_eq_some_iff.mp hf
      exact h'.find?_eq_some_iff.mpr ⟨x, isValid_store_iff.mpr (.inl hx), hs⟩
    | none =>
      rw [h'.find?_eq_none_iff]
      intro i x hx hs
      rcases isValid_store_iff.mp hx with hx | ⟨-, rfl⟩
      · exact h.find?_eq_none_iff.mp hf i x hx hs
      · exact ht hs.symm

theorem blockAt_store {b : Block} {id : Nat} (hid : id ≠ c.blocks.size) :
    (c.store b).blockAt id = c.blockAt id := by
  rw [blockAt, blockAt, Array.getD_eq_getD_getElem?, Array.getD_eq_getD_getElem?, blocks_store,
    Array.getElem?_push, if_neg hid]

theorem blockAt_store_self {b : Block} : (c.store b).blockAt c.blocks.size = b.fresh :=
  blockAt_of_getElem? (by rw [blocks_store, Array.getElem?_push, if_pos rfl])

/-- Exits of older blocks stand where they stood, unless they waited for the new block. -/
theorem due_store (h : c.SoundIndex) {b : Block} (hb : c.Admits b) {r : ExitRef}
    (hr : r.block ≠ c.blocks.size) :
    (c.store b).due r =
      if c.due r = .waits ∧ (c.exit? r).map Exit.target = some b.start then .jumps c.blocks.size
      else c.due r := by
  have hx : (c.store b).exit? r = c.exit? r := by rw [exit?_store, if_neg hr]
  cases he : c.exit? r with
  | none =>
    rw [due_of_exit?_eq_none (hx.trans he), due_of_exit?_eq_none he]
    simp
  | some e =>
    rw [due_of_exit? (hx.trans he), due_of_exit? he, blockAt_store hr]
    simp only [Option.map_some, Option.some_inj]
    cases hv : (c.blockAt r.block).valid with
    | false => simp
    | true =>
      have hl : (c.store b).linking = c.linking := rfl
      rw [if_pos rfl, if_pos rfl, statusFor, statusFor, hl, h.find?_store hb]
      cases c.linking with
      | false => simp
      | true =>
        by_cases ht : e.target = b.start
        · have hnone : c.find? e.target = none := by
            rw [h.find?_eq_none_iff]
            intro i x hx' hs
            have hov := hb.free i x hx'
            have hlt := h.nonempty i x hx'
            rw [hs, ht] at hlt
            simp [Block.overlaps, hs, ht, hb.nonempty, hlt] at hov
          rw [ht] at hnone
          simp [ht, hnone]
        · simp [ht]

theorem due_store_self {b : Block} {r : ExitRef} (hr : r.block = c.blocks.size)
    (hn : b.exits.size ≤ r.exit) : (c.store b).due r = .dead := by
  refine due_of_exit?_eq_none ?_
  rw [exit?_store, if_pos hr, Array.getElem?_eq_none hn, Option.map_none]

/-- **Storing a block keeps the invariant**, and changes nothing but links besides. -/
theorem Consistent.insert (h : c.Consistent) {b : Block} (hb : c.Admits b) :
    ∃ c', c.insert b = .ok (c.blocks.size, c') ∧ c'.Consistent ∧ Relinked (c.store b) c' := by
  have hsound := h.index.store hb.nonempty hb.free
  have hapart := stubsApart_store h.apart hb
  have hrep := represents_store h hb
  have hnone : (c.overlapping b.start b.stop).head? = none := by
    rw [h.index.overlapping_eq_nil_iff.mpr hb.free, List.head?_nil]
  rw [BlockCache.insert]
  simp only [hnone]
  have hlinking : (c.store b).linking = c.linking := rfl
  cases hl : c.linking with
  | false =>
    simp only [hlinking, hl]
    refine ⟨c.store b, rfl, ⟨hsound, hapart, ?_⟩, Relinked.refl _⟩
    have hdue : (c.store b).due = c.newExit b := by
      funext r
      by_cases hr : r.block = c.blocks.size
      · rw [newExit, if_pos hr]
        by_cases hlt : r.exit < b.exits.size
        · have hx : (c.store b).exit? r = some { b.exits[r.exit] with linked := false } := by
            rw [exit?_store, if_pos hr, Array.getElem?_eq_getElem hlt, Option.map_some]
          rw [if_pos hlt, due_of_exit? hx, hr, blockAt_store_self, statusFor, hlinking, hl]
          rfl
        · rw [if_neg hlt, due_store_self hr (Nat.le_of_not_lt hlt)]
      · rw [newExit_of_ne hr, due_store h.index hb hr, if_neg]
        rintro ⟨hw, -⟩
        rw [(due_eq_waits_iff.mp hw).1] at hl
        cases hl
    rw [hdue]
    exact hrep
  | true =>
    simp only [hlinking, hl, if_true]
    have hnew : (c.store b).blocks[c.blocks.size]? = some b.fresh := by
      rw [blocks_store, Array.getElem?_push, if_pos rfl]
    obtain ⟨c₂, hwait, h₂, hre₂⟩ := hrep.linkWaiting hapart hnew (fun r hw => by
      by_cases hr : r.block = c.blocks.size
      · rcases newExit_of_block (b := b) hr with hn | hn <;> rw [hn] at hw <;> cases hw
      · rw [newExit_of_ne hr] at hw
        rw [blockAt_store hr]
        exact (due_eq_waits_iff.mp hw).2.1)
    have hsnd : b.exits.toList.zipIdx.map Prod.snd = List.range b.exits.size := by
      rw [List.zipIdx_map_snd, Array.length_toList, List.range_eq_range']
    have hmem : ∀ e n, (e, n) ∈ b.exits.toList.zipIdx → b.exits[n]? = some e := fun e n hmem => by
      rw [List.mem_zipIdx_iff_getElem?, Array.getElem?_toList] at hmem
      exact hmem
    obtain ⟨c₃, hlink, h₃, hre₃⟩ := h₂.linkExits (d := c.blocks.size) b.exits.toList.zipIdx
      (hre₂.stubsApart hapart) (hre₂.soundIndex hsound) (hre₂.linking.trans hl)
      (by rw [hre₂.valid_blockAt, blockAt_store_self]; rfl)
      (by rw [hsnd]; exact List.nodup_range) (fun e n hen => by
        have hx := hmem e n hen
        obtain ⟨hlt, -⟩ := Array.getElem?_eq_some_iff.mp hx
        have hs : c.newExit b ⟨c.blocks.size, n⟩ = .rests := by
          rw [newExit, if_pos rfl, if_pos hlt]
        refine ⟨by rw [hs]; simp, ?_⟩
        obtain ⟨e', he', ht, -⟩ := hre₂.exit? (r := ⟨c.blocks.size, n⟩)
          (by rw [exit?_store, if_pos rfl, hx, Option.map_some])
        exact ⟨e', he', ht⟩)
    have hre := hre₂.trans hre₃
    have hwait' : (c.store b).linkWaiting b.start c.blocks.size = .ok c₂ := hwait
    refine ⟨c₃, ?_, ⟨hre.soundIndex hsound, hre.stubsApart hapart, ?_⟩, hre⟩
    · rw [hwait']
      show (c₂.linkExits _ _ >>= fun c => _) = _
      rw [hlink]
      rfl
    · rw [hre.due]
      have hdue : (c.store b).due = fun r =>
          if r.block = c.blocks.size ∧ r.exit ∈ b.exits.toList.zipIdx.map Prod.snd then c₂.due r
          else if c.newExit b r = .waits ∧
              ((c.store b).exit? r).map Exit.target = some b.fresh.start
            then .jumps c.blocks.size else c.newExit b r := by
        funext r
        rw [hre₂.due]
        simp only [hsnd, List.mem_range]
        by_cases hr : r.block = c.blocks.size
        · by_cases hlt : r.exit < b.exits.size
          · rw [if_pos ⟨hr, hlt⟩]
          · rw [if_neg (fun hand => hlt hand.2), due_store_self hr (Nat.le_of_not_lt hlt), newExit,
              if_pos hr, if_neg hlt]
            simp
        · rw [if_neg (fun hand => hr hand.1), due_store h.index hb hr, newExit_of_ne hr,
            exit?_store, if_neg hr]
          rfl
      rw [hdue]
      exact h₃

/-! ### Clearing and emitting -/

theorem Consistent.empty (linking : Bool) (code : CodeSpace) :
    (BlockCache.empty linking code).Consistent where
  index := SoundIndex.empty linking code
  apart := ⟨fun r e he => by simp [BlockCache.empty, exit?] at he,
    fun r e r' e' he => by simp [BlockCache.empty, exit?] at he⟩
  represents :=
    { shown := fun r hr => by
        rw [due_of_exit?_eq_none (by simp [BlockCache.empty, exit?])] at hr
        exact absurd rfl hr
      incoming := fun d b hb => by simp [BlockCache.empty, IsValid] at hb
      pending := fun t r => by
        rw [due_of_exit?_eq_none (by simp [BlockCache.empty, exit?])]
        rfl }

/-- Everything that `Consistent` looks at in a cleared cache is that of an empty one. -/
theorem consistent_clear (c : BlockCache) : c.clear.Consistent :=
  have h := Consistent.empty c.linking c.code.reset
  ⟨⟨h.index.mem_iff, h.index.sorted, h.index.nonempty, h.index.disjoint⟩,
    ⟨h.apart.emitted, h.apart.apart⟩,
    ⟨h.represents.shown, h.represents.incoming, h.represents.pending⟩⟩

/-- **The emitted words are kept**, and perhaps more were emitted. -/
structure CodeExtends (code code' : CodeSpace) : Prop where
  offset : code.offset ≤ code'.offset
  word : ∀ k, k < code.offset → code'.word? k = code.word? k

/-- Emission keeps the invariant. -/
theorem Consistent.grow (h : c.Consistent) {code : CodeSpace} (hcode : CodeExtends c.code code) :
    Consistent { c with code := code } where
  index := ⟨h.index.mem_iff, h.index.sorted, h.index.nonempty, h.index.disjoint⟩
  apart := ⟨fun r e he => Nat.lt_of_lt_of_le (h.apart.emitted r e he) hcode.offset, h.apart.apart⟩
  represents :=
    { shown := fun r hr => by
        obtain ⟨e, he, hs⟩ := h.represents.shown r hr
        have hop : code.operation? e.stub = c.code.operation? e.stub :=
          operation?_congr (hcode.word _ (h.apart.emitted r e he))
        refine ⟨e, he, ?_⟩
        have hdue : BlockCache.due { c with code := code } r = c.due r := rfl
        rw [hdue]
        cases hd : c.due r with
        | dead => trivial
        | rests =>
          rw [hd] at hs
          exact ⟨hs.1, hop.trans hs.2⟩
        | waits =>
          rw [hd] at hs
          exact ⟨hs.1, hop.trans hs.2⟩
        | jumps d =>
          rw [hd] at hs
          obtain ⟨hl, b, hb, hstart, hj⟩ := hs
          exact ⟨hl, b, hb, hstart, hop.trans hj⟩
      incoming := h.represents.incoming
      pending := h.represents.pending }

/-! ### Any sequence of operations -/

/-- An operation on the cache or its code space. -/
inductive Change where
  /-- Words were emitted. -/
  | grow (code : CodeSpace)
  | insert (b : Block)
  | invalidate (start length : UInt32)
  | clear

/-- The cache after an operation. -/
def apply (c : BlockCache) : Change → Except Violation BlockCache
  | .grow code => .ok { c with code := code }
  | .insert b => (c.insert b).map Prod.snd
  | .invalidate start length => (c.invalidate start length).map Prod.snd
  | .clear => .ok c.clear

/-- The cache after a sequence of operations. -/
def applyAll (c : BlockCache) : List Change → Except Violation BlockCache
  | [] => .ok c
  | x :: rest => do (← c.apply x).applyAll rest

/-- Words are only added, and only blocks that may be stored are stored. -/
def Allows (c : BlockCache) : Change → Prop
  | .grow code => CodeExtends c.code code
  | .insert b => c.Admits b
  | .invalidate _ _ => True
  | .clear => True

/-- Every operation of a sequence is allowed where it stands. -/
def AllowsAll (c : BlockCache) : List Change → Prop
  | [] => True
  | x :: rest => c.Allows x ∧ ∀ c', c.apply x = .ok c' → c'.AllowsAll rest

theorem linking_withdrawAll (ids : List Nat) : (c.withdrawAll ids).linking = c.linking := by
  induction ids generalizing c with
  | nil => rfl
  | cons id rest ih => exact ih

/-- **Each operation keeps the invariant.** -/
theorem Consistent.apply (h : c.Consistent) {x : Change} (hx : c.Allows x) :
    ∃ c', c.apply x = .ok c' ∧ c'.Consistent ∧ c'.linking = c.linking := by
  cases x with
  | grow code => exact ⟨_, rfl, h.grow hx, rfl⟩
  | insert b =>
    obtain ⟨c', hins, h', hre⟩ := h.insert hx
    exact ⟨c', by rw [BlockCache.apply, hins]; rfl, h', hre.linking⟩
  | invalidate start length =>
    obtain ⟨c', hinv, h', hre⟩ := h.invalidate start length
    exact ⟨c', by rw [BlockCache.apply, hinv]; rfl, h', hre.linking.trans (linking_withdrawAll _)⟩
  | clear => exact ⟨_, rfl, consistent_clear c, rfl⟩

theorem Consistent.applyAll (changes : List Change) :
    ∀ {c : BlockCache}, c.Consistent → c.AllowsAll changes →
      ∃ c', c.applyAll changes = .ok c' ∧ c'.Consistent ∧ c'.linking = c.linking := by
  induction changes with
  | nil =>
    intro c h _
    exact ⟨c, rfl, h, rfl⟩
  | cons x rest ih =>
    intro c h hall
    obtain ⟨c₁, hx, h₁, hl₁⟩ := h.apply hall.1
    obtain ⟨c₂, hrest, h₂, hl₂⟩ := ih h₁ (hall.2 c₁ hx)
    refine ⟨c₂, ?_, h₂, hl₂.trans hl₁⟩
    rw [BlockCache.applyAll, hx]
    exact hrest

/-! ### What the invariant says -/

/-- **The link graph**: an exit jumps exactly if its target has a valid block, and waits exactly if
it has none; it is listed once where it belongs, and nothing else is listed. -/
structure LinkGraph (c : BlockCache) : Prop where
  jumps : ∀ id b (n : Nat) e d dst, c.IsValid id b → b.exits[n]? = some e → c.IsValid d dst →
    dst.start = e.target →
    e.linked = true ∧
      c.code.operation? e.stub = some (.jump (UInt32.ofNat dst.checkedEntry)) ∧
      dst.incoming.count ⟨id, n⟩ = 1
  waits : ∀ id b (n : Nat) e, c.IsValid id b → b.exits[n]? = some e →
    (∀ d dst, c.IsValid d dst → dst.start ≠ e.target) →
    e.linked = false ∧ c.code.operation? e.stub = some (.exitDispatch e.target) ∧
      c.pending.count ⟨e.target, ⟨id, n⟩⟩ = 1
  incoming : ∀ d dst, c.IsValid d dst → ∀ r ∈ dst.incoming, ∃ b e, c.IsValid r.block b ∧
    b.exits[r.exit]? = some e ∧ e.target = dst.start
  pending : ∀ p ∈ c.pending, ∃ b e, c.IsValid p.source.block b ∧
    b.exits[p.source.exit]? = some e ∧ e.target = p.target ∧
    ∀ d dst, c.IsValid d dst → dst.start ≠ p.target

theorem isValid_of_exit? {r : ExitRef} {e : Exit} (he : c.exit? r = some e)
    (hv : (c.blockAt r.block).valid = true) :
    ∃ b, c.IsValid r.block b ∧ b.exits[r.exit]? = some e := by
  obtain ⟨b, hb, hx⟩ := exit?_eq_some_iff.mp he
  rw [blockAt_of_getElem? hb] at hv
  exact ⟨b, ⟨hb, hv⟩, hx⟩

/-- **A consistent cache has the link graph**, if linking is on. -/
theorem Consistent.linkGraph (h : c.Consistent) (hl : c.linking = true) : c.LinkGraph where
  jumps id b n e d dst hb hx hd ht := by
    have he : c.exit? ⟨id, n⟩ = some e := exit?_eq_some_iff.mpr ⟨b, hb.1, hx⟩
    have hdue : c.due ⟨id, n⟩ = .jumps d := by
      rw [due_eq_jumps_iff, hb.blockAt]
      exact ⟨hl, hb.2, e, he, h.index.find?_eq_some_iff.mpr ⟨dst, hd, ht⟩⟩
    obtain ⟨hlinked, x, hx', -, hop⟩ := h.represents.shows hdue (by simp) he
    have hxd : x = dst := Option.some.inj (hx'.symm.trans hd.1)
    refine ⟨hlinked, by rw [hop, hxd], ?_⟩
    rw [← incoming_of_getElem? hd.1, h.represents.incoming d dst hd, if_pos hdue]
  waits id b n e hb hx hnone := by
    have he : c.exit? ⟨id, n⟩ = some e := exit?_eq_some_iff.mpr ⟨b, hb.1, hx⟩
    have hdue : c.due ⟨id, n⟩ = .waits := by
      rw [due_eq_waits_iff, hb.blockAt]
      exact ⟨hl, hb.2, e, he, h.index.find?_eq_none_iff.mpr hnone⟩
    obtain ⟨hlinked, hop⟩ := h.represents.shows hdue (by simp) he
    refine ⟨hlinked, hop, ?_⟩
    rw [h.represents.pending, he, if_pos ⟨hdue, rfl⟩]
  incoming d dst hd r hr := by
    have hcount := h.represents.incoming d dst hd r
    rw [incoming_of_getElem? hd.1] at hcount
    have hpos := List.count_pos_iff.mpr hr
    rw [hcount] at hpos
    have hdue : c.due r = .jumps d := by
      by_contra hne
      rw [if_neg hne] at hpos
      exact Nat.lt_irrefl 0 hpos
    obtain ⟨-, hv, e, he, hf⟩ := due_eq_jumps_iff.mp hdue
    obtain ⟨b, hb, hx⟩ := isValid_of_exit? he hv
    obtain ⟨x, hx', hs⟩ := h.index.find?_eq_some_iff.mp hf
    exact ⟨b, e, hb, hx, by rw [← hs, hx'.unique hd]⟩
  pending p hp := by
    obtain ⟨hdue, ht⟩ := h.represents.mem_pending_iff.mp hp
    obtain ⟨-, hv, e, he, hf⟩ := due_eq_waits_iff.mp hdue
    obtain ⟨b, hb, hx⟩ := isValid_of_exit? he hv
    rw [he, Option.map_some, Option.some_inj] at ht
    refine ⟨b, e, hb, hx, ht, ?_⟩
    rw [← ht]
    exact h.index.find?_eq_none_iff.mp hf

/-- **The link graph survives every sequence of operations.** -/
theorem linkGraph_of_applyAll (code : CodeSpace) (changes : List Change)
    (hallowed : (BlockCache.empty true code).AllowsAll changes) :
    ∃ c, (BlockCache.empty true code).applyAll changes = .ok c ∧ c.LinkGraph := by
  obtain ⟨c, hrun, hc, hl⟩ := Consistent.applyAll changes (Consistent.empty true code) hallowed
  exact ⟨c, hrun, hc.linkGraph hl⟩

/-! ### Whether operations are allowed can be computed -/

/-- The conditions for storing a block, over the lists of blocks and exits. -/
theorem admits_iff {b : Block} : c.Admits b ↔ b.start < b.stop ∧
    (∀ b' ∈ c.blocks.toList, b'.valid = true → b'.overlaps b.start b.stop = false) ∧
    (∀ e ∈ b.exits.toList, c.code.operation? e.stub = some (.exitDispatch e.target)) ∧
    (b.exits.toList.map Exit.stub).Nodup ∧
    ∀ e ∈ b.exits.toList, ∀ b' ∈ c.blocks.toList, ∀ e' ∈ b'.exits.toList, e.stub ≠ e'.stub := by
  have hlisted : ∀ {α : Type} {xs : Array α} {x : α} {n : Nat}, xs[n]? = some x → x ∈ xs.toList :=
    fun h => Array.mem_toList_iff.mpr (Array.mem_of_getElem? h)
  have hplace : ∀ {α : Type} {xs : Array α} {x : α}, x ∈ xs.toList → ∃ n : Nat, xs[n]? = some x :=
    fun h => Array.mem_iff_getElem?.mp (Array.mem_toList_iff.mp h)
  constructor
  · rintro ⟨hnonempty, hfree, hstub, hapart, hfresh⟩
    refine ⟨hnonempty, fun b' hb' hvalid => ?_, fun e he => ?_, ?_, fun e he b' hb' e' he' => ?_⟩
    · obtain ⟨id, hid⟩ := hplace hb'
      exact hfree id b' ⟨hid, hvalid⟩
    · obtain ⟨n, hn⟩ := hplace he
      exact hstub n e hn
    · refine List.nodup_iff_getElem?_ne_getElem?.mpr fun i j hij hj hsame => ?_
      rw [List.getElem?_map, List.getElem?_map, Array.getElem?_toList, Array.getElem?_toList] at hsame
      obtain ⟨e', he'⟩ : ∃ e', b.exits[j]? = some e' :=
        ⟨_, Array.getElem?_eq_getElem (by simpa using hj)⟩
      rw [he', Option.map_some] at hsame
      obtain ⟨e, he, hs⟩ := Option.map_eq_some_iff.mp hsame
      exact Nat.ne_of_lt hij (hapart i e j e' he he' hs)
    · obtain ⟨n, hn⟩ := hplace he
      obtain ⟨id, hid⟩ := hplace hb'
      obtain ⟨n', hn'⟩ := hplace he'
      exact hfresh n e ⟨id, n'⟩ e' hn (exit?_eq_some_iff.mpr ⟨b', hid, hn'⟩)
  · rintro ⟨hnonempty, hfree, hstub, hapart, hfresh⟩
    refine ⟨hnonempty, fun id b' hb' => hfree b' (hlisted hb'.1) hb'.2,
      fun n e hn => hstub e (hlisted hn), fun n e n' e' hn hn' hs => ?_, fun n e r e' hn he' => ?_⟩
    · refine (List.getElem?_inj ?_ hapart).mp ?_
      · simpa using (Array.getElem?_eq_some_iff.mp hn).1
      · rw [List.getElem?_map, List.getElem?_map, Array.getElem?_toList, Array.getElem?_toList, hn, hn',
          Option.map_some, Option.map_some, hs]
    · obtain ⟨b', hb', hn'⟩ := exit?_eq_some_iff.mp he'
      exact hfresh e (hlisted hn) b' (hlisted hb') e' (hlisted hn')

instance (b : Block) : Decidable (c.Admits b) := decidable_of_iff _ admits_iff.symm

theorem codeExtends_iff {code code' : CodeSpace} : CodeExtends code code' ↔
    code.offset ≤ code'.offset ∧ ∀ k < code.offset, code'.word? k = code.word? k :=
  ⟨fun h => ⟨h.offset, h.word⟩, fun h => ⟨h.1, h.2⟩⟩

instance (code code' : CodeSpace) : Decidable (CodeExtends code code') :=
  decidable_of_iff _ codeExtends_iff.symm

instance : (x : Change) → Decidable (c.Allows x)
  | .grow code => inferInstanceAs (Decidable (CodeExtends c.code code))
  | .insert b => inferInstanceAs (Decidable (c.Admits b))
  | .invalidate _ _ => inferInstanceAs (Decidable True)
  | .clear => inferInstanceAs (Decidable True)

/-- The operations behind the first matter as long as it breaks no promise. -/
theorem allowsAll_cons_iff {x : Change} {rest : List Change} : c.AllowsAll (x :: rest) ↔
    c.Allows x ∧ ∀ c' ∈ (c.apply x).toOption, c'.AllowsAll rest := by
  rw [AllowsAll]
  cases c.apply x with
  | error v => simp [Except.toOption]
  | ok c' => simp [Except.toOption]

/-- Whether a sequence of operations is allowed can be computed. -/
def decidableAllowsAll (c : BlockCache) : (changes : List Change) → Decidable (c.AllowsAll changes)
  | [] => isTrue trivial
  | _ :: rest =>
    have := fun c' => decidableAllowsAll c' rest
    decidable_of_iff _ allowsAll_cons_iff.symm

instance (changes : List Change) : Decidable (c.AllowsAll changes) := c.decidableAllowsAll changes

/-- Code of a block that jumps to itself or leaves for an address without a block. -/
def loopCode : CodeSpace where
  words := #[(Operation.checkEntry false 0x1000).encode, (Operation.exitDispatch 0x1000).encode,
    (Operation.exitDispatch 0x2000).encode]
  capacity := 8
  overflowed := false
  labels := #[]
  references := []

/-- The block of that code. -/
def loopBlock : Block where
  start := 0x1000
  stop := 0x1008
  checkedEntry := 0
  normalEntry := 1
  codeStart := 0
  codeEnd := 3
  exits := #[{ target := 0x1000, stub := 1 }, { target := 0x2000, stub := 2 }]
  assumesDefault := false
  instructions := 2

/-- The same code, and that of a block at the other address, which leaves for the first. -/
def returnCode : CodeSpace :=
  { loopCode with
    words := loopCode.words ++
      #[(Operation.checkEntry false 0x2000).encode, (Operation.exitDispatch 0x1000).encode] }

/-- The other block. -/
def returnBlock : Block where
  start := 0x2000
  stop := 0x2004
  checkedEntry := 3
  normalEntry := 4
  codeStart := 3
  codeEnd := 5
  exits := #[{ target := 0x1000, stub := 4 }]
  assumesDefault := false
  instructions := 1

/-- Both blocks are stored, which links all of their exits, and the other one is dropped. -/
def returnChanges : List Change :=
  [.grow returnCode, .insert loopBlock, .insert returnBlock, .invalidate 0x2000 4]

/-- The exit to the block itself stays linked, and the exit to the dropped block waits again. -/
theorem linkGraph_of_loop :
    (BlockCache.empty true loopCode.reset).AllowsAll returnChanges ∧
      ∃ c, (BlockCache.empty true loopCode.reset).applyAll returnChanges = .ok c ∧ c.LinkGraph ∧
        (∃ b, c.IsValid 0 b ∧ b.exits.toList.map Exit.linked = [true, false] ∧
          b.incoming = [⟨0, 0⟩]) ∧
        c.code.operation? 1 = some (.jump 0) ∧ c.code.operation? 2 = some (.exitDispatch 0x2000) ∧
        c.pending = [⟨0x2000, ⟨0, 1⟩⟩] := by
  have hallowed : (BlockCache.empty true loopCode.reset).AllowsAll returnChanges := by decide +kernel
  have hends : ((BlockCache.empty true loopCode.reset).applyAll returnChanges).toOption.any (fun c =>
      c.blocks[0]?.any (fun b => b.valid && b.exits.toList.map Exit.linked == [true, false] &&
        b.incoming == [⟨0, 0⟩]) && c.code.operation? 1 == some (.jump 0) &&
      c.code.operation? 2 == some (.exitDispatch 0x2000) && c.pending == [⟨0x2000, ⟨0, 1⟩⟩]) =
      true := by
    decide +kernel
  obtain ⟨c, hrun, hgraph⟩ := linkGraph_of_applyAll loopCode.reset _ hallowed
  rw [hrun] at hends
  simp only [Except.toOption, Option.any_some, Bool.and_eq_true, beq_iff_eq] at hends
  obtain ⟨⟨⟨hblock, hjump⟩, hleave⟩, hpending⟩ := hends
  obtain ⟨b, hb, hblock⟩ := (Option.any_eq_true _ _).mp hblock
  simp only [Bool.and_eq_true, beq_iff_eq] at hblock
  obtain ⟨⟨hvalid, hlinked⟩, hincoming⟩ := hblock
  exact ⟨hallowed, c, hrun, hgraph, ⟨b, ⟨hb, hvalid⟩, hlinked, hincoming⟩, hjump, hleave, hpending⟩

end Dynarec.BlockCache
