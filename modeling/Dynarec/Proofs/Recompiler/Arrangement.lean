import Dynarec.Proofs.Cache.Roster
import Dynarec.Proofs.Recompiler.Sound

/-!
# The arrangement of the cache

`BlockCache.Arranged` is what a cache needs so that blocks can be dropped and stored whatever the
code space looks like: the index lists the valid blocks, the code of stored blocks lies one behind
the other, and every link that may have to be changed has a word.  It holds for code spaces of every
size, those included in which a jump cannot name every word.

What becomes of blocks is told by two relations.  `Stays` says that a block is still there with the
same code, and `Loses` that of all valid blocks certain ones are gone and the others stay.  Dropping
the blocks of a range loses those that overlap it (`Arranged.invalidate`), and storing one loses
none (`Arranged.insert`).
-/

namespace Dynarec.BlockCache

variable {c c' c'' : BlockCache} {free : Nat}

/-! ### What becomes of blocks -/

/-- **A valid block stays.**  Its links may be changed, and in its code only the words of its exits. -/
structure Stays (c c' : BlockCache) (id : Nat) (b : Block) : Prop where
  valid : ∃ b', c'.IsValid id b' ∧ b'.outline = b.outline
  word : ∀ p, b.codeStart ≤ p ∧ p < b.codeEnd → (∀ e ∈ b.exits, e.stub ≠ p) →
    c'.code.word? p = c.code.word? p

/-- **Some blocks are lost**, which depends on nothing but their outline; all others stay, and no
block is new. -/
structure Loses (lost : Block → Prop) (c c' : BlockCache) : Prop where
  left : ∀ id b', c'.IsValid id b' → ∃ b, c.IsValid id b ∧ b'.outline = b.outline ∧ ¬ lost b.outline
  stays : ∀ id b, c.IsValid id b → ¬ lost b.outline → c.Stays c' id b

theorem exits_stub_ne_of_outline {b b' : Block} (ho : b'.outline = b.outline) {p : Nat}
    (hne : ∀ e ∈ b.exits, e.stub ≠ p) (e' : Exit) (he' : e' ∈ b'.exits) : e'.stub ≠ p := by
  have hmem : ({ e' with linked := false } : Exit) ∈ b'.outline.exits :=
    Array.mem_map.mpr ⟨e', he', rfl⟩
  rw [ho, Block.outline, Array.mem_map] at hmem
  obtain ⟨e, he, heq⟩ := hmem
  have hstub : e.stub = e'.stub := (Exit.mk.inj heq).2.1
  exact hstub ▸ hne e he

namespace Stays

theorem refl {id : Nat} {b : Block} (hb : c.IsValid id b) : c.Stays c id b :=
  ⟨⟨b, hb, rfl⟩, fun _ _ _ => rfl⟩

/-- A block that stays, and stays again. -/
theorem trans {id : Nat} {b : Block} (x : c.Stays c' id b)
    (y : ∀ b', c'.IsValid id b' → b'.outline = b.outline → c'.Stays c'' id b') : c.Stays c'' id b := by
  obtain ⟨b', hb', ho⟩ := x.valid
  obtain ⟨⟨b'', hb'', ho'⟩, hword⟩ := y b' hb' ho
  refine ⟨⟨b'', hb'', ho'.trans ho⟩, fun p hp hne => (hword p ?_ ?_).trans (x.word p hp hne)⟩
  · have hstart : b'.outline.codeStart = b.outline.codeStart := by rw [ho]
    have hend : b'.outline.codeEnd = b.outline.codeEnd := by rw [ho]
    exact ⟨hstart.le.trans hp.1, hp.2.trans_le hend.ge⟩
  · exact exits_stub_ne_of_outline ho hne

end Stays

namespace Loses

variable {lost lost' : Block → Prop}

theorem refl (c : BlockCache) : Loses (fun _ => False) c c :=
  ⟨fun _ b hb => ⟨b, hb, rfl, id⟩, fun _ _ hb _ => .refl hb⟩

theorem trans (x : Loses lost c c') (y : Loses lost' c' c'') :
    Loses (fun b => lost b ∨ lost' b) c c'' where
  left id b'' hb'' := by
    obtain ⟨b', hb', ho', hleft'⟩ := y.left id b'' hb''
    obtain ⟨b, hb, ho, hleft⟩ := x.left id b' hb'
    rw [ho] at hleft'
    exact ⟨b, hb, ho'.trans ho, not_or.mpr ⟨hleft, hleft'⟩⟩
  stays id b hb hleft := by
    rw [not_or] at hleft
    refine (x.stays id b hb hleft.1).trans fun b' hb' ho => y.stays id b' hb' ?_
    rw [ho]
    exact hleft.2

/-- What is lost can be told in other words. -/
theorem congr (x : Loses lost c c') (h : ∀ id b, c.IsValid id b → (lost b.outline ↔ lost' b.outline)) :
    Loses lost' c c' where
  left id b' hb' := by
    obtain ⟨b, hb, ho, hleft⟩ := x.left id b' hb'
    exact ⟨b, hb, ho, fun hlost => hleft ((h id b hb).mpr hlost)⟩
  stays id b hb hleft := x.stays id b hb fun hlost => hleft ((h id b hb).mp hlost)

theorem fewer (x : Loses lost c c') : c.Fewer c' := fun id b' hb' => by
  obtain ⟨b, hb, ho, -⟩ := x.left id b' hb'
  exact ⟨b, hb, ho⟩

end Loses

/-- Nothing is lost when code is appended. -/
theorem loses_grow {code : CodeSpace} (hcode : CodeExtends c.code code)
    (hends : ∀ (id : Nat) (b : Block), c.blocks[id]? = some b → b.codeEnd ≤ c.code.offset) :
    Loses (fun _ => False) c { c with code := code } where
  left _ b hb := ⟨b, hb, rfl, not_false⟩
  stays id b hb _ := ⟨⟨b, hb, rfl⟩, fun p hp _ => hcode.word p (hp.2.trans_le (hends id b hb.1))⟩

/-! ### The index -/

namespace SoundIndex

theorem withdrawAll {ids : List Nat} (h : c.SoundIndex) (hnd : ids.Nodup)
    (hids : ∀ id ∈ ids, ∃ b, c.IsValid id b) : (c.withdrawAll ids).SoundIndex := by
  induction ids generalizing c with
  | nil => exact h
  | cons id rest ih =>
    obtain ⟨hnot, hnd⟩ := List.nodup_cons.mp hnd
    obtain ⟨b, hb⟩ := hids id List.mem_cons_self
    refine ih (h.withdraw hb) hnd fun i hi => ?_
    obtain ⟨b', hb'⟩ := hids i (List.mem_cons_of_mem _ hi)
    exact ⟨b', isValid_withdraw_iff.mpr ⟨hb', fun heq => hnot (heq ▸ hi)⟩⟩

/-- **A valid block overlaps no other.** -/
theorem eq_of_overlaps (h : c.SoundIndex) {id id' : Nat} {b b' : Block} (hb : c.IsValid id b)
    (hb' : c.IsValid id' b') (hov : b.overlaps b'.start b'.stop = true) : id = id' := by
  rw [Block.overlaps, Bool.and_eq_true, decide_eq_true_eq, decide_eq_true_eq] at hov
  by_cases hlt : b.start < b'.start
  · exact absurd hov.2 (UInt32.not_lt.mpr (h.disjoint id b id' b' hb hb' hlt))
  · by_cases hgt : b'.start < b.start
    · exact absurd hov.1 (UInt32.not_lt.mpr (h.disjoint id' b' id b hb' hb hgt))
    · exact h.id_eq hb hb' (UInt32.le_antisymm (UInt32.not_lt.mp hgt) (UInt32.not_lt.mp hlt))

end SoundIndex

/-! ### The arrangement -/

/-- **A cache that can be worked with.**  Stored blocks lie in front of `free`. -/
structure Arranged (free : Nat) (c : BlockCache) : Prop where
  index : c.SoundIndex
  patchable : c.Patchable
  parted : c.Parted free
  clean : c.code.Clean
  free_le : free ≤ c.code.offset
  fits : c.code.offset ≤ c.code.capacity

namespace Arranged

/-- Links were changed. -/
theorem relinked (h : Arranged free c) (hre : Relinked c c') (hspace : SameSpace c c')
    (hpatchable : c'.Patchable) : Arranged free c' where
  index := hre.soundIndex h.index
  patchable := hpatchable
  parted := h.parted.relinked hre
  clean := hspace.clean h.clean
  free_le := hspace.offset ▸ h.free_le
  fits := by
    rw [hspace.offset, hspace.capacity]
    exact h.fits

/-- **Changing links loses no block.** -/
theorem loses_relinked (h : c.Parted free) (hre : Relinked c c') : Loses (fun _ => False) c c' where
  left id b' hb' := by
    obtain ⟨b, hb, ho⟩ := hre.isValid_rev hb'
    exact ⟨b, hb, ho.symm, not_false⟩
  stays id b hb _ := ⟨hre.isValid hb, fun _ => h.word?_relinked hre hb.1⟩

theorem clear (c : BlockCache) : Arranged 0 c.clear where
  index := (consistent_clear c).index
  patchable := .clear c
  parted := .clear c
  clean := CodeSpace.clean_truncate _ _
  free_le := Nat.zero_le _
  fits := by
    rw [offset_clear]
    exact Nat.zero_le _

/-- **Code is appended.** -/
theorem grow (h : Arranged free c) {code : CodeSpace} (hcode : c.code.offset ≤ code.offset)
    (hclean : code.Clean) (hfits : code.offset ≤ code.capacity) :
    Arranged free { c with code := code } where
  index := ⟨h.index.mem_iff, h.index.sorted, h.index.nonempty, h.index.disjoint⟩
  patchable := h.patchable.grow hcode
  parted := h.parted.grow code
  clean := hclean
  free_le := h.free_le.trans hcode
  fits := hfits

/-- **The blocks of a range are dropped**: those that overlap it are lost. -/
theorem invalidate (h : Arranged free c) (start length : UInt32) :
    ∃ n c', c.invalidate start length = .ok (n, c') ∧ Arranged free c' ∧ c.SameSpace c' ∧
      c'.stored = c.stored ∧
      Loses (fun b => b.overlaps start (rangeEnd start length) = true) c c' := by
  obtain ⟨n, c', hinvalidate, hpatchable⟩ := h.patchable.invalidate start length
  refine ⟨n, c', hinvalidate, ?_⟩
  have hspace := sameSpace_invalidate hinvalidate
  obtain ⟨c₁, hdrop, hok⟩ := ok_of_bind hinvalidate
  cases hok
  have hre := relinked_dropAll hdrop
  have hmem : ∀ {id b}, c.IsValid id b → (id ∈ c.overlapping start (rangeEnd start length) ↔
      b.overlaps start (rangeEnd start length) = true) := fun {id b} hb => by
    rw [h.index.mem_overlapping_iff]
    constructor
    · rintro ⟨b', hb', hov⟩
      exact hb'.unique hb ▸ hov
    · exact fun hov => ⟨b, hb, hov⟩
  have hwithdrawn : Arranged free (c.withdrawAll (c.overlapping start (rangeEnd start length))) := by
    refine ⟨h.index.withdrawAll (h.index.overlapping_nodup _ _) fun id hid => ?_, ?_,
      h.parted.withdrawAll _, ?_, ?_, ?_⟩
    · obtain ⟨b, hb, -⟩ := h.index.mem_overlapping_iff.mp hid
      exact ⟨b, hb⟩
    · exact h.patchable.withdrawAll _
    all_goals rw [code_withdrawAll]
    · exact h.clean
    · exact h.free_le
    · exact h.fits
  refine ⟨hwithdrawn.relinked hre ((sameSpace_withdrawAll c _).symm.trans hspace) hpatchable, hspace,
    hre.size_blocks.trans (size_withdrawAll c _), ?_⟩
  have hleaves := loses_relinked hwithdrawn.parted hre
  refine ⟨fun id b' hb' => ?_, fun id b hb hleft => ?_⟩
  · obtain ⟨b, hb, ho, -⟩ := hleaves.left id b' hb'
    obtain ⟨hb, hnot⟩ := isValid_withdrawAll_iff.mp hb
    exact ⟨b, hb, ho, fun hov => hnot ((hmem hb).mpr hov)⟩
  · have hb' := isValid_withdrawAll_iff.mpr ⟨hb, fun hin => hleft ((hmem hb).mp hin)⟩
    obtain ⟨hvalid, hword⟩ := hleaves.stays id b hb' not_false
    rw [code_withdrawAll] at hword
    exact ⟨hvalid, hword⟩

/-- **A block is stored behind the others**, if it overlaps no valid block.  All of them stay. -/
theorem insert (h : Arranged free c) {b : Block} (hlt : b.start < b.stop)
    (hleft : ∀ id x, c.IsValid id x → x.overlaps b.start b.stop = false) (hfree : free ≤ b.codeStart)
    (hcode : b.codeStart ≤ b.codeEnd) (hend : b.codeEnd = c.code.offset)
    (hstubs : ∀ (n : Nat) (e : Exit), b.exits[n]? = some e →
      b.codeStart ≤ e.stub ∧ e.stub < b.codeEnd) :
    ∃ c', c.insert b = .ok (c.stored, c') ∧ Arranged c'.code.offset c' ∧ c'.stored = c.stored + 1 ∧
      (∃ new, c'.IsValid c.stored new ∧ new.outline = b.fresh) ∧
      (∀ id b', c'.IsValid id b' → id ≠ c.stored → ∃ x, c.IsValid id x ∧ b'.outline = x.outline) ∧
      ∀ id x, c.IsValid id x → c.Stays c' id x := by
  obtain ⟨c', hinsert, hpatchable⟩ := h.patchable.insert (h.index.overlapping_eq_nil_iff.mpr hleft)
    fun _ e he => by
      obtain ⟨n, hn⟩ := Array.mem_iff_getElem?.mp he
      exact hend ▸ (hstubs n e hn).2
  have hre := (keptByLinks_relinked.insert hinsert).2
  have hspace : SameSpace (c.store b) c' :=
    (SameSpace.of_code rfl rfl : SameSpace (c.store b) c).trans (sameSpace_insert hinsert)
  have hparted := h.parted.store hfree hcode hstubs
  have hindex := h.index.store hlt hleft
  have hoffset : c'.code.offset = c.code.offset := hspace.offset
  refine ⟨c', hinsert, ⟨hre.soundIndex hindex, hpatchable, ?_, ?_, le_rfl, ?_⟩, ?_, ?_,
    fun id b' hb' hne => ?_, fun id x hx => ?_⟩
  · rw [hoffset, ← hend]
    exact hparted.relinked hre
  · exact hspace.clean h.clean
  · rw [hoffset, hspace.capacity]
    exact h.fits
  · exact hre.size_blocks.trans (Array.size_push _)
  · obtain ⟨new, hnew, ho⟩ := hre.isValid (isValid_store_iff.mpr (.inr ⟨rfl, rfl⟩))
    exact ⟨new, hnew, ho.trans b.fresh_outline⟩
  · obtain ⟨x, hx, ho⟩ := hre.isValid_rev hb'
    rcases isValid_store_iff.mp hx with hx | ⟨rfl, -⟩
    · exact ⟨x, hx, ho.symm⟩
    · exact absurd rfl hne
  · obtain ⟨hvalid, hword⟩ := (loses_relinked hparted hre).stays id x (isValid_store_iff.mpr (.inl hx))
      not_false
    exact ⟨hvalid, hword⟩

end Arranged

end Dynarec.BlockCache
