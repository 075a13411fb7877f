import Dynarec.Proofs.Cache.LinkGraph
import Dynarec.Proofs.Recompiler.Actions

/-!
# What changes of links can do

Storing and dropping blocks changes links in four ways: the word of an exit is replaced, an exit is
marked, the exits that jump to a block are listed anew, and so are those that wait.  A relation that
each of these keeps holds from the cache in which a block was only stored, or only withdrawn, to the
one with its links (`KeptByLinks.insert`, `KeptByLinks.drop`), whatever state the links are in.

Only the first way can go wrong: there must be a word to replace.  `Patchable` says that there is,
wherever a link may be changed.
-/

namespace Dynarec.BlockCache

variable {c c' : BlockCache}

/-- **A relation that no change of a link breaks.** -/
structure KeptByLinks (R : BlockCache → BlockCache → Prop) : Prop where
  refl : ∀ c, R c c
  trans : ∀ {c c' c''}, R c c' → R c' c'' → R c c''
  patch : ∀ {c c' source op}, c.patchExit source op = .ok c' → R c c'
  mark : ∀ c source linked, R c (c.setLinked source linked)
  list : ∀ c id f, R c (c.modifyIncoming id f)
  wait : ∀ c pending stats, R c { c with pending := pending, stats := stats }

namespace KeptByLinks

variable {R : BlockCache → BlockCache → Prop}

theorem link (h : KeptByLinks R) {source : ExitRef} {target : Nat}
    (hok : c.link source target = .ok c') : R c c' := by
  obtain ⟨c₁, hpatch, hok⟩ := ok_of_bind hok
  cases hok
  exact h.trans (h.patch hpatch) (h.trans (h.mark c₁ source true)
    (h.trans (h.list _ target (· ++ [source])) (h.wait _ _ _)))

theorem linkAll (h : KeptByLinks R) {target : Nat} {sources : List ExitRef}
    (hok : c.linkAll target sources = .ok c') : R c c' := by
  induction sources generalizing c with
  | nil =>
    cases hok
    exact h.refl _
  | cons source rest ih =>
    rw [BlockCache.linkAll] at hok
    split at hok
    · obtain ⟨c₁, hone, hok⟩ := ok_of_bind hok
      exact h.trans (h.link hone) (ih hok)
    · exact ih hok

theorem linkWaiting (h : KeptByLinks R) {start : UInt32} {id : Nat}
    (hok : c.linkWaiting start id = .ok c') : R c c' :=
  h.trans (h.wait c _ _) (h.linkAll hok)

theorem linkExits (h : KeptByLinks R) {id : Nat} {exits : List (Exit × Nat)}
    (hok : c.linkExits id exits = .ok c') : R c c' := by
  induction exits generalizing c with
  | nil =>
    cases hok
    exact h.refl _
  | cons x rest ih =>
    obtain ⟨exit, n⟩ := x
    rw [BlockCache.linkExits] at hok
    split at hok
    · obtain ⟨c₁, hone, hok⟩ := ok_of_bind hok
      exact h.trans (h.link hone) (ih hok)
    · exact h.trans (h.wait c _ _) (ih hok)

theorem unlinkIncoming (h : KeptByLinks R) {id : Nat} {start : UInt32} {sources : List ExitRef}
    (hok : c.unlinkIncoming id start sources = .ok c') : R c c' := by
  induction sources generalizing c with
  | nil =>
    cases hok
    exact h.refl _
  | cons source rest ih =>
    rw [BlockCache.unlinkIncoming] at hok
    obtain ⟨c₁, hpatch, hok⟩ := ok_of_bind hok
    refine h.trans (h.patch hpatch) (h.trans (h.mark c₁ source false) (h.trans ?_ (ih hok)))
    split <;> exact h.wait _ _ _

theorem forgetExit (h : KeptByLinks R) (c : BlockCache) (id : Nat) (exit : Exit) (n : Nat) :
    R c (c.forgetExit id exit n) := by
  rw [BlockCache.forgetExit]
  split
  · split
    · exact h.list c _ (·.filter fun source => source != ⟨id, n⟩)
    · exact h.refl c
  · exact h.wait c _ _

theorem forgetExits (h : KeptByLinks R) (c : BlockCache) (id : Nat) (exits : List (Exit × Nat)) :
    R c (exits.foldl (fun c (exit, n) => c.forgetExit id exit n) c) := by
  induction exits generalizing c with
  | nil => exact h.refl c
  | cons x rest ih => exact h.trans (h.forgetExit c id x.1 x.2) (ih _)

/-- **From a stored block to a linked one.** -/
theorem insert (h : KeptByLinks R) {b : Block} {id : Nat} (hok : c.insert b = .ok (id, c')) :
    id = c.blocks.size ∧ R (c.store b) c' := by
  rw [BlockCache.insert] at hok
  split at hok
  · cases hok
  · dsimp only at hok
    split at hok
    · obtain ⟨c₁, hwaiting, hok⟩ := ok_of_bind hok
      obtain ⟨c₂, hexits, hok⟩ := ok_of_bind hok
      cases hok
      exact ⟨rfl, h.trans (h.linkWaiting hwaiting) (h.linkExits hexits)⟩
    · cases hok
      exact ⟨rfl, h.refl _⟩

/-- **From a withdrawn block to a dropped one.** -/
theorem drop (h : KeptByLinks R) {id : Nat} (hok : c.drop id = .ok c') : R (c.withdraw id) c' := by
  rw [drop_eq] at hok
  obtain ⟨c₁, hunlink, hok⟩ := ok_of_bind hok
  cases hok
  exact h.trans (h.unlinkIncoming hunlink) (h.forgetExits c₁ id _)

end KeptByLinks

/-! ### Links are all that changes -/

theorem exit?_of_blockAt {r : ExitRef} {e : Exit}
    (hexit : (c.blockAt r.block).exits[r.exit]? = some e) : c.exit? r = some e := by
  cases hb : c.blocks[r.block]? with
  | none =>
    rw [blockAt, Array.getD_eq_getD_getElem?, hb] at hexit
    cases hexit
  | some b =>
    rw [blockAt_of_getElem? hb] at hexit
    exact exit?_eq_some_iff.mpr ⟨b, hb, hexit⟩

theorem relinked_patchExit {source : ExitRef} {op : Operation}
    (hok : c.patchExit source op = .ok c') : Relinked c c' := by
  rw [patchExit] at hok
  split at hok
  · cases hok
    exact Relinked.refl c
  · rename_i exit hexit
    obtain ⟨code, hpatch, hok⟩ := ok_of_bind hok
    cases hok
    rw [CodeSpace.patch] at hpatch
    split at hpatch
    · rename_i hlt
      cases hpatch
      refine ⟨rfl, rfl, Array.size_setIfInBounds, fun _ => rfl, fun offset hstub => ?_⟩
      exact Array.getElem?_setIfInBounds_ne (hstub source exit (exit?_of_blockAt hexit))
    · cases hpatch

/-- **A block is stored or dropped, and nothing but links changes besides.** -/
theorem keptByLinks_relinked : KeptByLinks Relinked where
  refl := Relinked.refl
  trans := Relinked.trans
  patch := relinked_patchExit
  mark _ := relinked_setLinked
  list _ := relinked_modifyIncoming
  wait _ _ _ := relinked_of_blocks_of_code rfl rfl rfl rfl

/-- **Several blocks are dropped** as if they were withdrawn first. -/
theorem relinked_dropAll {ids : List Nat} (hok : c.dropAll ids = .ok c') :
    Relinked (c.withdrawAll ids) c' := by
  induction ids generalizing c with
  | nil =>
    cases hok
    exact .refl _
  | cons id rest ih =>
    rw [dropAll] at hok
    obtain ⟨c₁, hdrop, hok⟩ := ok_of_bind hok
    exact ((keptByLinks_relinked.drop hdrop).withdrawAll rest).trans (ih hok)

/-! ### There is a word to replace -/

/-- **Every link that may have to be changed can be.**  Without linking there is none. -/
structure Patchable (c : BlockCache) : Prop where
  emitted : c.linking = true → ∀ r e, c.exit? r = some e → e.stub < c.code.offset
  unlinked : c.linking = false → ∀ (id : Nat) b, c.blocks[id]? = some b → b.incoming = []

namespace Patchable

theorem empty (linking : Bool) (code : CodeSpace) : (BlockCache.empty linking code).Patchable where
  emitted _ r e he := by simp [BlockCache.empty, exit?] at he
  unlinked _ id b hb := by simp [BlockCache.empty] at hb

theorem clear (c : BlockCache) : c.clear.Patchable where
  emitted _ r e he := by simp [BlockCache.clear, exit?] at he
  unlinked _ id b hb := by simp [BlockCache.clear] at hb

/-- No word is taken back. -/
theorem grow (h : c.Patchable) {code : CodeSpace} (hcode : c.code.offset ≤ code.offset) :
    Patchable { c with code := code } where
  emitted hl r e he := Nat.lt_of_lt_of_le (h.emitted hl r e he) hcode
  unlinked := h.unlinked

theorem withdraw (h : c.Patchable) (id : Nat) : (c.withdraw id).Patchable where
  emitted hl r e he := h.emitted hl r e (by rw [← exit?_withdraw id, he])
  unlinked hl i b hb := by
    rw [blocks_withdraw] at hb
    split at hb
    · obtain ⟨x, -, rfl⟩ := Option.map_eq_some_iff.mp hb
      rfl
    · exact h.unlinked hl i b hb

theorem withdrawAll (h : c.Patchable) (ids : List Nat) : (c.withdrawAll ids).Patchable := by
  induction ids generalizing c with
  | nil => exact h
  | cons id rest ih => exact ih (h.withdraw id)

theorem relinked (h : c.Patchable) (hl : c.linking = true) (hre : Relinked c c') :
    c'.Patchable where
  emitted _ r e he := by
    obtain ⟨e', he', -, hs⟩ := hre.exit?_rev he
    rw [hre.offset, ← hs]
    exact h.emitted hl r e' he'
  unlinked hl' := by
    rw [hre.linking, hl] at hl'
    cases hl'

theorem patchExit (h : c.Patchable) (hl : c.linking = true) (source : ExitRef) (op : Operation) :
    ∃ c', c.patchExit source op = .ok c' := by
  rw [BlockCache.patchExit]
  split
  · exact ⟨_, rfl⟩
  · rename_i exit hexit
    rw [CodeSpace.patch, if_pos (h.emitted hl source exit (exit?_of_blockAt hexit))]
    exact ⟨_, rfl⟩

theorem link (h : c.Patchable) (hl : c.linking = true) (source : ExitRef) (target : Nat) :
    ∃ c', c.link source target = .ok c' := by
  obtain ⟨c₁, hpatch⟩ := h.patchExit hl source
    (.jump (UInt32.ofNat (c.blockAt target).checkedEntry))
  rw [BlockCache.link, hpatch]
  exact ⟨_, rfl⟩

theorem linkAll (h : c.Patchable) (hl : c.linking = true) (target : Nat)
    (sources : List ExitRef) : ∃ c', c.linkAll target sources = .ok c' := by
  induction sources generalizing c with
  | nil => exact ⟨c, rfl⟩
  | cons source rest ih =>
    rw [BlockCache.linkAll]
    split
    · obtain ⟨c₁, hlink⟩ := h.link hl source target
      have hre := keptByLinks_relinked.link hlink
      rw [hlink]
      exact ih (h.relinked hl hre) (hre.linking.trans hl)
    · exact ih h hl

theorem linkWaiting (h : c.Patchable) (hl : c.linking = true) (start : UInt32) (id : Nat) :
    ∃ c', c.linkWaiting start id = .ok c' := by
  rw [BlockCache.linkWaiting, List.partition_eq_filter_filter]
  have hothers : (c.withoutWaiting start).Patchable :=
    h.relinked hl (keptByLinks_relinked.wait c _ c.stats)
  exact hothers.linkAll hl id _

theorem linkExits (h : c.Patchable) (hl : c.linking = true) (id : Nat)
    (exits : List (Exit × Nat)) : ∃ c', c.linkExits id exits = .ok c' := by
  induction exits generalizing c with
  | nil => exact ⟨c, rfl⟩
  | cons x rest ih =>
    obtain ⟨exit, n⟩ := x
    rw [BlockCache.linkExits]
    split
    · rename_i target _
      obtain ⟨c₁, hlink⟩ := h.link hl ⟨id, n⟩ target
      have hre := keptByLinks_relinked.link hlink
      rw [hlink]
      exact ih (h.relinked hl hre) (hre.linking.trans hl)
    · exact ih (h.relinked hl (keptByLinks_relinked.wait c _ c.stats)) hl

theorem unlinkIncoming (h : c.Patchable) (hl : c.linking = true) (id : Nat) (start : UInt32)
    (sources : List ExitRef) : ∃ c', c.unlinkIncoming id start sources = .ok c' := by
  induction sources generalizing c with
  | nil => exact ⟨c, rfl⟩
  | cons source rest ih =>
    obtain ⟨c₁, hpatch⟩ := h.patchExit hl source (.exitDispatch start)
    have hre := relinked_patchExit hpatch
    have hmark := hre.trans (relinked_setLinked source false)
    rw [BlockCache.unlinkIncoming, hpatch]
    refine ih (h.relinked hl (hmark.trans ?_)) ?_
    · split <;> exact keptByLinks_relinked.wait _ _ _
    · split <;> exact hre.linking.trans hl

/-- **A block is stored**, if its exits have words. -/
theorem insert (h : c.Patchable) {b : Block} (hfree : c.overlapping b.start b.stop = [])
    (hstubs : c.linking = true → ∀ e ∈ b.exits, e.stub < c.code.offset) :
    ∃ c', c.insert b = .ok (c.blocks.size, c') ∧ c'.Patchable := by
  rw [BlockCache.insert, hfree]
  cases hl : c.linking with
  | false =>
    have hlinking : (c.store b).linking = false := hl
    simp only [List.head?_nil, hlinking]
    refine ⟨_, rfl, fun hl' => absurd hl' (by simp [hlinking]), fun _ id x hx => ?_⟩
    rw [blocks_store, Array.getElem?_push] at hx
    split at hx
    · cases hx
      rfl
    · exact h.unlinked hl id x hx
  | true =>
    have hlinking : (c.store b).linking = true := hl
    simp only [List.head?_nil, hlinking, if_true]
    have hstore : (c.store b).Patchable := by
      refine ⟨fun _ r e he => ?_, fun hl' => absurd hl' (by simp [hlinking])⟩
      rw [exit?_store] at he
      split at he
      · obtain ⟨x, hx, rfl⟩ := Option.map_eq_some_iff.mp he
        exact hstubs hl x (Array.mem_of_getElem? hx)
      · exact h.emitted hl r e he
    obtain ⟨c₁, hwaiting⟩ := hstore.linkWaiting hlinking b.start c.blocks.size
    have hre₁ := keptByLinks_relinked.linkWaiting hwaiting
    have h₁ := hstore.relinked hlinking hre₁
    have hl₁ := hre₁.linking.trans hlinking
    obtain ⟨c₂, hexits⟩ := h₁.linkExits hl₁ c.blocks.size b.exits.toList.zipIdx
    rw [hwaiting]
    refine ⟨c₂, ?_, h₁.relinked hl₁ (keptByLinks_relinked.linkExits hexits)⟩
    show (c₁.linkExits _ _ >>= _) = _
    rw [hexits]
    rfl

theorem forgetExits (h : c.Patchable) (id : Nat) (exits : List (Exit × Nat)) :
    (exits.foldl (fun c (exit, n) => c.forgetExit id exit n) c).Patchable := by
  cases hl : c.linking with
  | true => exact h.relinked hl (keptByLinks_relinked.forgetExits c id exits)
  | false =>
    induction exits generalizing c with
    | nil => exact h
    | cons x rest ih =>
      have hre := keptByLinks_relinked.forgetExit c id x.1 x.2
      have hl' : (c.forgetExit id x.1 x.2).linking = false := hre.linking.trans hl
      refine ih ⟨fun hlinking => absurd hlinking (by simp [hl']), fun _ i b hb => ?_⟩ hl'
      change (c.forgetExit id x.1 x.2).blocks[i]? = some b at hb
      rw [BlockCache.forgetExit] at hb
      split at hb
      · split at hb
        · rw [modifyBlock, Array.getElem?_modify] at hb
          split at hb
          · obtain ⟨y, hy, rfl⟩ := Option.map_eq_some_iff.mp hb
            rw [h.unlinked hl i y hy]
            rfl
          · exact h.unlinked hl i b hb
        · exact h.unlinked hl i b hb
      · exact h.unlinked hl i b hb

/-- **A block is dropped.** -/
theorem drop (h : c.Patchable) (id : Nat) : ∃ c', c.drop id = .ok c' ∧ c'.Patchable := by
  have hw := h.withdraw id
  obtain ⟨c₁, hunlink, h₁⟩ : ∃ c₁, (c.withdraw id).unlinkIncoming id (c.blockAt id).start
      (c.incoming id) = .ok c₁ ∧ c₁.Patchable := by
    cases hl : c.linking with
    | true =>
      obtain ⟨c₁, hunlink⟩ := hw.unlinkIncoming hl id (c.blockAt id).start (c.incoming id)
      exact ⟨c₁, hunlink, hw.relinked hl (keptByLinks_relinked.unlinkIncoming hunlink)⟩
    | false =>
      have hnone : c.incoming id = [] := by
        rw [incoming, blockAt, Array.getD_eq_getD_getElem?]
        cases hb : c.blocks[id]? with
        | none => rfl
        | some b => exact h.unlinked hl id b hb
      rw [hnone]
      exact ⟨_, rfl, hw⟩
  rw [drop_eq, hunlink]
  exact ⟨_, rfl, h₁.forgetExits id _⟩

theorem dropAll (h : c.Patchable) (ids : List Nat) :
    ∃ c', c.dropAll ids = .ok c' ∧ c'.Patchable := by
  induction ids generalizing c with
  | nil => exact ⟨c, rfl, h⟩
  | cons id rest ih =>
    obtain ⟨c₁, hdrop, h₁⟩ := h.drop id
    rw [BlockCache.dropAll, hdrop]
    exact ih h₁

end Patchable

end Dynarec.BlockCache
