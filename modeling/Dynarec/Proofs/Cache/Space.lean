import Dynarec.Proofs.Cache.Patching

/-!
# The cache and its code space

Only lowering and clearing change how much code there is: links rewrite words that were emitted.
`SameSpace c c'` says that nothing else about the code space differs, and so do storing and dropping
blocks (`sameSpace_insert`, `sameSpace_invalidate`), in every cache.
-/

namespace Dynarec.BlockCache

variable {c c' c'' : BlockCache}

/-- **The code spaces differ in their words at most.** -/
structure SameSpace (c c' : BlockCache) : Prop where
  offset : c'.code.offset = c.code.offset
  capacity : c'.code.capacity = c.code.capacity
  overflowed : c'.code.overflowed = c.code.overflowed
  labels : c'.code.labels = c.code.labels
  references : c'.code.references = c.code.references
  linking : c'.linking = c.linking

namespace SameSpace

theorem of_code (hcode : c'.code = c.code) (hlinking : c'.linking = c.linking) : SameSpace c c' := by
  refine ⟨?_, ?_, ?_, ?_, ?_, hlinking⟩ <;> rw [hcode]

theorem refl (c : BlockCache) : SameSpace c c := of_code rfl rfl

theorem trans (x : SameSpace c c') (y : SameSpace c' c'') : SameSpace c c'' :=
  ⟨y.offset.trans x.offset, y.capacity.trans x.capacity, y.overflowed.trans x.overflowed,
    y.labels.trans x.labels, y.references.trans x.references, y.linking.trans x.linking⟩

theorem symm (x : SameSpace c c') : SameSpace c' c :=
  ⟨x.offset.symm, x.capacity.symm, x.overflowed.symm, x.labels.symm, x.references.symm,
    x.linking.symm⟩

end SameSpace

/-! ### Links -/

theorem sameSpace_patchExit {source : ExitRef} {op : Operation}
    (hok : c.patchExit source op = .ok c') : SameSpace c c' := by
  rw [patchExit] at hok
  split at hok
  · cases hok
    exact .refl c
  · rename_i exit _
    obtain ⟨code, hpatch, hok⟩ := ok_of_bind hok
    cases hok
    rw [CodeSpace.patch] at hpatch
    split at hpatch
    · cases hpatch
      exact ⟨Array.size_setIfInBounds, rfl, rfl, rfl, rfl, rfl⟩
    · cases hpatch

theorem keptByLinks_sameSpace : KeptByLinks SameSpace where
  refl := SameSpace.refl
  trans := SameSpace.trans
  patch := sameSpace_patchExit
  mark _ _ _ := .of_code rfl rfl
  list _ _ _ := .of_code rfl rfl
  wait _ _ _ := .of_code rfl rfl

/-! ### Storing and dropping -/

/-- **Storing a block.** -/
theorem sameSpace_insert {b : Block} {id : Nat} (hok : c.insert b = .ok (id, c')) :
    SameSpace c c' := by
  have hstore : SameSpace c (c.store b) := .of_code rfl rfl
  exact hstore.trans (keptByLinks_sameSpace.insert hok).2

theorem sameSpace_drop {id : Nat} (hok : c.drop id = .ok c') : SameSpace c c' := by
  have hwithdraw : SameSpace c (c.withdraw id) := .of_code rfl rfl
  exact hwithdraw.trans (keptByLinks_sameSpace.drop hok)

theorem sameSpace_dropAll {ids : List Nat} (hok : c.dropAll ids = .ok c') : SameSpace c c' := by
  induction ids generalizing c with
  | nil =>
    cases hok
    exact .refl _
  | cons id rest ih =>
    rw [dropAll] at hok
    obtain ⟨c₁, hdrop, hok⟩ := ok_of_bind hok
    exact (sameSpace_drop hdrop).trans (ih hok)

/-- **Dropping blocks.** -/
theorem sameSpace_invalidate {start length : UInt32} {n : Nat}
    (hok : c.invalidate start length = .ok (n, c')) : SameSpace c c' := by
  obtain ⟨c₁, hdrop, hok⟩ := ok_of_bind hok
  cases hok
  exact sameSpace_dropAll hdrop

/-! ### Clearing -/

theorem offset_clear (c : BlockCache) : c.clear.code.offset = 0 :=
  Array.size_shrink.trans (Nat.zero_min _)

/-- A cleared cache has no block. -/
theorem not_isValid_clear (c : BlockCache) (id : Nat) (b : Block) : ¬ c.clear.IsValid id b :=
  fun hb => by
    have hblocks : c.clear.blocks[id]? = none := Array.getElem?_empty
    rw [IsValid, hblocks] at hb
    cases hb.1

end Dynarec.BlockCache
