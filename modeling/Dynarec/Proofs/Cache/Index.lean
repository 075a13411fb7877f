import Dynarec.Block.Cache
import Mathlib.Data.List.Nodup

/-!
# The address index of the block cache

The index lists the valid blocks by address.  `SoundIndex` says so: its entries are the stored
blocks that were not dropped, in increasing order, and no two of them share a byte.  From it follows
what the look-ups answer: `find?` gives the valid block that starts at an address
(`find?_eq_some_iff`), and `overlapping` lists exactly the valid blocks that share a byte with a
range (`mem_overlapping_iff`), each once (`overlapping_nodup`).
-/

namespace Dynarec

namespace Block

/-- A block without its links, in either direction. -/
def outline (b : Block) : Block :=
  { b with
    incoming := []
    exits := b.exits.map fun e => { e with linked := false } }

/-- A block as it is stored: valid, and without links. -/
def fresh (b : Block) : Block := { b.outline with valid := true }

end Block

namespace BlockCache

/-- A stored block that was not dropped. -/
def IsValid (c : BlockCache) (id : Nat) (b : Block) : Prop :=
  c.blocks[id]? = some b ∧ b.valid = true

/-- **The index lists the valid blocks.** -/
structure SoundIndex (c : BlockCache) : Prop where
  mem_iff : ∀ start id, (⟨start, id⟩ : Indexed) ∈ c.index ↔ ∃ b, c.IsValid id b ∧ b.start = start
  sorted : c.index.Pairwise fun e e' => e.start < e'.start
  nonempty : ∀ id b, c.IsValid id b → b.start < b.stop
  disjoint : ∀ id b id' b', c.IsValid id b → c.IsValid id' b' → b.start < b'.start →
    b.stop ≤ b'.start

/-! ### Stored blocks -/

theorem blockAt_of_getElem? {c : BlockCache} {id : Nat} {b : Block} (h : c.blocks[id]? = some b) :
    c.blockAt id = b := by
  rw [blockAt, Array.getD_eq_getD_getElem?, h, Option.getD_some]

theorem IsValid.blockAt {c : BlockCache} {id : Nat} {b : Block} (h : c.IsValid id b) :
    c.blockAt id = b := blockAt_of_getElem? h.1

theorem IsValid.lt_size {c : BlockCache} {id : Nat} {b : Block} (h : c.IsValid id b) :
    id < c.blocks.size := by
  obtain ⟨hlt, -⟩ := Array.getElem?_eq_some_iff.mp h.1
  exact hlt

theorem IsValid.unique {c : BlockCache} {id : Nat} {b b' : Block} (h : c.IsValid id b)
    (h' : c.IsValid id b') : b = b' := by
  rw [← h.blockAt, h'.blockAt]

/-! ### Entries of a sorted list -/

/-- In a list by increasing address, two entries of one address are one entry. -/
theorem eq_of_mem_of_start_eq {l : List Indexed}
    (h : l.Pairwise fun e e' => e.start < e'.start) {e e' : Indexed} (he : e ∈ l) (he' : e' ∈ l)
    (hs : e.start = e'.start) : e = e' := by
  induction l with
  | nil => cases he
  | cons a l ih =>
    rw [List.pairwise_cons] at h
    rcases List.mem_cons.mp he with hea | hel <;> rcases List.mem_cons.mp he' with hea' | hel'
    · rw [hea, hea']
    · rw [hea] at hs
      exact absurd hs (UInt32.ne_of_lt (h.1 e' hel'))
    · rw [hea'] at hs
      exact absurd hs.symm (UInt32.ne_of_lt (h.1 e hel))
    · exact ih h.2 hel hel'

/-- A test that holds of a prefix of the list is taken exactly on that prefix. -/
theorem mem_takeWhile_iff {α : Type} {r : α → α → Prop} {p : α → Bool} {l : List α}
    (h : l.Pairwise r) (hp : ∀ a b, r a b → p b = true → p a = true) {a : α} :
    a ∈ l.takeWhile p ↔ a ∈ l ∧ p a = true := by
  induction l with
  | nil => simp
  | cons b l ih =>
    rw [List.pairwise_cons] at h
    rw [List.takeWhile_cons]
    cases hb : p b with
    | true =>
      rw [if_pos rfl, List.mem_cons, List.mem_cons, ih h.2]
      constructor
      · rintro (rfl | ha)
        · exact ⟨.inl rfl, hb⟩
        · exact ⟨.inr ha.1, ha.2⟩
      · rintro ⟨rfl | ha, hpa⟩
        · exact .inl rfl
        · exact .inr ⟨ha, hpa⟩
    | false =>
      simp only [Bool.false_eq_true, if_false, List.not_mem_nil, List.mem_cons, false_iff, not_and]
      rintro (rfl | ha) hpa
      · rw [hb] at hpa; cases hpa
      · rw [hp b a (h.1 a ha) hpa] at hb; cases hb

namespace SoundIndex

variable {c : BlockCache}

/-- Two valid blocks of one address are one block. -/
theorem id_eq (h : c.SoundIndex) {id id' : Nat} {b b' : Block} (hb : c.IsValid id b)
    (hb' : c.IsValid id' b') (hs : b.start = b'.start) : id = id' := by
  have he := eq_of_mem_of_start_eq h.sorted ((h.mem_iff b.start id).mpr ⟨b, hb, rfl⟩)
    ((h.mem_iff b.start id').mpr ⟨b', hb', hs.symm⟩) rfl
  exact congrArg Indexed.id he

theorem isValid_of_mem (h : c.SoundIndex) {e : Indexed} (he : e ∈ c.index) :
    c.IsValid e.id (c.blockAt e.id) ∧ (c.blockAt e.id).start = e.start := by
  obtain ⟨b, hb, hs⟩ := (h.mem_iff e.start e.id).mp he
  rw [hb.blockAt]
  exact ⟨hb, hs⟩

/-! ### Looking up -/

/-- **A look-up finds the valid block that starts at the address.** -/
theorem find?_eq_some_iff (h : c.SoundIndex) {address : UInt32} {id : Nat} :
    c.find? address = some id ↔ ∃ b, c.IsValid id b ∧ b.start = address := by
  rw [← h.mem_iff, find?, Option.map_eq_some_iff]
  constructor
  · rintro ⟨e, he, rfl⟩
    have hs : e.start = address := by simpa using List.find?_some he
    rw [← hs]
    exact List.mem_of_find?_eq_some he
  · intro hmem
    cases hf : c.index.find? (fun e => e.start == address) with
    | none => exact absurd (List.find?_eq_none.mp hf _ hmem) (by simp)
    | some e =>
      have hs : e.start = address := by simpa using List.find?_some hf
      exact ⟨e, rfl, congrArg Indexed.id
        (eq_of_mem_of_start_eq h.sorted (List.mem_of_find?_eq_some hf) hmem hs)⟩

theorem find?_eq_none_iff (h : c.SoundIndex) {address : UInt32} :
    c.find? address = none ↔ ∀ id b, c.IsValid id b → b.start ≠ address := by
  constructor
  · intro hn id b hb hs
    rw [h.find?_eq_some_iff.mpr ⟨b, hb, hs⟩] at hn
    cases hn
  · intro hall
    cases hf : c.find? address with
    | none => rfl
    | some id =>
      obtain ⟨b, hb, hs⟩ := h.find?_eq_some_iff.mp hf
      exact absurd hs (hall id b hb)

/-! ### Overlapping blocks -/

/-- The entries are sorted by the last address of their blocks as well. -/
theorem sorted_by_stop (h : c.SoundIndex) :
    c.index.Pairwise fun e e' => (c.blockAt e.id).stop < (c.blockAt e'.id).stop := by
  refine h.sorted.imp_of_mem fun {e e'} he he' hlt => ?_
  obtain ⟨hv, hs⟩ := h.isValid_of_mem he
  obtain ⟨hv', hs'⟩ := h.isValid_of_mem he'
  have hgap := h.disjoint _ _ _ _ hv hv' (by rw [hs, hs']; exact hlt)
  exact UInt32.lt_of_le_of_lt hgap (h.nonempty _ _ hv')

/-- **The blocks that overlap a range are found exactly.** -/
theorem mem_overlapping_iff (h : c.SoundIndex) {start stop : UInt32} {id : Nat} :
    id ∈ c.overlapping start stop ↔ ∃ b, c.IsValid id b ∧ b.overlaps start stop = true := by
  have hbelow : ∀ e, e ∈ c.index.takeWhile (fun e => e.start < stop) ↔
      e ∈ c.index ∧ e.start < stop := fun e => by
    rw [mem_takeWhile_iff h.sorted (fun a b hab hb => ?_), decide_eq_true_eq]
    rw [decide_eq_true_eq] at hb ⊢
    exact UInt32.lt_trans hab hb
  have hstops : ((c.index.takeWhile fun e => e.start < stop).reverse.map Indexed.id).Pairwise
      fun id id' => (c.blockAt id').stop < (c.blockAt id).stop := by
    rw [List.pairwise_map, List.pairwise_reverse]
    exact h.sorted_by_stop.sublist (List.takeWhile_sublist _)
  rw [overlapping, mem_takeWhile_iff hstops (fun a b hab hb => ?_), List.mem_map,
    decide_eq_true_eq]
  · constructor
    · rintro ⟨⟨e, he, rfl⟩, hstop⟩
      obtain ⟨hmem, hlt⟩ := (hbelow e).mp (List.mem_reverse.mp he)
      obtain ⟨hv, hs⟩ := h.isValid_of_mem hmem
      exact ⟨_, hv, by simp [Block.overlaps, hs, hlt, hstop]⟩
    · rintro ⟨b, hb, hov⟩
      simp only [Block.overlaps, Bool.and_eq_true, decide_eq_true_eq] at hov
      refine ⟨⟨⟨b.start, id⟩, ?_, rfl⟩, by rw [hb.blockAt]; exact hov.2⟩
      rw [List.mem_reverse, hbelow]
      exact ⟨(h.mem_iff _ _).mpr ⟨b, hb, rfl⟩, hov.1⟩
  · rw [decide_eq_true_eq] at hb ⊢
    exact UInt32.lt_trans hb hab

/-- **A look-up finds the valid block that contains the address.** -/
theorem containing?_eq_some_iff (h : c.SoundIndex) {address : UInt32} {b : Block} :
    c.containing? address = some b ↔ (∃ id, c.IsValid id b) ∧ b.contains address = true := by
  have hbelow : ∀ e, e ∈ c.index.takeWhile (fun e => e.start ≤ address) ↔
      e ∈ c.index ∧ e.start ≤ address := fun e => by
    rw [mem_takeWhile_iff h.sorted (fun a b hab hb => ?_), decide_eq_true_eq]
    rw [decide_eq_true_eq] at hb ⊢
    exact UInt32.le_of_lt (UInt32.lt_of_lt_of_le hab hb)
  rw [containing?]
  cases hlast : (c.index.takeWhile fun e => e.start ≤ address).getLast? with
  | none =>
    refine ⟨nofun, fun ⟨⟨id, hb⟩, hin⟩ => ?_⟩
    rw [Block.contains, Bool.and_eq_true, decide_eq_true_eq] at hin
    have hmem := (hbelow ⟨b.start, id⟩).mpr ⟨(h.mem_iff _ _).mpr ⟨b, hb, rfl⟩, hin.1⟩
    rw [List.getLast?_eq_none_iff.mp hlast] at hmem
    cases hmem
  | some e =>
    obtain ⟨front, hfront⟩ := List.getLast?_eq_some_iff.mp hlast
    have hmem : e ∈ c.index.takeWhile (fun e => e.start ≤ address) := by
      rw [hfront]
      exact List.mem_append_right _ (List.mem_singleton_self e)
    obtain ⟨hvalid, hstart⟩ := h.isValid_of_mem ((hbelow e).mp hmem).1
    show (guard ((c.blockAt e.id).contains address) >>= fun _ => some (c.blockAt e.id)) = some b ↔ _
    constructor
    · intro hfound
      cases hin : (c.blockAt e.id).contains address with
      | false =>
        rw [hin] at hfound
        cases hfound
      | true =>
        rw [hin] at hfound
        cases hfound
        exact ⟨⟨_, hvalid⟩, hin⟩
    · rintro ⟨⟨id, hb⟩, hin⟩
      have hbounds := hin
      rw [Block.contains, Bool.and_eq_true, decide_eq_true_eq, decide_eq_true_eq] at hbounds
      have hentry : (⟨b.start, id⟩ : Indexed) ∈ c.index := (h.mem_iff _ _).mpr ⟨b, hb, rfl⟩
      -- an entry behind that of the block would start in the block
      have hsame : (⟨b.start, id⟩ : Indexed) = e := by
        have hin' := (hbelow _).mpr ⟨hentry, hbounds.1⟩
        rw [hfront, List.mem_append, List.mem_singleton] at hin'
        refine hin'.resolve_left fun hbefore => ?_
        have hsorted := h.sorted.sublist (List.takeWhile_sublist fun e : Indexed => e.start ≤ address)
        rw [hfront, List.pairwise_append] at hsorted
        have hlt : b.start < e.start := hsorted.2.2 _ hbefore e (List.mem_singleton_self e)
        have hgap := h.disjoint _ _ _ _ hb hvalid (by rw [hstart]; exact hlt)
        rw [hstart] at hgap
        exact UInt32.lt_irrefl _ (UInt32.lt_of_lt_of_le hbounds.2
          (UInt32.le_trans hgap ((hbelow e).mp hmem).2))
      rw [← hsame]
      show (guard ((c.blockAt id).contains address) >>= fun _ => some (c.blockAt id)) = some b
      rw [hb.blockAt, hin]
      rfl

theorem ids_nodup (h : c.SoundIndex) : (c.index.map Indexed.id).Nodup := by
  rw [List.Nodup, List.pairwise_map]
  refine h.sorted.imp_of_mem fun {e e'} he he' hlt heq => ?_
  have hs := (h.isValid_of_mem he).2
  rw [heq, (h.isValid_of_mem he').2] at hs
  exact UInt32.ne_of_lt hlt hs.symm

/-- Each of them once. -/
theorem overlapping_nodup (h : c.SoundIndex) (start stop : UInt32) :
    (c.overlapping start stop).Nodup := by
  refine List.Nodup.sublist (List.takeWhile_sublist _) ?_
  rw [List.map_reverse, List.nodup_reverse]
  exact h.ids_nodup.sublist ((List.takeWhile_sublist _).map _)

/-! ### Blocks of a range and of an address -/

theorem overlapping_eq_nil_iff (h : c.SoundIndex) {start stop : UInt32} :
    c.overlapping start stop = [] ↔ ∀ id b, c.IsValid id b → b.overlaps start stop = false := by
  rw [List.eq_nil_iff_forall_not_mem]
  constructor
  · intro hnone id b hb
    cases hov : b.overlaps start stop with
    | false => rfl
    | true => exact absurd (h.mem_overlapping_iff.mpr ⟨b, hb, hov⟩) (hnone id)
  · intro hnone id hmem
    obtain ⟨b, hb, hov⟩ := h.mem_overlapping_iff.mp hmem
    rw [hnone id b hb] at hov
    cases hov

end SoundIndex

/-! ### Putting an entry in its place -/

theorem mem_insertEntry {a e : Indexed} {l : List Indexed}
    (hne : ∀ e' ∈ l, e'.start ≠ a.start) : e ∈ insertEntry a l ↔ e = a ∨ e ∈ l := by
  induction l with
  | nil => simp [insertEntry]
  | cons e' l ih =>
    have hne' : ¬ (a.start == e'.start) = true := by
      simpa using (hne e' List.mem_cons_self).symm
    have ih := ih fun x hx => hne x (List.mem_cons_of_mem _ hx)
    rw [insertEntry, if_neg hne']
    by_cases hlt : a.start < e'.start
    · rw [if_pos hlt, List.mem_cons]
    · rw [if_neg hlt, List.mem_cons, ih, List.mem_cons]
      exact or_left_comm

theorem sorted_insertEntry {a : Indexed} {l : List Indexed}
    (h : l.Pairwise fun e e' => e.start < e'.start) (hne : ∀ e' ∈ l, e'.start ≠ a.start) :
    (insertEntry a l).Pairwise fun e e' => e.start < e'.start := by
  induction l with
  | nil => simp [insertEntry]
  | cons e' l ih =>
    have hl : ∀ x ∈ l, x.start ≠ a.start := fun x hx => hne x (List.mem_cons_of_mem _ hx)
    have hne' := hne e' List.mem_cons_self
    rw [List.pairwise_cons] at h
    have hne'' : ¬ (a.start == e'.start) = true := by simpa using hne'.symm
    rw [insertEntry, if_neg hne'']
    by_cases hlt : a.start < e'.start
    · rw [if_pos hlt]
      refine List.Pairwise.cons (fun x hx => ?_) (List.pairwise_cons.mpr h)
      rcases List.mem_cons.mp hx with rfl | hx
      · exact hlt
      · exact UInt32.lt_trans hlt (h.1 x hx)
    · rw [if_neg hlt]
      refine List.Pairwise.cons (fun x hx => ?_) (ih h.2 hl)
      rcases (mem_insertEntry hl).mp hx with rfl | hx
      · exact UInt32.lt_of_le_of_ne (UInt32.not_lt.mp hlt) hne'
      · exact h.1 x hx

/-! ### Storing and dropping -/

variable {c : BlockCache}

theorem blocks_store (b : Block) : (c.store b).blocks = c.blocks.push b.fresh := rfl

theorem isValid_store_iff {b x : Block} {id : Nat} :
    (c.store b).IsValid id x ↔ c.IsValid id x ∨ id = c.blocks.size ∧ x = b.fresh := by
  rw [IsValid, blocks_store, Array.getElem?_push, IsValid]
  by_cases hid : id = c.blocks.size
  · rw [if_pos hid, hid, Array.getElem?_eq_none (Nat.le_refl _), Option.some_inj]
    constructor
    · rintro ⟨rfl, -⟩
      exact .inr ⟨rfl, rfl⟩
    · rintro (⟨hx, -⟩ | ⟨-, rfl⟩)
      · cases hx
      · exact ⟨rfl, rfl⟩
  · rw [if_neg hid]
    constructor
    · exact .inl
    · rintro (hx | ⟨hx, -⟩)
      · exact hx
      · exact absurd hx hid

namespace SoundIndex

theorem empty (linking : Bool) (code : CodeSpace) : (BlockCache.empty linking code).SoundIndex where
  mem_iff start id := by simp [BlockCache.empty, IsValid]
  sorted := List.Pairwise.nil
  nonempty id b hb := by simp [BlockCache.empty, IsValid] at hb
  disjoint id b id' b' hb := by simp [BlockCache.empty, IsValid] at hb

/-- **A block that shares no byte with a valid block may be stored.** -/
theorem store (h : c.SoundIndex) {b : Block} (hb : b.start < b.stop)
    (hfree : ∀ id b', c.IsValid id b' → b'.overlaps b.start b.stop = false) :
    (c.store b).SoundIndex := by
  have hgap : ∀ id b', c.IsValid id b' → b'.start < b.stop → b.start < b'.stop → False := by
    intro id b' hb' hlow hhigh
    have hov := hfree id b' hb'
    simp [Block.overlaps, hlow, hhigh] at hov
  have hne : ∀ e ∈ c.index, e.start ≠ b.start := by
    intro e he hs
    obtain ⟨hv, hs'⟩ := h.isValid_of_mem he
    have hlow : (c.blockAt e.id).start < b.stop := by rw [hs', hs]; exact hb
    refine hgap _ _ hv hlow ?_
    rw [← hs, ← hs']
    exact h.nonempty _ _ hv
  refine ⟨fun start id => ?_, sorted_insertEntry h.sorted hne, ?_, ?_⟩
  · show _ ∈ insertEntry _ _ ↔ _
    rw [mem_insertEntry hne, h.mem_iff, Indexed.mk.injEq]
    simp only [isValid_store_iff]
    constructor
    · rintro (⟨rfl, rfl⟩ | ⟨x, hx, hs⟩)
      · exact ⟨_, .inr ⟨rfl, rfl⟩, rfl⟩
      · exact ⟨x, .inl hx, hs⟩
    · rintro ⟨x, hx | ⟨rfl, rfl⟩, hs⟩
      · exact .inr ⟨x, hx, hs⟩
      · exact .inl ⟨hs.symm, rfl⟩
  · intro id x hx
    rcases isValid_store_iff.mp hx with hx | ⟨-, rfl⟩
    · exact h.nonempty id x hx
    · exact hb
  · intro id x id' x' hx hx' hlt
    rcases isValid_store_iff.mp hx with hx | ⟨-, rfl⟩ <;>
      rcases isValid_store_iff.mp hx' with hx' | ⟨-, rfl⟩
    · exact h.disjoint id x id' x' hx hx' hlt
    · have hlow : x.start < b.stop := UInt32.lt_trans hlt hb
      exact UInt32.not_lt.mp (hgap id x hx hlow)
    · have hstop : ¬ x'.start < b.stop := fun hlow =>
        hgap id' x' hx' hlow (UInt32.lt_trans hlt (h.nonempty id' x' hx'))
      exact UInt32.not_lt.mp hstop
    · exact absurd hlt (UInt32.lt_irrefl _)

end SoundIndex

end BlockCache

end Dynarec
