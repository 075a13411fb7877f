import Dynarec.Proofs.Cache.Space

/-!
# The block cache as a list of blocks

A `Roster` is the cache without its index: it lists the valid blocks as they came, and answers every
question by going through the list.  `BlockCache.Lists c r` relates a cache to the roster of its
valid blocks.  Each operation keeps the relation (`Lists.apply`), so it holds after any sequence of
them (`Lists.applyAll`), and what the cache answers by its index is what the roster answers
(`Lists.answers`).
-/

namespace Dynarec

/-- A stored block has no links yet. -/
theorem Block.fresh_outline (b : Block) : b.fresh.outline = b.fresh := by
  rw [Block.fresh, Block.outline, Block.outline, Block.mk.injEq]
  exact ⟨rfl, rfl, rfl, rfl, rfl, rfl, by simp, rfl, rfl, rfl, rfl⟩

/-- A stored block, without its links, and its number. -/
structure Listed where
  id : Nat
  block : Block
deriving DecidableEq, Repr

/-- The block shares a byte with `length` bytes from `start`, or with the byte at `start` if there
are none.  The bytes may run past the last address. -/
def Listed.hit (start length : UInt32) (e : Listed) : Bool :=
  e.block.start.toNat < start.toNat + max length.toNat 1 && start.toNat < e.block.stop.toNat

/-- **The naive block cache.** -/
structure Roster where
  /-- Number of stored blocks, valid or not. -/
  stored : Nat
  /-- The valid blocks in the order in which they were stored. -/
  listed : List Listed
deriving DecidableEq, Repr

namespace Roster

def empty : Roster := ⟨0, []⟩

/-! ### Looking through the list -/

/-- The block that starts at an address. -/
def find? (r : Roster) (address : UInt32) : Option Listed :=
  r.listed.find? fun e => e.block.start == address

/-- The block that contains an address. -/
def containing? (r : Roster) (address : UInt32) : Option Listed :=
  r.listed.find? fun e => e.block.contains address

/-- The least start above an address. -/
def nextStartAfter? (r : Roster) (address : UInt32) : Option UInt32 :=
  ((r.listed.map fun e => e.block.start).filter fun start => address < start).min?

/-! ### Changing the list -/

def insert (r : Roster) (b : Block) : Roster :=
  ⟨r.stored + 1, r.listed ++ [⟨r.stored, b.fresh⟩]⟩

/-- The blocks that share a byte with a range are taken off. -/
def invalidate (r : Roster) (start length : UInt32) : Roster :=
  { r with listed := r.listed.filter fun e => !e.hit start length }

/-- The roster after an operation; it knows nothing about code. -/
def apply (r : Roster) : BlockCache.Change → Roster
  | .grow _ => r
  | .insert b => r.insert b
  | .invalidate start length => r.invalidate start length
  | .clear => empty

def applyAll (r : Roster) (changes : List BlockCache.Change) : Roster := changes.foldl apply r

/-- A block is stored only where no valid block lies. -/
def Separate (r : Roster) : BlockCache.Change → Prop
  | .insert b => b.start < b.stop ∧ ∀ e ∈ r.listed, e.block.overlaps b.start b.stop = false
  | _ => True

/-- Every operation of a sequence does so. -/
def SeparateAll (r : Roster) : List BlockCache.Change → Prop
  | [] => True
  | x :: rest => r.Separate x ∧ (r.apply x).SeparateAll rest

end Roster

namespace BlockCache

variable {c c' : BlockCache} {r : Roster}

/-- **The cache answers as the roster does.** -/
structure Answers (c : BlockCache) (r : Roster) : Prop where
  stored : c.stored = r.stored
  size : c.size = r.listed.length
  find? : ∀ address, c.find? address = (r.find? address).map Listed.id
  lookup? : ∀ address,
    (c.lookup? address).map Block.outline = (r.find? address).map Listed.block
  containing? : ∀ address,
    (c.containing? address).map Block.outline = (r.containing? address).map Listed.block
  nextStartAfter? : ∀ address, c.nextStartAfter? address = r.nextStartAfter? address
  valid : (c.valid.map Block.outline).Perm (r.listed.map Listed.block)
  sorted : c.valid.Pairwise fun b b' => b.start < b'.start

/-- **The roster of a cache.** -/
structure Lists (c : BlockCache) (r : Roster) : Prop where
  index : c.SoundIndex
  stored : c.stored = r.stored
  mem_iff : ∀ id b, (⟨id, b⟩ : Listed) ∈ r.listed ↔ ∃ x, c.IsValid id x ∧ x.outline = b
  nodup : r.listed.Nodup

/-! ### Lists with one entry of a kind -/

/-- Where at most one entry passes a test, it is the one that is found. -/
theorem find?_eq_some_iff_of_unique {α : Type} {l : List α} {p : α → Bool}
    (hu : ∀ a ∈ l, ∀ b ∈ l, p a = true → p b = true → a = b) {a : α} :
    l.find? p = some a ↔ a ∈ l ∧ p a = true := by
  constructor
  · intro hf
    exact ⟨List.mem_of_find?_eq_some hf, List.find?_some hf⟩
  · rintro ⟨ha, hp⟩
    cases hf : l.find? p with
    | none => exact absurd hp (List.find?_eq_none.mp hf a ha)
    | some b => rw [hu b (List.mem_of_find?_eq_some hf) a ha (List.find?_some hf) hp]

/-! ### Ranges -/

/-- Saturation of the end of a range hides no block: the last address starts none. -/
theorem hit_eq_overlaps {e : Listed} (hb : e.block.start < e.block.stop) (start length : UInt32) :
    e.hit start length = e.block.overlaps start (rangeEnd start length) := by
  have hstart : e.block.start.toNat < 2 ^ 32 - 1 := by
    have hlt := UInt32.lt_iff_toNat_lt.mp hb
    have hstop := e.block.stop.toNat_lt
    omega
  have hlow : e.block.start < rangeEnd start length ↔
      e.block.start.toNat < start.toNat + max length.toNat 1 := by
    rw [UInt32.lt_iff_toNat_lt, rangeEnd]
    split
    · rename_i hfits
      rw [UInt32.toNat_ofNat_of_lt' hfits]
    · rename_i hpast
      change ¬ start.toNat + max length.toNat 1 < 2 ^ 32 at hpast
      show _ < 2 ^ 32 - 1 ↔ _
      omega
  rw [Listed.hit, Block.overlaps, Bool.eq_iff_iff]
  simp only [Bool.and_eq_true, decide_eq_true_eq, hlow, UInt32.lt_iff_toNat_lt]

namespace Lists

/-! ### What a roster answers -/

theorem isValid (h : c.Lists r) {e : Listed} (he : e ∈ r.listed) :
    ∃ x, c.IsValid e.id x ∧ x.outline = e.block := (h.mem_iff e.id e.block).mp he

theorem nonempty (h : c.Lists r) {e : Listed} (he : e ∈ r.listed) : e.block.start < e.block.stop := by
  obtain ⟨x, hx, ho⟩ := h.isValid he
  rw [← ho]
  exact h.index.nonempty _ x hx

theorem eq_of_id (h : c.Lists r) {e e' : Listed} (he : e ∈ r.listed) (he' : e' ∈ r.listed)
    (hid : e.id = e'.id) : e = e' := by
  obtain ⟨x, hx, ho⟩ := h.isValid he
  obtain ⟨x', hx', ho'⟩ := h.isValid he'
  rw [← hid] at hx'
  cases e
  cases e'
  rw [hx.unique hx'] at ho
  exact Listed.mk.injEq .. ▸ ⟨hid, ho.symm.trans ho'⟩

/-- Blocks that share an address are one block. -/
theorem eq_of_contains (h : c.Lists r) {e e' : Listed} (he : e ∈ r.listed) (he' : e' ∈ r.listed)
    {address : UInt32} (hin : e.block.contains address = true)
    (hin' : e'.block.contains address = true) : e = e' := by
  obtain ⟨x, hx, ho⟩ := h.isValid he
  obtain ⟨x', hx', ho'⟩ := h.isValid he'
  have hfound : ∀ {y : Block}, y.outline.contains address = true → y.contains address = true :=
    fun hy => hy
  have hc := h.index.containing?_eq_some_iff.mpr ⟨⟨_, hx⟩, hfound (ho ▸ hin)⟩
  have hc' := h.index.containing?_eq_some_iff.mpr ⟨⟨_, hx'⟩, hfound (ho' ▸ hin')⟩
  rw [hc, Option.some_inj] at hc'
  subst hc'
  exact h.eq_of_id he he' (h.index.id_eq hx hx' rfl)

theorem contains_start (h : c.Lists r) {e : Listed} (he : e ∈ r.listed) :
    e.block.contains e.block.start = true := by
  simp [Block.contains, h.nonempty he]

theorem find?_eq_some_iff (h : c.Lists r) {address : UInt32} {e : Listed} :
    r.find? address = some e ↔ e ∈ r.listed ∧ e.block.start = address := by
  rw [Roster.find?, find?_eq_some_iff_of_unique, beq_iff_eq]
  intro e he e' he' hs hs'
  rw [beq_iff_eq] at hs hs'
  have hin' := h.contains_start he'
  rw [hs', ← hs] at hin'
  exact h.eq_of_contains he he' (h.contains_start he) hin'

theorem containing?_eq_some_iff (h : c.Lists r) {address : UInt32} {e : Listed} :
    r.containing? address = some e ↔ e ∈ r.listed ∧ e.block.contains address = true :=
  find?_eq_some_iff_of_unique fun _ he _ he' hin hin' => h.eq_of_contains he he' hin hin'

/-- The index lists what the roster lists. -/
theorem perm (h : c.Lists r) :
    (c.index.map fun e => (⟨e.id, (c.blockAt e.id).outline⟩ : Listed)).Perm r.listed := by
  refine (List.perm_ext_iff_of_nodup ?_ h.nodup).mpr fun e => ?_
  · refine (List.Nodup.of_map Listed.id ?_)
    rw [List.map_map]
    exact h.index.ids_nodup
  · rw [List.mem_map, show e = ⟨e.id, e.block⟩ from rfl, h.mem_iff]
    constructor
    · rintro ⟨i, hi, heq⟩
      rw [Listed.mk.injEq] at heq
      obtain ⟨hid, hb⟩ := heq
      rw [← hid]
      exact ⟨_, (h.index.isValid_of_mem hi).1, hb⟩
    · rintro ⟨x, hx, ho⟩
      refine ⟨⟨x.start, e.id⟩, (h.index.mem_iff _ _).mpr ⟨x, hx, rfl⟩, ?_⟩
      rw [← ho, ← hx.blockAt]

/-- The starts by increasing address are those of the roster. -/
theorem starts_perm (h : c.Lists r) :
    (c.index.map Indexed.start).Perm (r.listed.map fun e => e.block.start) := by
  have hp := h.perm.map fun e => e.block.start
  rw [List.map_map] at hp
  refine (List.Perm.of_eq (List.map_congr_left fun e he => ?_)).trans hp
  exact (h.index.isValid_of_mem he).2.symm

theorem nextStartAfter? (h : c.Lists r) (address : UInt32) :
    c.nextStartAfter? address = r.nextStartAfter? address := by
  have hmem : ∀ start, (start ∈ (r.listed.map fun e => e.block.start).filter
      fun start => decide (address < start)) ↔ (∃ e ∈ c.index, e.start = start) ∧ address < start :=
    fun start => by
      rw [List.mem_filter, ← h.starts_perm.mem_iff, List.mem_map, decide_eq_true_eq]
  rw [BlockCache.nextStartAfter?, Roster.nextStartAfter?]
  cases hf : c.index.find? fun e => decide (address < e.start) with
  | none =>
    symm
    rw [Option.map_none, List.min?_eq_none_iff, List.eq_nil_iff_forall_not_mem]
    intro start hstart
    obtain ⟨⟨e, he, rfl⟩, hlt⟩ := (hmem start).mp hstart
    exact absurd (decide_eq_true hlt) (List.find?_eq_none.mp hf e he)
  | some e =>
    obtain ⟨hlt, before, after, hsplit, hbefore⟩ := List.find?_eq_some_iff_append.mp hf
    have he : e ∈ c.index := List.mem_of_find?_eq_some hf
    symm
    rw [Option.map_some, List.min?_eq_some_iff]
    refine ⟨(hmem e.start).mpr ⟨⟨e, he, rfl⟩, of_decide_eq_true hlt⟩, fun start hstart => ?_⟩
    obtain ⟨⟨e', he', rfl⟩, hlt'⟩ := (hmem start).mp hstart
    -- an entry before `e` does not start above the address
    have hsorted := h.index.sorted
    rw [hsplit, List.pairwise_append, List.pairwise_cons] at hsorted
    rw [hsplit, List.mem_append, List.mem_cons] at he'
    rcases he' with hin | rfl | hin
    · have hnot := hbefore e' hin
      simp [hlt'] at hnot
    · exact UInt32.le_refl _
    · exact UInt32.le_of_lt (hsorted.2.1.1 e' hin)

theorem find? (h : c.Lists r) (address : UInt32) :
    c.find? address = (r.find? address).map Listed.id := by
  refine Option.ext fun id => ?_
  rw [h.index.find?_eq_some_iff, Option.map_eq_some_iff]
  simp only [h.find?_eq_some_iff]
  constructor
  · rintro ⟨b, hb, hs⟩
    exact ⟨⟨id, b.outline⟩, ⟨(h.mem_iff _ _).mpr ⟨b, hb, rfl⟩, hs⟩, rfl⟩
  · rintro ⟨e, ⟨he, hs⟩, rfl⟩
    obtain ⟨x, hx, ho⟩ := h.isValid he
    rw [← ho] at hs
    exact ⟨x, hx, hs⟩

theorem containing? (h : c.Lists r) (address : UInt32) :
    (c.containing? address).map Block.outline = (r.containing? address).map Listed.block := by
  refine Option.ext fun b => ?_
  rw [Option.map_eq_some_iff, Option.map_eq_some_iff]
  simp only [h.index.containing?_eq_some_iff, h.containing?_eq_some_iff]
  constructor
  · rintro ⟨x, ⟨⟨id, hx⟩, hin⟩, rfl⟩
    exact ⟨⟨id, x.outline⟩, ⟨(h.mem_iff _ _).mpr ⟨x, hx, rfl⟩, hin⟩, rfl⟩
  · rintro ⟨e, ⟨he, hin⟩, rfl⟩
    obtain ⟨x, hx, ho⟩ := h.isValid he
    rw [← ho] at hin
    exact ⟨x, ⟨⟨_, hx⟩, hin⟩, ho⟩

/-- **The cache answers as its roster does.** -/
theorem answers (h : c.Lists r) : c.Answers r where
  stored := h.stored
  size := by
    have hlength := h.perm.length_eq
    rwa [List.length_map] at hlength
  find? := h.find?
  lookup? address := by
    rw [lookup?, h.find?, Option.map_map, Option.map_map]
    cases hf : r.find? address with
    | none => rfl
    | some e =>
      obtain ⟨x, hx, ho⟩ := h.isValid (h.find?_eq_some_iff.mp hf).1
      show some (c.blockAt e.id).outline = some e.block
      rw [hx.blockAt, ho]
  containing? := h.containing?
  nextStartAfter? := h.nextStartAfter?
  valid := by
    have hp := h.perm.map Listed.block
    rw [List.map_map] at hp
    rw [BlockCache.valid, List.map_map]
    exact hp
  sorted := by
    rw [BlockCache.valid, List.pairwise_map]
    refine h.index.sorted.imp_of_mem fun he he' hlt => ?_
    rw [(h.index.isValid_of_mem he).2, (h.index.isValid_of_mem he').2]
    exact hlt

/-! ### One operation -/

theorem empty (linking : Bool) (code : CodeSpace) :
    (BlockCache.empty linking code).Lists .empty where
  index := SoundIndex.empty linking code
  stored := rfl
  mem_iff id b := by simp [BlockCache.empty, Roster.empty, IsValid]
  nodup := List.nodup_nil

/-- Links are not listed. -/
theorem relinked (h : c.Lists r) (hre : Relinked c c') : c'.Lists r where
  index := hre.soundIndex h.index
  stored := hre.alike.stored.trans h.stored
  mem_iff id b := by
    rw [h.mem_iff]
    constructor
    · rintro ⟨x, hx, rfl⟩
      exact hre.isValid hx
    · rintro ⟨x, hx, rfl⟩
      exact hre.isValid_rev hx
  nodup := h.nodup

/-- Nor is code. -/
theorem grow (h : c.Lists r) (code : CodeSpace) : Lists { c with code := code } r where
  index := ⟨h.index.mem_iff, h.index.sorted, h.index.nonempty, h.index.disjoint⟩
  stored := h.stored
  mem_iff := h.mem_iff
  nodup := h.nodup

theorem clear (c : BlockCache) : c.clear.Lists .empty where
  index := (consistent_clear c).index
  stored := rfl
  mem_iff id b := by simp [BlockCache.clear, Roster.empty, IsValid]
  nodup := List.nodup_nil

theorem free (h : c.Lists r) {start stop : UInt32}
    (hfree : ∀ e ∈ r.listed, e.block.overlaps start stop = false) (id : Nat) (x : Block)
    (hx : c.IsValid id x) : x.overlaps start stop = false :=
  hfree ⟨id, x.outline⟩ ((h.mem_iff _ _).mpr ⟨x, hx, rfl⟩)

theorem store (h : c.Lists r) {b : Block} (hb : r.Separate (.insert b)) :
    (c.store b).Lists (r.insert b) where
  index := h.index.store hb.1 (h.free hb.2)
  stored := by
    rw [BlockCache.stored, blocks_store, Array.size_push]
    exact congrArg (· + 1) h.stored
  mem_iff id x := by
    have hsize : c.blocks.size = r.stored := h.stored
    rw [Roster.insert, List.mem_append, List.mem_singleton, h.mem_iff, Listed.mk.injEq]
    simp only [isValid_store_iff, hsize]
    constructor
    · rintro (⟨y, hy, ho⟩ | ⟨rfl, rfl⟩)
      · exact ⟨y, .inl hy, ho⟩
      · exact ⟨b.fresh, .inr ⟨rfl, rfl⟩, b.fresh_outline⟩
    · rintro ⟨y, hy | ⟨rfl, rfl⟩, ho⟩
      · exact .inl ⟨y, hy, ho⟩
      · exact .inr ⟨rfl, by rw [← ho, b.fresh_outline]⟩
  nodup := by
    refine List.nodup_append.mpr ⟨h.nodup, List.nodup_singleton _, fun e he e' he' heq => ?_⟩
    rw [List.mem_singleton] at he'
    obtain ⟨x, hx, -⟩ := h.isValid he
    have hlt := hx.lt_size
    have hsize : c.blocks.size = r.stored := h.stored
    rw [heq, he', hsize] at hlt
    exact Nat.lt_irrefl _ hlt

theorem drop (h : c.Lists r) {e : Listed} (he : e ∈ r.listed) (hok : c.drop e.id = .ok c') :
    c'.Lists { r with listed := r.listed.filter fun e' => e'.id != e.id } := by
  obtain ⟨x, hx, -⟩ := h.isValid he
  refine Lists.relinked (c := c.withdraw e.id) ⟨h.index.withdraw hx, ?_, fun id b => ?_,
    h.nodup.filter _⟩ (keptByLinks_relinked.drop hok)
  · rw [← h.stored]
    exact Array.size_modify
  · rw [List.mem_filter, h.mem_iff, bne_iff_ne]
    simp only [isValid_withdraw_iff]
    constructor
    · rintro ⟨⟨y, hy, ho⟩, hne⟩
      exact ⟨y, ⟨hy, hne⟩, ho⟩
    · rintro ⟨y, ⟨hy, hne⟩, ho⟩
      exact ⟨⟨y, hy, ho⟩, hne⟩

/-- Dropping the blocks of a list, each once, takes them off. -/
theorem dropAll (h : c.Lists r) {ids : List Nat} (hnd : ids.Nodup)
    (hids : ∀ id ∈ ids, ∃ e ∈ r.listed, e.id = id) (hok : c.dropAll ids = .ok c') :
    c'.Lists { r with listed := r.listed.filter fun e => decide (e.id ∉ ids) } := by
  induction ids generalizing c r with
  | nil =>
    cases hok
    simpa using h
  | cons id rest ih =>
    rw [BlockCache.dropAll] at hok
    obtain ⟨c₁, hdrop, hothers⟩ := ok_of_bind hok
    rw [List.nodup_cons] at hnd
    obtain ⟨e, he, rfl⟩ := hids id List.mem_cons_self
    have hrest := ih (h.drop he hdrop) hnd.2 (fun id' hid' => by
      obtain ⟨e', he', rfl⟩ := hids id' (List.mem_cons_of_mem _ hid')
      have hne : e'.id ≠ e.id := fun heq => hnd.1 (heq ▸ hid')
      exact ⟨e', List.mem_filter.mpr ⟨he', by simpa using hne⟩, rfl⟩) hothers
    have hfilter : (r.listed.filter fun e' => e'.id != e.id).filter
        (fun e' => decide (e'.id ∉ rest)) =
          r.listed.filter fun e' => decide (e'.id ∉ e.id :: rest) := by
      rw [List.filter_filter]
      refine List.filter_congr fun e' _ => ?_
      by_cases hid : e'.id = e.id <;> simp [hid]
    rw [hfilter] at hrest
    exact hrest

/-- The blocks of a range are those that a pass through the roster hits. -/
theorem mem_overlapping_iff (h : c.Lists r) {start length : UInt32} {id : Nat} :
    id ∈ c.overlapping start (rangeEnd start length) ↔
      ∃ e ∈ r.listed, e.hit start length = true ∧ e.id = id := by
  rw [h.index.mem_overlapping_iff]
  constructor
  · rintro ⟨x, hx, hov⟩
    have he := (h.mem_iff id x.outline).mpr ⟨x, hx, rfl⟩
    exact ⟨_, he, (hit_eq_overlaps (h.nonempty he) start length).trans hov, rfl⟩
  · rintro ⟨e, he, hhit, rfl⟩
    obtain ⟨x, hx, ho⟩ := h.isValid he
    rw [hit_eq_overlaps (h.nonempty he), ← ho] at hhit
    exact ⟨x, hx, hhit⟩

/-- **Nothing is found where a block was that is not listed any more.** -/
theorem gone (h : c.Lists r) {listed : List Listed} {stored : Nat} (hsub : listed ⊆ r.listed)
    (h' : c'.Lists ⟨stored, listed⟩) {e : Listed} (he : e ∈ r.listed) (hgone : e ∉ listed)
    {address : UInt32} (hin : e.block.contains address = true) :
    c'.find? address = none ∧ c'.containing? address = none := by
  have hnone : ∀ e' ∈ listed, ¬ e'.block.contains address = true := fun e' he' hin' =>
    hgone (h.eq_of_contains he (hsub he') hin hin' ▸ he')
  constructor
  · rw [h'.find?, Option.map_eq_none_iff, Roster.find?, List.find?_eq_none]
    intro e' he' hs
    rw [← beq_iff_eq.mp hs] at hnone
    exact hnone e' he' (h'.contains_start he')
  · rw [← Option.map_eq_none_iff, h'.containing?, Option.map_eq_none_iff, Roster.containing?,
      List.find?_eq_none]
    exact hnone

theorem ids_nodup (h : c.Lists r) : (r.listed.map Listed.id).Nodup := by
  have hp := h.perm.map Listed.id
  rw [List.map_map] at hp
  exact hp.nodup_iff.mp h.index.ids_nodup

/-- **Invalidating a range takes off the blocks that it hits**, and counts them. -/
theorem invalidate (h : c.Lists r) {start length : UInt32} {n : Nat}
    (hok : c.invalidate start length = .ok (n, c')) :
    n = r.listed.countP (Listed.hit start length) ∧ c'.Lists (r.invalidate start length) := by
  obtain ⟨c₁, hdrop, hok⟩ := ok_of_bind hok
  cases hok
  have hnd := h.index.overlapping_nodup start (rangeEnd start length)
  constructor
  · have hp : (c.overlapping start (rangeEnd start length)).Perm
        ((r.listed.filter (Listed.hit start length)).map Listed.id) := by
      refine (List.perm_ext_iff_of_nodup hnd ?_).mpr fun id => ?_
      · exact h.ids_nodup.sublist (List.filter_sublist.map _)
      · simp only [h.mem_overlapping_iff, List.mem_map, List.mem_filter, and_assoc]
    rw [hp.length_eq, List.length_map, List.countP_eq_length_filter]
  · have hlists := h.dropAll hnd (fun id hid => by
      obtain ⟨e, he, -, hid⟩ := h.mem_overlapping_iff.mp hid
      exact ⟨e, he, hid⟩) hdrop
    have hfilter : r.listed.filter
        (fun e => decide (e.id ∉ c.overlapping start (rangeEnd start length))) =
          r.listed.filter fun e => !e.hit start length := by
      refine List.filter_congr fun e he => ?_
      rw [Bool.eq_iff_iff, decide_eq_true_eq, Bool.not_eq_true', ← Bool.not_eq_true,
        not_iff_not, h.mem_overlapping_iff]
      constructor
      · rintro ⟨e', he', hhit, hid⟩
        rwa [← h.eq_of_id he' he hid]
      · exact fun hhit => ⟨e, he, hhit, rfl⟩
    rw [hfilter] at hlists
    exact hlists

theorem insert (h : c.Lists r) {b : Block} {id : Nat} (hb : r.Separate (.insert b))
    (hok : c.insert b = .ok (id, c')) : id = r.stored ∧ c'.Lists (r.insert b) := by
  obtain ⟨rfl, hre⟩ := keptByLinks_relinked.insert hok
  exact ⟨h.stored, (h.store hb).relinked hre⟩

/-- **Each operation keeps the roster.** -/
theorem apply (h : c.Lists r) {x : Change} (hx : r.Separate x) (hok : c.apply x = .ok c') :
    c'.Lists (r.apply x) := by
  cases x with
  | grow code =>
    cases hok
    exact h.grow code
  | insert b =>
    obtain ⟨⟨id, c₁⟩, hins, rfl⟩ := ok_of_map hok
    exact (h.insert hx hins).2
  | invalidate start length =>
    obtain ⟨⟨n, c₁⟩, hinv, rfl⟩ := ok_of_map hok
    exact (h.invalidate hinv).2
  | clear =>
    cases hok
    exact Lists.clear c

theorem applyAll {changes : List Change} (h : c.Lists r) (hall : r.SeparateAll changes)
    (hok : c.applyAll changes = .ok c') : c'.Lists (r.applyAll changes) := by
  induction changes generalizing c r with
  | nil =>
    cases hok
    exact h
  | cons x rest ih =>
    obtain ⟨c₁, hx, hok⟩ := ok_of_bind hok
    exact ih (h.apply hall.1 hx) hall.2 hok

end Lists

/-! ### No operation gets stuck -/

/-- **The exits of stored blocks have words**, which are only taken back when everything is cleared.
Without linking nobody asks.  The number is that of the emitted words. -/
def StubsEmitted (linking : Bool) : Nat → List Change → Prop
  | _, [] => True
  | n, .grow code :: rest => n ≤ code.offset ∧ StubsEmitted linking code.offset rest
  | n, .insert b :: rest =>
    (linking = true → ∀ e ∈ b.exits, e.stub < n) ∧ StubsEmitted linking n rest
  | n, .invalidate _ _ :: rest => StubsEmitted linking n rest
  | _, .clear :: rest => StubsEmitted linking 0 rest

theorem Patchable.invalidate (h : c.Patchable) (start length : UInt32) :
    ∃ n c', c.invalidate start length = .ok (n, c') ∧ c'.Patchable := by
  obtain ⟨c', hdrop, h'⟩ := h.dropAll (c.overlapping start (rangeEnd start length))
  refine ⟨(c.overlapping start (rangeEnd start length)).length, c', ?_, h'⟩
  rw [BlockCache.invalidate]
  simp only [hdrop]
  rfl

theorem Patchable.applyAll {changes : List Change} (hp : c.Patchable) (h : c.Lists r)
    (hall : r.SeparateAll changes) (hstubs : StubsEmitted c.linking c.code.offset changes) :
    ∃ c', c.applyAll changes = .ok c' ∧ c'.Patchable := by
  induction changes generalizing c r with
  | nil => exact ⟨c, rfl, hp⟩
  | cons x rest ih =>
    suffices hstep : ∃ c₁, c.apply x = .ok c₁ ∧ c₁.Patchable ∧
        StubsEmitted c₁.linking c₁.code.offset rest by
      obtain ⟨c₁, hx, hp₁, hrest⟩ := hstep
      obtain ⟨c₂, hrun, hp₂⟩ := ih hp₁ (h.apply hall.1 hx) hall.2 hrest
      refine ⟨c₂, ?_, hp₂⟩
      rw [BlockCache.applyAll, hx]
      exact hrun
    cases x with
    | grow code => exact ⟨_, rfl, hp.grow hstubs.1, hstubs.2⟩
    | insert b =>
      obtain ⟨c₁, hins, hp₁⟩ := hp.insert
        (h.index.overlapping_eq_nil_iff.mpr (h.free hall.1.2)) hstubs.1
      have hspace := sameSpace_insert hins
      refine ⟨c₁, by rw [BlockCache.apply, hins]; rfl, hp₁, ?_⟩
      rw [hspace.linking, hspace.offset]
      exact hstubs.2
    | invalidate start length =>
      obtain ⟨n, c₁, hinv, hp₁⟩ := hp.invalidate start length
      have hspace := sameSpace_invalidate hinv
      refine ⟨c₁, by rw [BlockCache.apply, hinv]; rfl, hp₁, ?_⟩
      rw [hspace.linking, hspace.offset]
      exact hstubs
    | clear =>
      refine ⟨_, rfl, .clear c, ?_⟩
      rw [offset_clear]
      exact hstubs

/-! ### Any sequence of operations -/

/-- **The cache agrees with a naive list of blocks** after every sequence of operations in which no
block is stored over a valid one.  Invalidating a range then removes the blocks that the list has in
it, counts them and leaves the others; nothing is found any more where a removed block was.  No
operation gets stuck as long as the exits have words. -/
theorem answers_of_applyAll (linking : Bool) (code : CodeSpace) (changes : List Change)
    (hseparate : Roster.empty.SeparateAll changes) :
    (StubsEmitted linking code.offset changes →
      ∃ c, (BlockCache.empty linking code).applyAll changes = .ok c ∧
        ∀ start length, ∃ n c', c.invalidate start length = .ok (n, c')) ∧
    ∀ c, (BlockCache.empty linking code).applyAll changes = .ok c →
      c.Answers (Roster.empty.applyAll changes) ∧
      ∀ start length n c', c.invalidate start length = .ok (n, c') →
        n = (Roster.empty.applyAll changes).listed.countP (Listed.hit start length) ∧
        c'.Answers ((Roster.empty.applyAll changes).invalidate start length) ∧
        ∀ e ∈ (Roster.empty.applyAll changes).listed, e.hit start length = true →
          ∀ address, e.block.contains address = true →
            c'.find? address = none ∧ c'.containing? address = none := by
  have hempty := Lists.empty linking code
  constructor
  · intro hstubs
    obtain ⟨c, hrun, hp⟩ := (Patchable.empty linking code).applyAll hempty hseparate hstubs
    refine ⟨c, hrun, fun start length => ?_⟩
    obtain ⟨n, c', hinv, -⟩ := hp.invalidate start length
    exact ⟨n, c', hinv⟩
  · intro c hrun
    have h := hempty.applyAll hseparate hrun
    refine ⟨h.answers, fun start length n c' hinv => ?_⟩
    obtain ⟨hn, h'⟩ := h.invalidate hinv
    refine ⟨hn, h'.answers, fun e he hhit address hin =>
      h.gone (List.filter_sublist.subset) h' he (fun hmem => ?_) hin⟩
    have hnot := (List.mem_filter.mp hmem).2
    rw [hhit] at hnot
    cases hnot

/-- A block that loops is stored, and next to it one without exits. -/
def loopChanges : List Change :=
  [.grow loopCode, .insert loopBlock,
    .insert { loopBlock with start := 0x1008, stop := 0x1010, exits := #[] }]

/-- The last byte of the first block goes, and with it the whole block; the second one stays. -/
theorem answers_of_loop :
    Roster.empty.SeparateAll loopChanges ∧ StubsEmitted true loopCode.reset.offset loopChanges ∧
      ∃ c c', (BlockCache.empty true loopCode.reset).applyAll loopChanges = .ok c ∧
        c.invalidate 0x1007 0 = .ok (1, c') ∧ c'.containing? 0x1000 = none ∧
        c'.find? 0x1008 = some 1 := by
  have hseparate : Roster.empty.SeparateAll loopChanges :=
    ⟨trivial, ⟨by decide, by decide⟩, ⟨by decide, by decide⟩, trivial⟩
  have hstubs : StubsEmitted true loopCode.reset.offset loopChanges :=
    ⟨Nat.zero_le _, fun _ => by decide, fun _ => by decide, trivial⟩
  obtain ⟨hcompletes, hanswers⟩ := answers_of_applyAll true loopCode.reset loopChanges hseparate
  obtain ⟨c, hrun, hinvalidate⟩ := hcompletes hstubs
  obtain ⟨n, c', hdrop⟩ := hinvalidate 0x1007 0
  obtain ⟨hn, hrest, hgone⟩ := (hanswers c hrun).2 _ _ _ _ hdrop
  have hone : n = 1 := hn.trans (by decide)
  refine ⟨hseparate, hstubs, c, c', hrun, hone ▸ hdrop, ?_, (hrest.find? 0x1008).trans (by decide)⟩
  exact (hgone ⟨0, loopBlock.fresh⟩ List.mem_cons_self (by decide) 0x1000 (by decide)).2

end BlockCache

end Dynarec
