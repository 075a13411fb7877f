import Dynarec.Proofs.Host.Cells
import Dynarec.Proofs.Lower.CacheCode
import Dynarec.Proofs.Lower.Scalars
import Mathlib.Data.List.FinRange
import Mathlib.Data.List.Count

/-!
# What the register caches owe

A dirty binding is a store that is still to be emitted: the debt of a cache.  An eviction emits a
store and pays for it, so the code of an action and the debt after it are bounded together (`Tidy`):
binding a register takes one word more than it pays off, whatever is evicted for it.  The code of an
action reads the registers of bound slots only.
-/

namespace Dynarec

namespace SlotArena

variable {n : Nat} {G : Type} (a : SlotArena n G) {b : SlotArena n G}

/-- The slot holds a dirty value. -/
def owes (i : Fin n) : Bool := (a.guest i).isSome && a.isDirty i

/-- **Number of slots with dirty values.** -/
def owed : Nat := (List.finRange n).countP a.owes

theorem length_dirtyBindings : a.dirtyBindings.length = a.owed := by
  rw [dirtyBindings, List.length_filterMap_eq_countP, owed]
  refine List.countP_congr fun i _ => ?_
  have hheld : a.held? i = (a.guest i).map fun g => (g, a.isDirty i) := rfl
  rw [hheld, owes]
  cases a.guest i with
  | none => simp
  | some g =>
    cases a.isDirty i <;> simp

theorem owed_le : a.owed ≤ n := by
  have hle := List.countP_le_length (p := a.owes) (l := List.finRange n)
  rwa [List.length_finRange] at hle

variable {a}

theorem owed_congr (h : ∀ i, b.owes i = a.owes i) : b.owed = a.owed :=
  List.countP_congr fun i _ => by rw [h]

/-- Counting with two tests that differ at one place. -/
theorem countP_add_toNat {l : List (Fin n)} (hnd : l.Nodup) {i : Fin n} (hi : i ∈ l)
    {p q : Fin n → Bool} (h : ∀ j, i ≠ j → p j = q j) :
    l.countP p + (q i).toNat = l.countP q + (p i).toNat := by
  induction l with
  | nil => exact absurd hi List.not_mem_nil
  | cons j rest ih =>
    obtain ⟨hj, hrest⟩ := List.nodup_cons.mp hnd
    rw [List.countP_cons, List.countP_cons]
    rcases List.mem_cons.mp hi with rfl | hi
    · have hsame : rest.countP p = rest.countP q :=
        List.countP_congr fun k hk => by rw [h k fun heq => hj (heq ▸ hk)]
      rw [hsame]
      cases p i <;> cases q i <;> simp
    · have hne : i ≠ j := fun heq => hj (heq ▸ hi)
      rw [h j hne]
      have := ih hrest hi
      omega

/-- **A change of one slot.** -/
theorem owed_add_toNat (i : Fin n) (h : ∀ j, i ≠ j → b.owes j = a.owes j) :
    b.owed + (a.owes i).toNat = a.owed + (b.owes i).toNat :=
  countP_add_toNat (List.nodup_finRange n) (List.mem_finRange i) h

variable (a)

theorem owed_touch (i : Fin n) : (a.touch i).owed = a.owed :=
  owed_congr fun j => by rw [owes, guest_touch, isDirty_touch]; rfl

theorem owed_lock (i : Fin n) : (a.lock i).owed = a.owed :=
  owed_congr fun j => by rw [owes, guest_lock, isDirty_lock]; rfl

theorem owed_releaseLocks : a.releaseLocks.owed = a.owed :=
  owed_congr fun j => by rw [owes, guest_releaseLocks, isDirty_releaseLocks]; rfl

theorem owed_markClean : a.markClean.owed = 0 := by
  rw [owed, List.countP_eq_zero]
  intro i _
  rw [owes, isDirty_markClean, Bool.and_false]
  decide

theorem owed_clearAll : a.clearAll.owed = 0 := by
  rw [owed, List.countP_eq_zero]
  intro i _
  simp [owes]

theorem owed_empty : (empty : SlotArena n G).owed = 0 := by
  rw [owed, List.countP_eq_zero]
  intro i _
  simp [owes]

/-- A free slot owes nothing. -/
theorem owed_clear (i : Fin n) : (a.clear i).owed + (a.owes i).toNat = a.owed := by
  have h := owed_add_toNat (a := a) (b := a.clear i) i fun j hj => by
    rw [owes, guest_clear, isDirty_clear, if_neg hj, if_neg hj]
    rfl
  have hi : (a.clear i).owes i = false := by
    rw [owes, guest_clear, if_pos rfl]
    rfl
  rwa [hi] at h

theorem owed_assign_clear (i : Fin n) (g : G) :
    ((a.clear i).assign i g).owed + (a.owes i).toNat = a.owed := by
  have h := owed_add_toNat (a := a.clear i) (b := (a.clear i).assign i g) i fun j hj => by
    rw [owes, guest_assign, isDirty_assign, if_neg hj, if_neg hj]
    rfl
  have hi : ((a.clear i).assign i g).owes i = false := by
    rw [owes, isDirty_assign, if_pos rfl, Bool.and_false]
  have hi' : (a.clear i).owes i = false := by
    rw [owes, guest_clear, if_pos rfl]
    rfl
  rw [hi, hi'] at h
  have hclear := a.owed_clear i
  simp only [Bool.toNat_false, Nat.add_zero] at h
  omega

theorem owed_setDirty_le (i : Fin n) (d : Bool) : (a.setDirty i d).owed ≤ a.owed + 1 := by
  have h := owed_add_toNat (a := a) (b := a.setDirty i d) i fun j hj => by
    rw [owes, guest_setDirty, isDirty_setDirty, if_neg hj]
    rfl
  have hle : ((a.setDirty i d).owes i).toNat ≤ 1 := Bool.toNat_le _
  omega

theorem owed_setDirty_false_le (i : Fin n) : (a.setDirty i false).owed ≤ a.owed := by
  have h := owed_add_toNat (a := a) (b := a.setDirty i false) i fun j hj => by
    rw [owes, guest_setDirty, isDirty_setDirty, if_neg hj]
    rfl
  have hi : (a.setDirty i false).owes i = false := by
    rw [owes, isDirty_setDirty, if_pos rfl, Bool.and_false]
  rw [hi] at h
  simp only [Bool.toNat_false, Nat.add_zero] at h
  omega

/-- The registers of bound slots, by the cell of a slot. -/
def cells (cell : Fin n → HostCell) : Set HostCell := {x | ∃ i g, a.guest i = some g ∧ x = cell i}

/-- The registers of bound slots that are not locked. -/
def freeCells (cell : Fin n → HostCell) : Set HostCell :=
  {x | ∃ i g, a.guest i = some g ∧ a.locked i = false ∧ x = cell i}

variable {a} {cell : Fin n → HostCell}

theorem freeCells_subset : a.freeCells cell ⊆ a.cells cell := by
  rintro x ⟨i, g, hg, -, rfl⟩
  exact ⟨i, g, hg, rfl⟩

theorem cells_congr (h : ∀ i, b.guest i = a.guest i) : b.cells cell = a.cells cell := by
  ext x
  simp only [cells, h]

theorem cells_eq_empty (h : ∀ i, a.guest i = none) : a.cells cell = ∅ := by
  ext x
  simp [cells, h]

theorem cells_clear_subset (i : Fin n) : (a.clear i).cells cell ⊆ a.cells cell := by
  rintro x ⟨j, g, hg, rfl⟩
  rw [guest_clear] at hg
  split at hg
  · cases hg
  · exact ⟨j, g, hg, rfl⟩

theorem cells_assign_subset (i : Fin n) (g : G) :
    (a.assign i g).cells cell ⊆ a.cells cell ∪ {cell i} := by
  rintro x ⟨j, g', hg, rfl⟩
  rw [guest_assign] at hg
  split at hg
  · rename_i hij
    exact .inr (by rw [hij]; rfl)
  · exact .inl ⟨j, g', hg, rfl⟩

end SlotArena

/-! ### Code that pays -/

/-- **The code of an action**: straight, without effect on the downcount, reading only `cells`;
behind it the cells `cells'` are set, and what is owed then and the code together stay in the budget. -/
structure Tidy (code : List Operation) (cells cells' : Set HostCell) (budget owed : Nat) : Prop where
  inline : AllInline code
  quiet : ∀ op ∈ code, op.Quiet
  inScope : Host.Scoped cells code
  covers : cells' ⊆ cells ∪ Host.allWrites code
  paid : code.length + owed ≤ budget

namespace Tidy

variable {xs ys : List Operation} {cells cells' cells'' : Set HostCell} {n k l : Nat}

theorem nil (hcells : cells' ⊆ cells) (hpaid : k ≤ n) : Tidy [] cells cells' n k :=
  ⟨.nil, nofun, trivial, hcells.trans Set.subset_union_left, by simpa using hpaid⟩

theorem single {op : Operation} (hop : op.Inline) (hquiet : op.Quiet) (hreads : op.reads ⊆ cells)
    (hcells : cells' ⊆ cells ∪ op.writes) (hpaid : 1 + k ≤ n) : Tidy [op] cells cells' n k where
  inline := .single hop
  quiet x hx := by
    rw [List.mem_singleton] at hx
    rwa [hx]
  inScope := ⟨hreads, trivial⟩
  covers := by simpa using hcells
  paid := hpaid

theorem append (x : Tidy xs cells cells' n k) (y : Tidy ys cells' cells'' k l) :
    Tidy (xs ++ ys) cells cells'' n l where
  inline := x.inline.append y.inline
  quiet op hop := (List.mem_append.mp hop).elim (x.quiet op) (y.quiet op)
  inScope := x.inScope.append (y.inScope.mono x.covers)
  covers := by
    rw [Host.allWrites_append, ← Set.union_assoc]
    exact y.covers.trans (Set.union_subset_union_left _ x.covers)
  paid := by
    rw [List.length_append]
    have hx := x.paid
    have hy := y.paid
    omega

theorem mono (x : Tidy xs cells cells' n k) (hsub : cells'' ⊆ cells') (hn : n ≤ l) :
    Tidy xs cells cells'' l k :=
  ⟨x.inline, x.quiet, x.inScope, hsub.trans x.covers, x.paid.trans hn⟩

/-- The same words with a larger debt in front and behind. -/
theorem raise (x : Tidy xs cells cells' n k) (m : Nat) : Tidy xs cells cells' (n + m) (k + m) :=
  ⟨x.inline, x.quiet, x.inScope, x.covers, by have := x.paid; omega⟩

end Tidy

theorem Operation.quiet_of_writes_eq_empty {op : Operation} (hwrites : op.writes = ∅)
    (hop : ∀ n, op ≠ .subDowncount n) : op.Quiet :=
  ⟨by rw [hwrites]; exact id, hop⟩

theorem Operation.quiet_of_writes_eq {op : Operation} {x : HostCell} (hwrites : op.writes = {x})
    (hx : x ≠ .reg HostReg.downcount) (hop : ∀ n, op ≠ .subDowncount n) : op.Quiet := by
  refine ⟨fun hmem => ?_, hop⟩
  rw [hwrites] at hmem
  exact hx hmem.symm

/-! ### The scalar cache -/

namespace ScalarCache

variable (c : ScalarCache)

/-- The host register of a slot, as a cell. -/
def cell (i : Fin 13) : HostCell := .reg (hostReg i)

/-- The registers that hold something. -/
def cells : Set HostCell := c.arena.cells cell

/-- The registers that hold something and may be taken. -/
def freeCells : Set HostCell := c.arena.freeCells cell

/-- Number of registers that are still to be stored. -/
def owed : Nat := c.arena.owed

variable {c}

theorem cell_inj {i j : Fin 13} (heq : cell i = cell j) : i = j :=
  hostReg_inj (HostCell.reg.inj heq)

theorem quiet_of_lt {op : Operation} {r : HostReg} (hr : r.val < 13) (hwrites : op.writes = {.reg r})
    (hop : ∀ n, op ≠ .subDowncount n) : op.Quiet := by
  refine Operation.quiet_of_writes_eq hwrites (fun heq => ?_) hop
  rw [HostCell.reg.inj heq] at hr
  exact absurd hr (by decide)

theorem cells_reuse (i : Fin 13) : (c.reuse i).cells = c.cells :=
  SlotArena.cells_congr fun j => by simp [reuse]

theorem owed_reuse (i : Fin 13) : (c.reuse i).owed = c.owed :=
  (SlotArena.owed_lock _ i).trans (SlotArena.owed_touch _ i)

theorem saveCode_of_not_owes {i : Fin 13} (hi : c.arena.owes i = false) : c.saveCode i = [] := by
  rw [saveCode]
  cases hheld : c.arena.held? i with
  | none => rfl
  | some p =>
    obtain ⟨r, d⟩ := p
    obtain ⟨hr, hd⟩ := SlotArena.held?_eq_some_iff.mp hheld
    rw [SlotArena.owes, hr, hd] at hi
    cases hi
    rfl

theorem saveCode_of_owes {i : Fin 13} (hi : c.arena.owes i = true) :
    ∃ r, c.arena.guest i = some r ∧ c.saveCode i = [.storeGuest (hostReg i) r] := by
  rw [SlotArena.owes, Bool.and_eq_true, Option.isSome_iff_exists] at hi
  obtain ⟨⟨r, hr⟩, hd⟩ := hi
  refine ⟨r, hr, ?_⟩
  rw [saveCode, SlotArena.held?_eq_some_iff.mpr ⟨hr, hd⟩]

/-- **Saving a slot costs what the slot owes.** -/
theorem length_saveCode (i : Fin 13) : (c.saveCode i).length = (c.arena.owes i).toNat := by
  cases hi : c.arena.owes i with
  | false => rw [saveCode_of_not_owes hi]; rfl
  | true =>
    obtain ⟨r, -, hcode⟩ := saveCode_of_owes hi
    rw [hcode]
    rfl

theorem quiet_saveCode (i : Fin 13) : ∀ op ∈ c.saveCode i, op.Quiet := by
  cases hi : c.arena.owes i with
  | false => rw [saveCode_of_not_owes hi]; exact nofun
  | true =>
    obtain ⟨r, -, hcode⟩ := saveCode_of_owes hi
    rw [hcode]
    intro op hop
    rw [List.mem_singleton] at hop
    rw [hop]
    exact Operation.quiet_of_writes_eq_empty rfl nofun

theorem scoped_saveCode {i : Fin 13} (hi : c.arena.locked i = false) :
    Host.Scoped c.freeCells (c.saveCode i) := by
  cases howes : c.arena.owes i with
  | false => rw [saveCode_of_not_owes howes]; trivial
  | true =>
    obtain ⟨r, hr, hcode⟩ := saveCode_of_owes howes
    rw [hcode]
    refine ⟨?_, trivial⟩
    rintro _ rfl
    exact ⟨i, r, hr, hi, rfl⟩

/-- **A register was handed out that its user writes first.** -/
structure Prepares (c : ScalarCache) (p : Placed HostReg ScalarCache) : Prop where
  inline : AllInline p.code
  quiet : ∀ op ∈ p.code, op.Quiet
  inScope : Host.Scoped c.freeCells p.code
  covers : p.cache.cells ⊆ c.cells ∪ {.reg p.reg}
  paid : p.code.length + p.cache.owed ≤ c.owed + 1
  lt : p.reg.val < 13
  held : .reg p.reg ∉ p.cache.freeCells

/-- A locked slot cannot be taken. -/
theorem notMem_freeCells {i : Fin 13} (hi : c.arena.locked i = true) : cell i ∉ c.freeCells := by
  rintro ⟨j, g, -, hj, heq⟩
  rw [← cell_inj heq, hi] at hj
  cases hj

theorem cells_allocate_subset (i : Fin 13) (r : GuestReg) :
    ScalarCache.cells ⟨(c.arena.clear i).assign i r⟩ ⊆ c.cells ∪ {cell i} :=
  (SlotArena.cells_assign_subset i r).trans
    (Set.union_subset_union_left _ (SlotArena.cells_clear_subset i))

theorem prepares_bindForWrite? {r : GuestReg} {p : Placed HostReg ScalarCache}
    (hp : c.bindForWrite? r = some p) : c.Prepares p := by
  have hinline := allInline_bindForWrite? hp
  rw [bindForWrite?] at hp
  cases hf : c.arena.find? r with
  | some i =>
    rw [hf] at hp
    cases hp
    refine ⟨hinline, (by simp), trivial, ?_, ?_, hostReg_lt i, notMem_freeCells (by simp [reuse])⟩
    · refine Set.Subset.trans (Set.Subset.trans ?_ (cells_reuse i).subset) Set.subset_union_left
      exact (SlotArena.cells_congr fun j => by simp).subset
    · have hle := (c.reuse i).arena.owed_setDirty_le i true
      have hsame := c.owed_reuse i
      simp only [List.length_nil, owed] at hle hsame ⊢
      omega
  | none =>
    rw [hf] at hp
    simp only [allocate?, Option.map_map, Option.map_eq_some_iff] at hp
    obtain ⟨i, hi, rfl⟩ := hp
    refine ⟨hinline, quiet_saveCode i, scoped_saveCode (SlotArena.not_locked_of_select? hi), ?_, ?_,
      hostReg_lt i, notMem_freeCells (by simp)⟩
    · refine Set.Subset.trans ?_ (cells_allocate_subset i r)
      exact (SlotArena.cells_congr fun j => by simp).subset
    · have hle := ((c.arena.clear i).assign i r).owed_setDirty_le i true
      have hsame := c.arena.owed_assign_clear i r
      have hlen := length_saveCode (c := c) i
      simp only [owed, Function.comp_apply] at hle hsame ⊢
      omega

/-- **Binding a register with its value.** -/
theorem tidy_bind? {r : GuestReg} {p : Placed HostReg ScalarCache} (hp : c.bind? r = some p) :
    Tidy p.code c.cells (p.cache.cells ∪ {.reg p.reg}) (c.owed + 1) p.cache.owed ∧
      p.reg.val < 13 := by
  rw [bind?] at hp
  cases hf : c.arena.find? r with
  | some i =>
    rw [hf] at hp
    cases hp
    refine ⟨.nil (Set.union_subset (cells_reuse i).subset ?_) ?_, hostReg_lt i⟩
    · rintro _ rfl
      exact ⟨i, r, SlotArena.guest_of_find? hf, rfl⟩
    · rw [owed_reuse]
      exact Nat.le_succ _
  | none =>
    rw [hf] at hp
    simp only [allocate?, Option.map_map, Option.map_eq_some_iff] at hp
    obtain ⟨i, hi, rfl⟩ := hp
    refine ⟨?_, hostReg_lt i⟩
    have hpaid := c.arena.owed_assign_clear i r
    have hsave : Tidy (c.saveCode i) c.cells c.cells (c.owed + 1)
        (ScalarCache.owed ⟨(c.arena.clear i).assign i r⟩ + 1) := by
      refine ⟨c.allInline_saveCode i, quiet_saveCode i, (scoped_saveCode
        (SlotArena.not_locked_of_select? hi)).mono SlotArena.freeCells_subset,
        Set.subset_union_left, ?_⟩
      have hlen := length_saveCode (c := c) i
      simp only [owed] at hpaid ⊢
      omega
    have hcover : ScalarCache.cells ⟨(c.arena.clear i).assign i r⟩ ∪ {.reg (hostReg i)} ⊆
        c.cells ∪ {.reg (hostReg i)} :=
      Set.union_subset (cells_allocate_subset i r) Set.subset_union_right
    refine hsave.append ?_
    rw [loadCode]
    split
    · exact .single trivial (quiet_of_lt (hostReg_lt i) rfl (by simp)) (Set.empty_subset _) hcover
        (Nat.add_comm _ _).le
    · exact .single trivial (quiet_of_lt (hostReg_lt i) rfl (by simp)) (Set.empty_subset _) hcover
        (Nat.add_comm _ _).le

theorem cells_markDirty (r : GuestReg) : (c.markDirty r).cells = c.cells := by
  rw [markDirty]
  split
  · rfl
  · cases c.arena.find? r with
    | some i => exact SlotArena.cells_congr fun j => by simp
    | none => rfl

theorem owed_markDirty_le (r : GuestReg) : (c.markDirty r).owed ≤ c.owed + 1 := by
  rw [markDirty]
  split
  · exact Nat.le_succ _
  · cases c.arena.find? r with
    | some i => exact c.arena.owed_setDirty_le i true
    | none => exact Nat.le_succ _

/-- **Writing everything back pays all debt.** -/
theorem tidy_flushAll : Tidy c.flushAll.1 c.cells c.flushAll.2.cells c.owed c.flushAll.2.owed where
  inline := allInline_flushAll
  quiet op hop := by
    obtain ⟨p, -, rfl⟩ := List.mem_map.mp hop
    exact Operation.quiet_of_writes_eq_empty rfl nofun
  inScope := Host.scoped_of_reads_eq_empty fun op hop => by
    obtain ⟨⟨i, r⟩, hp, rfl⟩ := List.mem_map.mp hop
    rintro _ rfl
    exact ⟨i, r, (SlotArena.mem_dirtyBindings_iff.mp hp).1, rfl⟩
  covers := Set.Subset.trans (SlotArena.cells_congr fun j => by simp [flushAll]).subset
    Set.subset_union_left
  paid := by
    have hzero : c.flushAll.2.owed = 0 := c.arena.owed_markClean
    have hlen : c.flushAll.1.length = c.owed := by
      rw [flushAll, List.length_map, SlotArena.length_dirtyBindings]
      rfl
    omega

end ScalarCache

/-! ### The element cache -/

namespace ElementCache

variable (c : ElementCache)

/-- The float register of a slot, as a cell. -/
def floatCell (i : Fin 20) : HostCell := .floatReg (floatReg i)

/-- The registers that hold something. -/
def cells : Set HostCell := c.floats.cells floatCell ∪ c.quads.cells HostCell.quadReg

/-- Number of registers that are still to be stored. -/
def owed : Nat := c.floats.owed + c.quads.owed

variable {c}

/-- The float registers count for the cells, and so do the quad registers. -/
theorem cells_subset {c' : ElementCache} {extra : Set HostCell}
    (hfloats : c'.floats.cells floatCell ⊆ c.floats.cells floatCell ∪ extra)
    (hquads : c'.quads.cells HostCell.quadReg ⊆ c.quads.cells HostCell.quadReg ∪ extra) :
    c'.cells ⊆ c.cells ∪ extra := by
  refine Set.union_subset (hfloats.trans ?_) (hquads.trans ?_)
  · exact Set.union_subset_union_left _ Set.subset_union_left
  · exact Set.union_subset_union_left _ Set.subset_union_right

theorem tidy_evictFloat (i : Fin 20) :
    Tidy (c.evictFloat i).1 c.cells (c.evictFloat i).2.cells c.owed (c.evictFloat i).2.owed := by
  have hclear := c.floats.owed_clear i
  have hcells : (c.evictFloat i).2.cells ⊆ c.cells := by
    refine Set.union_subset_union ?_ ?_
    · rw [floats_evictFloat]
      exact SlotArena.cells_clear_subset i
    · rw [quads_evictFloat]
  have howed : (c.evictFloat i).2.owed + (c.floats.owes i).toNat = c.owed := by
    rw [owed, owed, floats_evictFloat, quads_evictFloat]
    omega
  cases hheld : c.floats.held? i with
  | none =>
    have hcode : (c.evictFloat i).1 = [] := by rw [evictFloat, hheld]
    rw [hcode]
    exact .nil hcells (by omega)
  | some p =>
    obtain ⟨e, d⟩ := p
    obtain ⟨he, hd⟩ := SlotArena.held?_eq_some_iff.mp hheld
    cases d with
    | false =>
      have hcode : (c.evictFloat i).1 = [] := by rw [evictFloat, hheld]; rfl
      rw [hcode]
      exact .nil hcells (by omega)
    | true =>
      have hcode : (c.evictFloat i).1 = [.storeElement (floatReg i) (UInt8.ofNat e.val)] := by
        rw [evictFloat, hheld]
        rfl
      have howes : c.floats.owes i = true := by rw [SlotArena.owes, he, hd]; rfl
      rw [howes, Bool.toNat_true] at howed
      rw [hcode]
      refine .single trivial (Operation.quiet_of_writes_eq_empty rfl (by simp)) ?_
        (hcells.trans Set.subset_union_left) (by omega)
      rintro _ rfl
      exact .inl ⟨i, e, he, rfl⟩

theorem tidy_evictQuad (i : Fin 8) :
    Tidy (c.evictQuad i).1 c.cells (c.evictQuad i).2.cells c.owed (c.evictQuad i).2.owed := by
  have hclear := c.quads.owed_clear i
  have hcells : (c.evictQuad i).2.cells ⊆ c.cells := by
    refine Set.union_subset_union ?_ ?_
    · rw [floats_evictQuad]
    · rw [quads_evictQuad]
      exact SlotArena.cells_clear_subset i
  have howed : (c.evictQuad i).2.owed + (c.quads.owes i).toNat = c.owed := by
    rw [owed, owed, floats_evictQuad, quads_evictQuad]
    omega
  cases hheld : c.quads.held? i with
  | none =>
    have hcode : (c.evictQuad i).1 = [] := by rw [evictQuad, hheld]
    rw [hcode]
    exact .nil hcells (by omega)
  | some p =>
    obtain ⟨reg, d⟩ := p
    obtain ⟨hreg, hd⟩ := SlotArena.held?_eq_some_iff.mp hheld
    cases d with
    | false =>
      have hcode : (c.evictQuad i).1 = [] := by rw [evictQuad, hheld]; rfl
      rw [hcode]
      exact .nil hcells (by omega)
    | true =>
      have hcode : (c.evictQuad i).1 = [.storeQuad i (UInt8.ofNat reg.val)] := by
        rw [evictQuad, hheld]
        rfl
      have howes : c.quads.owes i = true := by rw [SlotArena.owes, hreg, hd]; rfl
      rw [howes, Bool.toNat_true] at howed
      rw [hcode]
      refine .single trivial (Operation.quiet_of_writes_eq_empty rfl (by simp)) ?_
        (hcells.trans Set.subset_union_left) (by omega)
      rintro _ rfl
      exact .inr ⟨i, reg, hreg, rfl⟩

theorem tidy_release (e : Element) :
    Tidy (c.release e).1 c.cells (c.release e).2.cells c.owed (c.release e).2.owed := by
  rw [release]
  cases c.place e with
  | memory => exact .nil subset_rfl le_rfl
  | float i => exact tidy_evictFloat i
  | quad i lane => exact tidy_evictQuad i

theorem tidy_releaseAll (es : List Element) :
    Tidy (c.releaseAll es).1 c.cells (c.releaseAll es).2.cells c.owed (c.releaseAll es).2.owed := by
  induction es generalizing c with
  | nil => exact .nil subset_rfl le_rfl
  | cons e rest ih => exact (tidy_release e).append ih

theorem tidy_leaveQuad (e : Element) :
    Tidy (c.leaveQuad e).1 c.cells (c.leaveQuad e).2.cells c.owed (c.leaveQuad e).2.owed := by
  rw [leaveQuad]
  cases c.place e with
  | memory => exact .nil subset_rfl le_rfl
  | float i => exact .nil subset_rfl le_rfl
  | quad i lane => exact tidy_evictQuad i

/-- The cell that is not set yet when a register was bound to be written. -/
def unset (load : Bool) (x : HostCell) : Set HostCell := if load then ∅ else {x}

theorem diff_unset_subset {load : Bool} {x : HostCell} {s t : Set HostCell}
    (hload : load = true → s ⊆ t) (hstore : s ⊆ t ∪ {x}) : s \ unset load x ⊆ t := by
  rintro y ⟨hy, hne⟩
  cases load with
  | true => exact hload rfl hy
  | false => exact (hstore hy).resolve_right hne

theorem cells_assignFloat_subset (i : Fin 20) (e : Element) (p : ElementPlace) :
    ({ c with floats := c.floats.assign i e }.setPlace e p).cells ⊆ c.cells ∪ {floatCell i} :=
  cells_subset (SlotArena.cells_assign_subset i e) Set.subset_union_left

/-- A free slot is bound to an element. -/
theorem owed_assign_of_clear {n : Nat} {G : Type} {a : SlotArena n G} {i : Fin n}
    (hi : a.guest i = none) (g : G) : (a.assign i g).owed = a.owed := by
  have h := SlotArena.owed_add_toNat (a := a) (b := a.assign i g) i fun j hj => by
    rw [SlotArena.owes, SlotArena.guest_assign, SlotArena.isDirty_assign, if_neg hj, if_neg hj]
    rfl
  have hnew : (a.assign i g).owes i = false := by
    rw [SlotArena.owes, SlotArena.isDirty_assign, if_pos rfl, Bool.and_false]
  have hold : a.owes i = false := by
    rw [SlotArena.owes, hi]
    rfl
  rwa [hnew, hold] at h

theorem tidy_allocateFloat? {e : Element} {load : Bool} {p : Placed (Fin 20) ElementCache}
    (hp : c.allocateFloat? e load = some p) :
    Tidy p.code c.cells (p.cache.cells \ unset load (floatCell p.reg)) (c.owed + load.toNat)
      p.cache.owed := by
  simp only [allocateFloat?, Option.map_eq_some_iff] at hp
  obtain ⟨i, -, rfl⟩ := hp
  have hnone : (c.evictFloat i).2.floats.guest i = none := by
    rw [floats_evictFloat]
    simp
  have hfree := (tidy_evictFloat (c := c) i).raise load.toNat
  generalize (c.evictFloat i).2 = d at hnone hfree ⊢
  have howed : ElementCache.owed ({ d with floats := d.floats.assign i e }.setPlace e (.float i)) =
      d.owed := congrArg (· + d.quads.owed) (owed_assign_of_clear hnone e)
  have hcells := cells_assignFloat_subset (c := d) i e (.float i)
  generalize ElementCache.setPlace { d with floats := d.floats.assign i e } e (.float i) = d'
    at howed hcells ⊢
  refine hfree.append ?_
  cases load with
  | false =>
    have hset : d'.cells \ unset false (floatCell i) ⊆ d.cells :=
      diff_unset_subset (fun h => absurd h (by decide)) hcells
    refine .nil hset ?_
    rw [Bool.toNat_false, Nat.add_zero]
    exact howed.le
  | true =>
    refine .single trivial (Operation.quiet_of_writes_eq rfl (by simp) (by simp))
      (Set.empty_subset _) ?_ ?_
    · exact Set.sdiff_subset.trans hcells
    · show 1 + d'.owed ≤ d.owed + 1
      omega

theorem tidy_placeFloat? {e : Element} {load : Bool} {p : Placed (Fin 20) ElementCache}
    (hp : c.placeFloat? e load = some p) :
    Tidy p.code c.cells (p.cache.cells \ unset load (floatCell p.reg)) (c.owed + load.toNat)
      p.cache.owed := by
  rw [placeFloat?] at hp
  cases hf : c.floats.find? e with
  | some i =>
    rw [hf] at hp
    cases hp
    have hcells : ElementCache.cells { c with floats := (c.floats.touch i).lock i } = c.cells := by
      rw [cells, cells, SlotArena.cells_congr (a := c.floats) fun j => by simp]
    have howed : ElementCache.owed { c with floats := (c.floats.touch i).lock i } = c.owed := by
      rw [owed, owed, SlotArena.owed_lock, SlotArena.owed_touch]
    refine .nil (Set.sdiff_subset.trans hcells.subset) ?_
    rw [howed]
    exact Nat.le_add_right _ _
  | none =>
    rw [hf] at hp
    exact tidy_allocateFloat? hp

/-- The slot that was found or allocated holds the element. -/
theorem guest_placeFloat? {e : Element} {load : Bool} {p : Placed (Fin 20) ElementCache}
    (hp : c.placeFloat? e load = some p) : p.cache.floats.guest p.reg = some e := by
  rw [placeFloat?] at hp
  cases hf : c.floats.find? e with
  | some i =>
    rw [hf] at hp
    cases hp
    simpa using SlotArena.guest_of_find? hf
  | none =>
    rw [hf] at hp
    simp only [allocateFloat?, Option.map_eq_some_iff] at hp
    obtain ⟨i, -, rfl⟩ := hp
    simp [setPlace]

/-- **Binding an element.** -/
theorem tidy_bindElement? {e : Element} {load : Bool} {p : Placed FloatReg ElementCache}
    (hp : c.bindElement? e load = some p) :
    Tidy p.code c.cells (p.cache.cells \ unset load (.floatReg p.reg)) (c.owed + 1) p.cache.owed ∧
      .floatReg p.reg ∈ p.cache.cells := by
  rw [bindElement?_eq, Option.map_eq_some_iff] at hp
  obtain ⟨p, hp, rfl⟩ := hp
  have hplace := tidy_placeFloat? hp
  have hguest := guest_placeFloat? hp
  have hcode := ((tidy_leaveQuad (c := c) e).raise load.toNat).append hplace
  cases load with
  | true => exact ⟨hcode, .inl ⟨p.reg, e, hguest, rfl⟩⟩
  | false =>
    have hcells : ElementCache.cells { p.cache with floats := p.cache.floats.setDirty p.reg true } =
        p.cache.cells := by
      rw [cells, cells, SlotArena.cells_congr (a := p.cache.floats) fun j => by simp]
    have howed := p.cache.floats.owed_setDirty_le p.reg true
    refine ⟨⟨hcode.inline, hcode.quiet, hcode.inScope, ?_, ?_⟩, .inl ⟨p.reg, e, ?_, rfl⟩⟩
    · show ElementCache.cells { p.cache with floats := p.cache.floats.setDirty p.reg true } \ _ ⊆ _
      rw [hcells]
      exact hcode.covers
    · have hpaid := hcode.paid
      show _ + ((p.cache.floats.setDirty p.reg true).owed + p.cache.quads.owed) ≤ _
      simp only [owed, Bool.toNat_false] at hpaid ⊢
      omega
    · show (p.cache.floats.setDirty p.reg true).guest p.reg = some e
      rw [SlotArena.guest_setDirty, hguest]

/-- **Binding the elements of a vector register.** -/
theorem tidy_bindQuad? {reg : Fin 128} {load : Bool} {p : Placed QuadReg ElementCache}
    (hp : c.bindQuad? reg load = some p) :
    Tidy p.code c.cells (p.cache.cells \ unset load (.quadReg p.reg)) (c.owed + 1) p.cache.owed ∧
      .quadReg p.reg ∈ p.cache.cells := by
  rw [bindQuad?] at hp
  cases hf : c.quads.find? reg with
  | some i =>
    rw [hf] at hp
    cases hp
    have hguest := SlotArena.guest_of_find? hf
    have hcells : ElementCache.cells { c with quads :=
        (if load then (c.quads.touch i).lock i else ((c.quads.touch i).lock i).setDirty i true) } =
        c.cells := by
      rw [cells, cells, SlotArena.cells_congr (a := c.quads) fun j => by cases load <;> simp]
    refine ⟨.nil (Set.sdiff_subset.trans hcells.subset) ?_, ?_⟩
    · have hle := ((c.quads.touch i).lock i).owed_setDirty_le i true
      rw [SlotArena.owed_lock, SlotArena.owed_touch] at hle
      have hsame := (c.quads.touch i).owed_lock i
      rw [SlotArena.owed_touch] at hsame
      cases load
      · show c.floats.owed + _ ≤ c.floats.owed + c.quads.owed + 1
        simp only [Bool.false_eq_true, if_false]
        omega
      · show c.floats.owed + _ ≤ c.floats.owed + c.quads.owed + 1
        simp only [if_true]
        omega
    · show .quadReg i ∈ ElementCache.cells _
      rw [hcells]
      exact .inr ⟨i, reg, hguest, rfl⟩
  | none =>
    rw [hf] at hp
    simp only [allocateQuad?, Option.map_eq_some_iff] at hp
    obtain ⟨i, -, rfl⟩ := hp
    have hfree := (tidy_releaseAll (c := c) (quadElements reg)).append
      (tidy_evictQuad (c := (c.releaseAll (quadElements reg)).2) i)
    generalize hd : ((c.releaseAll (quadElements reg)).2.evictQuad i).2 = d at hfree ⊢
    have hnone : d.quads.guest i = none := by
      rw [← hd, quads_evictQuad]
      simp
    have hcells : ElementCache.cells (ElementCache.setLanes { d with
        quads := (d.quads.assign i reg).setDirty i (!load) } i 0 (quadElements reg)) ⊆
        d.cells ∪ {.quadReg i} := by
      refine cells_subset ?_ ?_
      · rw [floats_setLanes]
        exact Set.subset_union_left
      · rw [quads_setLanes]
        exact (SlotArena.cells_congr (a := d.quads.assign i reg) fun j => by simp).subset.trans
          (SlotArena.cells_assign_subset i reg)
    have howed : ElementCache.owed (ElementCache.setLanes { d with
        quads := (d.quads.assign i reg).setDirty i (!load) } i 0 (quadElements reg)) ≤
        d.owed + (!load).toNat := by
      rw [owed, floats_setLanes, quads_setLanes]
      show d.floats.owed + ((d.quads.assign i reg).setDirty i (!load)).owed ≤ _
      have hassign := owed_assign_of_clear hnone reg
      cases load with
      | true =>
        have hle := (d.quads.assign i reg).owed_setDirty_false_le i
        simp only [Bool.not_true, Bool.toNat_false, owed] at hle ⊢
        omega
      | false =>
        have hle := (d.quads.assign i reg).owed_setDirty_le i true
        simp only [Bool.not_false, Bool.toNat_true, owed] at hle ⊢
        omega
    have hguest : (ElementCache.setLanes { d with
        quads := (d.quads.assign i reg).setDirty i (!load) } i 0 (quadElements reg)).quads.guest i =
        some reg := by
      rw [quads_setLanes]
      simp
    generalize ElementCache.setLanes { d with quads := (d.quads.assign i reg).setDirty i (!load) }
      i 0 (quadElements reg) = d' at hcells howed hguest ⊢
    refine ⟨(hfree.raise 1).append ?_, .inr ⟨i, reg, hguest, rfl⟩⟩
    cases load with
    | false =>
      have hset : d'.cells \ unset false (.quadReg i) ⊆ d.cells :=
        diff_unset_subset (fun h => absurd h (by decide)) hcells
      exact .nil hset howed
    | true =>
      refine .single trivial (Operation.quiet_of_writes_eq rfl (by simp) (by simp))
        (Set.empty_subset _) ?_ ?_
      · exact Set.sdiff_subset.trans hcells
      · simp only [Bool.not_true, Bool.toNat_false] at howed
        show 1 + d'.owed ≤ d.owed + 1
        omega

/-- **Writing everything back pays all debt.** -/
theorem tidy_flushAll : Tidy c.flushAll.1 c.cells c.flushAll.2.cells c.owed c.flushAll.2.owed where
  inline := allInline_flushAll
  quiet op hop := by
    rcases List.mem_append.mp hop with hop | hop
    all_goals
      obtain ⟨p, -, rfl⟩ := List.mem_map.mp hop
      exact Operation.quiet_of_writes_eq_empty rfl nofun
  inScope := Host.scoped_of_reads_eq_empty fun op hop => by
    rcases List.mem_append.mp hop with hop | hop
    · obtain ⟨⟨i, e⟩, hp, rfl⟩ := List.mem_map.mp hop
      rintro _ rfl
      exact .inl ⟨i, e, (SlotArena.mem_dirtyBindings_iff.mp hp).1, rfl⟩
    · obtain ⟨⟨i, reg⟩, hp, rfl⟩ := List.mem_map.mp hop
      rintro _ rfl
      exact .inr ⟨i, reg, (SlotArena.mem_dirtyBindings_iff.mp hp).1, rfl⟩
  covers := by
    refine Set.Subset.trans (Eq.subset ?_) Set.subset_union_left
    rw [cells, cells, SlotArena.cells_congr (a := c.floats) fun j => by simp [flushAll],
      SlotArena.cells_congr (a := c.quads) fun j => by simp [flushAll]]
  paid := by
    have hfloats : c.flushAll.2.floats.owed = 0 := c.floats.owed_markClean
    have hquads : c.flushAll.2.quads.owed = 0 := c.quads.owed_markClean
    have hlen : c.flushAll.1.length = c.owed := by
      rw [flushAll, List.length_append, List.length_map, List.length_map,
        SlotArena.length_dirtyBindings, SlotArena.length_dirtyBindings]
      rfl
    rw [owed, hfloats, hquads]
    omega

end ElementCache

end Dynarec
