import Dynarec.Proofs.Guest.Stores

/-!
# Memory away from the end of the address space

A store meets a broken promise exactly if it lies in the window and reaches the end of the address
space (`Memory.store_error_iff`).  In a window that ends at least eight bytes below that end no
store does so (`Memory.Low.store`), and so nothing that only stores does: neither an instruction
(`Machine.execute_ne_violation`) nor a host operation (`Operation.kept_perform`).
-/

namespace Dynarec

namespace Memory

variable {m m' : Memory}

/-- **The window ends at least eight bytes below the end of the address space.** -/
def Low (m : Memory) : Prop := m.base.toNat + m.size + 8 ≤ 2 ^ 32

theorem Low.size_lt (h : m.Low) : m.size < 2 ^ 32 := by
  rw [Low] at h
  omega

/-- Bytes in the window. -/
theorem offset?_eq_some_iff {address : UInt32} {length offset : Nat} :
    m.offset? address length = some offset ↔
      address.toNat = m.base.toNat + offset ∧ offset + length ≤ m.size := by
  rw [offset?]
  split
  · rename_i hin
    obtain ⟨hle, hlen⟩ := hin
    rw [UInt32.toNat_sub_of_le _ _ hle] at hlen
    rw [UInt32.toNat_sub_of_le _ _ hle, Option.some_inj]
    rw [UInt32.le_iff_toNat_le] at hle
    omega
  · rename_i hout
    refine ⟨nofun, fun ⟨heq, hlen⟩ => absurd ?_ hout⟩
    have hle : m.base ≤ address := by
      rw [UInt32.le_iff_toNat_le]
      omega
    rw [UInt32.toNat_sub_of_le _ _ hle]
    exact ⟨hle, by omega⟩

theorem contains_iff {address : UInt32} {length : Nat} : m.contains address length = true ↔
    m.base.toNat ≤ address.toNat ∧ address.toNat + length ≤ m.base.toNat + m.size := by
  rw [contains, Option.isSome_iff_exists]
  constructor
  · rintro ⟨offset, hoffset⟩
    have hrange := offset?_eq_some_iff.mp hoffset
    omega
  · intro hin
    exact ⟨address.toNat - m.base.toNat, offset?_eq_some_iff.mpr (by omega)⟩

/-- **A store in the window that reaches the end of the address space.** -/
def Breaks (m : Memory) (s : UInt32 × Nat) : Prop :=
  m.contains s.1 s.2 = true ∧ 2 ^ 32 ≤ s.1.toNat + s.2

/-- No store does so in a window that ends below it. -/
theorem not_breaks (hfits : m.base.toNat + m.size < 2 ^ 32) (s : UInt32 × Nat) : ¬ m.Breaks s := by
  rintro ⟨hin, hend⟩
  have hrange := contains_iff.mp hin
  omega

theorem store_error_iff {address : UInt32} {data : List UInt8} :
    (∃ v, m.store address data = .error v) ↔ m.Breaks (address, data.length) := by
  rw [store, Breaks, contains]
  cases m.offset? address data.length with
  | none => simp
  | some offset =>
    dsimp only
    split
    · rename_i hend
      exact iff_of_true ⟨_, rfl⟩ ⟨rfl, hend⟩
    · rename_i hend
      refine iff_of_false ?_ fun hbreaks => hend hbreaks.2
      rintro ⟨v, hv⟩
      split at hv <;> cases hv

theorem store_ok_iff {address : UInt32} {data : List UInt8} :
    (∃ m', m.store address data = .ok m') ↔ ¬ m.Breaks (address, data.length) := by
  rw [← store_error_iff]
  cases m.store address data <;> simp

/-- **The same bytes in the same window**; marks and the queue may differ. -/
structure Alike (m m' : Memory) : Prop where
  base : m'.base = m.base
  bytes : m'.bytes = m.bytes

namespace Alike

theorem refl (m : Memory) : Alike m m := ⟨rfl, rfl⟩

theorem symm (x : Alike m m') : Alike m' m := ⟨x.base.symm, x.bytes.symm⟩

theorem trans {m'' : Memory} (x : Alike m m') (y : Alike m' m'') : Alike m m'' :=
  ⟨y.base.trans x.base, y.bytes.trans x.bytes⟩

theorem size (x : Alike m m') : m'.size = m.size := congrArg ByteArray.size x.bytes

theorem offset? (x : Alike m m') (address : UInt32) (length : Nat) :
    m'.offset? address length = m.offset? address length := by
  rw [Memory.offset?, Memory.offset?, x.base, x.size]

theorem valueAt (x : Alike m m') (offset count : Nat) :
    m'.valueAt offset count = m.valueAt offset count := by
  induction count generalizing offset with
  | zero => rfl
  | succ count ih => rw [Memory.valueAt, Memory.valueAt, byteAt, byteAt, x.bytes, ih]

theorem read (x : Alike m m') (address : UInt32) (count : Nat) :
    m'.read address count = m.read address count := by
  rw [Memory.read, Memory.read, x.offset?]
  simp only [x.valueAt]

theorem fetch? (x : Alike m m') (address : UInt32) : m'.fetch? address = m.fetch? address := by
  rw [Memory.fetch?, Memory.fetch?, x.offset?]
  simp only [x.valueAt]

theorem low (x : Alike m m') (h : m.Low) : m'.Low := by
  rw [Low, x.base, x.size]
  exact h

end Alike

namespace Low

theorem of_stores (h : m.Low) (x : Stores m m') : m'.Low := by
  obtain ⟨hbase, hsize, -⟩ := x.same
  rw [Low, hbase, hsize]
  exact h

/-- **Every store has a result.** -/
theorem store (h : m.Low) (address : UInt32) (data : List UInt8) :
    ∃ m', m.store address data = .ok m' := by
  rw [Low] at h
  exact store_ok_iff.mpr (not_breaks (by omega) _)

theorem writeSingle (h : m.Low) (address : UInt32) (value : Single) :
    ∃ m', m.writeSingle address value = .ok m' := h.store _ _

theorem width (h : m.Low) (w : Width) (address value : UInt32) :
    ∃ m', w.store m address value = .ok m' := by
  cases w <;> exact h.store _ _

theorem writeWords (h : m.Low) (address : UInt32) (ws : List UInt32) :
    ∃ m', m.writeWords address ws = .ok m' := by
  induction ws generalizing m address with
  | nil => exact ⟨m, rfl⟩
  | cons w rest ih =>
    obtain ⟨m₁, hone⟩ : ∃ m₁, m.write32 address w = .ok m₁ := h.store _ _
    obtain ⟨m₂, hrest⟩ := ih (h.of_stores (stores_write32 hone)) (address + 4)
    exact ⟨m₂, by rw [Memory.writeWords, hone]; exact hrest⟩

theorem storeSingles (h : m.Low) (address : UInt32) (xs : List Single) :
    ∃ m', storeSingles m address xs = .ok m' := by
  induction xs generalizing m address with
  | nil => exact ⟨m, rfl⟩
  | cons x rest ih =>
    obtain ⟨m₁, hone⟩ := h.writeSingle address x
    obtain ⟨m₂, hrest⟩ := ih (h.of_stores (stores_writeSingle hone)) (address + 4)
    exact ⟨m₂, by rw [Dynarec.storeSingles, hone]; exact hrest⟩

theorem storeElements (h : m.Low) (core : Core) (address : UInt32) (es : List Element) :
    ∃ m', Machine.storeElements core m address es = .ok m' := by
  induction es generalizing m address with
  | nil => exact ⟨m, rfl⟩
  | cons e rest ih =>
    obtain ⟨m₁, hone⟩ := h.writeSingle address (core.element e)
    obtain ⟨m₂, hrest⟩ := ih (h.of_stores (stores_writeSingle hone)) (address + 4)
    exact ⟨m₂, by rw [Machine.storeElements, hone]; exact hrest⟩

end Low

end Memory

/-! ### Signed words -/

/-- A difference that a signed word can hold. -/
theorem toInt_sub_exact {a b : Int32} (hlow : -2 ^ 31 ≤ a.toInt - b.toInt)
    (hhigh : a.toInt - b.toInt < 2 ^ 31) : (a - b).toInt = a.toInt - b.toInt := by
  rw [Int32.toInt_sub]
  exact Int.bmod_eq_of_le (by omega) (by omega)

theorem toInt_sub_one {a : Int32} (ha : -2 ^ 31 < a.toInt) : (a - 1).toInt = a.toInt - 1 := by
  have hone : (1 : Int32).toInt = 1 := rfl
  have hlt := a.toInt_lt
  rw [toInt_sub_exact (by omega) (by omega), hone]

namespace Machine

variable {m m' : Machine} {v : Violation}

/-! ### Instructions -/

theorem withMemory_ne_violation {f : Machine → Except Violation Machine} (hf : ∃ m', f m = .ok m') :
    m.withMemory f ≠ .error (.violation v) m' := by
  obtain ⟨m₁, hm₁⟩ := hf
  rw [withMemory, hm₁]
  intro heq
  cases heq

theorem ok_map {memory : Memory} {core : Core} {x : Except Violation Memory}
    (hx : x = .ok memory) : ∃ m', x.map (Machine.mk core) = .ok m' := by
  rw [hx]
  exact ⟨_, rfl⟩

theorem ok_executeMemory (h : m.memory.Low) (i : Instr) : ∃ m', m.executeMemory i = .ok m' := by
  rw [executeMemory]
  split
  iterate 5 exact ⟨_, rfl⟩
  all_goals exact ok_map (h.store _ _).choose_spec

theorem ok_executeVectorMemory (h : m.memory.Low) (i : Instr) (es : List Element) (loads : Bool) :
    ∃ m', m.executeVectorMemory i es loads = .ok m' := by
  rw [executeVectorMemory]
  split
  · exact ⟨_, rfl⟩
  · exact ok_map (h.storeElements _ _ _).choose_spec

/-- **An instruction that is not a branch breaks no promise.** -/
theorem execute_ne_violation (h : m.memory.Low) (i : Instr) (pc : UInt32) :
    execute i pc m ≠ .error (.violation v) m' := by
  rw [execute]
  cases i.family
  case memory => exact withMemory_ne_violation (ok_executeMemory h i)
  case elementMemory => exact withMemory_ne_violation (ok_executeVectorMemory h i _ _)
  case quadMemory => exact withMemory_ne_violation (ok_executeVectorMemory h i _ _)
  case vectorMove =>
    dsimp only
    intro heq
    split at heq <;> cases heq
  all_goals
    intro heq
    cases heq

theorem perform_ne_violation (h : m.memory.Low) (i : Instr) (pc : UInt32) (slot : Bool) :
    perform i pc slot m ≠ .error (.violation v) m' := by
  rw [perform]
  split
  · intro heq
    cases heq
  · exact execute_ne_violation h i pc

/-! ### The downcount -/

theorem downcount_setGpr (c : Core) (n : Fin 32) (w : UInt32) :
    (c.setGpr n w).downcount = c.downcount := by
  rw [Core.setGpr]
  split <;> rfl

theorem downcount_link (c : Core) (i : Instr) (pc : UInt32) :
    (c.link i pc).downcount = c.downcount := by
  rw [Core.link]
  split
  iterate 3
    split
    · exact downcount_setGpr c _ _
    · rfl
  rfl

theorem downcount_branch (c : Core) (i : Instr) (pc : UInt32) :
    (c.branch i pc).downcount = c.downcount := by
  rw [Core.branch]
  split <;> exact downcount_link c i pc

/-- Only retiring an instruction changes the downcount. -/
theorem downcount_perform {i : Instr} {pc : UInt32} {slot : Bool} {event : StepEvent}
    (hok : perform i pc slot m = .ok event m') : m'.core.downcount = m.core.downcount := by
  rw [perform] at hok
  split at hok
  · cases hok
    show (if slot then m.core.link i pc else m.core.branch i pc).downcount = _
    split
    · exact downcount_link _ i pc
    · exact downcount_branch _ i pc
  · by_cases hi : i.family = .breakpoint
    · rw [execute, hi] at hok
      cases hok
      rfl
    · exact congrArg Core.Frame.downcount (frame_execute hi hok)

theorem downcount_retire (c : Core) (pc : UInt32) (slot : Bool) :
    (c.retire pc slot).downcount = c.downcount - 1 := by
  rw [Core.retire]
  dsimp only
  split
  · rfl
  · split <;> rfl

/-- **One instruction traps, or lowers the downcount by one**, unless that already has its least
value. -/
theorem step_cases (h : m.memory.Low) (hclock : -2 ^ 31 < m.core.downcount.toInt) :
    (∃ t, step m = .error (.trap t) m) ∨
      ∃ event m', step m = .ok event m' ∧
        m'.core.downcount.toInt = m.core.downcount.toInt - 1 := by
  have hne : m.core.downcount ≠ Int32.minValue := fun heq => by
    rw [heq] at hclock
    exact absurd hclock (by decide)
  rw [step]
  dsimp only
  cases m.memory.fetch? m.core.pc with
  | none => exact .inl ⟨_, rfl⟩
  | some word =>
    dsimp only
    cases hperform : perform ⟨word⟩ m.core.pc m.core.inDelaySlot m with
    | error e m₁ =>
      cases e with
      | trap t =>
        refine .inl ⟨t, ?_⟩
        have hsame : m₁ = m := by
          rw [perform] at hperform
          split at hperform
          · cases hperform
          · exact eq_of_execute_trap hperform
        rw [hsame]
      | violation v => exact absurd hperform (perform_ne_violation h _ _ _)
    | ok event m₁ =>
      have hsame := downcount_perform hperform
      refine .inr ⟨event, _, if_neg ?_, ?_⟩
      · rw [hsame]
        simpa using hne
      · show (m₁.core.retire _ _).downcount.toInt = _
        rw [downcount_retire, hsame, toInt_sub_one hclock]

/-- **One instruction and its delay slot** trap, or lower the downcount.  They take two cycles at
most. -/
theorem runOne_cases (h : m.memory.Low) (hclock : -2 ^ 31 + 1 < m.core.downcount.toInt) :
    (∃ t m', runOne m = .error (.trap t) m' ∧ m'.core.downcount.toInt ≤ m.core.downcount.toInt ∧
        m.core.downcount.toInt ≤ m'.core.downcount.toInt + 2) ∨
      ∃ event m', runOne m = .ok event m' ∧ m'.core.downcount.toInt < m.core.downcount.toInt ∧
        m.core.downcount.toInt ≤ m'.core.downcount.toInt + 2 := by
  rw [runOne]
  rcases step_cases h (by omega) with ⟨t, hstep⟩ | ⟨event, m₁, hstep, hdown⟩
  · rw [hstep]
    exact .inl ⟨t, m, rfl, by omega, by omega⟩
  · rw [hstep]
    dsimp only
    split
    · rcases step_cases (h.of_stores (stores_step hstep)) (by omega) with
        ⟨t, hslot⟩ | ⟨event', m₂, hslot, hdown'⟩
      · exact .inl ⟨t, m₁, hslot, by omega, by omega⟩
      · exact .inr ⟨event', m₂, hslot, by omega, by omega⟩
    · exact .inr ⟨event, m₁, rfl, by omega, by omega⟩

end Machine

/-! ### Host operations -/

/-- An outcome that breaks no promise. -/
def Outcome.Kept : Outcome → Prop
  | .broken _ => False
  | _ => True

theorem Outcome.kept_withMemory {h : HostState} {m : Machine} {f : Memory → Except Violation Memory}
    (hf : ∃ memory, f m.memory = .ok memory) : (Outcome.withMemory h m f).Kept := by
  obtain ⟨memory, hmemory⟩ := hf
  rw [Outcome.withMemory, hmemory]
  trivial

/-- **A host operation breaks no promise.** -/
theorem Operation.kept_perform (op : Operation) (h : HostState) {m : Machine} (hlow : m.memory.Low) :
    (op.perform h m).Kept := by
  cases op
  case store w rs base offset =>
    exact Outcome.kept_withMemory
      (f := fun memory => w.store memory (h.address base offset) (h.get rs)) (hlow.width _ _ _)
  case floatStore fs base offset =>
    exact Outcome.kept_withMemory
      (f := fun memory => memory.writeSingle (h.address base offset) (h.float fs))
      (hlow.writeSingle _ _)
  case quadStore qs base offset =>
    exact Outcome.kept_withMemory
      (f := fun memory => storeSingles memory (h.address base offset) (h.quad qs).toList)
      (hlow.storeSingles _ _)
  case interpret word =>
    rw [Host.perform_interpret_eq]
    cases hexec : Machine.execute ⟨word⟩ m.core.pc m with
    | ok event m' => cases event <;> trivial
    | error e m' =>
      cases e with
      | trap t => trivial
      | violation v => exact absurd hexec (Machine.execute_ne_violation hlow _ _)
  case jumpIf c target =>
    rw [perform]
    split <;> trivial
  case checkEntry inRegister pc =>
    rw [perform]
    generalize (decide (_ ≤ (0 : Int32)) || m.eventPending) = leaves
    cases leaves <;> trivial
  case guardModifiers pc =>
    rw [perform]
    split <;> trivial
  all_goals trivial

end Dynarec
