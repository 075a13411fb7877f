import Dynarec.Proofs.Host.Cells
import Mathlib.Logic.Relation

/-!
# How memory changes

Whatever runs guest code changes memory by stores of one to four bytes and by nothing else.
`Memory.Stores m m'` says that `m'` comes from `m` by any number of them; it holds of every
interpreted instruction (`stores_step`), of every host operation (`Outcome.stores_perform`) and so
of every run of host code (`Host.stores_run`).
-/

namespace Dynarec

namespace Memory

variable {m m' m'' : Memory}

/-- **One store** of one to four bytes. -/
def Stored (m m' : Memory) : Prop :=
  ∃ address data, data ≠ [] ∧ data.length ≤ 4 ∧ m.store address data = .ok m'

/-- **Any number of stores.** -/
abbrev Stores : Memory → Memory → Prop := Relation.ReflTransGen Stored

theorem length_wordBytes (w : UInt32) : (Encode.wordBytes w).length = 4 := rfl

theorem stores_write8 {address value : UInt32} (hok : m.write8 address value = .ok m') :
    Stores m m' := .single ⟨address, _, by simp, by simp, hok⟩

theorem stores_write16 {address value : UInt32} (hok : m.write16 address value = .ok m') :
    Stores m m' := .single ⟨address, _, by simp, by simp, hok⟩

theorem stores_write32 {address value : UInt32} (hok : m.write32 address value = .ok m') :
    Stores m m' :=
  .single ⟨address, _, List.ne_nil_of_length_eq_add_one (length_wordBytes value),
    (length_wordBytes value).le, hok⟩

theorem stores_writeSingle {address : UInt32} {value : Single}
    (hok : m.writeSingle address value = .ok m') : Stores m m' := stores_write32 hok

theorem stores_writeWords {address : UInt32} {ws : List UInt32}
    (hok : m.writeWords address ws = .ok m') : Stores m m' := by
  induction ws generalizing m address with
  | nil =>
    cases hok
    exact .refl
  | cons w rest ih =>
    rw [writeWords] at hok
    cases hone : m.write32 address w with
    | error v =>
      rw [hone] at hok
      cases hok
    | ok m₁ =>
      rw [hone] at hok
      exact (stores_write32 hone).trans (ih hok)

theorem stores_width {w : Width} {address value : UInt32} (hok : w.store m address value = .ok m') :
    Stores m m' := by
  cases w with
  | byte | byteUnsigned => exact stores_write8 hok
  | half | halfUnsigned => exact stores_write16 hok
  | word => exact stores_write32 hok

theorem stores_storeSingles {address : UInt32} {xs : List Single}
    (hok : storeSingles m address xs = .ok m') : Stores m m' := by
  induction xs generalizing m address with
  | nil =>
    cases hok
    exact .refl
  | cons x rest ih =>
    rw [storeSingles] at hok
    cases hone : m.writeSingle address x with
    | error v =>
      rw [hone] at hok
      cases hok
    | ok m₁ =>
      rw [hone] at hok
      exact (stores_writeSingle hone).trans (ih hok)

theorem size_putBytes (bytes : ByteArray) (offset : Nat) (data : List UInt8) :
    (putBytes bytes offset data).size = bytes.size := by
  induction data generalizing bytes offset with
  | nil => rfl
  | cons b rest ih => exact (ih _ _).trans Array.size_setIfInBounds

/-- **What a store inside the window does.** -/
theorem store_cases {address : UInt32} {data : List UInt8} (hok : m.store address data = .ok m') :
    (m.offset? address data.length = none ∧ m' = m) ∨
    ∃ offset, m.offset? address data.length = some offset ∧ address.toNat + data.length < 2 ^ 32 ∧
      m' = { m with
        bytes := putBytes m.bytes offset data
        changed :=
          if m.isCodePage (m.page address) ||
              m.isCodePage (m.page (address + UInt32.ofNat data.length - 1)) then
            noteChange m.changed address (UInt32.ofNat data.length)
          else m.changed } := by
  rw [store] at hok
  cases hoffset : m.offset? address data.length with
  | none =>
    rw [hoffset] at hok
    cases hok
    exact .inl ⟨rfl, rfl⟩
  | some offset =>
    rw [hoffset] at hok
    dsimp only at hok
    split at hok
    · cases hok
    · rename_i hend
      refine .inr ⟨offset, rfl, Nat.lt_of_not_le hend, ?_⟩
      split at hok
      · rename_i hmarked
        cases hok
        rw [if_pos hmarked]
      · rename_i hmarked
        cases hok
        rw [if_neg hmarked]

/-- **Stores change neither the window nor its marks.** -/
theorem Stores.same (x : Stores m m') :
    m'.base = m.base ∧ m'.size = m.size ∧ m'.codePages = m.codePages := by
  induction x with
  | refl => exact ⟨rfl, rfl, rfl⟩
  | tail _ hstep ih =>
    obtain ⟨address, data, -, -, hok⟩ := hstep
    rcases store_cases hok with ⟨-, rfl⟩ | ⟨offset, -, -, rfl⟩
    · exact ih
    · exact ⟨ih.1, (size_putBytes _ _ _).trans ih.2.1, ih.2.2⟩

end Memory

namespace Machine

open Memory

variable {m m' : Machine}

/-! ### Interpreted instructions -/

theorem stores_storeElements {core : Core} {memory memory' : Memory} {address : UInt32}
    {es : List Element} (hok : storeElements core memory address es = .ok memory') :
    Stores memory memory' := by
  induction es generalizing memory address with
  | nil =>
    cases hok
    exact .refl
  | cons e rest ih =>
    rw [storeElements] at hok
    cases hone : memory.writeSingle address (core.element e) with
    | error v =>
      rw [hone] at hok
      cases hok
    | ok m₁ =>
      rw [hone] at hok
      exact (stores_writeSingle hone).trans (ih hok)

/-- What a store leaves behind, together with the core. -/
theorem stores_of_map {core : Core} {memory : Memory} {result : Except Violation Memory}
    (hresult : ∀ memory', result = .ok memory' → Stores memory memory')
    (hok : result.map (Machine.mk core) = .ok m') : Stores memory m'.memory := by
  cases result with
  | error v => cases hok
  | ok memory' =>
    cases hok
    exact hresult memory' rfl

theorem stores_executeMemory {i : Instr} (hok : m.executeMemory i = .ok m') :
    Stores m.memory m'.memory := by
  rw [executeMemory] at hok
  split at hok
  iterate 5
    cases hok
    exact .refl
  · exact stores_of_map (fun _ => stores_write8) hok
  · exact stores_of_map (fun _ => stores_write16) hok
  · exact stores_of_map (fun _ => stores_write32) hok

theorem stores_executeVectorMemory {i : Instr} {es : List Element} {loads : Bool}
    (hok : m.executeVectorMemory i es loads = .ok m') : Stores m.memory m'.memory := by
  rw [executeVectorMemory] at hok
  split at hok
  · cases hok
    exact .refl
  · exact stores_of_map (fun _ => stores_storeElements) hok

theorem stores_withMemory {f : Machine → Except Violation Machine}
    (hf : ∀ m', f m = .ok m' → Stores m.memory m'.memory) {event : StepEvent}
    (hok : m.withMemory f = .ok event m') : Stores m.memory m'.memory := by
  rw [withMemory] at hok
  cases hx : f m with
  | error v =>
    rw [hx] at hok
    cases hok
  | ok m₁ =>
    rw [hx] at hok
    cases hok
    exact hf _ hx

/-- **An instruction that is not a branch.** -/
theorem stores_execute {i : Instr} {pc : UInt32} {event : StepEvent}
    (hok : execute i pc m = .ok event m') : Stores m.memory m'.memory := by
  rw [execute] at hok
  cases hfam : i.family <;> rw [hfam] at hok
  case memory => exact stores_withMemory (fun _ => stores_executeMemory) hok
  case elementMemory => exact stores_withMemory (fun _ => stores_executeVectorMemory) hok
  case quadMemory => exact stores_withMemory (fun _ => stores_executeVectorMemory) hok
  case vectorMove =>
    dsimp only at hok
    split at hok
    · cases hok
      exact .refl
    · cases hok
  all_goals
    cases hok <;> exact .refl

theorem stores_perform {i : Instr} {pc : UInt32} {slot : Bool} {event : StepEvent}
    (hok : perform i pc slot m = .ok event m') : Stores m.memory m'.memory := by
  rw [perform] at hok
  split at hok
  · cases hok
    exact .refl
  · exact stores_execute hok

/-- **One instruction.** -/
theorem stores_step {event : StepEvent} (hok : step m = .ok event m') :
    Stores m.memory m'.memory := by
  rw [step] at hok
  dsimp only at hok
  split at hok
  · cases hok
  · split at hok
    · cases hok
    · rename_i hperform
      split at hok
      · cases hok
      · cases hok
        exact (stores_perform hperform :)

/-- A step that traps changes nothing. -/
theorem eq_of_step_trap {t : Trap} (hstep : step m = .error (.trap t) m') : m' = m := by
  rw [step] at hstep
  dsimp only at hstep
  split at hstep
  · cases hstep
    rfl
  · split at hstep
    · rename_i hperform
      cases hstep
      rw [perform] at hperform
      split at hperform
      · cases hperform
      · exact eq_of_execute_trap hperform
    · split at hstep <;> cases hstep

/-- **One instruction and its delay slot**, also when one of them traps. -/
theorem stores_runOne {event : StepEvent} (hok : runOne m = .ok event m') :
    Stores m.memory m'.memory := by
  rw [runOne] at hok
  split at hok
  · cases hok
  · rename_i hstep
    split at hok
    · exact (stores_step hstep).trans (stores_step hok)
    · cases hok
      exact stores_step hstep

theorem stores_runOne_trap {t : Trap} (hrun : runOne m = .error (.trap t) m') :
    Stores m.memory m'.memory := by
  rw [runOne] at hrun
  split at hrun
  · rename_i hstep
    cases hrun
    rw [eq_of_step_trap hstep]
  · rename_i hstep
    split at hrun
    · rw [eq_of_step_trap hrun]
      exact stores_step hstep
    · cases hrun

end Machine

/-! ### Host operations -/

open Memory

/-- The machine of an outcome, if there is one, has a memory that comes from `memory` by stores. -/
def Outcome.StoresFrom (memory : Memory) : Outcome → Prop
  | .next _ m | .jump _ _ m | .exit _ _ m => Stores memory m.memory
  | .broken _ => True

theorem Outcome.storesFrom_withMemory {h : HostState} {m : Machine}
    {f : Memory → Except Violation Memory}
    (hf : ∀ memory, f m.memory = .ok memory → Stores m.memory memory) :
    (Outcome.withMemory h m f).StoresFrom m.memory := by
  rw [Outcome.withMemory]
  cases hx : f m.memory with
  | ok memory => exact hf memory hx
  | error v => trivial

theorem Host.storesFrom_interpreted (word pc : UInt32) (h : HostState) (m : Machine) :
    (Host.interpreted word pc h (Machine.execute ⟨word⟩ pc m)).StoresFrom m.memory := by
  cases hexec : Machine.execute ⟨word⟩ pc m with
  | ok event m' => cases event <;> exact Machine.stores_execute hexec
  | error e m' =>
    cases e with
    | trap t =>
      rw [Machine.eq_of_execute_trap hexec]
      exact .refl
    | violation v => trivial

namespace Operation

/-- **A host operation changes memory by stores.** -/
theorem storesFrom_perform (op : Operation) (h : HostState) (m : Machine) :
    (op.perform h m).StoresFrom m.memory := by
  cases op
  case store w rs base offset =>
    exact Outcome.storesFrom_withMemory
      (f := fun memory => w.store memory (h.address base offset) (h.get rs)) fun _ => stores_width
  case floatStore fs base offset =>
    exact Outcome.storesFrom_withMemory
      (f := fun memory => memory.writeSingle (h.address base offset) (h.float fs))
      fun _ => stores_writeSingle
  case quadStore qs base offset =>
    exact Outcome.storesFrom_withMemory
      (f := fun memory => storeSingles memory (h.address base offset) (h.quad qs).toList)
      fun _ => stores_storeSingles
  case interpret word =>
    rw [Host.perform_interpret_eq]
    exact Host.storesFrom_interpreted word m.core.pc h m
  case jumpIf c target =>
    rw [perform]
    split <;> exact .refl
  case checkEntry inRegister pc =>
    rw [perform]
    generalize (decide (_ ≤ (0 : Int32)) || m.eventPending) = leaves
    cases leaves <;> exact .refl
  case guardModifiers pc =>
    rw [perform]
    split <;> exact .refl
  all_goals exact .refl

end Operation

namespace Host

/-- **A step of the host changes memory by stores.** -/
theorem Step.stores {code : Array HostWord} {c c' : Cursor} (x : Step code c c') :
    Stores c.machine.memory c'.machine.memory := by
  cases x with
  | @next op h m hop hperform =>
    have hstores := op.storesFrom_perform c.host c.machine
    rwa [hperform] at hstores
  | @jump op target h m hop hperform =>
    have hstores := op.storesFrom_perform c.host c.machine
    rwa [hperform] at hstores

theorem Reaches.stores {code : Array HostWord} {c c' : Cursor} (x : Reaches code c c') :
    Stores c.machine.memory c'.machine.memory := by
  induction x with
  | refl => exact .refl
  | tail _ hstep ih => exact ih.trans hstep.stores

theorem stores_runFrom {code : Array HostWord} {fuel offset : Nat} {h h' : HostState}
    {m m' : Machine} {reason : ExitReason}
    (hok : runFrom code fuel offset h m = .ok (reason, h', m')) : Stores m.memory m'.memory := by
  induction fuel generalizing offset h m with
  | zero => cases hok
  | succ fuel ih =>
    rw [runFrom] at hok
    split at hok
    · cases hok
      exact .refl
    · rename_i op _
      have hstores := op.storesFrom_perform h m
      cases hperform : op.perform h m with
      | next h₁ m₁ =>
        rw [hperform] at hok hstores
        exact hstores.trans (ih hok)
      | jump target h₁ m₁ =>
        rw [hperform] at hok hstores
        exact hstores.trans (ih hok)
      | exit reason' h₁ m₁ =>
        rw [hperform] at hok hstores
        cases hok
        exact hstores
      | broken v =>
        rw [hperform] at hok
        cases hok

/-- **Native code changes memory by stores.** -/
theorem stores_run {inRegister : Bool} {code : Array HostWord} {fuel entry : Nat} {m m' : Machine}
    {reason : ExitReason} (hok : run inRegister code fuel entry m = .ok (reason, m')) :
    Stores m.memory m'.memory := by
  rw [run] at hok
  cases hx : runFrom code fuel entry (if inRegister then
      HostState.start.set HostReg.downcount m.core.downcount.toUInt32 else HostState.start) m with
  | error v =>
    simp only [hx] at hok
    cases hok
  | ok p =>
    obtain ⟨reason', h', m₁⟩ := p
    have hstores := stores_runFrom hx
    simp only [hx] at hok
    cases inRegister <;> cases hok <;> exact hstores

end Host

end Dynarec
