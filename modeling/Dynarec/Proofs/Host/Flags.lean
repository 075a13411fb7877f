import Dynarec.Proofs.Host.Cells
import Mathlib.Order.BooleanAlgebra.Set

/-!
# The compared words

An operation leaves every cell of the host alone that it does not set, however it ends
(`Host.frames_perform`).  For the compared words this shows what `Operation.clobbersFlags` is worth:
it names every operation that may change them but one, which is `restoreFlags`
(`flags_mem_writes_iff`).

`Host.Ran` is a run with the operations that it performs.  When none of them clobbers the compared
words, only the copies to and from the saved pair count, and of these the first: `Host.flags_exact`
says what the compared words are then, and when a decision that depends on them survives.
-/

namespace Dynarec

namespace HostState

variable {cells cells' : Set HostCell} {h h' h'' : HostState}

theorem AgreeOn.refl (cells : Set HostCell) (h : HostState) : h.AgreeOn cells h := by
  intro c _
  cases c <;> first | rfl | trivial

theorem AgreeOn.trans (x : h.AgreeOn cells h') (y : h'.AgreeOn cells h'') : h.AgreeOn cells h'' := by
  intro c hc
  have hx := x c hc
  have hy := y c hc
  cases c with
  | guestPc => trivial
  | reg r => exact Eq.trans hx hy
  | floatReg f => exact Eq.trans hx hy
  | quadReg q => exact Eq.trans hx hy
  | flags => exact Eq.trans hx hy
  | savedFlags => exact Eq.trans hx hy

/-! ### Everything but one cell -/

theorem agreeOn_set (h : HostState) (r : HostReg) (v : UInt32) :
    h.AgreeOn {.reg r}ᶜ (h.set r v) := by
  intro c hc
  cases c with
  | reg r' =>
    show h.get r' = (h.set r v).get r'
    rw [get_set, if_neg fun heq => hc (by rw [heq]; rfl)]
  | floatReg f => rfl
  | quadReg q => rfl
  | flags => rfl
  | savedFlags => rfl
  | guestPc => trivial

theorem agreeOn_setFloat (h : HostState) (f : FloatReg) (v : Single) :
    h.AgreeOn {.floatReg f}ᶜ (h.setFloat f v) := by
  intro c hc
  cases c with
  | floatReg f' =>
    show h.float f' = (h.setFloat f v).float f'
    rw [float_setFloat, if_neg fun heq => hc (by rw [heq]; rfl)]
  | reg r => rfl
  | quadReg q => rfl
  | flags => rfl
  | savedFlags => rfl
  | guestPc => trivial

theorem agreeOn_setQuad (h : HostState) (q : QuadReg) (v : Vector Single 4) :
    h.AgreeOn {.quadReg q}ᶜ (h.setQuad q v) := by
  intro c hc
  cases c with
  | quadReg q' =>
    show h.quad q' = (h.setQuad q v).quad q'
    rw [quad_setQuad, if_neg fun heq => hc (by rw [heq]; rfl)]
  | reg r => rfl
  | floatReg f => rfl
  | flags => rfl
  | savedFlags => rfl
  | guestPc => trivial

theorem agreeOn_flags (h : HostState) (v : UInt32 × UInt32) :
    h.AgreeOn {.flags}ᶜ { h with flags := v } := by
  intro c hc
  cases c with
  | flags => exact absurd rfl hc
  | reg r => rfl
  | floatReg f => rfl
  | quadReg q => rfl
  | savedFlags => rfl
  | guestPc => trivial

theorem agreeOn_savedFlags (h : HostState) (v : UInt32 × UInt32) :
    h.AgreeOn {.savedFlags}ᶜ { h with savedFlags := v } := by
  intro c hc
  cases c with
  | savedFlags => exact absurd rfl hc
  | reg r => rfl
  | floatReg f => rfl
  | quadReg q => rfl
  | flags => rfl
  | guestPc => trivial

end HostState

namespace Outcome

/-- The host behind an operation, unless a promise was broken. -/
def host? : Outcome → Option HostState
  | next h _ | jump _ h _ | exit _ h _ => some h
  | broken _ => none

/-- **The host differs from `h` at most in some cells.** -/
def Frames (cells : Set HostCell) (h : HostState) (o : Outcome) : Prop :=
  ∀ h', o.host? = some h' → h.AgreeOn cellsᶜ h'

variable {cells : Set HostCell} {h h' : HostState} {m : Machine}

theorem frames_of_host? {o : Outcome} (ho : o.host? = some h') (x : h.AgreeOn cellsᶜ h') :
    o.Frames cells h := by
  intro h'' heq
  rw [ho] at heq
  cases heq
  exact x

/-- An outcome with the same host. -/
theorem frames_self {o : Outcome} (ho : o.host? = some h) : o.Frames cells h :=
  frames_of_host? ho (.refl _ h)

theorem frames_broken (v : Violation) : (broken v).Frames cells h := by
  intro h' heq
  cases heq

theorem frames_ite {p : Prop} [Decidable p] {o o' : Outcome} (x : o.Frames cells h)
    (y : o'.Frames cells h) : (if p then o else o').Frames cells h := by
  split
  · exact x
  · exact y

theorem frames_withMemory (f : Memory → Except Violation Memory) :
    (withMemory h m f).Frames cells h := by
  rw [withMemory]
  cases f m.memory with
  | ok memory => exact frames_self rfl
  | error v => exact frames_broken v

end Outcome

namespace Host

open Outcome HostState

variable {op : Operation} {h h' : HostState} {m : Machine}

/-- **An operation leaves every cell alone that it does not set.** -/
theorem frames_perform (op : Operation) (h : HostState) (m : Machine) :
    (op.perform h m).Frames op.writes h := by
  cases op with
  | movImm _ _ | mov _ _ | loadGuest _ _ | alu _ _ _ _ | aluImm _ _ _ _ | unary _ _ _ | setIf _ _
  | load _ _ _ _ | loadControl _ _ | floatCompare _ _ _ _ _ | mergeConditions _ _ _
  | floatToInt _ _ => exact frames_of_host? rfl (agreeOn_set h _ _)
  | loadElement _ _ | float _ _ _ _ | floatUnary _ _ _ | floatImm _ _ | floatMov _ _
  | floatLoad _ _ _ | intToFloat _ _ => exact frames_of_host? rfl (agreeOn_setFloat h _ _)
  | loadQuad _ _ | quad _ _ _ _ | quadUnary _ _ _ | quadImm _ _ | quadLoad _ _ _ =>
    exact frames_of_host? rfl (agreeOn_setQuad h _ _)
  | compare _ _ | compareImm _ _ | restoreFlags => exact frames_of_host? rfl (agreeOn_flags h _)
  | saveFlags => exact frames_of_host? rfl (agreeOn_savedFlags h _)
  | nop | storeGuest _ _ | jump _ | subDowncount _ | setPc _ | exitDispatch _ | exitDispatchReg _
  | exitInterpret _ | exitSyscall _ _ | exitBreak _ | storeControl _ _ | setControl _ _
  | storeElement _ _ | storeQuad _ _ => exact frames_self rfl
  | store w rs base offset =>
    exact frames_withMemory fun memory => w.store memory (h.address base offset) (h.get rs)
  | floatStore fs base offset =>
    exact frames_withMemory fun memory => memory.writeSingle (h.address base offset) (h.float fs)
  | quadStore qs base offset =>
    exact frames_withMemory fun memory =>
      storeSingles memory (h.address base offset) (h.quad qs).toList
  | multiply kind rs rt hi lo =>
    have hhi : h.AgreeOn {.reg hi, .reg lo}ᶜ
        (h.set hi (kind.apply (h.get rs) (h.get rt) (h.get hi) (h.get lo)).1) :=
      (agreeOn_set h hi _).mono (Set.compl_subset_compl.mpr (by simp))
    refine frames_of_host? rfl (hhi.trans ((agreeOn_set _ lo _).mono ?_))
    exact Set.compl_subset_compl.mpr (by simp)
  | movIf c rd rs =>
    show (next (if h.holds c then h.set rd (h.get rs) else h) m).Frames _ h
    split
    · exact frames_of_host? rfl (agreeOn_set h _ _)
    · exact frames_self rfl
  | jumpIf _ _ | checkEntry _ _ | guardModifiers _ =>
    exact frames_ite (frames_self rfl) (frames_self rfl)
  | interpret word =>
    rw [perform_interpret_eq]
    cases Machine.execute ⟨word⟩ m.core.pc m with
    | ok event m' =>
      cases event with
      | normal => exact frames_of_host? rfl (agreeOn_flags h _)
      | syscall code => exact frames_self rfl
      | breakpoint => exact frames_self rfl
    | error e m' =>
      cases e with
      | trap t => exact frames_self rfl
      | violation v => exact frames_broken v

/-! ### Operations that do not clobber the compared words -/

/-- **`clobbersFlags` names all operations that set the compared words but one.** -/
theorem flags_mem_writes_iff (op : Operation) :
    .flags ∈ op.writes ↔ op.clobbersFlags = true ∨ op = .restoreFlags := by
  cases op with
  | compare _ _ | compareImm _ _ | interpret _ => exact iff_of_true rfl (.inl rfl)
  | restoreFlags => exact iff_of_true rfl (.inr rfl)
  | multiply _ _ _ hi lo =>
    exact iff_of_false (by rintro (hc | hc) <;> cases hc) (by rintro (hc | hc) <;> cases hc)
  | _ => exact iff_of_false nofun (by rintro (hc | hc) <;> cases hc)

theorem savedFlags_mem_writes_iff (op : Operation) : .savedFlags ∈ op.writes ↔ op = .saveFlags := by
  cases op with
  | saveFlags => exact iff_of_true rfl rfl
  | multiply _ _ _ hi lo => exact iff_of_false (by rintro (hc | hc) <;> cases hc) nofun
  | _ => exact iff_of_false nofun nofun

theorem flags_perform (hop : op.clobbersFlags = false) (hne : op ≠ .restoreFlags)
    (hend : (op.perform h m).host? = some h') : h'.flags = h.flags := by
  have hmem : HostCell.flags ∉ op.writes := by
    rw [flags_mem_writes_iff, hop]
    exact not_or.mpr ⟨Bool.false_ne_true, hne⟩
  exact ((frames_perform op h m h' hend).flags hmem).symm

theorem savedFlags_perform (hne : op ≠ .saveFlags) (hend : (op.perform h m).host? = some h') :
    h'.savedFlags = h.savedFlags :=
  ((frames_perform op h m h' hend).savedFlags (mt (savedFlags_mem_writes_iff op).mp hne)).symm

/-- The compared words behind an operation that does not clobber them. -/
theorem flags_perform_eq (hop : op.clobbersFlags = false)
    (hend : (op.perform h m).host? = some h') :
    h'.flags = if op = .restoreFlags then h.savedFlags else h.flags := by
  by_cases hrestore : op = .restoreFlags
  · rw [if_pos hrestore]
    subst hrestore
    cases hend
    rfl
  · rw [if_neg hrestore]
    exact flags_perform hop hrestore hend

/-! ### Runs with their operations -/

variable {code : Array HostWord} {c c' c'' : Cursor} {ops : List Operation}

/-- **A run with the operations that it performs**, the first one in front. -/
inductive Ran (code : Array HostWord) : Cursor → List Operation → Cursor → Prop
  | nil (c : Cursor) : Ran code c [] c
  | cons {c c' c'' : Cursor} {op : Operation} {ops : List Operation}
      (hop : operationAt? code c.offset = some op) (hstep : Step code c c')
      (hrest : Ran code c' ops c'') : Ran code c (op :: ops) c''

/-- Every run has its operations. -/
theorem reaches_iff_ran : Reaches code c c' ↔ ∃ ops, Ran code c ops c' := by
  constructor
  · intro x
    induction x using Relation.ReflTransGen.head_induction_on with
    | refl => exact ⟨[], .nil c'⟩
    | head hstep _ ih =>
      obtain ⟨ops, hrest⟩ := ih
      cases hstep with
      | next hop hperform => exact ⟨_, .cons hop (.next hop hperform) hrest⟩
      | jump hop hperform => exact ⟨_, .cons hop (.jump hop hperform) hrest⟩
  · rintro ⟨ops, x⟩
    induction x with
    | nil c => exact .refl
    | cons _ hstep _ ih => exact .head hstep ih

/-- The host behind a step is the one behind its operation. -/
theorem Step.host?_perform (x : Step code c c') (hop : operationAt? code c.offset = some op) :
    (op.perform c.host c.machine).host? = some c'.host := by
  cases x with
  | next hop' hperform =>
    rw [hop] at hop'
    cases hop'
    rw [hperform]
    rfl
  | jump hop' hperform =>
    rw [hop] at hop'
    cases hop'
    rw [hperform]
    rfl

/-- The operation copies the compared words to the saved ones, or back. -/
def copiesFlags : Operation → Bool
  | .saveFlags | .restoreFlags => true
  | _ => false

/-- **The saved words are restored before any others are saved.** -/
def restoresFirst (ops : List Operation) : Bool := ops.find? copiesFlags == some .restoreFlags

/-- **The compared words behind a run that does not clobber them.**  Once they were copied the two
pairs are the same, so that later copies make no difference. -/
theorem Ran.flags_eq (x : Ran code c ops c') (hops : ∀ op ∈ ops, op.clobbersFlags = false) :
    c'.host.flags = if restoresFirst ops then c.host.savedFlags else c.host.flags := by
  induction x with
  | nil c => rfl
  | @cons c c₁ c' op ops hop hstep _ ih =>
    have hend := hstep.host?_perform hop
    have hrest := ih fun o ho => hops o (List.mem_cons_of_mem _ ho)
    -- Behind either copy the two pairs are the same, whichever of them the rest of the run ends with.
    by_cases hsave : op = .saveFlags
    · subst hsave
      have hhost : { c.host with savedFlags := c.host.flags } = c₁.host := Option.some.inj hend
      rw [hrest, ← hhost]
      exact ite_self _
    by_cases hrestore : op = .restoreFlags
    · subst hrestore
      have hhost : { c.host with flags := c.host.savedFlags } = c₁.host := Option.some.inj hend
      rw [hrest, ← hhost]
      exact ite_self _
    · have hfind : restoresFirst (op :: ops) = restoresFirst ops := by
        have hcopies : copiesFlags op = false := by
          cases op with
          | saveFlags => exact absurd rfl hsave
          | restoreFlags => exact absurd rfl hrestore
          | _ => rfl
        rw [restoresFirst, restoresFirst, List.find?_cons, hcopies]
      rw [hrest, hfind, savedFlags_perform hsave hend,
        flags_perform (hops op List.mem_cons_self) hrestore hend]

/-- **What becomes of the compared words where nothing clobbers them.**  An operation that does not
clobber them leaves them as they are, however it ends, except that `restoreFlags` replaces them by
the saved ones; so it keeps them if and only if it is another operation or the saved ones are the
same.  Behind a run of such operations they are the ones in front of it, and every decision that
depends on them is the same, unless the saved words are restored before any others are saved; then
they are the ones that were saved in front of the run. -/
theorem flags_exact (op : Operation) (h h' : HostState) (m : Machine) (code : Array HostWord)
    (ops : List Operation) (c c' : Cursor) :
    (op.clobbersFlags = false → (op.perform h m).host? = some h' →
      (h'.flags = if op = .restoreFlags then h.savedFlags else h.flags) ∧
      (h'.flags = h.flags ↔ (op = .restoreFlags → h.savedFlags = h.flags))) ∧
    (Ran code c ops c' → (∀ op ∈ ops, op.clobbersFlags = false) →
      (c'.host.flags = if restoresFirst ops then c.host.savedFlags else c.host.flags) ∧
      (restoresFirst ops = false → ∀ condition, c'.host.holds condition = c.host.holds condition)) := by
  refine ⟨fun hop hend => ?_, fun hran hops => ?_⟩
  · have hflags := flags_perform_eq hop hend
    refine ⟨hflags, ?_⟩
    rw [hflags]
    by_cases hrestore : op = .restoreFlags
    · rw [if_pos hrestore]
      exact ⟨fun heq _ => heq, fun himp => himp hrestore⟩
    · rw [if_neg hrestore]
      exact iff_of_true rfl fun heq => absurd heq hrestore
  · have hflags := hran.flags_eq hops
    refine ⟨hflags, fun hfirst condition => ?_⟩
    rw [hfirst, if_neg Bool.false_ne_true] at hflags
    rw [HostState.holds, HostState.holds, hflags]

/-- A host that compared two equal words last; the words that it saved before differ. -/
def comparedHost : HostState := { HostState.start with flags := (3, 3), savedFlags := (3, 4) }

/-- The compared words are saved, a register is set, and they are restored. -/
def savingCode : Array HostWord :=
  #[Operation.saveFlags.encode, (Operation.movImm 1 7).encode, Operation.restoreFlags.encode]

/-- The decision survives the run, and the register is set; setting it alone keeps the compared words. -/
theorem flags_exact_saving :
    ∃ c', Ran savingCode ⟨0, comparedHost, ⟨Core.start 0, Memory.create 0 0⟩⟩
        [.saveFlags, .movImm 1 7, .restoreFlags] c' ∧
      c'.offset = 3 ∧ c'.host.get 1 = 7 ∧ c'.host.flags = (3, 3) ∧ c'.host.holds .equal = true ∧
      (comparedHost.set 1 7).flags = comparedHost.flags := by
  have hran : Ran savingCode ⟨0, comparedHost, ⟨Core.start 0, Memory.create 0 0⟩⟩
      [.saveFlags, .movImm 1 7, .restoreFlags] ⟨3, _, _⟩ :=
    .cons rfl (.next rfl rfl) (.cons rfl (.next rfl rfl) (.cons rfl (.next rfl rfl) (.nil _)))
  obtain ⟨hone, hruns⟩ := flags_exact (.movImm 1 7) comparedHost (comparedHost.set 1 7)
    ⟨Core.start 0, Memory.create 0 0⟩ _ _ _ _
  obtain ⟨hflags, hholds⟩ := hruns hran (by decide)
  exact ⟨_, hran, rfl, rfl, hflags, hholds rfl .equal, (hone rfl rfl).1⟩

/-- **`clobbersFlags` is not sound.**  Restoring the saved words is not said to clobber the compared
ones, and turns a decision around. -/
theorem restored_flags_differ :
    (¬ ∀ (op : Operation) (h h' : HostState) (m : Machine), op.clobbersFlags = false →
      (op.perform h m).host? = some h' → h'.flags = h.flags) ∧
    Operation.restoreFlags.clobbersFlags = false ∧
    ∃ h', (Operation.restoreFlags.perform comparedHost ⟨Core.start 0, Memory.create 0 0⟩).host? =
        some h' ∧ comparedHost.holds .equal = true ∧ h'.holds .equal = false := by
  refine ⟨fun hall => ?_, rfl, _, rfl, by decide, by decide⟩
  have hflags := hall .restoreFlags comparedHost _ ⟨Core.start 0, Memory.create 0 0⟩ rfl rfl
  revert hflags
  decide

end Host

end Dynarec
