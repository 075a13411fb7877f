import Dynarec.Proofs.Guest.Reference
import Dynarec.Proofs.Lower.Correctness
import Dynarec.Proofs.Lower.Geometry
import Dynarec.Proofs.Recompiler.Freshness

/-!
# Native code follows the interpreter

A run of native code goes from block to block.  Each visit ends where the instructions on its path
lead to (`Finished.ends`), and a link leads to the block at the program counter, so the whole run
ends where some steps of the interpreter lead to and hands back for the event of the last one
(`Session.Keeps.follows`).  A fault is where a step of the interpreter fails, but nothing was
charged for the block that it ended.  The induction is on the operations that are left; it carries
that the host and its machine stand for the reference machine at the entry of every block.
-/

namespace Dynarec

open Host Lowering

variable {h h' : HostState} {m m' G G' : Machine} {n : Nat} {words : Array HostWord}

/-! ### Host operations leave delay slots alone -/

/-- Register zero is the same, and so is the delay slot that is open. -/
structure Machine.SameSlot (m m' : Machine) : Prop where
  zero : m'.core.gpr 0 = m.core.gpr 0
  inDelaySlot : m'.core.inDelaySlot = m.core.inDelaySlot
  branchTarget : m'.core.branchTarget = m.core.branchTarget

namespace Machine.SameSlot

theorem refl (m : Machine) : SameSlot m m := ⟨rfl, rfl, rfl⟩

theorem trans {m'' : Machine} (x : SameSlot m m') (y : SameSlot m' m'') : SameSlot m m'' :=
  ⟨y.zero.trans x.zero, y.inDelaySlot.trans x.inDelaySlot, y.branchTarget.trans x.branchTarget⟩

theorem closed (x : SameSlot m m') (hm : m.Closed) : m'.Closed :=
  ⟨x.inDelaySlot.trans hm.inDelaySlot, x.branchTarget.trans hm.branchTarget⟩

theorem zeroKept (x : SameSlot m m') (hm : m.core.ZeroKept) : m'.core.ZeroKept := x.zero.trans hm

end Machine.SameSlot

/-- **What no operation of the host changes**: register zero, whether a delay slot is open, and
whether the outside asked for control. -/
structure Machine.SameControl (m m' : Machine) : Prop extends Machine.SameSlot m m' where
  exitRequested : m'.core.exitRequested = m.core.exitRequested

namespace Machine.SameControl

theorem refl (m : Machine) : SameControl m m := ⟨.refl m, rfl⟩

theorem trans {m'' : Machine} (x : SameControl m m') (y : SameControl m' m'') : SameControl m m'' :=
  ⟨x.toSameSlot.trans y.toSameSlot, y.exitRequested.trans x.exitRequested⟩

theorem execute {i : Instr} {pc : UInt32} {event : StepEvent}
    (hok : Machine.execute i pc m = .ok event m') : SameControl m m' := by
  by_cases hbreak : i.family = .breakpoint
  · rw [Machine.execute, hbreak] at hok
    cases hok
    exact ⟨⟨rfl, rfl, rfl⟩, rfl⟩
  · have hframe := frame_execute hbreak hok
    exact ⟨⟨gpr_zero_execute hok, congrArg Core.Frame.inDelaySlot hframe,
      congrArg Core.Frame.branchTarget hframe⟩, congrArg Core.Frame.exitRequested hframe⟩

end Machine.SameControl

/-- The machine of an outcome, if there is one, has the slot of `m` and its request for control. -/
def Outcome.KeepsControl (m : Machine) : Outcome → Prop
  | .next _ m' | .jump _ _ m' | .exit _ _ m' => m.SameControl m'
  | .broken _ => True

namespace Operation

theorem keepsControl_withCore {f : Core → Core} (hzero : ∀ c, (f c).gpr 0 = c.gpr 0)
    (hframe : ∀ c : Core, c.SameFrame (f c)) : (Outcome.withCore h m f).KeepsControl m :=
  ⟨⟨hzero m.core, (hframe m.core).inDelaySlot, (hframe m.core).branchTarget⟩,
    (hframe m.core).exitRequested⟩

theorem keepsControl_withMemory (f : Memory → Except Violation Memory) :
    (Outcome.withMemory h m f).KeepsControl m := by
  rw [Outcome.withMemory]
  cases f m.memory with
  | ok memory => exact ⟨⟨rfl, rfl, rfl⟩, rfl⟩
  | error v => trivial

theorem sameFrame_setElements (c : Core) (es : List Element) (xs : List Single) :
    c.SameFrame (setElements c es xs) ∧ (setElements c es xs).gpr 0 = c.gpr 0 := by
  induction es generalizing c xs with
  | nil => exact ⟨.refl c, rfl⟩
  | cons e es ih =>
    cases xs with
    | nil => exact ⟨.refl c, rfl⟩
    | cons x xs =>
      obtain ⟨hframe, hzero⟩ := ih (c.setElement e x) xs
      exact ⟨(c.sameFrame_setElement e x).trans hframe, hzero⟩

/-- **No operation of the host opens or closes a delay slot**, or writes register zero. -/
theorem keepsControl_perform (op : Operation) (h : HostState) (m : Machine) :
    (op.perform h m).KeepsControl m := by
  have hsame : m.SameControl m := .refl m
  cases op with
  | storeGuest rs r =>
    exact keepsControl_withCore (fun c => c.gpr_zero_setReg r _) fun c => c.sameFrame_setReg r _
  | storeQuad qs r =>
    exact keepsControl_withCore (fun c => (sameFrame_setElements c _ _).2)
      fun c => (sameFrame_setElements c _ _).1
  | subDowncount _ | setPc _ | storeControl _ _ | setControl _ _ | storeElement _ _ | exitDispatch _
  | exitDispatchReg _ | exitInterpret _ | exitSyscall _ _ | exitBreak _ => exact ⟨⟨rfl, rfl, rfl⟩, rfl⟩
  | store w rs base offset =>
    exact keepsControl_withMemory fun memory => w.store memory (h.address base offset) (h.get rs)
  | floatStore fs base offset =>
    exact keepsControl_withMemory fun memory => memory.writeSingle (h.address base offset) (h.float fs)
  | quadStore qs base offset =>
    exact keepsControl_withMemory fun memory =>
      storeSingles memory (h.address base offset) (h.quad qs).toList
  | interpret word =>
    rw [perform_interpret_eq]
    cases hexec : Machine.execute ⟨word⟩ m.core.pc m with
    | ok event m' => cases event <;> exact Machine.SameControl.execute hexec
    | error e m' =>
      cases e with
      | trap t =>
        rw [Machine.eq_of_execute_trap hexec]
        exact hsame
      | violation v => trivial
  | jumpIf c target =>
    rw [perform]
    split <;> exact hsame
  | checkEntry inRegister pc =>
    rw [perform_checkEntry]
    split
    · exact ⟨⟨rfl, rfl, rfl⟩, rfl⟩
    · exact hsame
  | guardModifiers pc =>
    rw [perform]
    split
    · exact hsame
    · exact ⟨⟨rfl, rfl, rfl⟩, rfl⟩
  | _ => exact hsame

end Operation

namespace Host

theorem Step.sameControl {c c' : Cursor} (x : Step words c c') : c.machine.SameControl c'.machine := by
  cases x with
  | @next op h m _ hperform =>
    have hkeeps := op.keepsControl_perform c.host c.machine
    rw [hperform] at hkeeps
    exact hkeeps
  | @jump op target h m _ hperform =>
    have hkeeps := op.keepsControl_perform c.host c.machine
    rw [hperform] at hkeeps
    exact hkeeps

theorem Reaches.sameControl {c c' : Cursor} (x : Reaches words c c') :
    c.machine.SameControl c'.machine := by
  induction x with
  | refl => exact .refl _
  | tail _ hstep ih => exact ih.trans hstep.sameControl

theorem sameControl_runFrom {fuel offset : Nat} {reason : ExitReason}
    (hok : runFrom words fuel offset h m = .ok (reason, h', m')) : m.SameControl m' := by
  induction fuel generalizing offset h m with
  | zero => cases hok
  | succ fuel ih =>
    rw [runFrom] at hok
    split at hok
    · cases hok
      exact .refl _
    · rename_i op _
      have hkeeps := op.keepsControl_perform h m
      cases hperform : op.perform h m with
      | next h₁ m₁ =>
        rw [hperform] at hok hkeeps
        exact hkeeps.trans (ih hok)
      | jump target h₁ m₁ =>
        rw [hperform] at hok hkeeps
        exact hkeeps.trans (ih hok)
      | exit reason' h₁ m₁ =>
        rw [hperform] at hok hkeeps
        cases hok
        exact hkeeps
      | broken v =>
        rw [hperform] at hok
        cases hok

/-- **Native code leaves control to the dispatcher**, wherever it is entered. -/
theorem sameControl_run {inRegister : Bool} {fuel entry : Nat} {reason : ExitReason}
    (hok : Host.run inRegister words fuel entry m = .ok (reason, m')) : m.SameControl m' := by
  rw [run_eq] at hok
  obtain ⟨⟨reason', h', m''⟩, hcursor, heq⟩ := ok_of_map hok
  obtain ⟨rfl, rfl⟩ := Prod.mk.inj heq
  have hsame : m.SameControl m'' := sameControl_runFrom hcursor
  exact ⟨⟨hsame.zero, hsame.inDelaySlot, hsame.branchTarget⟩, hsame.exitRequested⟩

/-- **What is left of a run that ended** at a cursor that it came through. -/
theorem Reaches.rest {c c' : Cursor} (x : Reaches words c c') {fuel : Nat}
    {result : ExitReason × HostState × Machine} (hrun : runCursor words fuel c = .ok result) :
    ∃ fuel' ≤ fuel, runCursor words fuel' c' = .ok result := by
  induction x with
  | refl => exact ⟨fuel, le_rfl, hrun⟩
  | tail _ hstep ih =>
    obtain ⟨fuel', hle, hrun'⟩ := ih
    cases fuel' with
    | zero => cases hrun'
    | succ fuel' =>
      rw [hstep.runCursor_eq] at hrun'
      exact ⟨fuel', by omega, hrun'⟩

end Host

/-! ### The code of a block in the cache -/

namespace Piece

variable {x : Piece} {options : Options} {memory : Memory}

/-- **The code of a compiled piece is carried** by code in which it stands, the words of its exits
apart. -/
theorem Compiled.way (hx : x.Compiled options memory)
    (hword : ∀ i op, x.ops[i]? = some op → (∀ t, op ≠ .exitDispatch t) →
      operationAt? words (x.base + i) = some op) :
    ∃ code last, code.offset = x.base ∧ (∀ p l, (p, l) ∈ code.references → p < code.offset) ∧
      Finished x.setting code x.block (code.extend x.ops) last ∧
      Way words (x.base + 1) last (Builder.entered x.setting code) := by
  obtain ⟨code, hclean, hoffset, hlower⟩ := hx.lowered
  obtain ⟨last, f⟩ := finished_of_ok hlower
  have hrefs : ∀ p l, (p, l) ∈ code.references → p < code.offset := fun p l hp => by
    rw [hclean.references] at hp
    cases hp
  have y := f.way hrefs
  rw [hoffset] at y
  -- the words of the resolved code are those of the piece
  have hops : ∀ p op, x.base ≤ p → operationAt? (code.extend x.ops).words p = some op →
      x.ops[p - x.base]? = some op := fun p op hp hop => by
    rw [operationAt?, Option.bind_eq_some_iff] at hop
    obtain ⟨w, hw, hdecode⟩ := hop
    have hw' : (x.ops.map Operation.encode)[p - x.base]? = some w := by
      rw [← hw, CodeSpace.extend, Array.getElem?_append_right (by rw [← hoffset] at hp; exact hp),
        List.getElem?_toArray, ← hoffset]
      rfl
    rw [List.getElem?_map, Option.map_eq_some_iff] at hw'
    obtain ⟨op', hop', rfl⟩ := hw'
    rw [Operation.decode?_encode (Setting.fits_of_getElem?_code hx.neat hop')] at hdecode
    rw [hop', hdecode]
  have hmoved : ∀ p op, x.base ≤ p → operationAt? (code.extend x.ops).words p = some op →
      (∀ t, op ≠ .exitDispatch t) → operationAt? words p = some op := fun p op hp hop hne => by
    have hfound := hword _ op (hops p op hp hop) hne
    rwa [Nat.add_sub_cancel' hp] at hfound
  refine ⟨code, last, hoffset, hrefs, f,
    ⟨⟨fun p hp href hexit op hop => ?_, fun p l c hp href hop => ?_⟩,
    y.fits, y.placed, y.base_le, y.goesOn⟩⟩
  · have hresolved := y.carries.word p hp href hexit op hop
    refine hmoved p op (by omega) hresolved fun t ht => ?_
    rw [ht] at hresolved
    obtain ⟨k, e, he, -, hstub⟩ := exists_exit hx.neat (hops p _ (by omega) hresolved)
    have hlast : e ∈ last.exits := by
      have hexits : x.block.exits = last.exits := congrArg Block.exits f.block_eq
      rw [← hexits]
      exact Array.mem_of_getElem? he
    exact hexit e hlast (by omega)
  · obtain ⟨q, hq, hjump⟩ := y.carries.jump p l c hp href hop
    exact ⟨q, hq, hmoved p _ (by omega) hjump (by simp)⟩

end Piece

/-! ### What a run of native code comes to -/

/-- The run handed back for nothing that the guest did. -/
def ExitReason.Quiet : ExitReason → Prop
  | .dispatch | .interpret | .modifierMismatch _ => True
  | _ => False

/-- **What a run of native code comes to** that began where the reference machine was `G`: where
steps of the interpreter lead, the last of which reports what the run handed back for.  At a fault,
`most` of these at the end were not charged for. -/
inductive Machine.Follows (G : Machine) (most : Nat) : ExitReason → Machine → Prop
  | quiet {n : Nat} {reason : ExitReason} {m : Machine} (quiet : reason.Quiet)
      (retires : Machine.Retires n G m) : Follows G most reason m
  | syscall {n : Nat} {request : UInt32} {G' m : Machine} (retires : Machine.Retires n G G')
      (step : Machine.step G' = .ok (.syscall request) m) : Follows G most (.syscall request) m
  | breakpoint {n : Nat} {G' m : Machine} (retires : Machine.Retires n G G')
      (step : Machine.step G' = .ok .breakpoint m) : Follows G most .breakpoint m
  | fault {n k : Nat} {t : Trap} {G' m : Machine} (retires : Machine.Retires n G G')
      (faults : G'.FaultsAt k t m) (short : k ≤ most)
      (clock : m.core.downcount = G'.core.downcount) : Follows G most (.fault t) m

theorem Machine.Follows.after {most : Nat} {reason : ExitReason} (x : G'.Follows most reason m)
    (h : Machine.Retires n G G') : G.Follows most reason m := by
  cases x with
  | quiet hquiet retires => exact .quiet hquiet (h.trans retires)
  | syscall retires step => exact .syscall (h.trans retires) step
  | breakpoint retires step => exact .breakpoint (h.trans retires) step
  | fault retires faults short clock => exact .fault (h.trans retires) faults short clock

theorem Machine.Retires.stores (x : Machine.Retires n G G') : Memory.Stores G.memory G'.memory := by
  induction x with
  | zero => exact .refl
  | succ _ hstep ih => exact ih.trans (Machine.stores_step hstep)

/-- A run of a cursor performs the operation at it. -/
theorem Host.follows_of_cursor {c : Cursor} {op : Operation} {fuel : Nat}
    {result : ExitReason × HostState × Machine} (hop : operationAt? words c.offset = some op)
    (hrun : runCursor words fuel c = .ok result) :
    ∃ fuel' < fuel, Follows words fuel' (c.offset + 1) result (op.perform c.host c.machine) :=
  follows_of_operationAt? hop hrun

/-- The run of a cursor at an exit. -/
theorem Host.runCursor_exit {c : Cursor} {op : Operation} {reason : ExitReason} {fuel : Nat}
    {result : ExitReason × HostState × Machine} (hop : operationAt? words c.offset = some op)
    (hperform : op.perform c.host c.machine = .exit reason h' m')
    (hrun : runCursor words fuel c = .ok result) : result = (reason, h', m') := by
  obtain ⟨fuel', -, hfollows⟩ := follows_of_cursor hop hrun
  rw [hperform] at hfollows
  exact hfollows

namespace Session

variable {origin : Nat → Memory} {s : Session} {id id₀ : Nat} {b b₀ : Block} {y : Piece}

namespace Keeps

/-- **The instruction that the reference comes to is the one that was compiled**, if it overwrites
none before it fetches it. -/
theorem fetch?_eq_of_steady (x : Sound origin s) (hb : s.recompiler.cache.IsValid id b)
    (hy : y.Compiled s.recompiler.options (origin id)) (hembeds : s.recompiler.cache.Embeds b y)
    (hvisits : s.Visits b₀ s.machine ⟨b.normalEntry, h, m⟩) (hcalm : m.eventPending = false)
    (hmemory : G.memory = m.memory) (hsteady : G.Steady) (hretires : Machine.Retires n G G')
    (hplace : G'.core.pc = y.setting.start + 4 * UInt32.ofNat n)
    (hn : n < y.block.instructions.toNat) (hunwrapped : y.block.Unwrapped) :
    G'.memory.fetch? G'.core.pc = y.setting.memory.fetch? G'.core.pc := by
  have hwatched := x.watched.stores (Reaches.stores hvisits)
  have hwindow := hwatched.window id b hb
  have hstores := hretires.stores.same
  have halike : y.setting.memory.Alike (origin id) := hy.source
  have hfresh : Unchanged b (origin id) m.memory :=
    (accounted_of_visits x hvisits hb).unchanged (changed_of_calm hcalm)
  have hstart : y.block.start = y.setting.start := rfl
  have hstop := y.block.stop.toNat_lt
  rw [Block.Unwrapped, hstart] at hunwrapped
  have hword : G'.core.pc.toNat = y.setting.start.toNat + 4 * n := by
    rw [hplace]
    simp only [UInt32.toNat_add, UInt32.toNat_mul, UInt32.toNat_ofNat', UInt32.reduceToNat]
    omega
  refine Memory.fetch?_congr ?_ ?_ (by omega) fun k hk => ?_
  · rw [hstores.1, hmemory, ← hwindow.1, halike.base]
  · rw [hstores.2.1, hmemory, ← hwindow.2, halike.size]
  · rw [hsteady 0 G (.zero G) n G' hretires k hk, hmemory]
    refine (hfresh _ ?_).trans (halike.read _ 1)
    have hbyte : (G'.core.pc + UInt32.ofNat k).toNat = y.setting.start.toNat + 4 * n + k := by
      rw [UInt32.toNat_add, hword, UInt32.toNat_ofNat_of_lt' (hk.trans (by decide))]
      omega
    rw [BlockCache.contains_of_outline hembeds.outline, Block.contains, Bool.and_eq_true,
      decide_eq_true_iff, decide_eq_true_iff, UInt32.le_iff_toNat_le, UInt32.lt_iff_toNat_lt, hbyte]
    constructor
    · rw [hstart]
      omega
    · omega

/-- A word of a block that is not the word of an exit. -/
theorem operationAt?_of_embeds (hy : y.Compiled s.recompiler.options (origin id))
    (hembeds : s.recompiler.cache.Embeds b y) {i : Nat} {op : Operation} (hop : y.ops[i]? = some op)
    (hne : ∀ t, op ≠ .exitDispatch t) :
    operationAt? s.recompiler.cache.code.words (y.base + i) = some op := by
  have hword := hembeds.word i op hop hne
  rw [operationAt?]
  show (s.recompiler.cache.code.word? _).bind _ = _
  rw [hword]
  exact Operation.decode?_encode (Setting.fits_of_getElem?_code hy.neat hop)

/-- **A visit comes to one of the ends of its block**, unless the guard of the block fails. -/
theorem ends_of_visit (x : Sound origin s) (hb : s.recompiler.cache.IsValid id b)
    (hy : y.Compiled s.recompiler.options (origin id)) (hembeds : s.recompiler.cache.Embeds b y)
    (hsettled : Settled s.recompiler.options.downcountInRegister h m G) (hpc : G.core.pc = b.start)
    (hclosed : m.Closed) (hz : m.core.ZeroKept) (hd : 0 < G.core.downcount.toInt)
    (hdefault : y.setting.entry = .noModifiers → m.core.hasDefaultModifiers = true) :
    ∃ last c, y.block.instructions = last.progress.count ∧
      last.progress.count.toNat ≤ s.recompiler.options.blockLength + 1 ∧ y.block.exits = last.exits ∧
      y.block.Unwrapped ∧ Reaches s.recompiler.cache.code.words ⟨b.normalEntry, h, m⟩ c ∧
      Ends s.recompiler.cache.code.words y.setting last G c := by
  have fabric := x.stocked.fabric x.consistent
  obtain ⟨code, last, hoffset, hrefs, f, w⟩ :=
    hy.way fun i op hop hne => operationAt?_of_embeds hy hembeds hop hne
  have hlow : y.setting.memory.Low := hy.source.symm.low hy.low
  have hentry : b.normalEntry = code.offset + 1 := by rw [hembeds.range.2.2.2, hoffset]
  have hstart : b.start = y.setting.start := congrArg Block.start hembeds.outline
  have hunwrapped := f.unwrapped hlow
  rw [← hy.choice] at hsettled
  -- the block is far shorter than a downcount can tell
  have hcount : y.block.instructions = last.progress.count := congrArg Block.instructions f.block_eq
  have hafford : Affords last G := by
    refine affords_of_room ?_
    rw [Block.Unwrapped, hcount] at hunwrapped
    have hstop := y.block.stop.toNat_lt
    have hmin : Int32.minValue.toInt = -2147483648 := rfl
    omega
  have hsmall : last.code.offset ≤ 2 ^ 32 := by
    have hend : y.block.codeEnd = last.code.offset := congrArg Block.codeEnd f.block_eq
    have hlen := Piece.Compiled.codeEnd_eq y
    have hpos : 0 < y.ops.length := List.length_pos_of_mem (List.mem_of_getElem? y.ops_zero)
    have hlast := fabric.lt_size_of_mem ⟨id, b, hb, hy, hembeds⟩
      (List.getElem?_eq_getElem (Nat.sub_lt hpos Nat.one_pos))
    have hsize := fabric.small
    omega
  obtain ⟨c, hreach, hends⟩ := f.ends w hsettled (hpc.trans hstart) hz hclosed hdefault hafford
    hlow.size_lt.le hsmall
  have hlength := f.instructions_le hrefs hlow.size_lt
  rw [hcount, hy.choice] at hlength
  rw [hentry]
  exact ⟨last, c, hcount, hlength, congrArg Block.exits f.block_eq, hunwrapped, hreach, hends⟩

/-- **The word of an exit**: the exit itself, or a jump to a block at its target. -/
theorem operationAt?_of_exit (x : Sound origin s) (hb : s.recompiler.cache.IsValid id b)
    (hy : y.Compiled s.recompiler.options (origin id)) (hembeds : s.recompiler.cache.Embeds b y)
    {e : Exit} (he : e ∈ y.block.exits) :
    operationAt? s.recompiler.cache.code.words e.stub = some (.exitDispatch e.target) ∨
      ∃ id' b', s.recompiler.cache.IsValid id' b' ∧ b'.start = e.target ∧
        operationAt? s.recompiler.cache.code.words e.stub =
          some (.jump (UInt32.ofNat b'.checkedEntry)) := by
  obtain ⟨k, hk⟩ := Array.mem_iff_getElem?.mp he
  obtain ⟨i, hop, hstub⟩ := Piece.getElem?_exits hy.neat hk
  rw [hstub]
  rcases x.consistent.word_of_embeds hb hy.neat hembeds hop with hfound | ⟨-, id', b', hb', heq, hfound⟩
  · exact .inl hfound
  · exact .inr ⟨id', b', hb', (Operation.exitDispatch.inj heq).symm, hfound⟩

/-- **A jump to a block** hands back at its test, or leads to its entry with cycles left. -/
theorem enters_of_jump (x : Sound origin s) (hb : s.recompiler.cache.IsValid id b) {c : Cursor}
    (hop : operationAt? s.recompiler.cache.code.words c.offset =
      some (.jump (UInt32.ofNat b.checkedEntry))) {fuel : Nat}
    {result : ExitReason × HostState × Machine}
    (hrun : runCursor s.recompiler.cache.code.words fuel c = .ok result) :
    result = (.dispatch, c.host, ⟨{ c.machine.core with pc := b.start }, c.machine.memory⟩) ∨
      ∃ fuel' < fuel, 0 < cycles s.recompiler.options.downcountInRegister c.host c.machine ∧
        Reaches s.recompiler.cache.code.words c ⟨b.normalEntry, c.host, c.machine⟩ ∧
        runCursor s.recompiler.cache.code.words fuel' ⟨b.normalEntry, c.host, c.machine⟩ =
          .ok result := by
  obtain ⟨y, hy, hembeds⟩ := x.stocked.compiled id b hb
  have fabric := x.stocked.fabric x.consistent
  have hentry : b.normalEntry = b.checkedEntry + 1 := by
    rw [hembeds.range.2.2.1, hembeds.range.2.2.2]
  have hbase : (UInt32.ofNat b.checkedEntry).toNat = b.checkedEntry := by
    rw [hembeds.range.2.2.1]
    exact fabric.toNat_base ⟨id, b, hb, hy, hembeds⟩
  have htest := operationAt?_of_embeds hy hembeds y.ops_zero (by simp)
  rw [Nat.add_zero, ← hembeds.range.2.2.1, hy.choice,
    show y.setting.start = b.start from (congrArg Block.start hembeds.outline).symm] at htest
  have hjump : Step s.recompiler.cache.code.words c ⟨b.checkedEntry, c.host, c.machine⟩ :=
    hbase ▸ Step.jump hop rfl
  obtain ⟨fuel₁, hlt₁, hrun₁⟩ := follows_of_cursor hop hrun
  have hrun₁ : runCursor s.recompiler.cache.code.words fuel₁
      ⟨(UInt32.ofNat b.checkedEntry).toNat, c.host, c.machine⟩ = .ok result := hrun₁
  rw [hbase] at hrun₁
  obtain ⟨fuel₂, hlt₂, hrun₂⟩ := follows_of_operationAt? htest hrun₁
  have hperform := Operation.perform_checkEntry s.recompiler.options.downcountInRegister b.start
    c.host c.machine
  by_cases hover : (decide (cycles s.recompiler.options.downcountInRegister c.host c.machine ≤ 0) ||
      c.machine.eventPending) = true
  · rw [hperform.trans (if_pos hover)] at hrun₂
    exact .inl hrun₂
  · have hperform := hperform.trans (if_neg hover)
    have hnext : Step s.recompiler.cache.code.words ⟨b.checkedEntry, c.host, c.machine⟩
        ⟨b.normalEntry, c.host, c.machine⟩ := hentry ▸ .next htest hperform
    rw [hperform] at hrun₂
    rw [Bool.or_eq_true, not_or, decide_eq_true_iff, Int32.not_le] at hover
    exact .inr ⟨fuel₂, by omega, hover.1, (Relation.ReflTransGen.single hjump).tail hnext,
      hentry ▸ hrun₂⟩

/-- The guard of a block that trusts the modifiers hands back before the first instruction. -/
theorem follows_of_guard (hy : y.Compiled s.recompiler.options (origin id))
    (hembeds : s.recompiler.cache.Embeds b y)
    (hsettled : Settled s.recompiler.options.downcountInRegister h m G) (hpc : G.core.pc = b.start)
    (htrusts : y.setting.entry = .noModifiers) (hother : m.core.hasDefaultModifiers = false)
    {fuel : Nat} {result : ExitReason × HostState × Machine}
    (hrun : runCursor s.recompiler.cache.code.words fuel ⟨b.normalEntry, h, m⟩ = .ok result) :
    G.Follows s.recompiler.options.blockLength result.1
      (putBack s.recompiler.options.downcountInRegister result.2.1 result.2.2) := by
  have hstart : b.start = y.setting.start := congrArg Block.start hembeds.outline
  have hone : y.ops[1]? = some (.guardModifiers y.setting.start) := by
    rw [Piece.ops, Setting.code, Setting.entries, if_pos htrusts]
    rfl
  have hop := operationAt?_of_embeds hy hembeds hone (by simp)
  rw [← hembeds.range.2.2.2] at hop
  have hperform : (Operation.guardModifiers y.setting.start).perform h m =
      .exit (.modifierMismatch y.setting.start) h
        ⟨{ m.core with pc := y.setting.start }, m.memory⟩ := by
    rw [Operation.perform, if_neg (by rw [hother]; decide)]
    rfl
  cases runCursor_exit hop hperform hrun
  rw [hsettled.putBack_eq (hstart.symm.trans hpc.symm)]
  exact .quiet trivial (.zero G)

/-- **A run that stands for the reference machine at the entry of a block** comes to where steps of
the interpreter lead. -/
theorem follows_of_fuel (x : Sound origin s) (hb₀ : s.recompiler.cache.IsValid id₀ b₀)
    (hcalm : s.machine.eventPending = false) (fuel : Nat)
    {result : ExitReason × HostState × Machine} (hb : s.recompiler.cache.IsValid id b)
    (hvisits : s.Visits b₀ s.machine ⟨b.normalEntry, h, m⟩)
    (hsettled : Settled s.recompiler.options.downcountInRegister h m G) (hpc : G.core.pc = b.start)
    (hclosed : m.Closed) (hz : m.core.ZeroKept) (hd : 0 < G.core.downcount.toInt) (hsteady : G.Steady)
    (hrun : runCursor s.recompiler.cache.code.words fuel ⟨b.normalEntry, h, m⟩ = .ok result) :
    G.Follows s.recompiler.options.blockLength result.1
      (putBack s.recompiler.options.downcountInRegister result.2.1 result.2.2) := by
  induction fuel using Nat.strongRecOn generalizing id b h m G with
  | ind fuel ih =>
  obtain ⟨y, hy, hembeds⟩ := x.stocked.compiled id b hb
  have hpending := x.calm_of_visits hb₀ x.low hcalm hvisits hb rfl
  have hmemory : G.memory = m.memory := by
    rw [← hsettled]
    rfl
  by_cases hguard : y.setting.entry = .noModifiers ∧ m.core.hasDefaultModifiers = false
  · exact follows_of_guard hy hembeds hsettled hpc hguard.1 hguard.2 hrun
  have hdefault : y.setting.entry = .noModifiers → m.core.hasDefaultModifiers = true := fun hentry =>
    Bool.eq_true_of_not_eq_false fun hno => hguard ⟨hentry, hno⟩
  obtain ⟨last, c, hcount, hlength, hexits, hunwrapped, hreach, hends⟩ :=
    ends_of_visit x hb hy hembeds hsettled hpc hclosed hz hd hdefault
  obtain ⟨fuel', hle, hrest⟩ := hreach.rest hrun
  have hslot := hreach.sameControl
  have hregister : y.setting.options.downcountInRegister =
      s.recompiler.options.downcountInRegister := by rw [hy.choice]
  cases hends with
  | @exit n G' e retires takes mem offset target kept settled =>
    rw [hregister] at settled
    rcases operationAt?_of_exit x hb hy hembeds (hexits ▸ mem) with hop | ⟨id', b', hb', hstart', hop⟩
    · rw [← offset] at hop
      cases runCursor_exit hop rfl hrest
      rw [settled.putBack_eq target]
      exact .quiet trivial retires
    · -- a linked exit leads to the test of the next block, and behind it to its entry
      have hcase := enters_of_jump x hb' (offset ▸ hop) hrest
      rw [hstart'] at hcase
      rcases hcase with rfl | ⟨fuel₂, hlt, hover, hsteps, hrun₂⟩
      · rw [settled.putBack_eq target]
        exact .quiet trivial retires
      · rw [settled.clock] at hover
        exact (ih fuel₂ (by omega) hb' ((hvisits.trans hreach).trans hsteps) settled
          (target.symm.trans hstart'.symm) (hslot.closed hclosed) (hslot.zeroKept hz)
          (Int32.lt_iff_toInt_lt.mp hover) (hsteady.retires retires) hrun₂).after retires
  | @indirect n G' rs retires all found target kept settled =>
    rw [hregister] at settled
    cases runCursor_exit found rfl hrest
    rw [settled.putBack_eq target]
    exact .quiet trivial retires
  | @interpret n G' retires all found left settled =>
    rw [hregister] at settled
    cases runCursor_exit found rfl hrest
    rw [settled.putBack_eq rfl]
    exact .quiet trivial retires
  | @syscall n G' G'' request retires all step found stop settled =>
    rw [hregister] at settled
    cases runCursor_exit found rfl hrest
    rw [settled.putBack_eq rfl]
    exact .syscall retires step
  | @breakpoint n G' G'' pc retires all step found stop next settled =>
    rw [hregister] at settled
    cases runCursor_exit found rfl hrest
    rw [settled.putBack_stopped next]
    exact .breakpoint retires step
  | @trap n G' t h' m' op retires bound found perform fails there clock =>
    rw [hregister] at clock
    cases runCursor_exit found perform hrest
    have hthere := (Machine.coincides_putBack s.recompiler.options.downcountInRegister h' m').symm.trans
      there
    exact .fault (.zero G) ⟨G', retires, fails, hthere⟩ (by omega) clock
  | broken retires bound found perform fails =>
    obtain ⟨_, -, hfollows⟩ := follows_of_cursor found hrest
    rw [perform] at hfollows
    exact hfollows.elim
  | stale retires bound memory place changed =>
    exact absurd (fetch?_eq_of_steady x hb hy hembeds hvisits hpending hmemory hsteady retires place
      (hcount ▸ bound) hunwrapped) changed

/-- **A run of native code follows the interpreter.**  It began at the entry of a valid block at the
program counter, with cycles left and nothing that wants attention, and no instruction is
overwritten before it is fetched. -/
theorem follows (x : Sound origin s) (hb : s.recompiler.cache.IsValid id b)
    (hpc : s.machine.core.pc = b.start) (hcalm : s.machine.eventPending = false)
    (hclosed : s.machine.Closed) (hz : s.machine.core.ZeroKept) (hd : 0 < s.cyclesLeft)
    (hsteady : s.machine.Steady) {fuel : Nat} {reason : ExitReason}
    (hrun : Host.run s.recompiler.options.downcountInRegister s.recompiler.cache.code.words fuel
      b.normalEntry s.machine = .ok (reason, m')) :
    s.machine.Follows s.recompiler.options.blockLength reason m' ∧ s.machine.SameControl m' := by
  have hsame := sameControl_run hrun
  rw [run_eq] at hrun
  obtain ⟨⟨reason', h', m''⟩, hcursor, heq⟩ := ok_of_map hrun
  obtain ⟨rfl, rfl⟩ := Prod.mk.inj heq
  refine ⟨follows_of_fuel x hb hcalm fuel hb .refl ?_ hpc hclosed hz hd hsteady hcursor, hsame⟩
  rw [Settled, cycles_startState]
  rfl

end Keeps

end Session

end Dynarec
