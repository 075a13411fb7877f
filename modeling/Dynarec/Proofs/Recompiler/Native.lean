import Dynarec.Proofs.Guest.Window
import Dynarec.Proofs.Lower.Place

/-!
# Runs of compiled code

`Fabric code pieces` says that host code holds the code of some blocks, in which an exit may be a
jump to the entry of another one of them.  A run that stands in one block stays in it, goes on at
the entry of another, or hands back, and never comes to a word that is no operation (`Fabric.step`).
Every block charges for a cycle at least before it is left by a jump, so a run hands back after a
number of operations that is known in front (`Fabric.handsBack`).
-/

namespace Dynarec

open Host

variable {inRegister : Bool} {code : Array HostWord} {h h' : HostState} {m m' : Machine}

namespace Operation

/-! ### Single operations -/

/-- Straight code goes on, faults or breaks a promise. -/
theorem Inline.outcome {op : Operation} (hop : op.Inline) (h : HostState) (m : Machine) :
    (∃ h' m', op.perform h m = .next h' m') ∨
      (∃ t h' m', op.perform h m = .exit (.fault t) h' m') ∨ ∃ v, op.perform h m = .broken v := by
  have hmemory : ∀ f : Memory → Except Violation Memory,
      (∃ h' m', Outcome.withMemory h m f = .next h' m') ∨
        (∃ t h' m', Outcome.withMemory h m f = .exit (.fault t) h' m') ∨
          ∃ v, Outcome.withMemory h m f = .broken v := fun f => by
    rw [Outcome.withMemory]
    cases f m.memory with
    | ok memory => exact .inl ⟨_, _, rfl⟩
    | error v => exact .inr (.inr ⟨v, rfl⟩)
  cases op
  case store w rs base offset =>
    exact hmemory fun memory => w.store memory (h.address base offset) (h.get rs)
  case floatStore fs base offset =>
    exact hmemory fun memory => memory.writeSingle (h.address base offset) (h.float fs)
  case quadStore qs base offset =>
    exact hmemory fun memory => storeSingles memory (h.address base offset) (h.quad qs).toList
  case interpret word =>
    rw [perform_interpret_eq]
    cases Machine.execute ⟨word⟩ m.core.pc m with
    | ok event m' =>
      cases event with
      | normal => exact .inl ⟨_, _, rfl⟩
      | syscall code => exact .inr (.inl ⟨_, _, _, rfl⟩)
      | breakpoint => exact .inr (.inl ⟨_, _, _, rfl⟩)
    | error e m' =>
      cases e with
      | trap t => exact .inr (.inl ⟨_, _, _, rfl⟩)
      | violation v => exact .inr (.inr ⟨_, rfl⟩)
  all_goals first
    | exact hop.elim
    | exact .inl ⟨_, _, rfl⟩

/-- Quiet code charges nothing. -/
theorem Quiet.ne_charge {op : Operation} (hquiet : op.Quiet) (n : UInt32) :
    op ≠ .charge inRegister n := by
  rintro rfl
  cases inRegister with
  | false => exact hquiet.2 n rfl
  | true => exact hquiet.1 rfl

/-- The test at the entry of a block. -/
theorem perform_checkEntry (inRegister : Bool) (pc : UInt32) (h : HostState) (m : Machine) :
    (checkEntry inRegister pc).perform h m =
      if (decide (cycles inRegister h m ≤ 0) || m.eventPending) = true then
        Outcome.exitAt .dispatch pc h m
      else .next h m := rfl

/-- **A charge lowers the downcount** and leaves the rest of the machine as it is. -/
theorem perform_charge (inRegister : Bool) (amount : UInt32) (h : HostState) (m : Machine) :
    ∃ h' m', (charge inRegister amount).perform h m = .next h' m' ∧ m'.memory = m.memory ∧
      cycles inRegister h' m' = cycles inRegister h m - amount.toInt32 := by
  cases inRegister with
  | false => exact ⟨h, _, rfl, rfl, rfl⟩
  | true =>
    refine ⟨h.set HostReg.downcount (h.get HostReg.downcount - amount), m, rfl, rfl, ?_⟩
    rw [cycles, cycles, if_pos rfl, if_pos rfl, HostState.get_set, if_pos rfl]
    exact UInt32.toInt32_sub _ _

end Operation

/-! ### Blocks in host code -/

/-- **The code of a block**: what it was compiled from, what lowering made of it, and where it starts. -/
structure Piece where
  setting : Setting
  closing : Closing
  base : Nat

/-- The reason of an operation that leaves. -/
def Leave.Reason (way : Leave) : ExitReason → Prop
  | .dispatch => (∃ t, way.op = .exitDispatch t) ∨ ∃ r, way.op = .exitDispatchReg r
  | .interpret => ∃ pc, way.op = .exitInterpret pc
  | .syscall n => ∃ pc, way.op = .exitSyscall n pc
  | .breakpoint => ∃ pc, way.op = .exitBreak pc
  | _ => False

/-- The instructions that are run right behind an exit. -/
def ExitReason.behind : ExitReason → Nat
  | .interpret => 2
  | _ => 0

theorem Leave.Reason.behind_eq {way : Leave} {reason : ExitReason} (h : way.Reason reason) :
    way.op.behind = reason.behind := by
  obtain ⟨amount, op⟩ := way
  cases reason with
  | dispatch =>
    rcases h with ⟨t, ht⟩ | ⟨r, hr⟩
    · cases ht
      rfl
    · cases hr
      rfl
  | interpret | syscall | breakpoint =>
    obtain ⟨pc, hpc⟩ := h
    cases hpc
    rfl
  | modifierMismatch | fault | badCode => exact h.elim

namespace Piece

variable {x : Piece} {d : Int32} {c : Cursor}

/-- The shape of a piece. -/
def sketch (x : Piece) : Sketch := x.closing.sketch

/-- The operations of a piece. -/
def ops (x : Piece) : List Operation := x.setting.code x.base x.sketch

/-- The downcount in a run of a piece. -/
def cycles (x : Piece) (h : HostState) (m : Machine) : Int32 :=
  Dynarec.cycles x.setting.options.downcountInRegister h m

/-- **A run stands in a piece** that was entered with `d` cycles left.  Only in front of an
operation that leaves something was charged. -/
inductive Holds (x : Piece) (d : Int32) (c : Cursor) : Prop
  | inside {i : Nat} {op : Operation} (there : c.offset = x.base + i) (found : x.ops[i]? = some op)
      (stays : ¬ op.Final) (clock : x.cycles c.host c.machine = d)
  | leaving {i : Nat} {way : Leave} (there : c.offset = x.base + i) (behind : 0 < i)
      (found : x.ops[i]? = some way.op) (mem : way ∈ x.sketch.tail.ways)
      (clock : x.cycles c.host c.machine = d - way.amount.toInt32)

/-- **How a run ends in a piece** that was entered with `d` cycles left. -/
inductive Ends (x : Piece) (d : Int32) (c : Cursor) (h : HostState) (m : Machine) :
    ExitReason → Prop
  /-- At the entry, since the cycles are used up or something wants attention. -/
  | check (there : c.offset = x.base) (clock : x.cycles h m = d) : Ends x d c h m .dispatch
  /-- At the guard. -/
  | guard (behind : x.base < c.offset) (assumes : x.setting.entry = .noModifiers)
      (back : m.core.pc = x.setting.start) (clock : x.cycles h m = d) :
      Ends x d c h m (.modifierMismatch x.setting.start)
  | fault {t : Trap} (behind : x.base < c.offset) (clock : x.cycles h m = d) :
      Ends x d c h m (.fault t)
  /-- At a way out. -/
  | leave {way : Leave} {reason : ExitReason} (behind : x.base < c.offset)
      (mem : way ∈ x.sketch.tail.ways) (how : way.Reason reason)
      (clock : x.cycles h m = d - way.amount.toInt32) : Ends x d c h m reason

/-- A run never comes to a word that is no operation. -/
theorem Ends.ne_badCode {reason : ExitReason} (hends : x.Ends d c h m reason) (offset : Nat) :
    reason ≠ .badCode offset := by
  rintro rfl
  cases hends with
  | leave _ _ how => exact how.elim

theorem Holds.base_le (hc : x.Holds d c) : x.base ≤ c.offset := by
  cases hc with
  | inside there => omega
  | leaving there => omega

/-- Every piece starts with its entry. -/
theorem ops_zero (x : Piece) : x.ops[0]? =
    some (.checkEntry x.setting.options.downcountInRegister x.setting.start) := rfl

theorem cycles_congr (hkeep : h'.get HostReg.downcount = h.get HostReg.downcount ∧
    m'.core.downcount = m.core.downcount) : x.cycles h' m' = x.cycles h m := by
  rw [cycles, cycles, Dynarec.cycles, Dynarec.cycles, hkeep.1, hkeep.2]

/-- **Behind an operation that does not leave** the run still stands in the piece. -/
theorem holds_next (hneat : x.sketch.Neat ∅) {i : Nat} {op : Operation}
    (hfound : x.ops[i]? = some op) (hstays : ¬ op.Final)
    (hquiet : op.Quiet) (hclock : x.cycles h m = d) : x.Holds d ⟨x.base + i + 1, h, m⟩ := by
  obtain ⟨next, hnext, hfinal⟩ := Sketch.next_of_not_final hneat hfound hstays
  refine .inside (Nat.add_assoc _ _ _) hnext (fun hleaves => ?_) hclock
  obtain ⟨way, -, -, heq⟩ := hfinal hleaves
  exact hquiet.ne_charge _ heq

end Piece

/-- **Host code holds pieces**, in which an exit may be a jump to the entry of another piece. -/
structure Fabric (inRegister : Bool) (code : Array HostWord) (pieces : Set Piece) : Prop where
  register : ∀ x ∈ pieces, x.setting.options.downcountInRegister = inRegister
  neat : ∀ x ∈ pieces, x.sketch.Neat ∅
  charges : ∀ x ∈ pieces, ∃ most < 2 ^ 31, x.sketch.tail.Charges 0 1 most
  word : ∀ x ∈ pieces, ∀ i op, x.ops[i]? = some op →
    operationAt? code (x.base + i) = some op ∨ ∃ y ∈ pieces, op = .exitDispatch y.setting.start ∧
      operationAt? code (x.base + i) = some (.jump (UInt32.ofNat y.base))
  small : code.size ≤ 2 ^ 32

/-- **What becomes of a run** that stands in a piece. -/
def Piece.GoesOn (pieces : Set Piece) (x : Piece) (d : Int32) (c : Cursor) : Outcome → Prop
  | .next h m => x.Holds d ⟨c.offset + 1, h, m⟩ ∧
      (c.offset = x.base → 0 < d.toInt ∧ m = c.machine ∧ c.machine.eventPending = false)
  | .jump target h m => x.base < c.offset ∧
      (c.offset < target ∧ x.Holds d ⟨target, h, m⟩ ∨
        ∃ y ∈ pieces, target = y.base ∧ ∃ way ∈ x.sketch.tail.ways,
          way.op = .exitDispatch y.setting.start ∧
            y.Holds (d - way.amount.toInt32) ⟨target, h, m⟩)
  | .exit reason h m => x.Ends d c h m reason
  | .broken _ => False

namespace Fabric

variable {pieces : Set Piece} {x : Piece} {d : Int32} {c : Cursor}

theorem lt_size {offset : Nat} {op : Operation} (hop : operationAt? code offset = some op) :
    offset < code.size := by
  obtain ⟨w, hw, -⟩ := Option.bind_eq_some_iff.mp hop
  exact (Array.getElem?_eq_some_iff.mp hw).1

/-- All of a piece lies in the code. -/
theorem lt_size_of_mem (f : Fabric inRegister code pieces) (hx : x ∈ pieces) {i : Nat}
    {op : Operation} (hop : x.ops[i]? = some op) : x.base + i < code.size := by
  rcases f.word x hx i op hop with hword | ⟨y, -, -, hword⟩ <;> exact lt_size hword

/-- The target of a jump between pieces. -/
theorem toNat_base (f : Fabric inRegister code pieces) (hx : x ∈ pieces) :
    (UInt32.ofNat x.base).toNat = x.base := by
  have hlt := f.lt_size_of_mem hx x.ops_zero
  exact UInt32.toNat_ofNat_of_lt' (Nat.lt_of_lt_of_le (Nat.lt_of_le_of_lt (Nat.le_add_right _ _) hlt)
    f.small)

/-- The start of a piece. -/
theorem holds_base (hx : x.setting.options.downcountInRegister = inRegister) {h : HostState}
    {m : Machine} (hclock : cycles inRegister h m = d) : x.Holds d ⟨x.base, h, m⟩ := by
  refine .inside (i := 0) rfl x.ops_zero id ?_
  rw [Piece.cycles, hx]
  exact hclock

/-- A way out, linked or not. -/
theorem leaves (f : Fabric inRegister code pieces) (hx : x ∈ pieces) {i : Nat} {way : Leave}
    (hi : 0 < i) (hfound : x.ops[i]? = some way.op) (hmem : way ∈ x.sketch.tail.ways)
    (hclock : x.cycles h m = d - way.amount.toInt32) :
    ∃ op, operationAt? code (x.base + i) = some op ∧
      x.GoesOn pieces d ⟨x.base + i, h, m⟩ (op.perform h m) := by
  have hlt : x.base < x.base + i := by omega
  rcases f.word x hx i _ hfound with hword | ⟨y, hy, hop, hword⟩
  · refine ⟨way.op, hword, ?_⟩
    have hfinal := (f.neat x hx).final hmem
    cases hop : way.op with
    | exitDispatch t => exact .leave hlt hmem (.inl ⟨t, hop⟩) hclock
    | exitDispatchReg r => exact .leave hlt hmem (.inr ⟨r, hop⟩) hclock
    | exitInterpret pc => exact .leave hlt hmem ⟨pc, hop⟩ hclock
    | exitSyscall n pc => exact .leave hlt hmem ⟨pc, hop⟩ hclock
    | exitBreak pc => exact .leave hlt hmem ⟨pc, hop⟩ hclock
    | _ =>
      rw [hop] at hfinal
      exact hfinal.elim
  · refine ⟨_, hword, hlt, .inr ⟨y, hy, f.toNat_base hy, way, hmem, hop, ?_⟩⟩
    rw [f.toNat_base hy]
    refine holds_base (f.register y hy) ?_
    rw [← f.register x hx]
    exact hclock

/-- **One operation of a run that stands in a piece.** -/
theorem step (f : Fabric inRegister code pieces) (hx : x ∈ pieces) (hc : x.Holds d c)
    (hlow : c.machine.memory.Low) :
    ∃ op, operationAt? code c.offset = some op ∧
      x.GoesOn pieces d c (op.perform c.host c.machine) := by
  obtain ⟨offset, h, m⟩ := c
  cases hc with
  | @leaving i way there behind found mem clock =>
    cases there
    exact f.leaves hx behind found mem clock
  | @inside i op there found stays clock =>
    cases there
    have hword : operationAt? code (x.base + i) = some op :=
      (f.word x hx i op found).resolve_right fun ⟨_, _, hop, _⟩ => stays (by rw [hop]; trivial)
    refine ⟨op, hword, ?_⟩
    have hneat := f.neat x hx
    have hbase : x.base + i = x.base → i = 0 := by omega
    cases Sketch.place_of_getElem? hneat found with
    | check first =>
      cases first
      rw [Operation.perform_checkEntry]
      split
      · exact Piece.Ends.check (c := ⟨x.base + 0, h, m⟩) rfl clock
      · rename_i hpending
        rw [Bool.or_eq_true, not_or, decide_eq_true_eq] at hpending
        refine ⟨Piece.holds_next hneat found stays ⟨Set.notMem_empty _, nofun⟩ clock,
          fun _ => ⟨?_, rfl, Bool.not_eq_true _ ▸ hpending.2⟩⟩
        rw [← clock]
        exact Int32.lt_iff_toInt_lt.mp (Int32.not_le.mp hpending.1)
    | guard second assumes =>
      cases second
      show x.GoesOn pieces d _ (if _ then _ else _)
      split
      · exact ⟨Piece.holds_next hneat found stays ⟨Set.notMem_empty _, nofun⟩ clock,
          fun heq => absurd (hbase heq) (by decide)⟩
      · exact Piece.Ends.guard (c := ⟨x.base + 1, h, m⟩) (Nat.lt_succ_self _) assumes rfl clock
    | straight behind inline quiet =>
      have hkeep := keepsClock_perform inline quiet h m
      have hkept := op.kept_perform h hlow
      rcases inline.outcome h m with ⟨h', m', hout⟩ | ⟨t, h', m', hout⟩ | ⟨v, hout⟩ <;>
        rw [hout] at hkeep hkept ⊢
      · exact ⟨Piece.holds_next hneat found stays quiet
          ((Piece.cycles_congr hkeep).trans clock), fun heq => absurd (hbase heq) (by omega)⟩
      · exact .fault (Nat.lt_add_of_pos_right behind) ((Piece.cycles_congr hkeep).trans clock)
      · exact hkept.elim
    | @jump condition n way behind mem forward there =>
      have hcharge : x.ops[n]? = some (.charge x.setting.options.downcountInRegister way.amount) :=
        there
      have htarget : (UInt32.ofNat (x.base + n)).toNat = x.base + n :=
        UInt32.toNat_ofNat_of_lt' (Nat.lt_of_lt_of_le (f.lt_size_of_mem hx hcharge) f.small)
      show x.GoesOn pieces d _ (if _ then _ else _)
      split
      · exact ⟨Nat.lt_add_of_pos_right behind,
          .inl ⟨by rw [htarget]; exact Nat.add_lt_add_left forward _,
            .inside htarget hcharge Operation.not_final_charge clock⟩⟩
      · exact ⟨Piece.holds_next hneat found stays ⟨Set.notMem_empty _, nofun⟩ clock,
          fun heq => absurd (hbase heq) (by omega)⟩
    | @charge way behind mem next =>
      obtain ⟨h', m', hout, -, hcycles⟩ :=
        Operation.perform_charge x.setting.options.downcountInRegister way.amount h m
      rw [hout]
      refine ⟨.leaving (Nat.add_assoc _ _ _) (Nat.succ_pos i) next mem ?_,
        fun heq => absurd (hbase heq) (by omega)⟩
      rw [← clock]
      exact hcycles
    | leave _ mem => exact absurd (hneat.final mem) stays

/-! ### What a visit costs -/

/-- **The charge of a way out**: at least one cycle, unless the way leads to the interpreter. -/
theorem amount_of_mem (f : Fabric inRegister code pieces) (hx : x ∈ pieces) {way : Leave}
    (hway : way ∈ x.sketch.tail.ways) :
    ∃ n : Nat, way.amount.toInt32.toInt = n ∧ n < 2 ^ 31 ∧
      ((∃ pc, way.op = .exitInterpret pc) ∨ 1 ≤ n) := by
  obtain ⟨most, hmost, hcharges⟩ := f.charges x hx
  obtain ⟨n, hn, hamount, hleast⟩ := hcharges way hway
  refine ⟨n, ?_, by omega, hleast⟩
  rw [hamount, UInt32.zero_add]
  have hnat : (UInt32.ofNat n).toNat = n := UInt32.toNat_ofNat_of_lt' (by
    show n < 4294967296
    omega)
  have hbits : (UInt32.ofNat n).toInt32.toInt = (UInt32.ofNat n).toBitVec.toInt := rfl
  rw [hbits, BitVec.toInt_eq_toNat_of_lt]
  · exact congrArg Int.ofNat hnat
  · show 2 * (UInt32.ofNat n).toNat < 2 ^ 32
    omega

/-- **A visit that does not end at the interpreter lowers the downcount.** -/
theorem cycles_lt (f : Fabric inRegister code pieces) (hx : x ∈ pieces) {way : Leave}
    (hway : way ∈ x.sketch.tail.ways) (hop : ∀ pc, way.op ≠ .exitInterpret pc) (hd : 0 < d.toInt) :
    (d - way.amount.toInt32).toInt < d.toInt := by
  obtain ⟨n, hamount, hsmall, hleast⟩ := f.amount_of_mem hx hway
  have hpos : 1 ≤ n := hleast.resolve_left fun ⟨pc, hpc⟩ => hop pc hpc
  have hlt := d.toInt_lt
  rw [toInt_sub_exact] <;> omega

/-- A visit leaves the downcount far from its least value. -/
theorem lt_cycles (f : Fabric inRegister code pieces) (hx : x ∈ pieces) {way : Leave}
    (hway : way ∈ x.sketch.tail.ways) (hd : 0 < d.toInt) :
    -2 ^ 31 + 1 < (d - way.amount.toInt32).toInt ∧ (d - way.amount.toInt32).toInt ≤ d.toInt := by
  obtain ⟨n, hamount, hsmall, -⟩ := f.amount_of_mem hx hway
  have hlt := d.toInt_lt
  rw [toInt_sub_exact] <;> omega

end Fabric

/-! ### Where a run comes to -/

/-- **Cycles that are left behind a link**: a piece was entered with some, and a way out that leads
to another piece charged for it. -/
def Linked (pieces : Set Piece) (d : Int32) : Prop :=
  ∃ x ∈ pieces, ∃ way ∈ x.sketch.tail.ways, (∃ t, way.op = .exitDispatch t) ∧
    ∃ e : Int32, 0 < e.toInt ∧ d = e - way.amount.toInt32

/-- **A run stands in a piece**, after it was entered behind the test of `x₀` with `d₀` cycles left.
When those were some, every visit but the first began behind a link, with less. -/
structure Stands (pieces : Set Piece) (x₀ : Piece) (d₀ : Int32) (x : Piece) (d : Int32) (c : Cursor) :
    Prop where
  mem : x ∈ pieces
  holds : x.Holds d c
  came : 0 < d₀.toInt → d = d₀ ∨ Linked pieces d
  since : 0 < d₀.toInt → x = x₀ ∧ d = d₀ ∧ x.base < c.offset ∨
    d.toInt < d₀.toInt ∧ (c.offset = x.base ∨ 0 < d.toInt)

/-- **A run entered a piece** with `d` cycles left: where it began, or at the entry of the piece. -/
def Entered (inRegister : Bool) (code : Array HostWord) (c₀ : Cursor) (x : Piece) (d : Int32)
    (c : Cursor) : Prop :=
  ∃ e, Reaches code c₀ e ∧ Reaches code e c ∧ x.Holds d e ∧
    cycles inRegister e.host e.machine = d ∧ (e = c₀ ∨ e.offset = x.base)

namespace Fabric

variable {pieces : Set Piece} {x x₀ : Piece} {d d₀ : Int32} {c c' : Cursor}

/-- **A run that enters a piece behind its test.** -/
theorem stands_entry (f : Fabric inRegister code pieces) (hx : x ∈ pieces)
    (hclock : cycles inRegister h m = d) : Stands pieces x d x d ⟨x.base + 1, h, m⟩ where
  mem := hx
  holds := by
    refine Piece.holds_next (i := 0) (f.neat x hx) x.ops_zero id ⟨Set.notMem_empty _, nofun⟩ ?_
    rw [Piece.cycles, f.register x hx]
    exact hclock
  came _ := .inl rfl
  since _ := .inl ⟨rfl, rfl, Nat.lt_succ_self _⟩

/-- Behind the entry of a piece some cycles are left. -/
theorem pos_of_lt (hs : Stands pieces x₀ d₀ x d c) (hd : 0 < d₀.toInt) (hlt : x.base < c.offset) :
    0 < d.toInt ∧ d.toInt ≤ d₀.toInt := by
  rcases hs.since hd with ⟨-, rfl, -⟩ | ⟨hless, heq | hpos⟩
  · exact ⟨hd, le_rfl⟩
  · omega
  · exact ⟨hpos, hless.le⟩

/-- **One operation keeps a run in the pieces**: in the same one, or at the entry of one. -/
theorem stands_step (f : Fabric inRegister code pieces) (hs : Stands pieces x₀ d₀ x d c)
    (hlow : c.machine.memory.Low) (hstep : Step code c c') :
    ∃ y d', Stands pieces x₀ d₀ y d' c' ∧ (y = x ∧ d' = d ∨ c'.offset = y.base) := by
  obtain ⟨op, hop, hgoes⟩ := f.step hs.mem hs.holds hlow
  have hbase := hs.holds.base_le
  have hpos := pos_of_lt hs
  have hsince := hs.since
  cases hstep with
  | @next op' h m hop' hperform =>
    rw [hop, Option.some_inj] at hop'
    rw [hop', hperform] at hgoes
    refine ⟨x, d, ⟨hs.mem, hgoes.1, hs.came, fun hd => ?_⟩, .inl ⟨rfl, rfl⟩⟩
    rcases hsince hd with ⟨hfirst, heq, hlt⟩ | ⟨hless, heq | hpos'⟩
    · exact .inl ⟨hfirst, heq, Nat.lt_succ_of_lt hlt⟩
    · exact .inr ⟨hless, .inr (hgoes.2 heq).1⟩
    · exact .inr ⟨hless, .inr hpos'⟩
  | @jump op' target h m hop' hperform =>
    rw [hop, Option.some_inj] at hop'
    rw [hop', hperform] at hgoes
    obtain ⟨hlt, ⟨hfar, hholds⟩ | ⟨y, hy, rfl, way, hway, hleave, hholds⟩⟩ := hgoes
    · refine ⟨x, d, ⟨hs.mem, hholds, hs.came, fun hd => ?_⟩, .inl ⟨rfl, rfl⟩⟩
      rcases hsince hd with ⟨hfirst, heq, -⟩ | ⟨hless, -⟩
      · exact .inl ⟨hfirst, heq, Nat.lt_trans hlt hfar⟩
      · exact .inr ⟨hless, .inr (hpos hd hlt).1⟩
    · refine ⟨y, _, ⟨hy, hholds, fun hd => .inr ⟨x, hs.mem, way, hway, ⟨_, hleave⟩, d,
        (hpos hd hlt).1, rfl⟩, fun hd => ?_⟩, .inr rfl⟩
      obtain ⟨hpos, hle⟩ := hpos hd hlt
      have hless := f.cycles_lt hs.mem hway (fun pc hpc => by rw [hleave] at hpc; cases hpc) hpos
      exact .inr ⟨by omega, .inl rfl⟩

/-- **A run stays in the pieces.** -/
theorem stands_reaches (f : Fabric inRegister code pieces) (hs : Stands pieces x₀ d₀ x d c)
    (hlow : c.machine.memory.Low) (hreach : Reaches code c c') :
    c'.machine.memory.Low ∧ ∃ y d', Stands pieces x₀ d₀ y d' c' := by
  induction hreach with
  | refl => exact ⟨hlow, x, d, hs⟩
  | tail _ hstep ih =>
    obtain ⟨hlow', y, d', hs'⟩ := ih
    obtain ⟨z, d'', hs'', -⟩ := f.stands_step hs' hlow' hstep
    exact ⟨hlow'.of_stores hstep.stores, z, d'', hs''⟩

/-- The cycles of a run at the entry of a piece are those that it was entered with. -/
theorem cycles_of_base (f : Fabric inRegister code pieces) (hx : x ∈ pieces) (hc : x.Holds d c)
    (hbase : c.offset = x.base) : cycles inRegister c.host c.machine = d := by
  cases hc with
  | inside _ _ _ clock =>
    rw [← clock, Piece.cycles, f.register x hx]
  | leaving there behind => omega

/-- **A run that began in a piece entered the piece that it stands in.** -/
theorem entered (f : Fabric inRegister code pieces) (hs : Stands pieces x₀ d₀ x d c)
    (hclock : cycles inRegister c.host c.machine = d) (hlow : c.machine.memory.Low)
    (hreach : Reaches code c c') :
    c'.machine.memory.Low ∧
      ∃ y d', Stands pieces x₀ d₀ y d' c' ∧ Entered inRegister code c y d' c' := by
  induction hreach with
  | refl => exact ⟨hlow, x, d, hs, c, .refl, .refl, hs.holds, hclock, .inl rfl⟩
  | @tail c₁ c₂ hreach hstep ih =>
    obtain ⟨hlow', y, d', hs', e, hbefore, hsince, hthere, hcycles, hentry⟩ := ih
    obtain ⟨z, d'', hs'', ⟨rfl, rfl⟩ | hbase⟩ := f.stands_step hs' hlow' hstep
    · exact ⟨hlow'.of_stores hstep.stores, z, d'', hs'', e, hbefore, hsince.tail hstep, hthere,
        hcycles, hentry⟩
    · exact ⟨hlow'.of_stores hstep.stores, z, d'', hs'', c₂, hreach.tail hstep, .refl, hs''.holds,
        f.cycles_of_base hs''.mem hs''.holds hbase, .inr hbase⟩

/-! ### Runs hand back -/

/-- **Enough operations for the rest of a run.**  At an entry without cycles one is enough;
elsewhere the rest of the visit, and as many visits as the cycles that are left behind it. -/
def Budget (size : Nat) (x : Piece) (d : Int32) (c : Cursor) (fuel : Nat) : Prop :=
  c.offset = x.base ∧ d.toInt ≤ 0 ∧ 1 ≤ fuel ∨
    ∃ n : Nat, (∀ way ∈ x.sketch.tail.ways, (∃ t, way.op = .exitDispatch t) →
      (d - way.amount.toInt32).toInt ≤ n) ∧ size - c.offset + n * size + 1 ≤ fuel

/-- **A run with enough operations hands back.** -/
theorem handsBack (f : Fabric inRegister code pieces) {fuel : Nat} (hx : x ∈ pieces)
    (hc : x.Holds d c) (hlow : c.machine.memory.Low) (hbudget : Budget code.size x d c fuel) :
    ∃ c' op reason h m, Reaches code c c' ∧ operationAt? code c'.offset = some op ∧
      op.perform c'.host c'.machine = .exit reason h m ∧
      runCursor code fuel c = .ok (reason, h, m) := by
  induction fuel generalizing x d c with
  | zero => rcases hbudget with ⟨-, -, hfuel⟩ | ⟨n, -, hfuel⟩ <;> omega
  | succ fuel ih =>
    obtain ⟨op, hop, hgoes⟩ := f.step hx hc hlow
    have hlt := lt_size hop
    have hbase := hc.base_le
    -- what a step to a cursor with enough operations comes to
    have honward : ∀ {y d' c'}, y ∈ pieces → y.Holds d' c' → Budget code.size y d' c' fuel →
        Step code c c' → ∃ c' op reason h m, Reaches code c c' ∧
          operationAt? code c'.offset = some op ∧ op.perform c'.host c'.machine = .exit reason h m ∧
          runCursor code (fuel + 1) c = .ok (reason, h, m) := by
      intro y d' c' hy hc' hbudget' hstep
      obtain ⟨c'', op', reason, h, m, hreach, hrest⟩ :=
        ih hy hc' (hlow.of_stores hstep.stores) hbudget'
      rw [hstep.runCursor_eq]
      exact ⟨c'', op', reason, h, m, .head hstep hreach, hrest⟩
    cases hperform : op.perform c.host c.machine with
    | next h m =>
      rw [hperform] at hgoes
      refine honward hx hgoes.1 ?_ (.next hop hperform)
      rcases hbudget with ⟨heq, hd, -⟩ | ⟨n, hn, hfuel⟩
      · exact absurd (hgoes.2 heq).1 (by omega)
      · exact .inr ⟨n, hn, by dsimp only; omega⟩
    | jump target h m =>
      rw [hperform] at hgoes
      obtain ⟨hbehind, ⟨hfar, hholds⟩ | ⟨y, hy, rfl, way, hway, hleave, hholds⟩⟩ := hgoes
      · refine honward hx hholds ?_ (.jump hop hperform)
        rcases hbudget with ⟨heq, -, -⟩ | ⟨n, hn, hfuel⟩
        · omega
        · exact .inr ⟨n, hn, by dsimp only; omega⟩
      · refine honward hy hholds ?_ (.jump hop hperform)
        rcases hbudget with ⟨heq, -, -⟩ | ⟨n, hn, hfuel⟩
        · omega
        · have hle := hn way hway ⟨_, hleave⟩
          by_cases hd : (d - way.amount.toInt32).toInt ≤ 0
          · exact .inl ⟨rfl, hd, by omega⟩
          · refine .inr ⟨n - 1, fun way' hway' hdispatch => ?_, ?_⟩
            · obtain ⟨t, ht⟩ := hdispatch
              have hless := f.cycles_lt hy hway'
                (fun pc hpc => by rw [ht] at hpc; cases hpc) (Int.not_le.mp hd)
              omega
            · have hmul : n * code.size = (n - 1) * code.size + code.size := by
                rw [← Nat.succ_mul]
                congr 1
                omega
              dsimp only
              omega
    | exit reason h m =>
      refine ⟨c, op, reason, h, m, .refl, hop, hperform, ?_⟩
      rw [operationAt?] at hop
      rw [runCursor, runFrom, hop]
      dsimp only
      rw [hperform]
    | broken v =>
      rw [hperform] at hgoes
      exact hgoes.elim

end Fabric

/-! ### Whole runs -/

namespace Host

/-- The host registers at the start of a run. -/
def startState (inRegister : Bool) (m : Machine) : HostState :=
  if inRegister then HostState.start.set HostReg.downcount m.core.downcount.toUInt32
  else HostState.start

/-- The machine after a run, with the downcount in its place. -/
def putBack (inRegister : Bool) (h : HostState) (m : Machine) : Machine :=
  m.at m.core.pc (cycles inRegister h m)

theorem cycles_startState (inRegister : Bool) (m : Machine) :
    cycles inRegister (startState inRegister m) m = m.core.downcount := by
  cases inRegister with
  | false => rfl
  | true =>
    rw [cycles, if_pos rfl, startState, if_pos rfl, HostState.get_set, if_pos rfl]
    exact Int32.toInt32_toUInt32 _

/-- **A run is that of its first cursor**, with the downcount put back. -/
theorem run_eq (inRegister : Bool) (code : Array HostWord) (fuel entry : Nat) (m : Machine) :
    run inRegister code fuel entry m =
      (runCursor code fuel ⟨entry, startState inRegister m, m⟩).map fun p =>
        (p.1, putBack inRegister p.2.1 p.2.2) := by
  rw [run, runCursor, startState]
  cases runFrom code fuel entry (if inRegister then
      HostState.start.set HostReg.downcount m.core.downcount.toUInt32 else HostState.start) m with
  | error v => rfl
  | ok p =>
    obtain ⟨reason, h, m'⟩ := p
    cases inRegister <;> rfl

/-- **A run that returned** returns the same with more steps. -/
theorem run_mono {inRegister : Bool} {code : Array HostWord} {fuel entry : Nat} {m : Machine}
    {p : ExitReason × Machine} (h : run inRegister code fuel entry m = .ok p) (more : Nat) :
    run inRegister code (fuel + more) entry m = .ok p := by
  rw [run_eq] at h ⊢
  rw [runCursor] at h ⊢
  rwa [runFrom_mono fuel more _ _ _ fun hout => by rw [hout] at h; cases h]

end Host

/-- **How a run hands back** that entered `x₀` with `d₀` cycles left. -/
inductive HandedBack (inRegister : Bool) (code : Array HostWord) (pieces : Set Piece) (x₀ : Piece)
    (d₀ : Int32) (c₀ : Cursor) (reason : ExitReason) : Machine → Prop
  | intro {x : Piece} {d : Int32} {c : Cursor} {h : HostState} {m : Machine}
      (entered : Entered inRegister code c₀ x d c) (stands : Stands pieces x₀ d₀ x d c)
      (ends : x.Ends d c h m reason) :
      HandedBack inRegister code pieces x₀ d₀ c₀ reason (putBack inRegister h m)

namespace Fabric

variable {pieces : Set Piece} {x : Piece}

/-- **A run that enters a piece hands back** when it has enough operations. -/
theorem run_of_budget (f : Fabric inRegister code pieces) (hx : x ∈ pieces) (hlow : m.memory.Low)
    {fuel n : Nat} (hn : ∀ way ∈ x.sketch.tail.ways, (∃ t, way.op = .exitDispatch t) →
      (m.core.downcount - way.amount.toInt32).toInt ≤ n) (hfuel : (n + 1) * code.size + 1 ≤ fuel) :
    ∃ reason m', Host.run inRegister code fuel (x.base + 1) m = .ok (reason, m') ∧
      HandedBack inRegister code pieces x m.core.downcount
        ⟨x.base + 1, startState inRegister m, m⟩ reason m' := by
  have hs := f.stands_entry hx (cycles_startState inRegister m)
  have hbudget : Budget code.size x m.core.downcount ⟨x.base + 1, startState inRegister m, m⟩ fuel := by
    refine .inr ⟨n, hn, ?_⟩
    rw [Nat.succ_mul] at hfuel
    dsimp only
    omega
  obtain ⟨c, op, reason, h, m', hreach, hop, hperform, hrun⟩ := f.handsBack hx hs.holds hlow hbudget
  obtain ⟨hlow', y, d, hs', hentered⟩ := f.entered hs (cycles_startState inRegister m) hlow hreach
  obtain ⟨op', hop', hgoes⟩ := f.step hs'.mem hs'.holds hlow'
  rw [hop, Option.some_inj] at hop'
  rw [← hop', hperform] at hgoes
  refine ⟨reason, _, ?_, .intro hentered hs' hgoes⟩
  rw [run_eq, hrun]
  rfl

/-- **With cycles left** the number of operations is bounded by the downcount and the size of the
code. -/
theorem run_of_pos (f : Fabric inRegister code pieces) (hx : x ∈ pieces) (hlow : m.memory.Low)
    (hd : 0 < m.core.downcount.toInt) {fuel : Nat}
    (hfuel : (m.core.downcount.toInt.toNat + 2) * (code.size + 2) ≤ fuel) :
    ∃ reason m', Host.run inRegister code fuel (x.base + 1) m = .ok (reason, m') ∧
      HandedBack inRegister code pieces x m.core.downcount
        ⟨x.base + 1, startState inRegister m, m⟩ reason m' := by
  refine f.run_of_budget hx hlow (n := m.core.downcount.toInt.toNat) (fun way hway hdispatch => ?_) ?_
  · have hle := (f.lt_cycles hx hway hd).2
    omega
  · refine Nat.le_trans ?_ hfuel
    have hmul : (m.core.downcount.toInt.toNat + 1) * code.size ≤
        (m.core.downcount.toInt.toNat + 2) * code.size := Nat.mul_le_mul_right _ (Nat.le_succ _)
    rw [Nat.mul_add]
    omega

/-- **Whatever the state is**, a run that enters a piece hands back. -/
theorem run_of_enough (f : Fabric inRegister code pieces) (hx : x ∈ pieces) (hlow : m.memory.Low)
    {fuel : Nat} (hfuel : (2 ^ 31 + 1) * code.size + 1 ≤ fuel) :
    ∃ reason m', Host.run inRegister code fuel (x.base + 1) m = .ok (reason, m') ∧
      HandedBack inRegister code pieces x m.core.downcount
        ⟨x.base + 1, startState inRegister m, m⟩ reason m' := by
  refine f.run_of_budget hx hlow (n := 2 ^ 31) (fun way _ _ => ?_) hfuel
  have hlt := (m.core.downcount - way.amount.toInt32).toInt_lt
  omega

end Fabric

/-! ### What handing back means for the downcount -/

namespace HandedBack

variable {pieces : Set Piece} {x₀ : Piece} {d₀ : Int32} {c₀ : Cursor} {reason : ExitReason}

/-- A run never comes to a word that is no operation. -/
theorem ne_badCode (hback : HandedBack inRegister code pieces x₀ d₀ c₀ reason m) (offset : Nat) :
    reason ≠ .badCode offset := by
  obtain ⟨-, -, hends⟩ := hback
  exact hends.ne_badCode offset

end HandedBack

/-- **What a run that had cycles left has spent**, if the dispatcher goes on after it.  Only a
failed guard may cost nothing, and it is the guard of one of the pieces. -/
def Spent (pieces : Set Piece) (x₀ : Piece) (d₀ : Int32) (m : Machine) : ExitReason → Prop
  | .dispatch => m.core.downcount.toInt < d₀.toInt
  | .interpret => -2 ^ 31 + 1 < m.core.downcount.toInt ∧ m.core.downcount.toInt ≤ d₀.toInt
  | .modifierMismatch pc => m.core.pc = pc ∧
      ∃ x ∈ pieces, x.setting.start = pc ∧ x.setting.entry = .noModifiers ∧
        (m.core.downcount.toInt < d₀.toInt ∨ x = x₀ ∧ m.core.downcount = d₀)
  | _ => True

/-- **The pieces keep a bound on instructions**: no way out charges for more, with what is run
behind it. -/
def Within (length : Nat) (pieces : Set Piece) : Prop :=
  ∀ x ∈ pieces, x.sketch.tail.Charges 0 0 (length + 1)

/-- **What a way out charges**, with cycles left: its amount, which is no more than the bound with
what is run behind it, and something, unless it leads to the interpreter. -/
theorem Fabric.charged {pieces : Set Piece} {length : Nat} {x : Piece} {way : Leave} {d : Int32}
    (f : Fabric inRegister code pieces) (hwithin : Within length pieces) (hx : x ∈ pieces)
    (hway : way ∈ x.sketch.tail.ways) (hd : 0 < d.toInt) :
    d.toInt = (d - way.amount.toInt32).toInt + way.amount.toNat ∧ way.amount.toNat < 2 ^ 31 ∧
      way.amount.toNat + way.op.behind ≤ length + 1 ∧
      ((∃ pc, way.op = .exitInterpret pc) ∨ 1 ≤ way.amount.toNat) := by
  obtain ⟨n, hamount, hsmall, hleast⟩ := f.amount_of_mem hx hway
  obtain ⟨n', hn', hamount', -⟩ := hwithin x hx way hway
  have hnat : way.amount.toNat = n := by
    have hbits : way.amount.toInt32.toInt = way.amount.toBitVec.toInt := rfl
    have hlt := way.amount.toNat_lt
    have hcast : way.amount.toBitVec.toNat = way.amount.toNat := rfl
    rw [hbits, BitVec.toInt_eq_toNat_bmod, hcast, Int.bmod_def] at hamount
    split at hamount <;> omega
  have hle : way.amount.toNat ≤ n' := by
    rw [hamount', UInt32.zero_add, UInt32.toNat_ofNat']
    exact Nat.mod_le _ _
  have hlt := d.toInt_lt
  refine ⟨?_, by omega, by omega, hnat ▸ hleast⟩
  rw [toInt_sub_exact] <;> omega

/-- A visit that had cycles left does not fall far below zero. -/
theorem Fabric.behind_le {pieces : Set Piece} {length : Nat} {x : Piece} {way : Leave} {d : Int32}
    (f : Fabric inRegister code pieces) (hwithin : Within length pieces) (hx : x ∈ pieces)
    (hway : way ∈ x.sketch.tail.ways) (hd : 0 < d.toInt) :
    (way.op.behind : Int) ≤ length + (d - way.amount.toInt32).toInt := by
  obtain ⟨hcharged, -, hle, -⟩ := f.charged hwithin hx hway hd
  omega

/-- **What is left of the downcount** when a run hands back that had cycles left. -/
theorem Fabric.floor {pieces : Set Piece} {x₀ : Piece} {d₀ : Int32} {c₀ : Cursor}
    {reason : ExitReason} {length : Nat} (f : Fabric inRegister code pieces)
    (hwithin : Within length pieces)
    (hback : HandedBack inRegister code pieces x₀ d₀ c₀ reason m) (hd : 0 < d₀.toInt) :
    (reason.behind : Int) ≤ length + m.core.downcount.toInt := by
  obtain ⟨-, hs, hends⟩ := hback
  rename_i x d c h m
  have hdown : (putBack inRegister h m).core.downcount = x.cycles h m := by
    rw [Piece.cycles, f.register x hs.mem]
    rfl
  rw [hdown]
  cases hends with
  | check there clock =>
    rw [clock]
    show ((0 : Nat) : Int) ≤ _
    rcases hs.came hd with rfl | ⟨z, hz, way, hway, -, e, he, rfl⟩
    · omega
    · have hle := f.behind_le hwithin hz hway he
      omega
  | guard behind _ _ clock | fault behind clock =>
    have hpos := (pos_of_lt hs hd behind).1
    rw [clock]
    show ((0 : Nat) : Int) ≤ _
    omega
  | leave behind mem how clock =>
    rw [clock, ← how.behind_eq]
    exact f.behind_le hwithin hs.mem mem (pos_of_lt hs hd behind).1

theorem Fabric.spent {pieces : Set Piece} {x₀ : Piece} {d₀ : Int32} {c₀ : Cursor}
    {reason : ExitReason} (f : Fabric inRegister code pieces)
    (hback : HandedBack inRegister code pieces x₀ d₀ c₀ reason m) (hd : 0 < d₀.toInt) :
    Spent pieces x₀ d₀ m reason := by
  obtain ⟨-, hs, hends⟩ := hback
  rename_i x d c h m
  have hdown : (putBack inRegister h m).core.downcount = cycles inRegister h m := rfl
  have hclock : x.cycles h m = cycles inRegister h m := by rw [Piece.cycles, f.register x hs.mem]
  rw [← hclock] at hdown
  cases hends with
  | check there clock =>
    rw [Spent, hdown, clock]
    rcases hs.since hd with ⟨-, -, hlt⟩ | ⟨hless, -⟩
    · omega
    · exact hless
  | guard behind assumes back clock =>
    rw [Spent, hdown, clock]
    refine ⟨back, x, hs.mem, rfl, assumes, ?_⟩
    rcases hs.since hd with ⟨hfirst, heq, -⟩ | ⟨hless, -⟩
    · exact .inr ⟨hfirst, heq⟩
    · exact .inl hless
  | fault => trivial
  | @leave way reason behind mem how clock =>
    obtain ⟨hpos, hle⟩ := pos_of_lt hs hd behind
    rw [clock] at hdown
    cases reason with
    | dispatch =>
      rw [Spent, hdown]
      have hless := f.cycles_lt hs.mem mem (fun pc hpc => ?_) hpos
      · exact Int.lt_of_lt_of_le hless hle
      · rcases how with ⟨t, ht⟩ | ⟨r, hr⟩
        · rw [hpc] at ht
          cases ht
        · rw [hpc] at hr
          cases hr
    | interpret =>
      rw [Spent, hdown]
      obtain ⟨hlow, hle'⟩ := f.lt_cycles hs.mem mem hpos
      exact ⟨hlow, Int.le_trans hle' hle⟩
    | modifierMismatch => exact how.elim
    | syscall | breakpoint | fault | badCode => trivial

end Dynarec
