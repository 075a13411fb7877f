import Dynarec.Proofs.Guest.Images
import Dynarec.Proofs.Guest.Reference
import Dynarec.Proofs.Lower.Compiled
import Dynarec.Proofs.Lower.Modifiers
import Dynarec.Proofs.Recompiler.Freshness

/-!
# Lowering a block is correct

A run of the code of a block, from its entry for the dispatcher, ends in the machine that the
instructions on its path lead to, and returns for what the last of them reports
(`retraces_of_lower`).
-/

namespace Dynarec

open Lowering

variable {s : Setting} {code resolved : CodeSpace} {block : Block} {last b : Builder}
  {words : Array HostWord} {base n : Nat} {h : HostState} {m G : Machine}

/-! ### Cycles -/

/-- With room for the instructions the downcount does not wrap around. -/
theorem toInt_cyclesAfter {d : Int32} (hroom : Int32.minValue.toInt + n ≤ d.toInt) :
    (cyclesAfter d n).toInt = d.toInt - n := by
  have hamount : (UInt32.ofNat n).toInt32 = Int32.ofInt n := by
    rw [UInt32.toInt32_ofNat', Int32.ofInt_eq_ofNat]
  have hlt := d.toInt_lt
  have hmin : Int32.minValue.toInt = -2147483648 := rfl
  rw [cyclesAfter, hamount, ← Int32.ofInt_toInt d, ← Int32.ofInt_sub, Int32.ofInt_toInt]
  exact Int32.toInt_ofInt_of_le (by omega) (by omega)

theorem affords_of_room
    (hroom : Int32.minValue.toInt + last.progress.count.toNat ≤ m.core.downcount.toInt) :
    Affords last m := by
  intro k hk heq
  have hleft := toInt_cyclesAfter (n := k) (d := m.core.downcount) (by omega)
  rw [heq] at hleft
  omega

/-! ### The entry of a block -/

namespace Lowering

/-- **At the entry of a block nothing is bound**, and the guest's registers are where the guest
keeps them. -/
theorem shadows_entered (hz : m.core.ZeroKept)
    (hdefault : s.entry = .noModifiers → m.core.hasDefaultModifiers = true) :
    (Builder.entered s code).Shadows h m m := shadows_start code hz hdefault

/-- **The guard of a block lets a machine through** that the block may be entered with. -/
theorem leads_guardEntry {E : Host.Cursor → Prop}
    (hdefault : s.entry = .noModifiers → m.core.hasDefaultModifiers = true) :
    leads words base last s (guardEntry s) E (fun _ b' h' m' => b' = { b with code := b'.code } ∧
      h' = h ∧ m' = m) b h m := by
  intro y u b' hok hlast
  rw [guardEntry] at hok
  split at hok
  · rename_i hentry
    cases hok
    have hleaves : (Operation.guardModifiers s.start).Leaves := trivial
    have hperform : (Operation.guardModifiers s.start).perform h m = .next h m :=
      if_pos (hdefault hentry)
    have hfound := y.leaveAt hleaves hlast
    obtain ⟨_, _, _, x⟩ := hlast y.fits
    have hoffset := (adds_emit hleaves x.fits).offset
    refine .inl ⟨h, m, .single ?_, rfl, rfl, rfl⟩
    rw [hoffset]
    exact .next hfound hperform
  · cases hok
    exact .inl ⟨h, m, .refl, rfl, rfl, rfl⟩

end Lowering

/-- What stands for a machine has its cycles. -/
theorem Settled.clock {inRegister : Bool} (hsettled : Settled inRegister h m G) :
    cycles inRegister h m = G.core.downcount := by
  rw [← hsettled]
  rfl

/-- **The code of a block leads to one of its ends** wherever it was written down, from a host and a
machine that stand for the reference machine `G`. -/
theorem Finished.ends (f : Finished s code block resolved last)
    (y : Way words base last (Builder.entered s code))
    (hsettled : Settled s.options.downcountInRegister h m G) (hpc : G.core.pc = s.start)
    (hz : m.core.ZeroKept) (hclosed : m.Closed)
    (hdefault : s.entry = .noModifiers → m.core.hasDefaultModifiers = true)
    (hafford : Affords last G) (hsize : s.memory.size ≤ 2 ^ 32) (hsmall : last.code.offset ≤ 2 ^ 32) :
    ∃ c, Host.Reaches words ⟨code.offset + 1, h, m⟩ c ∧ Ends words s last G c := by
  obtain ⟨b, hguard, hinstructions⟩ := f.run
  obtain ⟨hext, -⟩ := growing_guardEntry _ _ hguard
  have hext' := (growing_instructions hinstructions).1
  have hstart : m.at s.start (cyclesAfter G.core.downcount 0) = G := by
    rw [cyclesAfter_zero, ← hpc, ← hsettled.clock]
    exact hsettled
  have hentry : leads words base last s (guardEntry s) (Ends words s last G) _
    (Builder.entered s code) h m := leads_guardEntry hdefault
  rcases hentry y _ _ hguard hext' with ⟨h', m', hreach, hb, hh, hm⟩ | hends
  · have x : Abreast s G 0 s.start b h m m := by
      refine ⟨⟨?_, hsettled.clock, hclosed⟩, ?_, ?_, (UInt32.add_zero _).symm⟩
      · rw [hb]
        exact shadows_entered hz hdefault
      · rw [Arrives, hstart]
        exact .zero G
      · rw [hb]
        rfl
    have hroom : 0 + room s.memory + 1 < 2 ^ 32 := by
      rw [room]
      omega
    obtain ⟨c, hreach', hends⟩ := ends_of_instructions (y.step hext hext') hinstructions x hroom hafford
      hsmall
    rw [hh, hm, f.entered_offset] at hreach
    exact ⟨c, hreach.trans hreach', hends⟩
  · rw [f.entered_offset] at hends
    exact hends

/-! ### Runs -/

namespace Host

/-- Leaving at an address puts the program counter and the downcount in place. -/
theorem putBack_leave (inRegister : Bool) (h : HostState) (m : Machine) (pc : UInt32) :
    putBack inRegister h ⟨{ m.core with pc := pc }, m.memory⟩ = m.at pc (cycles inRegister h m) := by
  cases inRegister <;> rfl

/-- **A run that comes to an operation that leaves.** -/
theorem run_of_exit {inRegister : Bool} {entry : Nat} {c : Cursor} {op : Operation}
    {reason : ExitReason} {h' : HostState} {m' : Machine}
    (hreach : Reaches words ⟨entry, startState inRegister m, m⟩ c)
    (hop : operationAt? words c.offset = some op)
    (hperform : op.perform c.host c.machine = .exit reason h' m') :
    ∃ fuel, ∀ more, run inRegister words (fuel + more) entry m =
      .ok (reason, putBack inRegister h' m') := by
  obtain ⟨n, hn⟩ := hreach.runCursor_eq
  refine ⟨n + 1, fun more => ?_⟩
  rw [run_eq, show n + 1 + more = more + 1 + n by omega, hn, runCursor, runFrom]
  rw [operationAt?] at hop
  rw [hop]
  simp only [hperform]
  rfl

/-- A run that comes to an operation that breaks a promise. -/
theorem run_of_broken {inRegister : Bool} {entry : Nat} {c : Cursor} {op : Operation} {v : Violation}
    (hreach : Reaches words ⟨entry, startState inRegister m, m⟩ c)
    (hop : operationAt? words c.offset = some op)
    (hperform : op.perform c.host c.machine = .broken v) :
    ∃ fuel, ∀ more, run inRegister words (fuel + more) entry m = .error v := by
  obtain ⟨n, hn⟩ := hreach.runCursor_eq
  refine ⟨n + 1, fun more => ?_⟩
  rw [run_eq, show n + 1 + more = more + 1 + n by omega, hn, runCursor, runFrom]
  rw [operationAt?] at hop
  rw [hop]
  simp only [hperform]
  rfl

end Host

/-! ### Where the instructions of a block lie -/

/-- **The instructions of a block lie between its ends**: their addresses do not wrap around. -/
def Block.Unwrapped (b : Block) : Prop := b.start.toNat + 4 * b.instructions.toNat ≤ b.stop.toNat

/-- A word of the window ends far enough from the end of the address space. -/
theorem Memory.Low.toNat_add {memory : Memory} (hlow : memory.Low) {pc word : UInt32}
    (hfetch : memory.fetch? pc = some word) :
    (pc + 4).toNat = pc.toNat + 4 ∧ (pc + 8).toNat = pc.toNat + 8 := by
  obtain ⟨offset, hoffset, -⟩ := Option.map_eq_some_iff.mp hfetch
  obtain ⟨heq, hlen⟩ := Memory.offset?_eq_some_iff.mp hoffset
  rw [Memory.Low] at hlow
  simp only [UInt32.toNat_add, UInt32.reduceToNat]
  omega

namespace Lowering

/-- An instruction that ends a block ends it behind what is counted for it. -/
theorem terminatorCount_le_stop {memory : Memory} (hlow : memory.Low) {i : Instr} {pc word : UInt32}
    (hfetch : memory.fetch? pc = some word) :
    pc.toNat + 4 * terminatorCount memory i pc ≤ (terminatorStop i pc).toNat := by
  obtain ⟨hfour, height⟩ := hlow.toNat_add hfetch
  by_cases hsystem : i.family = .syscall ∨ i.family = .breakpoint
  · rcases hsystem with hfam | hfam <;>
    · rw [terminatorCount, terminatorStop, hfam]
      exact hfour.ge
  · obtain ⟨hs, hb⟩ := not_or.mp hsystem
    rw [terminatorCount_slot hs hb, terminatorStop_slot hs hb, height]
    split <;> omega

/-- **The end of a block lies at least as many words behind its start as instructions are counted.** -/
theorem instructions_le_stop (hlow : s.memory.Low) {room : Nat} {pc : UInt32}
    (hok : instructions room pc s b = .ok ((), last)) :
    ∃ k ≤ room + 1, last.progress.count = b.progress.count + UInt32.ofNat k ∧
      pc.toNat + 4 * k ≤ last.progress.pc.toNat := by
  have hend : ∀ {room pc} {b : Builder}, endBlock pc s b = .ok ((), last) →
      ∃ k ≤ room + 1, last.progress.count = b.progress.count + UInt32.ofNat k ∧
        pc.toNat + 4 * k ≤ last.progress.pc.toNat := fun {_ pc _} hok => by
    refine ⟨0, Nat.zero_le _, (growing_endBlock _ _ _ hok).2, ?_⟩
    rw [pc_of_closes (closes_endBlock pc) hok]
    exact le_rfl
  induction room generalizing pc b with
  | zero => exact hend hok
  | succ room ih =>
    rcases instructions_ok hok with ⟨-, hok⟩ | ⟨word, hfetch, ⟨-, hok⟩ | ⟨-, b₁, hbody, hrest⟩⟩
    · exact hend hok
    · have hle := terminatorCount_le s.memory ⟨word⟩ pc
      refine ⟨_, by omega, (growing_lastInstruction _ pc _ _ hok).2, ?_⟩
      rw [progress_lastInstruction hok]
      exact terminatorCount_le_stop hlow hfetch
    · obtain ⟨-, hcount⟩ := growing_bodyInstruction _ pc _ _ hbody
      obtain ⟨k, hk, hcount', hstop⟩ := ih hrest
      refine ⟨1 + k, by omega, ?_, ?_⟩
      · rw [hcount', hcount, UInt32.ofNat_add, UInt32.add_assoc]
      · rw [(hlow.toNat_add hfetch).1] at hstop
        omega

end Lowering

/-- **In a window away from the end of the address space** no block wraps around. -/
theorem Finished.unwrapped (f : Finished s code block resolved last) (hlow : s.memory.Low) :
    block.Unwrapped := by
  obtain ⟨b, hguard, hinstructions⟩ := f.run
  obtain ⟨k, hk, hcount, hstop⟩ := instructions_le_stop hlow hinstructions
  have hzero : b.progress.count = UInt32.ofNat 0 := (growing_guardEntry _ _ hguard).2
  have hsize := hlow.size_lt
  have hlast := toNat_count hzero hcount (by rw [room] at hk; omega)
  rw [f.block_eq]
  show s.start.toNat + 4 * last.progress.count.toNat ≤ last.progress.pc.toNat
  omega

/-! ### What a run of a block comes to -/

namespace Memory

variable {m m' : Memory}

theorem valueAt_congr {offset count : Nat}
    (h : ∀ i < count, m'.byteAt (offset + i) = m.byteAt (offset + i)) :
    m'.valueAt offset count = m.valueAt offset count := by
  induction count generalizing offset with
  | zero => rfl
  | succ count ih =>
    have hrest : ∀ i < count, m'.byteAt (offset + 1 + i) = m.byteAt (offset + 1 + i) := fun i hi => by
      rw [Nat.add_assoc, Nat.add_comm 1 i]
      exact h (i + 1) (Nat.succ_lt_succ hi)
    rw [valueAt, valueAt, ih hrest]
    exact congrArg (· ||| _) (h 0 (Nat.succ_pos count))

/-- **The instruction at an address is that of another memory** with the same window and the same
bytes there. -/
theorem fetch?_congr {pc : UInt32} (hbase : m'.base = m.base) (hsize : m'.size = m.size)
    (hwrap : pc.toNat + 4 ≤ 2 ^ 32)
    (h : ∀ i < 4, m'.read8 (pc + UInt32.ofNat i) = m.read8 (pc + UInt32.ofNat i)) :
    m'.fetch? pc = m.fetch? pc := by
  have hoffset : m'.offset? pc 4 = m.offset? pc 4 := by rw [offset?, offset?, hbase, hsize]
  rw [fetch?, fetch?, hoffset]
  cases hfound : m.offset? pc 4 with
  | none => rfl
  | some offset =>
    obtain ⟨heq, hlen⟩ := offset?_eq_some_iff.mp hfound
    have hbyte : ∀ i < 4, m'.byteAt (offset + i) = m.byteAt (offset + i) := fun i hi => by
      have haddress : (pc + UInt32.ofNat i).toNat = m.base.toNat + (offset + i) := by
        rw [UInt32.toNat_add, UInt32.toNat_ofNat_of_lt' (hi.trans (by decide))]
        omega
      have hread := h i hi
      rw [read8_eq, read8_eq, hbase, hsize, haddress, if_pos (by omega), if_pos (by omega),
        Nat.add_sub_cancel_left] at hread
      exact hread
    exact congrArg some (valueAt_congr hbyte)

end Memory

/-- **A run stays off the code of a block**: its memory has the window of the one that the block was
compiled from, with the same bytes in the block, and no operation of the run changes one of these. -/
structure Block.Intact (b : Block) (compiled : Memory) (words : Array HostWord) (c₀ : Host.Cursor) :
    Prop where
  base : c₀.machine.memory.base = compiled.base
  size : c₀.machine.memory.size = compiled.size
  held : Session.Unchanged b compiled c₀.machine.memory
  kept : ∀ c c', Host.Reaches words c₀ c → Host.Step words c c' →
    Session.Unchanged b c.machine.memory c'.machine.memory

namespace Block.Intact

variable {compiled : Memory} {c₀ c : Host.Cursor}

theorem unchanged (x : block.Intact compiled words c₀) (hreach : Host.Reaches words c₀ c) :
    Session.Unchanged block compiled c.machine.memory := by
  induction hreach with
  | refl => exact x.held
  | tail hreach hstep ih => exact fun a ha => (x.kept _ _ hreach hstep a ha).trans (ih a ha)

/-- **The instructions of the block stay in memory** as they were compiled. -/
theorem fetch?_eq (x : block.Intact compiled words c₀) (hreach : Host.Reaches words c₀ c)
    (hwrap : block.Unwrapped) {k : Nat} (hk : k < block.instructions.toNat) :
    c.machine.memory.fetch? (block.start + 4 * UInt32.ofNat k) =
      compiled.fetch? (block.start + 4 * UInt32.ofNat k) := by
  obtain ⟨hbase, hsize, -⟩ := hreach.stores.same
  rw [Block.Unwrapped] at hwrap
  have hstop := block.stop.toNat_lt
  have hword : (block.start + 4 * UInt32.ofNat k).toNat = block.start.toNat + 4 * k := by
    simp only [UInt32.toNat_add, UInt32.toNat_mul, UInt32.toNat_ofNat', UInt32.reduceToNat]
    omega
  refine Memory.fetch?_congr (hbase.trans x.base) (hsize.trans x.size) (by omega) fun i hi =>
    x.unchanged hreach _ ?_
  have hbyte : (block.start + 4 * UInt32.ofNat k + UInt32.ofNat i).toNat =
      block.start.toNat + 4 * k + i := by
    rw [UInt32.toNat_add, hword, UInt32.toNat_ofNat_of_lt' (hi.trans (by decide))]
    omega
  rw [Block.contains, Bool.and_eq_true, decide_eq_true_iff, decide_eq_true_iff,
    UInt32.le_iff_toNat_le, UInt32.lt_iff_toNat_lt, hbyte]
  omega

end Block.Intact

/-- **A run of a block returned for what happened**: for the event of the last step, or for a branch
that the block leaves to the interpreter. -/
structure ReturnedFor (s : Setting) (block : Block) (event : StepEvent) (reason : ExitReason)
    (m' : Machine) : Prop where
  syscall : ∀ request, reason = .syscall request ↔ event = .syscall request
  breakpoint : reason = .breakpoint ↔ event = .breakpoint
  interpret : reason = .interpret ↔ s.Leaves block.stop m'.core.pc
  otherwise : event = .normal → reason = .interpret ∨ reason = .dispatch

/-- A run that leaves for another block. -/
theorem ReturnedFor.of_kept (hkept : ¬ s.Leaves block.stop G.core.pc) :
    ReturnedFor s block .normal .dispatch G :=
  ⟨fun _ => ⟨nofun, nofun⟩, ⟨nofun, nofun⟩, ⟨nofun, fun hleaves => absurd hleaves hkept⟩,
    fun _ => .inr rfl⟩

/-- **A run of a block retraces the interpreter** from the machine `m`.  It ends where as many steps
of the interpreter end as it charges cycles for: one for each instruction of the block, the delay
slot of a likely branch apart that was skipped.  A run that fails does so where a step fails in the
same way; a fault leaves what the interpreter has there, with the downcount that the block was
entered with. -/
def Retraces (s : Setting) (block : Block) (m : Machine) :
    Except Violation (ExitReason × Machine) → Prop
  | .ok (.fault t, m') => ∃ n < block.instructions.toNat, m.FaultsAt n t m' ∧
      m'.core.downcount = m.core.downcount
  | .ok (reason, m') => ∃ n event, s.Takes block.instructions.toNat n block.stop m'.core.pc ∧
      m'.core.downcount.toInt = m.core.downcount.toInt - n ∧ Machine.Reports n m event m' ∧
      ReturnedFor s block event reason m'
  | .error v => ∃ n G, Machine.Retires n m G ∧ G.Fails (.violation v)

/-- An exit of a finished lowering is where it was recorded. -/
theorem Finished.exitAt (f : Finished s code block resolved last)
    (hrefs : ∀ p l, (p, l) ∈ code.references → p < code.offset) {e : Exit} (he : e ∈ last.exits) :
    Host.operationAt? resolved.words e.stub = some (.exitDispatch e.target) := by
  obtain ⟨_, _, exits, x⟩ := f.goesOn f.fits
  have hexits : last.exits.toList = exits := x.allExits.trans (List.nil_append _)
  rw [← Array.mem_toList_iff, hexits] at he
  exact x.exit_resolve (f.placed hrefs) f.resolve he

/-- **A run that leaves** where the machine stands for `G` ends in `G`. -/
theorem Settled.putBack_eq {inRegister : Bool} (hsettled : Settled inRegister h m G) {pc : UInt32}
    (hpc : pc = G.core.pc) : Host.putBack inRegister h ⟨{ m.core with pc := pc }, m.memory⟩ = G := by
  rw [Host.putBack_leave, hpc]
  exact hsettled

/-- A run that leaves at a breakpoint ends where the breakpoint stopped `G`. -/
theorem Settled.putBack_stopped {inRegister : Bool} (hsettled : Settled inRegister h m G) {pc : UInt32}
    (hnext : G.core.pc = pc + 4) :
    Host.putBack inRegister h ⟨{ m.core with runState := .stopped pc, pc := pc + 4 }, m.memory⟩ =
      G.stopped pc := by
  rw [← hsettled, hnext]
  cases inRegister <;> rfl

/-- A run that leaves with its downcount in place. -/
theorem Machine.coincides_putBack (inRegister : Bool) (h : HostState) (m : Machine) :
    m.Coincides (Host.putBack inRegister h m) := ⟨rfl, .refl _⟩

/-- **What a run shows that came to an end of the block.** -/
theorem retraces_of_ends (f : Finished s code block resolved last)
    (hrefs : ∀ p l, (p, l) ∈ code.references → p < code.offset) {c : Host.Cursor}
    (hreach : Host.Reaches resolved.words ⟨block.normalEntry,
      Host.startState s.options.downcountInRegister m, m⟩ c)
    (hends : Ends resolved.words s last m c) (hwrap : block.Unwrapped)
    (hintact : block.Intact s.memory resolved.words ⟨block.normalEntry,
      Host.startState s.options.downcountInRegister m, m⟩) :
    ∃ fuel result, (∀ more, Host.run s.options.downcountInRegister resolved.words (fuel + more)
      block.normalEntry m = result) ∧ Retraces s block m result := by
  have hstop : block.stop = last.progress.pc := by rw [f.block_eq]; rfl
  have hcount : block.instructions = last.progress.count := by rw [f.block_eq]; rfl
  have hstart : block.start = s.start := by rw [f.block_eq]; rfl
  cases hends with
  | @exit n G e retires takes mem offset target kept settled =>
    have hop := f.exitAt hrefs mem
    rw [← offset] at hop
    obtain ⟨fuel, hrun⟩ := Host.run_of_exit hreach hop rfl
    rw [settled.putBack_eq target] at hrun
    exact ⟨fuel, _, hrun, n, .normal, hcount ▸ hstop ▸ takes, retires.downcount, retires.reports,
      .of_kept (fun hleaves => kept (hstop ▸ hleaves))⟩
  | @indirect n G rs retires all found target kept settled =>
    obtain ⟨fuel, hrun⟩ := Host.run_of_exit hreach found rfl
    rw [settled.putBack_eq target] at hrun
    exact ⟨fuel, _, hrun, n, .normal, .inl (hcount ▸ all), retires.downcount, retires.reports,
      .of_kept (fun hleaves => kept (hstop ▸ hleaves))⟩
  | @interpret n G retires all found left settled =>
    obtain ⟨fuel, hrun⟩ := Host.run_of_exit hreach found rfl
    rw [settled.putBack_eq rfl] at hrun
    refine ⟨fuel, _, hrun, n, .normal, .inl (hcount ▸ all), retires.downcount, retires.reports, ?_⟩
    exact ⟨fun _ => ⟨nofun, nofun⟩, ⟨nofun, nofun⟩, ⟨fun _ => hstop ▸ left, fun _ => rfl⟩,
      fun _ => .inl rfl⟩
  | @syscall n G G' request retires all step found stop settled =>
    obtain ⟨fuel, hrun⟩ := Host.run_of_exit hreach found rfl
    rw [settled.putBack_eq rfl] at hrun
    refine ⟨fuel, _, hrun, n + 1, .syscall request, .inl (hcount ▸ all), retires.downcount_step step,
      retires.reports_succ step, ?_⟩
    refine ⟨fun other => ?_, ⟨nofun, nofun⟩, ⟨nofun, fun hleaves => ?_⟩, nofun⟩
    · rw [ExitReason.syscall.injEq, StepEvent.syscall.injEq]
    · rw [hstop, stop] at hleaves
      exact absurd hleaves (Lowering.not_leaves_self s _)
  | @breakpoint n G G' pc retires all step found stop next settled =>
    obtain ⟨fuel, hrun⟩ := Host.run_of_exit hreach found rfl
    rw [settled.putBack_stopped next] at hrun
    refine ⟨fuel, _, hrun, n + 1, .breakpoint, .inl (hcount ▸ all), retires.downcount_step step,
      retires.reports_succ step, ?_⟩
    refine ⟨fun _ => ⟨nofun, nofun⟩, ⟨fun _ => rfl, fun _ => rfl⟩, ⟨nofun, fun hleaves => ?_⟩, nofun⟩
    rw [hstop, stop] at hleaves
    exact absurd hleaves (Lowering.not_leaves_self s _)
  | @trap n G t h' m' op retires bound found perform fails there clock =>
    obtain ⟨fuel, hrun⟩ := Host.run_of_exit hreach found perform
    exact ⟨fuel, _, hrun, n, hcount ▸ bound,
      ⟨G, retires, fails, (Machine.coincides_putBack _ h' m').symm.trans there⟩, clock⟩
  | @broken n G v op retires bound found perform fails =>
    obtain ⟨fuel, hrun⟩ := Host.run_of_broken hreach found perform
    exact ⟨fuel, _, hrun, n, G, retires, fails⟩
  | @stale n G retires bound memory place changed =>
    refine absurd ?_ changed
    rw [← memory, place, ← hstart]
    exact hintact.fetch?_eq hreach hwrap (hcount ▸ bound)

/-- **Lowering a block is correct.**  Wherever the code of a block was appended, let a run begin at
its entry for the dispatcher, with the program counter at its start, the zero register at zero, no
open delay slot, room in the downcount for the instructions of the block, and no modifiers pending
if the block assumes that.  When the run stays off the code of the block it ends, and it ends in the
machine that as many steps of the interpreter lead to as instructions lie on its path; it returned
for what the last of them reported, or in front of a branch that is left to the interpreter.  A run
that faults or breaks a promise does so where a step of the interpreter does. -/
theorem retraces_of_lower (hok : lowerBlock s code = (.ok block, resolved))
    (hrefs : ∀ p l, (p, l) ∈ code.references → p < code.offset) (hwrap : block.Unwrapped)
    (hsize : s.memory.size ≤ 2 ^ 32) (hsmall : block.codeEnd ≤ 2 ^ 32)
    (hpc : m.core.pc = block.start) (hz : m.core.ZeroKept) (hclosed : m.Closed)
    (hroom : Int32.minValue.toInt + block.instructions.toNat ≤ m.core.downcount.toInt)
    (hdefault : block.assumesDefault = true → m.core.hasDefaultModifiers = true)
    (hintact : block.Intact s.memory resolved.words
      ⟨block.normalEntry, Host.startState s.options.downcountInRegister m, m⟩) :
    ∃ fuel result, (∀ more, Host.run s.options.downcountInRegister resolved.words (fuel + more)
      block.normalEntry m = result) ∧ Retraces s block m result := by
  obtain ⟨last, f⟩ := finished_of_ok hok
  have hblock := f.block_eq
  rw [hblock] at hpc hroom hdefault hsmall
  have hsettled : Settled s.options.downcountInRegister
      (Host.startState s.options.downcountInRegister m) m m := by
    rw [Settled, Host.cycles_startState]
    rfl
  obtain ⟨c, hreach, hends⟩ := f.ends (f.way hrefs) hsettled hpc hz hclosed
    (fun hentry => hdefault (decide_eq_true hentry)) (affords_of_room hroom) hsize hsmall
  refine retraces_of_ends f hrefs ?_ hends hwrap hintact
  rw [hblock]
  exact hreach

/-- The run goes on with `memory`, if it does. -/
def Outcome.GoesOnWith (memory : Memory) : Outcome → Prop
  | .next _ m | .jump _ _ m => m.memory = memory
  | _ => True

namespace Operation

variable {op : Operation} {h : HostState} {m : Machine}

/-- The operation may store in memory. -/
def mayStore : Operation → Bool
  | .store _ _ _ _ | .floatStore _ _ _ | .quadStore _ _ _ | .interpret _ => true
  | _ => false

/-- **An operation that may not store** keeps memory. -/
theorem goesOnWith_perform (hop : op.mayStore = false) : (op.perform h m).GoesOnWith m.memory := by
  cases op with
  | store | floatStore | quadStore | interpret => cases hop
  | exitDispatch | exitDispatchReg | exitInterpret | exitSyscall | exitBreak => trivial
  | jumpIf c target =>
    rw [perform]
    split <;> rfl
  | guardModifiers pc =>
    rw [perform]
    split
    · rfl
    · trivial
  | checkEntry inRegister pc =>
    rw [perform_checkEntry]
    split
    · trivial
    · rfl
  | _ => rfl

end Operation

/-- A run whose operations may not store stays off the code of a block. -/
theorem Block.Intact.of_mayStore {compiled : Memory} {c₀ : Host.Cursor}
    (halike : compiled.Alike c₀.machine.memory)
    (hcode : words.all (fun w => (Operation.decode? w).all fun op => !op.mayStore) = true) :
    block.Intact compiled words c₀ where
  base := halike.base
  size := halike.size
  held a _ := halike.read a 1
  kept c c' _ hstep a _ := by
    have hkeeps : ∀ {op}, Host.operationAt? words c.offset = some op →
        (op.perform c.host c.machine).GoesOnWith c.machine.memory := fun {op} hop => by
      obtain ⟨w, hw, hdecode⟩ := Option.bind_eq_some_iff.mp hop
      have hno := Array.all_eq_true'.mp hcode w (Array.mem_of_getElem? hw)
      rw [hdecode] at hno
      exact Operation.goesOnWith_perform ((Bool.not_eq_true' _).mp hno)
    cases hstep with
    | next hop hperform | jump hop hperform =>
      have hmemory := hkeeps hop
      rw [hperform] at hmemory
      exact congrArg (Memory.read8 · a) hmemory

/-- A machine in front of a branch that compares a register with zero.  The instruction in its slot
counts that register up. -/
def branchingMachine : Machine :=
  ⟨Core.start 0x1000,
    (Memory.create 0x1000 8).overlay 0 [0x03, 0x00, 0x20, 0x10, 0x01, 0x00, 0x21, 0x24]⟩

/-- The branch, which begins a block. -/
def branchingSetting : Setting := ⟨branchingMachine.memory, leastSpace, 0x1000, .noModifiers, none⟩

/-- A block and its code for the branch: a run counts the register up and leads to the target. -/
def branches (lowered : Except Failure Block × CodeSpace) : Bool :=
  lowered.1.toOption.any fun b =>
    b.start == 0x1000 && b.stop == 0x1008 && b.codeEnd == 14 && b.instructions == 2 &&
      lowered.2.words.all (fun w => (Operation.decode? w).all fun op => !op.mayStore) &&
      (Host.run true lowered.2.words 12 b.normalEntry branchingMachine).toOption.any fun p =>
        p.1 == .dispatch && p.2.core.pc == 0x1010 && p.2.core.gprs[1] == 1 && p.2.core.downcount == -2

/-- A branch is taken whose slot changes what it compares: two steps of the interpreter lead to its
target, with two cycles charged. -/
theorem retraces_branch : ∃ block resolved m',
    lowerBlock branchingSetting leastRecompiler.cache.code = (.ok block, resolved) ∧
      (∃ fuel, ∀ more, Host.run true resolved.words (fuel + more) block.normalEntry branchingMachine =
        .ok (.dispatch, m')) ∧
      m'.core.pc = 0x1010 ∧ m'.core.gprs[1] = 1 ∧ Machine.Reports 2 branchingMachine .normal m' := by
  have hbranches : branches (lowerBlock branchingSetting leastRecompiler.cache.code) = true := by
    decide +kernel
  obtain ⟨block, hblock, hbranches⟩ := (Option.any_eq_true _ _).mp hbranches
  have hlower : lowerBlock branchingSetting leastRecompiler.cache.code =
      (.ok block, (lowerBlock branchingSetting leastRecompiler.cache.code).2) :=
    Prod.ext (ok_of_toOption hblock) rfl
  simp only [Bool.and_eq_true, beq_iff_eq] at hbranches
  obtain ⟨⟨⟨⟨⟨hstart, hstop⟩, hcodeEnd⟩, hinstructions⟩, hstores⟩, hrun⟩ := hbranches
  obtain ⟨⟨reason, m'⟩, hrun, hends⟩ := (Option.any_eq_true _ _).mp hrun
  simp only [Bool.and_eq_true, beq_iff_eq] at hends
  obtain ⟨⟨⟨rfl, hpc⟩, hreg⟩, hdowncount⟩ := hends
  have hrun := ok_of_toOption hrun
  have hwrap : block.Unwrapped := by
    rw [Block.Unwrapped, hstart, hstop, hinstructions]
    decide
  have hsmall : block.codeEnd ≤ 2 ^ 32 := by
    rw [hcodeEnd]
    decide
  have hroom : Int32.minValue.toInt + block.instructions.toNat ≤
      branchingMachine.core.downcount.toInt := by
    rw [hinstructions]
    decide
  have hpc₀ : branchingMachine.core.pc = block.start := hstart.symm
  obtain ⟨fuel, result, hresult, hretraces⟩ := retraces_of_lower hlower
    (fun _ _ h => absurd h List.not_mem_nil) hwrap (by decide) hsmall hpc₀ rfl ⟨rfl, rfl⟩ hroom
    (fun _ => by decide) (.of_mayStore (.refl _) hstores)
  obtain rfl : .ok (.dispatch, m') = result := by
    rw [← hresult 12, Nat.add_comm]
    exact (Host.run_mono hrun fuel).symm
  obtain ⟨n, event, -, hcharged, hreports, hfor⟩ := hretraces
  obtain rfl : n = 2 := by
    rw [hdowncount] at hcharged
    have hzero : branchingMachine.core.downcount.toInt = 0 := rfl
    have htwo : (-2 : Int32).toInt = -2 := rfl
    omega
  obtain rfl : event = .normal := by
    cases event with
    | normal => rfl
    | syscall request => cases (hfor.syscall request).mpr rfl
    | breakpoint => cases hfor.breakpoint.mpr rfl
  exact ⟨block, _, m', hlower, ⟨fuel, hresult⟩, hpc, hreg, hreports⟩

end Dynarec
