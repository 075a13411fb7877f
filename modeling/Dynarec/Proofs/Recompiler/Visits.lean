import Dynarec.Proofs.Recompiler.Native

/-!
# Visits of a block

`Piece.visit` says what a block does behind the test at its entry, to a machine that has the
downcount in its core: it runs through the sketch of the block and leaves.  Neither links nor host
registers occur in it.  A run of host code that stands behind the entry of the block does the same,
wherever the downcount is kept and whatever the host registers hold: it hands back as the visit
ends, or it goes on at the entry of another block where the visit leaves for the dispatcher
(`Piece.visit_of_run`).
-/

namespace Dynarec

open Host

/-! ### What a block does -/

/-- A way through a tail. -/
def Tail.visit : Tail → HostState → Machine → Outcome
  | .leave way, h, m => runOps (way.ops false) h m
  | .fork condition slot passed taken, h, m =>
    if h.holds condition then runOps (taken.ops false) h m
    else runOps (slot ++ passed.ops false) h m

/-- Go on behind an outcome, if it goes on. -/
def Outcome.andThen : Outcome → (HostState → Machine → Outcome) → Outcome
  | .next h m, rest => rest h m
  | outcome, _ => outcome

/-- A way through a sketch. -/
def Sketch.visit (k : Sketch) (h : HostState) (m : Machine) : Outcome :=
  (runOps k.front h m).andThen k.tail.visit

/-- The guard behind the test at the entry, if there is one. -/
def Setting.guard (s : Setting) : List Operation := s.entries.tail

/-- **What a block does** behind the test at its entry, with the downcount in the core. -/
def Piece.visit (x : Piece) (m : Machine) : Outcome :=
  (runOps x.setting.guard HostState.start m).andThen x.sketch.visit

theorem runOps_append_eq (xs ys : List Operation) (h : HostState) (m : Machine) :
    runOps (xs ++ ys) h m = (runOps xs h m).andThen (runOps ys) := by
  rw [runOps_append]
  cases runOps xs h m <;> rfl

/-! ### Runs that do the same -/

variable {inRegister : Bool} {cells : Set HostCell} {h₀ h : HostState} {m₀ m : Machine}

/-- **A run matches another one** that has the downcount in its core: the machines differ at most in
the program counter and in where the downcount is, and the hosts agree on some cells. -/
structure Matches (inRegister : Bool) (cells : Set HostCell) (h₀ : HostState) (m₀ : Machine)
    (h : HostState) (m : Machine) : Prop where
  hosts : h₀.AgreeOn cells h
  machines : m₀.AlikeOn cells m
  clock : cycles inRegister h m = m₀.core.downcount

namespace Matches

/-- At the start of a visit nothing is known about the host. -/
theorem anyHost (x : Matches inRegister cells h₀ m₀ h m) (h₀' : HostState) :
    Matches inRegister ∅ h₀' m₀ h m where
  hosts := fun _ hc => hc.elim
  machines := x.machines.mono (Set.empty_subset _)
  clock := x.clock

theorem start (inRegister : Bool) (h₀ : HostState) (m : Machine) :
    Matches inRegister ∅ h₀ m (startState inRegister m) m where
  hosts := fun _ hc => hc.elim
  machines := .refl _ m
  clock := cycles_startState inRegister m

/-- What both cores hold. -/
theorem core_eq (x : Matches inRegister cells h₀ m₀ h m) :
    m.core = { m₀.core with pc := m.core.pc, downcount := m.core.downcount } :=
  congrArg Machine.core x.machines.1

theorem memory_eq (x : Matches inRegister cells h₀ m₀ h m) : m.memory = m₀.memory := by
  rw [x.machines.1]
  rfl

theorem eventPending_eq (x : Matches inRegister cells h₀ m₀ h m) :
    m.eventPending = m₀.eventPending := by
  rw [Machine.eventPending, x.memory_eq, x.core_eq]
  rfl

end Matches

/-- **An outcome follows another one** of a run with the downcount in its core.  An exit leaves the
same machine once the downcount is put back. -/
def Outcome.Tracks (inRegister : Bool) (cells : Set HostCell) : Outcome → Outcome → Prop
  | .next h₀ m₀, .next h m => Matches inRegister cells h₀ m₀ h m
  | .exit reason _ m₀, .exit reason' h m => reason' = reason ∧ putBack inRegister h m = m₀
  | .broken v, .broken v' => v = v'
  | _, _ => False

/-- An exit of a machine that matches at the same program counter. -/
theorem putBack_eq (halike : m₀.AlikeOn Set.univ m)
    (hclock : cycles inRegister h m = m₀.core.downcount) : putBack inRegister h m = m₀ := by
  have hpc : m.core.pc = m₀.core.pc := halike.2 trivial
  have hm : m.at m.core.pc m₀.core.downcount = m₀.at m.core.pc m₀.core.downcount := by
    conv_lhs => rw [halike.1]
    rfl
  rw [putBack, hclock, hm, hpc]
  rfl

/-- **Straight code that leaves the downcount alone** does the same in runs that match. -/
theorem tracks_runOps {ops : List Operation} (hinline : AllInline ops) (hquiet : ∀ op ∈ ops, op.Quiet)
    (hscope : Scoped cells ops) (x : Matches inRegister cells h₀ m₀ h m) :
    (runOps ops h₀ m₀).Tracks inRegister (cells ∪ allWrites ops) (runOps ops h m) := by
  have hagree := agree_runOps hinline hscope x.hosts x.machines
  have hkeep₀ := keepsClock_runOps (fun op hop => ⟨hinline op hop, hquiet op hop⟩) h₀ m₀
  have hkeep := keepsClock_runOps (fun op hop => ⟨hinline op hop, hquiet op hop⟩) h m
  have hclock : ∀ {h₁ m₁ h₂ m₂}, KeepsClock h₀ m₀ (.next h₁ m₁) → KeepsClock h m (.next h₂ m₂) →
      cycles inRegister h₂ m₂ = m₁.core.downcount := by
    intro h₁ m₁ h₂ m₂ hfirst hsecond
    rw [hfirst.2, ← x.clock, cycles, cycles, hsecond.1, hsecond.2]
  cases hx : runOps ops h₀ m₀ <;> cases hy : runOps ops h m <;> rw [hx, hy] at hagree <;>
    rw [hx] at hkeep₀ <;> rw [hy] at hkeep
  case next.next => exact ⟨hagree.1, hagree.2, hclock hkeep₀ hkeep⟩
  case exit.exit => exact ⟨hagree.1.symm, putBack_eq hagree.2 (hclock hkeep₀ hkeep)⟩
  case broken.broken => exact hagree
  all_goals exact hagree.elim

/-! ### Ways out -/

/-- **A charge lowers both downcounts.** -/
theorem Matches.charge (x : Matches inRegister cells h₀ m₀ h m)
    (hno : .reg HostReg.downcount ∉ cells) (amount : UInt32) :
    ∃ h' m' m₀', (Operation.subDowncount amount).perform h₀ m₀ = .next h₀ m₀' ∧
      (Operation.charge inRegister amount).perform h m = .next h' m' ∧
      Matches inRegister cells h₀ m₀' h' m' := by
  have halike : ∀ {d : Int32}, Machine.AlikeOn cells (m₀.at m₀.core.pc d) m := by
    intro d
    exact ⟨x.machines.1, x.machines.2⟩
  cases inRegister with
  | false =>
    refine ⟨h, _, _, rfl, rfl, x.hosts, ⟨?_, x.machines.2⟩, congrArg (· - amount.toInt32) x.clock⟩
    show Machine.mk { m.core with downcount := _ } m.memory = _
    rw [x.core_eq, x.memory_eq]
    rfl
  | true =>
    refine ⟨h.set HostReg.downcount (h.get HostReg.downcount - amount), m, _, rfl, rfl,
      fun c hc => ?_, halike, ?_⟩
    · cases c with
      | reg r =>
        show h₀.get r = (h.set _ _).get r
        rw [HostState.get_set, if_neg fun heq => hno (by rw [heq]; exact hc)]
        exact x.hosts.reg hc
      | guestPc => trivial
      | floatReg f => exact x.hosts.float hc
      | quadReg q => exact x.hosts.quad hc
      | flags => exact x.hosts.flags hc
      | savedFlags => exact x.hosts.savedFlags hc
    · rw [cycles, if_pos rfl, HostState.get_set, if_pos rfl, UInt32.toInt32_sub]
      exact congrArg (· - amount.toInt32) x.clock

/-- **An operation that leaves** does so in both runs. -/
theorem Matches.leave {op : Operation} (x : Matches inRegister cells h₀ m₀ h m) (hfinal : op.Final)
    (hreads : op.reads ⊆ cells) : ∃ reason m₀', op.perform h₀ m₀ = .exit reason h₀ m₀' ∧
      (op.perform h₀ m₀).Tracks inRegister cells (op.perform h m) := by
  -- both machines get the same program counter
  have hexit : ∀ pc : UInt32, putBack inRegister h ⟨{ m.core with pc := pc }, m.memory⟩ =
      ⟨{ m₀.core with pc := pc }, m₀.memory⟩ := by
    intro pc
    rw [x.memory_eq]
    refine putBack_eq ⟨?_, fun _ => rfl⟩ x.clock
    rw [x.core_eq]
    rfl
  cases op with
  | exitDispatch pc => exact ⟨_, _, rfl, rfl, hexit pc⟩
  | exitInterpret pc => exact ⟨_, _, rfl, rfl, hexit pc⟩
  | exitSyscall code pc => exact ⟨_, _, rfl, rfl, hexit pc⟩
  | exitDispatchReg rs =>
    refine ⟨_, _, rfl, rfl, ?_⟩
    have hsame : h₀.get rs = h.get rs := x.hosts.reg (hreads rfl)
    rw [hsame]
    exact hexit (h.get rs)
  | exitBreak pc =>
    refine ⟨_, _, rfl, rfl, ?_⟩
    refine putBack_eq ⟨?_, fun _ => rfl⟩ x.clock
    show Machine.mk _ m.memory = _
    rw [x.memory_eq, x.core_eq]
    rfl
  | _ => exact hfinal.elim

/-! ### Blocks in host code -/

/-- **The code of a piece stands in host code**, in which an exit may be a jump to an entry for its
target. -/
def Piece.Woven (code : Array HostWord) (entries : Set (UInt32 × Nat)) (x : Piece) : Prop :=
  ∀ i op, x.ops[i]? = some op → operationAt? code (x.base + i) = some op ∨
    ∃ p ∈ entries, op = .exitDispatch p.1 ∧
      operationAt? code (x.base + i) = some (.jump (UInt32.ofNat p.2))

/-- **How a run with a result leaves a block** whose visit ended for a reason: it hands back, or it
goes on at an entry for the program counter. -/
inductive LeavesAs (inRegister : Bool) (code : Array HostWord) (entries : Set (UInt32 × Nat))
    (fuel : Nat) (result : ExitReason × HostState × Machine) (m₀ : Machine) : ExitReason → Prop
  | back (same : putBack inRegister result.2.1 result.2.2 = m₀) :
      LeavesAs inRegister code entries fuel result m₀ result.1
  | onward {fuel' base : Nat} {h : HostState} {m : Machine} (less : fuel' < fuel)
      (mem : (m₀.core.pc, base) ∈ entries) (same : Matches inRegister ∅ HostState.start m₀ h m)
      (run : runCursor code fuel' ⟨base, h, m⟩ = .ok result) :
      LeavesAs inRegister code entries fuel result m₀ .dispatch

/-- **A visit that a run with a result leaves.** -/
def Outcome.LeftBy (inRegister : Bool) (code : Array HostWord) (entries : Set (UInt32 × Nat))
    (fuel : Nat) (result : ExitReason × HostState × Machine) : Outcome → Prop
  | .exit reason _ m₀ => LeavesAs inRegister code entries fuel result m₀ reason
  | _ => False

variable {code : Array HostWord} {entries : Set (UInt32 × Nat)} {fuel fuel' : Nat}
  {result : ExitReason × HostState × Machine} {x : Piece}

theorem LeavesAs.mono {reason : ExitReason}
    (hleaves : LeavesAs inRegister code entries fuel result m₀ reason)
    (hle : fuel ≤ fuel') : LeavesAs inRegister code entries fuel' result m₀ reason := by
  cases hleaves with
  | back same => exact .back same
  | onward less mem same run => exact .onward (Nat.lt_of_lt_of_le less hle) mem same run

theorem Outcome.LeftBy.mono {outcome : Outcome}
    (hleft : outcome.LeftBy inRegister code entries fuel result)
    (hle : fuel ≤ fuel') : outcome.LeftBy inRegister code entries fuel' result := by
  cases outcome with
  | exit reason h₀ m₀ => exact LeavesAs.mono hleft hle
  | next h₀ m₀ => exact hleft.elim
  | jump target h₀ m₀ => exact hleft.elim
  | broken v => exact hleft.elim

namespace Piece

/-- Operations that are no exits stand in the code as they are. -/
theorem Woven.laid (hwoven : x.Woven code entries) {n : Nat} {ops : List Operation}
    (hat : ∀ i op, ops[i]? = some op → x.ops[n + i]? = some op)
    (hops : ∀ op ∈ ops, ∀ t, op ≠ .exitDispatch t) : Laid code (x.base + n) ops := by
  intro i op hop
  rcases hwoven (n + i) op (hat i op hop) with hword | ⟨p, -, heq, -⟩
  · rw [Nat.add_assoc]
    exact hword
  · exact absurd heq (hops op (List.mem_of_getElem? hop) p.1)

theorem ne_exitDispatch_of_inline {ops : List Operation} (hops : AllInline ops) :
    ∀ op ∈ ops, ∀ t, op ≠ .exitDispatch t := by
  intro op hop t heq
  have hinline := hops op hop
  rw [heq] at hinline
  exact hinline

/-- **A run that stands in front of a way out.** -/
theorem leave_of_run (hwoven : x.Woven code entries)
    (hentries : ∀ p ∈ entries, (UInt32.ofNat p.2).toNat = p.2) {n : Nat} {way : Leave}
    (hat : ∀ j, j < 2 → x.ops[n + j]? = (way.ops inRegister)[j]?) (hway : way.Neat cells)
    (hno : .reg HostReg.downcount ∉ cells) (hm : Matches inRegister cells h₀ m₀ h m)
    (hrun : runCursor code fuel ⟨x.base + n, h, m⟩ = .ok result) :
    (runOps (way.ops false) h₀ m₀).LeftBy inRegister code entries fuel result := by
  -- the charge
  have hcharge : operationAt? code (x.base + n) = some (.charge inRegister way.amount) := by
    rcases hwoven n _ (hat 0 (by decide)) with hword | ⟨p, -, heq, -⟩
    · exact hword
    · cases inRegister <;> cases heq
  obtain ⟨h', m', m₀', hperform₀, hperform, hm'⟩ := hm.charge hno way.amount
  obtain ⟨fuel₁, hless₁, hrun₁⟩ := follows_of_operationAt? hcharge hrun
  rw [hperform] at hrun₁
  have hops : way.ops false = .subDowncount way.amount :: [way.op] := rfl
  rw [hops, runOps_cons_next hperform₀]
  -- the operation that leaves
  obtain ⟨reason, m₁, hleave, htracks⟩ := hm'.leave hway.final hway.reads
  have hone : runOps [way.op] h₀ m₀' = .exit reason h₀ m₁ := by
    rw [runOps, hleave]
  rw [hone]
  rw [hleave] at htracks
  rcases hwoven (n + 1) _ (hat 1 (by decide)) with hword | ⟨p, hp, heq, hword⟩
  · obtain ⟨fuel₂, hless₂, hrun₂⟩ := follows_of_operationAt? hword hrun₁
    cases hout : way.op.perform h' m' with
    | exit reason' h₂ m₂ =>
      rw [hout] at htracks hrun₂
      obtain ⟨rfl, hback⟩ := htracks
      have hresult : result = (reason', h₂, m₂) := hrun₂
      rw [hresult]
      exact .back hback
    | next h₂ m₂ =>
      rw [hout] at htracks
      exact htracks.elim
    | jump target h₂ m₂ =>
      rw [hout] at htracks
      exact htracks.elim
    | broken v =>
      rw [hout] at htracks
      exact htracks.elim
  · obtain ⟨fuel₂, hless₂, hrun₂⟩ := follows_of_operationAt? hword hrun₁
    have hjump : runCursor code fuel₂ ⟨(UInt32.ofNat p.2).toNat, h', m'⟩ = .ok result := hrun₂
    rw [hentries p hp] at hjump
    rw [heq] at hleave
    cases hleave
    exact .onward (Nat.lt_trans hless₂ hless₁) hp
      ⟨fun _ hc => hc.elim, ⟨hm'.machines.1, fun hc => hc.elim⟩, hm'.clock⟩ hjump

/-- **A run that stands in front of a stretch of code**, which does the same as in the visit. -/
theorem stretch_of_run {offset : Nat} {ops : List Operation} {rest : HostState → Machine → Outcome}
    (hlaid : Laid code offset ops)
    (htracks : (runOps ops h₀ m₀).Tracks inRegister cells (runOps ops h m))
    (hrun : runCursor code fuel ⟨offset, h, m⟩ = .ok result)
    (hrest : ∀ fuel' h₀' m₀' h' m', Matches inRegister cells h₀' m₀' h' m' →
      runCursor code fuel' ⟨offset + ops.length, h', m'⟩ = .ok result →
        (rest h₀' m₀').LeftBy inRegister code entries fuel' result) :
    ((runOps ops h₀ m₀).andThen rest).LeftBy inRegister code entries fuel result := by
  obtain ⟨fuel', hle, hfollows⟩ := hlaid.follows hrun
  cases hx : runOps ops h₀ m₀ <;> cases hy : runOps ops h m <;> rw [hx, hy] at htracks <;>
    rw [hy] at hfollows
  case next.next => exact (hrest fuel' _ _ _ _ htracks hfollows).mono hle
  case exit.exit reason h₁ m₁ reason' h₂ m₂ =>
    obtain ⟨rfl, hback⟩ := htracks
    have hresult : result = (reason', h₂, m₂) := hfollows
    rw [hresult]
    exact .back hback
  case broken.broken => exact hfollows.elim
  all_goals exact htracks.elim

/-- Straight code that leaves the downcount alone does not set its register. -/
theorem downcount_not_mem_allWrites {ops : List Operation} (hquiet : ∀ op ∈ ops, op.Quiet) :
    .reg HostReg.downcount ∉ allWrites ops := by
  rintro ⟨op, hop, hmem⟩
  exact (hquiet op hop).1 hmem

/-- **A run that stands in front of a tail.** -/
theorem tail_of_run (hwoven : x.Woven code entries)
    (hentries : ∀ p ∈ entries, (UInt32.ofNat p.2).toNat = p.2) (hsize : code.size ≤ 2 ^ 32) {n : Nat}
    {tail : Tail} (hat : ∀ i, x.ops[n + i]? = (tail.ops inRegister (x.base + n))[i]?)
    (htail : tail.Neat cells) (hno : .reg HostReg.downcount ∉ cells)
    (hm : Matches inRegister cells h₀ m₀ h m)
    (hrun : runCursor code fuel ⟨x.base + n, h, m⟩ = .ok result) :
    (tail.visit h₀ m₀).LeftBy inRegister code entries fuel result := by
  cases tail with
  | leave way => exact leave_of_run hwoven hentries (fun j _ => hat j) htail hno hm hrun
  | fork condition slot passed taken =>
    obtain ⟨hflags, hinline, hquiet, hscope, hpassed, htaken⟩ := htail
    -- where the parts of the fork stand
    have hslot : ∀ i, x.ops[n + 1 + i]? =
        (slot ++ passed.ops inRegister ++ taken.ops inRegister)[i]? := by
      intro i
      rw [Nat.add_assoc, Nat.add_comm 1 i, hat, Tail.ops, List.getElem?_cons_succ]
    have hpassedAt : ∀ j, j < 2 → x.ops[n + 1 + slot.length + j]? = (passed.ops inRegister)[j]? := by
      intro j hj
      rw [Nat.add_assoc (n + 1), hslot, List.append_assoc,
        List.getElem?_append_right (Nat.le_add_right _ _), Nat.add_sub_cancel_left,
        List.getElem?_append_left hj]
    have htakenAt : ∀ j, j < 2 → x.ops[n + (slot.length + 3) + j]? = (taken.ops inRegister)[j]? := by
      intro j hj
      have hplace : n + (slot.length + 3) + j =
          n + 1 + ((slot ++ passed.ops inRegister).length + j) := by
        rw [List.length_append, Leave.length_ops]
        omega
      rw [hplace, hslot, List.getElem?_append_right (Nat.le_add_right _ _), Nat.add_sub_cancel_left]
    -- the jump
    have hjump : operationAt? code (x.base + n) =
        some (.jumpIf condition (UInt32.ofNat (x.base + n + slot.length + 3))) := by
      rcases hwoven n _ (hat 0) with hword | ⟨p, -, heq, -⟩
      · exact hword
      · cases heq
    obtain ⟨fuel₁, hless, hfollows⟩ := follows_of_operationAt? hjump hrun
    have hholds : h.holds condition = h₀.holds condition := by
      rw [HostState.holds, HostState.holds, hm.hosts.flags hflags]
    have hperform : (Operation.jumpIf condition
        (UInt32.ofNat (x.base + n + slot.length + 3))).perform h m =
          if h₀.holds condition then .jump (UInt32.ofNat (x.base + n + slot.length + 3)).toNat h m
          else .next h m := by
      rw [← hholds]
      rfl
    rw [hperform] at hfollows
    rw [Tail.visit]
    by_cases hcondition : h₀.holds condition = true
    · rw [if_pos hcondition] at hfollows ⊢
      have hthere : operationAt? code (x.base + (n + (slot.length + 3))) =
          some (.charge inRegister taken.amount) := by
        rcases hwoven _ _ (htakenAt 0 (by decide)) with hword | ⟨p, -, heq, -⟩
        · exact hword
        · cases inRegister <;> cases heq
      have htarget : (UInt32.ofNat (x.base + n + slot.length + 3)).toNat =
          x.base + (n + (slot.length + 3)) := by
        have hlt := Fabric.lt_size hthere
        rw [UInt32.toNat_ofNat_of_lt' (Nat.lt_of_lt_of_le (by omega) hsize)]
        omega
      have hrun₁ : runCursor code fuel₁
          ⟨(UInt32.ofNat (x.base + n + slot.length + 3)).toNat, h, m⟩ = .ok result := hfollows
      rw [htarget] at hrun₁
      exact (leave_of_run hwoven hentries htakenAt htaken hno hm hrun₁).mono (Nat.le_of_lt hless)
    · rw [if_neg hcondition] at hfollows ⊢
      have hrun₁ : runCursor code fuel₁ ⟨x.base + (n + 1), h, m⟩ = .ok result := hfollows
      have hlaid : Laid code (x.base + (n + 1)) slot := by
        refine hwoven.laid (fun i op hop => ?_) (ne_exitDispatch_of_inline hinline)
        have hlt := (List.getElem?_eq_some_iff.mp hop).1
        rw [hslot, List.append_assoc, List.getElem?_append_left hlt, hop]
      rw [runOps_append_eq]
      refine (stretch_of_run hlaid (tracks_runOps hinline hquiet hscope hm) hrun₁ ?_).mono
        (Nat.le_of_lt hless)
      intro fuel₂ h₀' m₀' h' m' hm' hrun₂
      rw [Nat.add_assoc] at hrun₂
      refine leave_of_run hwoven hentries hpassedAt hpassed (fun hmem => ?_) hm' hrun₂
      exact hmem.elim hno (downcount_not_mem_allWrites hquiet)

/-- The guard lets the same machines pass. -/
theorem tracks_guard (x : Piece) (hm : Matches inRegister ∅ h₀ m₀ h m) :
    (runOps x.setting.guard h₀ m₀).Tracks inRegister ∅ (runOps x.setting.guard h m) := by
  have hguard : x.setting.guard =
      if x.setting.entry = .noModifiers then [.guardModifiers x.setting.start] else [] := rfl
  have hsame : m.core.hasDefaultModifiers = m₀.core.hasDefaultModifiers := by
    rw [hm.core_eq]
    rfl
  have hperform : ∀ h m, runOps [.guardModifiers x.setting.start] h m =
      if m.core.hasDefaultModifiers then .next h m
      else .exit (.modifierMismatch x.setting.start) h
        ⟨{ m.core with pc := x.setting.start }, m.memory⟩ := by
    intro h m
    have hone : (Operation.guardModifiers x.setting.start).perform h m =
      if m.core.hasDefaultModifiers then .next h m
      else .exit (.modifierMismatch x.setting.start) h
        ⟨{ m.core with pc := x.setting.start }, m.memory⟩ := rfl
    rw [runOps, hone]
    cases m.core.hasDefaultModifiers <;> rfl
  rw [hguard]
  split
  · rw [hperform, hperform, hsame]
    split
    · exact hm
    · refine ⟨rfl, putBack_eq ⟨?_, fun _ => rfl⟩ hm.clock⟩
      rw [hm.core_eq, hm.memory_eq]
      rfl
  · exact hm

/-- **A run that stands behind the entry of a block does what the block does.** -/
theorem visit_of_run (hwoven : x.Woven code entries)
    (hentries : ∀ p ∈ entries, (UInt32.ofNat p.2).toNat = p.2) (hsize : code.size ≤ 2 ^ 32)
    (hneat : x.sketch.Neat ∅) (hregister : x.setting.options.downcountInRegister = inRegister)
    (hm : Matches inRegister ∅ h₀ m₀ h m)
    (hrun : runCursor code fuel ⟨x.base + 1, h, m⟩ = .ok result) :
    (x.visit m₀).LeftBy inRegister code entries fuel result := by
  have hlength : x.setting.entries.length = 1 + x.setting.guard.length := Nat.add_comm _ 1
  have hguard : Laid code (x.base + 1) x.setting.guard := by
    refine hwoven.laid (fun i op hop => ?_) (fun op hop t heq => ?_)
    · rw [ops, Setting.code, List.getElem?_append_left, Nat.add_comm]
      · exact hop
      · have hlt := (List.getElem?_eq_some_iff.mp hop).1
        omega
    · rw [heq, Setting.guard, Setting.entries, List.tail_cons] at hop
      split at hop
      · cases List.mem_singleton.mp hop
      · cases hop
  refine stretch_of_run hguard (tracks_guard x (hm.anyHost HostState.start)) hrun ?_
  intro fuel₁ h₁ m₁ h' m' hm₁ hrun₁
  rw [Nat.add_assoc, ← hlength] at hrun₁
  have hfront : Laid code (x.base + x.setting.entries.length) x.sketch.front := by
    refine hwoven.laid (fun i op hop => ?_) (ne_exitDispatch_of_inline hneat.inline)
    rw [ops, Setting.getElem?_code_front (List.getElem?_eq_some_iff.mp hop).1]
    exact hop
  refine stretch_of_run hfront (tracks_runOps hneat.inline hneat.quiet hneat.inScope hm₁) hrun₁ ?_
  intro fuel₂ h₂ m₂ h'' m'' hm₂ hrun₂
  rw [Nat.add_assoc] at hrun₂
  refine tail_of_run hwoven hentries hsize (fun i => ?_) hneat.tail (fun hmem => ?_) hm₂ hrun₂
  · rw [ops, Setting.getElem?_code_tail, hregister, Nat.add_assoc]
  · exact hmem.elim (fun hc => hc.elim) (downcount_not_mem_allWrites hneat.quiet)

end Piece

end Dynarec
