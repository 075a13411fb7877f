import Dynarec.Proofs.Lower.Extend
import Dynarec.Proofs.Lower.Reserve

/-!
# The code of a whole block

Lowering a block follows a plan that looks at the guest memory, at the bounds of the block and at
how much code fits, but neither at where the downcount is kept nor at whether blocks are linked
(`shape_lowerBlock`).  What is appended to the code space is a checked entry, perhaps a guard, and
the code of one sketch.
-/

namespace Dynarec

/-- **Two settings that compile the same instructions**: they differ at most in where the downcount
is kept, in whether blocks are linked, and in the sizes of caches. -/
structure Setting.Twin (s s' : Setting) : Prop where
  same : s' = { s with options := s'.options }
  most : s'.options.maxBlockInstructions = s.options.maxBlockInstructions

theorem Setting.Twin.refl (s : Setting) : s.Twin s := ⟨rfl, rfl⟩

/-- **Most instructions of a block in front of the last one.**  The first one is always taken. -/
def Options.blockLength (options : Options) : Nat := Nat.max options.maxBlockInstructions.toNat 1

theorem Options.blockLength_lt (options : Options) : options.blockLength < 2 ^ 32 :=
  Nat.max_lt.mpr ⟨options.maxBlockInstructions.toNat_lt, by decide⟩

/-- **The instructions from `pc` up to `stop`** are in memory, the delay slot of the last perhaps
apart.  There is one at least. -/
inductive Memory.Covers (m : Memory) : UInt32 → UInt32 → Prop
  | last {pc word stop : UInt32} (fetched : m.fetch? pc = some word)
      (next : stop = pc + 4 ∨ stop = pc + 8) : Covers m pc stop
  | step {pc word stop : UInt32} (fetched : m.fetch? pc = some word) (rest : Covers m (pc + 4) stop) :
      Covers m pc stop

namespace Lowering

variable {s s' : Setting} {pc : UInt32} {least most top : Nat}

/-- The end of a block that has come to `pc`. -/
def EndsAt (s : Setting) (pc stop : UInt32) : Prop :=
  s.memory.Covers pc stop ∨ pc ≠ s.start ∧ stop = pc

/-- A failure that the block at an address may be refused with. -/
def Refuses (start : UInt32) (e : Failure) : Prop :=
  e.IsExhaustion ∨ e = .codeSpaceExhausted start ∨ e = .refused start .unmappedStart

/-- What the rest of a block keeps to, if the cells `G` are set in front of it. -/
structure Shaped (s : Setting) (G : Set HostCell) (pc : UInt32) (p : Progress) (least most top : Nat)
    (k : Closing) : Prop where
  sketch : k.sketch.Neat G
  charges : k.sketch.tail.Charges p.count least most
  pays : k.sketch.tail.Pays k.progress.count
  /-- With no more than `top` instructions in front, the bound on instructions is kept. -/
  within : p.count.toNat ≤ top →
    k.sketch.tail.Charges p.count 0 (s.options.blockLength + 1 - p.count.toNat)
  stop : EndsAt s pc k.progress.pc

/-- What a plan for the rest of a block keeps to. -/
def KeepsShape (s : Setting) (G : Set HostCell) (pc : UInt32) (p : Progress) (least most top : Nat) :
    Except Failure Closing → Prop
  | .error e => Refuses s.start e
  | .ok k => Shaped s G pc p least most top k

/-- **The rest of a block** from `pc` on follows a plan, the same one in all settings that compile
the same instructions. -/
def Shapes (s : Setting) (act : Lowering Unit) (pc : UInt32) (least most top : Nat) : Prop :=
  ∃ plan : Context → Progress → Room → Except Failure Closing,
    (∀ s', s.Twin s' → ∀ b, act s' b = (plan b.context b.progress b.code.room).map fun k =>
      ((), b.closed s'.options.downcountInRegister k)) ∧
    ∀ c p r G, c.cells ⊆ G → KeepsShape s G pc p least most top (plan c p r)

theorem Shapes.mono {act : Lowering Unit} {least' most' : Nat} (x : Shapes s act pc least most top)
    (hleast : least' ≤ least) (hmost : most ≤ most') : Shapes s act pc least' most' top := by
  obtain ⟨plan, hplan, hkeeps⟩ := x
  refine ⟨plan, hplan, fun c p r G hc => ?_⟩
  have hk := hkeeps c p r G hc
  revert hk
  cases plan c p r with
  | error e => exact id
  | ok k => exact fun hk => ⟨hk.sketch, hk.charges.mono hleast hmost, hk.pays, hk.within, hk.stop⟩

/-- **A block that ends here.** -/
theorem shapes_of_closes {act : Lowering Unit} {stop : UInt32}
    (hact : Closes ∅ act least most (some stop)) (hstop : EndsAt s pc stop)
    (hwithin : most + top ≤ s.options.blockLength + 1) : Shapes s act pc least most top := by
  obtain ⟨plan, hplan, hkeeps⟩ := hact
  refine ⟨fun c p _ => plan c p, fun s' _ b => hplan s' b, fun c p _ G hc => ?_⟩
  have hk := hkeeps c p G (Set.empty_subset G) hc
  revert hk
  dsimp only
  cases plan c p with
  | error e => exact fun he => .inl he
  | ok k => exact fun hk => ⟨hk.sketch, hk.charges, hk.pays,
      fun _ => hk.charges.mono (Nat.zero_le _) (by omega), hk.stop ▸ hstop⟩

/-- The registers of the caches are unlocked. -/
def unlocked (c : Context) : Context :=
  { c with scalars := c.scalars.releaseLocks, elements := c.elements.releaseLocks }

theorem checkSpace_eq (s : Setting) (b : Builder) : checkSpace s b =
    if b.code.room.overflowed then .error (.codeSpaceExhausted s.start) else .ok ((), b) := by
  have heq : checkSpace s b = (if b.code.overflowed then (do
      let setting ← read
      throw (.codeSpaceExhausted setting.start)) else pure () : Lowering Unit) s b := rfl
  rw [heq, CodeSpace.room]
  split <;> rfl

/-- **The instruction that ends a block**, with the check that its code fitted. -/
theorem shapes_lastInstruction {i : Instr} {word : UInt32} (hfetch : s.memory.fetch? pc = some word) :
    Shapes s (lastInstruction i pc) pc 1 2 (s.options.blockLength - 1) := by
  obtain ⟨plan, hplan, hkeeps⟩ := closes_terminatorWith (delaySlot? s.memory pc) i pc
  refine ⟨fun c p r => plan c p >>= fun k =>
    if (r.after k.sketch.size).overflowed then .error (.codeSpaceExhausted s.start)
    else .ok { k with context := unlocked k.context }, fun s' htwin b => ?_, fun c p r G hc => ?_⟩
  · have hbind : lastInstruction i pc s' b = (terminator i pc s' b >>= fun q =>
        checkSpace s' (q.2.onward (unlocked q.2.context) q.2.progress)) := rfl
    have hmemory : s'.memory = s.memory := by rw [htwin.same]
    have hstart : s'.start = s.start := by rw [htwin.same]
    rw [hbind, terminator_eq, hmemory, hplan s' b]
    dsimp only
    cases plan b.context b.progress with
    | error e => rfl
    | ok k =>
      show checkSpace s' ((b.closed s'.options.downcountInRegister k).onward (unlocked
        (b.closed s'.options.downcountInRegister k).context)
        (b.closed s'.options.downcountInRegister k).progress) = (if _ then _ else _ : Except _ _).map _
      rw [Builder.context_closed, Builder.progress_closed, Builder.onward_closed, checkSpace_eq,
        Builder.room_closed, hstart]
      dsimp only
      split <;> rfl
  · have hk := hkeeps c p G (Set.empty_subset G) hc
    dsimp only
    revert hk
    cases plan c p with
    | error e => exact fun he => .inl he
    | ok k =>
      intro hk
      show KeepsShape s G pc p 1 2 _ (if _ then _ else _)
      split
      · exact .inr (.inl rfl)
      · have hone : 1 ≤ s.options.blockLength := Nat.le_max_right _ _
        exact ⟨hk.sketch, hk.charges, hk.pays,
          fun _ => hk.charges.mono (Nat.zero_le _) (by omega),
          .inl (.last hfetch (hk.stop ▸ terminatorStop_eq_or i pc))⟩

theorem cells_unlocked (c : Context) : (unlocked c).cells = c.cells := by
  simp only [unlocked, Context.cells, ScalarCache.cells, ElementCache.cells,
    ScalarCache.releaseLocks, ElementCache.releaseLocks]
  rw [SlotArena.cells_congr (a := c.scalars.arena) fun j => by simp,
    SlotArena.cells_congr (a := c.elements.floats) fun j => by simp,
    SlotArena.cells_congr (a := c.elements.quads) fun j => by simp]

/-- **An instruction that does not end the block**, and the rest of the block. -/
theorem shapes_bodyInstruction {i : Instr} {word : UInt32} {rest : Lowering Unit}
    (hfetch : s.memory.fetch? pc = some word) (hrest : Shapes s rest (pc + 4) 0 most (top + 1))
    (htop : top + 1 ≤ s.options.blockLength) :
    Shapes s (bodyInstruction i pc >>= fun _ => rest) pc 1 (most + 1) top := by
  obtain ⟨work, hwork, hkeepsWork⟩ := tameRule_plain i pc
  obtain ⟨plan, hplan, hkeeps⟩ := hrest
  refine ⟨fun c p r => work c >>= fun w =>
    if (r.after w.code.length).overflowed then .error (.codeSpaceExhausted s.start)
    else (plan (unlocked w.context) ⟨pc + 4, p.count + 1⟩ (r.after w.code.length)).map
      (·.prepend w.code), fun s' htwin b => ?_, fun c p r G hc => ?_⟩
  · have hbind : (bodyInstruction i pc >>= fun _ => rest) s' b =
        (plain i pc s' { b with progress := b.progress.charge } >>= fun q =>
          checkSpace s' (q.2.onward (unlocked q.2.context) ⟨pc + 4, q.2.progress.count⟩)) >>=
            fun q => rest s' q.2 := rfl
    have hstart : s'.start = s.start := by rw [htwin.same]
    rw [hbind, hwork s']
    show ((work b.context).map _ >>= _) >>= _ = _
    dsimp only
    cases work b.context with
    | error e => rfl
    | ok w =>
      show (checkSpace s' ((b.apply w).onward (unlocked w.context) ⟨pc + 4, b.progress.count + 1⟩)
        >>= fun q => rest s' q.2) = (if _ then _ else _ : Except _ _).map _
      rw [checkSpace_eq, hstart]
      show ((if (CodeSpace.room (b.code.emitOps w.code)).overflowed then _ else _ : Except _ _) >>= _) =
        _
      rw [CodeSpace.room_emitOps]
      split
      · rfl
      · show rest s' _ = _
        rw [hplan s' htwin]
        show (plan (unlocked w.context) ⟨pc + 4, b.progress.count + 1⟩
          (CodeSpace.room (b.code.emitOps w.code))).map _ = ((plan _ _ _).map _).map _
        rw [CodeSpace.room_emitOps]
        cases plan (unlocked w.context) ⟨pc + 4, b.progress.count + 1⟩
          (b.code.room.after w.code.length) with
        | error e => rfl
        | ok k => exact congrArg (fun b => Except.ok ((), b)) (b.closed_apply _ w k)
  · have hw := hkeepsWork c G (Set.empty_subset G) (hc.trans Set.subset_union_left)
    dsimp only
    revert hw
    cases work c with
    | error e => exact fun he => .inl he
    | ok w =>
      rintro ⟨-, htidy⟩
      show KeepsShape s G pc p 1 (most + 1) top (if _ then _ else _)
      split
      · exact .inr (.inl rfl)
      · have hk := hkeeps (unlocked w.context) ⟨pc + 4, p.count + 1⟩ (r.after w.code.length)
          (G ∪ Host.allWrites w.code) (by
            rw [cells_unlocked]
            simpa using Set.subset_union_right.trans htidy.covers)
        revert hk
        cases plan (unlocked w.context) ⟨pc + 4, p.count + 1⟩ (r.after w.code.length) with
        | error e => exact id
        | ok k =>
          refine fun hk => ⟨hk.sketch.prepend htidy.inline htidy.quiet htidy.inScope subset_rfl,
            Tail.Charges.shift 1 hk.charges, hk.pays, fun hcount => ?_, .inl ?_⟩
          · have hlength := s.options.blockLength_lt
            have hnext : (p.count + 1).toNat = p.count.toNat + 1 := by
              rw [UInt32.toNat_add, Nat.mod_eq_of_lt (by simpa using by omega)]
              rfl
            have hwithin := hk.within (by rw [hnext]; omega)
            rw [hnext] at hwithin
            exact (Tail.Charges.shift 1 hwithin).mono (Nat.zero_le _) (by omega)
          · rcases hk.stop with hcovers | ⟨-, hstop⟩
            · exact .step hfetch hcovers
            · exact .last hfetch (.inl hstop)

/-- A block has to end in front of `pc`. -/
def mustEnd (s : Setting) (pc : UInt32) (p : Progress) (r : Room) : Bool :=
  pc ≠ s.start &&
    (p.count ≥ s.options.maxBlockInstructions || s.limit = some pc || r.left < reserve)

theorem instructions_eq (s : Setting) (room : Nat) (pc : UInt32) (b : Builder) :
    instructions (room + 1) pc s b =
      if mustEnd s pc b.progress b.code.room then endBlock pc s b
      else instructionsAt s room pc s b := by
  have heq : instructions (room + 1) pc s b =
      (if mustEnd s pc b.progress b.code.room then endBlock pc
      else instructionsAt s room pc : Lowering Unit) s b := rfl
  rw [heq]
  split <;> rfl

theorem mustEnd_twin (h : s.Twin s') (pc : UInt32) (p : Progress) (r : Room) :
    mustEnd s' pc p r = mustEnd s pc p r := by
  rw [mustEnd, mustEnd, h.most, h.same]

theorem instructionsAt_twin (h : s.Twin s') (room : Nat) (pc : UInt32) :
    instructionsAt s' room pc = instructionsAt s room pc := by
  rw [h.same]
  rfl

/-- The instructions in front of `pc` that a block may have: none at its start. -/
def topAt (s : Setting) (pc : UInt32) : Nat := if pc = s.start then 0 else s.options.blockLength

theorem topAt_le (s : Setting) (pc : UInt32) : topAt s pc ≤ s.options.blockLength := by
  rw [topAt]
  split
  · exact Nat.zero_le _
  · exact le_rfl

/-- A block that has not to end in front of `pc` has room for one more instruction. -/
theorem count_lt_of_not_mustEnd {p : Progress} {r : Room} (hmust : ¬ mustEnd s pc p r = true)
    (hcount : p.count.toNat ≤ topAt s pc) : p.count.toNat ≤ s.options.blockLength - 1 := by
  have hlength : s.options.maxBlockInstructions.toNat ≤ s.options.blockLength := Nat.le_max_left _ _
  rw [topAt] at hcount
  split at hcount
  · omega
  · rename_i hne
    rw [mustEnd, decide_eq_true hne, Bool.true_and, Bool.or_eq_true, Bool.or_eq_true, not_or, not_or,
      decide_eq_true_eq] at hmust
    have hlt := UInt32.lt_iff_toNat_lt.mp (UInt32.not_le.mp hmust.1.1)
    omega

/-- The rest of a block that may end in front of `pc`. -/
theorem shapes_instructions_succ {room : Nat} {least : Nat} (hleast : pc ≠ s.start → least = 0)
    (hat : Shapes s (instructionsAt s room pc) pc least most (s.options.blockLength - 1)) :
    Shapes s (instructions (room + 1) pc) pc least most (topAt s pc) := by
  obtain ⟨plan, hplan, hkeeps⟩ := hat
  obtain ⟨planEnd, hplanEnd, hkeepsEnd⟩ := closes_endBlock pc
  refine ⟨fun c p r => if mustEnd s pc p r then planEnd c p else plan c p r,
    fun s' htwin b => ?_, fun c p r G hc => ?_⟩
  · rw [instructions_eq, mustEnd_twin htwin, instructionsAt_twin htwin]
    dsimp only
    split
    · exact hplanEnd s' b
    · exact hplan s' htwin b
  · dsimp only
    split
    · rename_i hmust
      rw [mustEnd, Bool.and_eq_true] at hmust
      have hne := of_decide_eq_true hmust.1
      have hk := hkeepsEnd c p G (Set.empty_subset G) hc
      revert hk
      cases planEnd c p with
      | error e => exact fun he => .inl he
      | ok k =>
        exact fun hk => ⟨hk.sketch, hk.charges.mono (hleast hne).le (Nat.zero_le _), hk.pays,
          fun _ => hk.charges.mono le_rfl (Nat.zero_le _), .inr ⟨hne, hk.stop⟩⟩
    · rename_i hmust
      have hk := hkeeps c p r G hc
      revert hk
      cases plan c p r with
      | error e => exact id
      | ok k => exact fun hk => ⟨hk.sketch, hk.charges, hk.pays,
          fun hcount => hk.within (count_lt_of_not_mustEnd hmust hcount), hk.stop⟩

/-- A block that ends behind its start. -/
theorem shapes_endBlock (hpc : Behind s.memory s.start pc) (most : Nat)
    (htop : top ≤ s.options.blockLength) :
    Shapes s (endBlock pc) pc (if pc = s.start then 1 else 0) most top := by
  rw [if_neg hpc.ne]
  exact (shapes_of_closes (closes_endBlock pc) (.inr ⟨hpc.ne, rfl⟩) (by omega)).mono le_rfl
    (Nat.zero_le _)

/-- **The instructions of a block.**  Behind the first one every way out is charged for something. -/
theorem shapes_instructions (hsize : s.memory.size < 2 ^ 32) {room : Nat}
    (hpc : pc = s.start ∧ 0 < room ∨ Behind s.memory s.start pc) :
    Shapes s (instructions room pc) pc (if pc = s.start then 1 else 0) (room + 1) (topAt s pc) := by
  have hone : 1 ≤ s.options.blockLength := Nat.le_max_right _ _
  induction room generalizing pc with
  | zero =>
    exact shapes_endBlock (hpc.resolve_left fun h => absurd h.2 (Nat.lt_irrefl 0)) _ (topAt_le s pc)
  | succ room ih =>
    have hbehind : pc ≠ s.start → Behind s.memory s.start pc := fun hne =>
      hpc.resolve_left fun h => hne h.1
    refine shapes_instructions_succ (fun hne => if_neg hne) ?_
    unfold instructionsAt
    cases hfetch : s.memory.fetch? pc with
    | none =>
      dsimp only
      by_cases hstart : pc = s.start
      · rw [if_pos hstart]
        exact ⟨fun _ _ _ => .error (.refused s.start .unmappedStart), fun s' htwin b => rfl,
          fun _ _ _ _ _ => .inr (.inr rfl)⟩
      · rw [if_neg (c := pc = s.start) hstart]
        exact shapes_endBlock (hbehind hstart) _ (Nat.sub_le _ _)
    | some word =>
      have hnext : Behind s.memory s.start (pc + 4) :=
        behind_next hsize hfetch (hpc.imp And.left id)
      dsimp only
      split
      · split
        · rename_i hbelongs
          rw [belongsToNext, Bool.and_eq_true, Bool.and_eq_true] at hbelongs
          exact shapes_endBlock (hbehind (of_decide_eq_true hbelongs.1.2)) _ (Nat.sub_le _ _)
        · exact (shapes_lastInstruction hfetch).mono (by split <;> decide) (by omega)
      · have hrest := ih (.inr hnext)
        rw [if_neg hnext.ne, topAt, if_neg hnext.ne, ← Nat.sub_add_cancel hone] at hrest
        exact (shapes_bodyInstruction hfetch hrest (Nat.sub_add_cancel hone).le).mono
          (by split <;> decide) le_rfl

end Lowering

/-! ### Whole blocks -/

/-- The code of the entries of a block. -/
def Setting.entries (s : Setting) : List Operation :=
  .checkEntry s.options.downcountInRegister s.start ::
    if s.entry = .noModifiers then [.guardModifiers s.start] else []

/-- **The code of a block** that starts at an offset. -/
def Setting.code (s : Setting) (base : Nat) (k : Sketch) : List Operation :=
  s.entries ++ k.ops s.options.downcountInRegister (base + s.entries.length)

/-- **The block** whose code starts at an offset. -/
def Closing.toBlock (k : Closing) (s : Setting) (base : Nat) : Block where
  start := s.start
  stop := k.progress.pc
  checkedEntry := base
  normalEntry := base + 1
  codeStart := base
  codeEnd := base + s.entries.length + k.sketch.size
  exits := (k.sketch.exits (base + s.entries.length)).toArray
  assumesDefault := s.entry = .noModifiers
  instructions := k.progress.count

namespace Lowering

/-- What lowering a block leaves, when it follows a plan. -/
def lowered (s : Setting) (code : CodeSpace) :
    Except Failure Closing → Except Failure Block × CodeSpace
  | .error e => (.error e, code.truncate code.offset)
  | .ok k => (.ok (k.toBlock s code.offset), code.extend (s.code code.offset k.sketch))

/-- The caches at the start of a block. -/
def startContext (s : Setting) : Context :=
  ⟨ScalarCache.empty, ElementCache.empty, ModifierTracker.start s.entry⟩

theorem cells_startContext (s : Setting) : (startContext s).cells = ∅ := by
  simp only [startContext, Context.cells, ScalarCache.cells, ElementCache.cells]
  rw [SlotArena.cells_eq_empty fun j => by rw [ScalarCache.empty, SlotArena.guest_empty],
    SlotArena.cells_eq_empty fun j => by rw [ElementCache.empty, SlotArena.guest_empty],
    SlotArena.cells_eq_empty fun j => by rw [ElementCache.empty, SlotArena.guest_empty]]
  simp

theorem block_eq (s : Setting) (code : CodeSpace) :
    block s (Builder.start code s) = instructions (room s.memory) s.start s
      { Builder.start code s with code := code.emitOps s.entries } := by
  have heq : block s (Builder.start code s) = (guardEntry s s (Builder.entered s code) >>= fun q =>
      instructions (room s.memory) s.start s q.2) := rfl
  rw [heq, guardEntry, Setting.entries]
  split <;> rfl

/-- The lowering of a block behind its entries. -/
def entriesDone (s : Setting) (code : CodeSpace) : Builder :=
  { Builder.start code s with code := code.emitOps s.entries }

/-- **A finished lowering is written down**, if every word fitted. -/
theorem close_closed {s : Setting} {code : CodeSpace} (hclean : code.Clean) (k : Closing) :
    ((entriesDone s code).closed s.options.downcountInRegister k).close s code =
      if (code.room.after (s.entries.length + k.sketch.size)).overflowed then
        .error (.codeSpaceExhausted s.start)
      else .ok (k.toBlock s code.offset, code.extend (s.code code.offset k.sketch)) := by
  have hroom : ((entriesDone s code).closed s.options.downcountInRegister k).code.room =
      code.room.after (s.entries.length + k.sketch.size) := by
    rw [Builder.room_closed]
    show (code.emitOps s.entries).room.after _ = _
    rw [CodeSpace.room_emitOps, Room.after_after]
  rw [← hroom, Builder.close]
  show (if _ then _ else _) = (if ((entriesDone s code).closed _ k).code.overflowed then _ else _)
  cases hov : ((entriesDone s code).closed s.options.downcountInRegister k).code.overflowed with
  | true => rfl
  | false =>
    rw [if_neg (by decide), if_neg (by decide)]
    obtain ⟨hentries, hresolve, hexits⟩ := Builder.resolve_closed
      ((CodeSpace.references_emitOps code s.entries).trans hclean.references)
      ((labels_emitOps code s.entries).trans hclean.labels) hov
    have hcode : (entriesDone s code).code = code.extend s.entries :=
      (CodeSpace.emitOps_eq_extend hentries).2
    have hoffset : (entriesDone s code).code.offset = code.offset + s.entries.length := by
      rw [hcode, CodeSpace.offset_extend]
    rw [hoffset, hcode, CodeSpace.extend_extend] at hresolve
    have hend : ((entriesDone s code).closed s.options.downcountInRegister k).code.offset =
        code.offset + s.entries.length + k.sketch.size := by
      refine (CodeSpace.resolve_same hresolve).1.symm.trans ?_
      refine (CodeSpace.offset_extend code _).trans ?_
      rw [List.length_append, Sketch.length_ops, Nat.add_assoc]
    have hblock : ((entriesDone s code).closed s.options.downcountInRegister k).toBlock s code =
        k.toBlock s code.offset := by
      rw [Builder.toBlock, Closing.toBlock, Builder.progress_closed, hend, hexits, hoffset]
      exact congrArg (Block.mk _ _ _ _ _ _ · _ _ _ _) (Array.empty_append)
    rw [hresolve]
    exact congrArg (fun b => Except.ok (b, _)) hblock

/-- **Lowering a block follows a plan**: it looks at how much code fits, and at nothing in which two
settings differ that compile the same instructions.  A block whose code fits is appended as a whole. -/
theorem shape_lowerBlock (s : Setting) (hsize : s.memory.size < 2 ^ 32) :
    ∃ plan : Room → Except Failure Closing,
      (∀ s', s.Twin s' → ∀ code : CodeSpace, code.Clean →
        lowerBlock s' code = lowered s' code (plan code.room)) ∧
      (∀ r, KeepsShape s ∅ s.start (Progress.start s.start) 1 (room s.memory + 1) 0 (plan r)) ∧
      ∀ r k, plan r = .ok k → s.entries.length + k.sketch.size ≤ r.left := by
  have hshapes : Shapes s (instructions (room s.memory) s.start) s.start _ _ _ :=
    shapes_instructions hsize (.inl ⟨rfl, Nat.succ_pos _⟩)
  obtain ⟨plan, hplan, hkeeps⟩ := hshapes
  rw [if_pos rfl, topAt, if_pos rfl] at hkeeps
  refine ⟨fun r => plan (startContext s) (Progress.start s.start) (r.after s.entries.length) >>=
    fun k => if (r.after (s.entries.length + k.sketch.size)).overflowed then
      .error (.codeSpaceExhausted s.start) else .ok k, fun s' htwin code hclean => ?_, fun r => ?_,
    fun r k hk => ?_⟩
  · have hlength : s'.entries.length = s.entries.length := by
      rw [htwin.same, Setting.entries, Setting.entries, List.length_cons, List.length_cons]
    have hrun : block.run s' (Builder.start code s') = (plan (startContext s)
        (Progress.start s.start) (code.room.after s.entries.length)).map fun k => ((),
          Builder.closed s'.options.downcountInRegister (entriesDone s' code) k) := by
      have hblock : block.run s' (Builder.start code s') = block s' (Builder.start code s') := rfl
      have hmemory : s'.memory = s.memory := by rw [htwin.same]
      have hstart : s'.start = s.start := by rw [htwin.same]
      have hcontext : startContext s' = startContext s := by
        rw [startContext, startContext, htwin.same]
      rw [hblock, block_eq, hmemory, hstart, hplan s' htwin]
      show (plan (startContext s') (Progress.start s'.start) (CodeSpace.room _)).map _ = _
      rw [CodeSpace.room_emitOps, hcontext, hlength, hstart]
      rfl
    have hstart : s'.start = s.start := by rw [htwin.same]
    rw [lowerBlock, hrun]
    dsimp only
    cases plan (startContext s) (Progress.start s.start) (code.room.after s.entries.length) with
    | error e => rfl
    | ok k =>
      show _ = lowered s' code (if _ then _ else _)
      dsimp only [Except.map]
      rw [close_closed hclean, hlength, hstart]
      by_cases hov : (code.room.after (s.entries.length + k.sketch.size)).overflowed = true
      · rw [if_pos hov, if_pos hov]
        rfl
      · rw [if_neg hov, if_neg hov]
        rfl
  · have hk := hkeeps (startContext s) (Progress.start s.start) (r.after s.entries.length) ∅
      (cells_startContext s).subset
    dsimp only
    revert hk
    cases plan (startContext s) (Progress.start s.start) (r.after s.entries.length) with
    | error e => exact id
    | ok k =>
      intro hk
      show KeepsShape s ∅ s.start _ 1 _ 0 (if _ then _ else _)
      split
      · exact .inr (.inl rfl)
      · exact hk
  · dsimp only at hk
    revert hk
    cases plan (startContext s) (Progress.start s.start) (r.after s.entries.length) with
    | error e => exact fun h => by cases h
    | ok k' =>
      intro hk
      have hk : (if (r.after (s.entries.length + k'.sketch.size)).overflowed then
        .error (.codeSpaceExhausted s.start) else .ok k' : Except Failure Closing) = .ok k := hk
      split at hk
      · cases hk
      · rename_i hfits
        cases hk
        rw [Room.after, Bool.or_eq_true, not_or, decide_eq_true_eq] at hfits
        exact Nat.le_of_not_lt hfits.2

end Lowering

end Dynarec
