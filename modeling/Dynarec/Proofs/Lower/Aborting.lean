import Dynarec.Proofs.Lower.Allocation
import Dynarec.Proofs.Lower.Shape

/-!
# A lowering that is given up

A lowering can be given up in the middle: when a word did not fit, or when memory does not hold the
first instruction.  By then words were emitted, labels were made and references to them are pending,
and all of that has to go.  `lowerInPlace` lowers a block with one code space that every step
changes, and drops what was written to it when the block is given up; it comes to the same as
`lowerBlock`, which starts again from the code space that it was given (`lowerInPlace_eq`).  What
carries this is that a lowering only appends, even when words are lost (`CodeSpace.Grows`), and that
references are pending only to words that were appended.
-/

namespace Dynarec

namespace CodeSpace

variable {c c' c'' : CodeSpace}

/-! ### Growing -/

/-- **Words are appended**, and references are added to appended words only.  Words may have been
lost at the end of the space. -/
structure Grows (c c' : CodeSpace) : Prop where
  capacity : c'.capacity = c.capacity
  offset_le : c.offset ≤ c'.offset
  word : ∀ p < c.offset, c'.word? p = c.word? p
  references : ∀ p l, (p, l) ∈ c'.references → (p, l) ∈ c.references ∨ c.offset ≤ p

/-- The words and the references are the same. -/
theorem Grows.of_same (hcapacity : c'.capacity = c.capacity) (hwords : c'.words = c.words)
    (hrefs : c'.references = c.references) : c.Grows c' where
  capacity := hcapacity
  offset_le := by rw [offset, offset, hwords]
  word p _ := by rw [word?, word?, hwords]
  references p l hp := .inl (hrefs ▸ hp)

theorem Grows.trans (x : c.Grows c') (y : c'.Grows c'') : c.Grows c'' where
  capacity := y.capacity.trans x.capacity
  offset_le := x.offset_le.trans y.offset_le
  word p hp := (y.word p (hp.trans_le x.offset_le)).trans (x.word p hp)
  references p l hp := (y.references p l hp).elim (x.references p l) fun hle =>
    .inr (x.offset_le.trans hle)

theorem grows_emit (c : CodeSpace) (w : HostWord) : c.Grows (c.emit w) := by
  rw [emit]
  split
  · refine ⟨rfl, (Nat.le_succ _).trans_eq (Array.size_push _).symm, fun p hp => ?_, fun _ _ => .inl⟩
    rw [word?, word?, Array.getElem?_push]
    exact if_neg (Nat.ne_of_lt hp)
  · exact .of_same rfl rfl rfl

theorem grows_emitOps (c : CodeSpace) (ops : List Operation) : c.Grows (c.emitOps ops) := by
  induction ops generalizing c with
  | nil => exact .of_same rfl rfl rfl
  | cons op rest ih => exact (c.grows_emit op.encode).trans (ih (c.emit op.encode))

/-- A reference is pending to the word that was just emitted. -/
theorem grows_emitReference (c : CodeSpace) (w : HostWord) (label : Label) :
    c.Grows (c.emitReference w label) := by
  have x := c.grows_emit w
  have heq : c.emitReference w label = if (c.emit w).overflowed then c.emit w
    else { c.emit w with references := (c.emit w).references ++ [(c.offset, label)] } := rfl
  rw [heq]
  split
  · exact x
  · refine ⟨x.capacity, x.offset_le, x.word, fun p l hp => ?_⟩
    rcases List.mem_append.mp hp with hp | hp
    · exact x.references p l hp
    · cases List.mem_singleton.mp hp
      exact .inr le_rfl

/-- **Filling in references** changes no word but those that are referred to, also when it stops at
a label that is not bound. -/
theorem grows_resolveReferences (c : CodeSpace) {refs : List (Nat × Label)} {n : Nat}
    (hrefs : ∀ p l, (p, l) ∈ refs → n ≤ p) :
    (c.resolveReferences refs).2.capacity = c.capacity ∧
      (c.resolveReferences refs).2.offset = c.offset ∧
      (∀ p < n, (c.resolveReferences refs).2.word? p = c.word? p) ∧
      (c.resolveReferences refs).2.references = c.references := by
  induction refs generalizing c with
  | nil => exact ⟨rfl, rfl, fun _ _ => rfl, rfl⟩
  | cons r rest ih =>
    obtain ⟨position, label⟩ := r
    rw [resolveReferences]
    cases c.labelOffset? label with
    | none => exact ⟨rfl, rfl, fun _ _ => rfl, rfl⟩
    | some target =>
      obtain ⟨hcapacity, hoffset, hword, hrefs'⟩ := ih (c.setImmediate position target) fun p l hp =>
        hrefs p l (List.mem_cons_of_mem _ hp)
      refine ⟨hcapacity, hoffset.trans Array.size_modify, fun p hp => (hword p hp).trans ?_, hrefs'⟩
      have hle := hrefs position label List.mem_cons_self
      rw [word?, getElem?_setImmediate, if_neg (by omega)]
      rfl

/-- **Dropping what was appended** leaves the words that were there. -/
theorem Grows.truncate_eq (x : c.Grows c') : c'.truncate c.offset = c.truncate c.offset := by
  have hwords : c'.words.shrink c.offset = c.words.shrink c.offset := by
    refine Array.ext_getElem? fun p => ?_
    have hword := x.word p
    have hle := x.offset_le
    simp only [word?, offset] at hword hle ⊢
    simp only [Array.shrink_eq_take, Array.take_eq_extract, Array.getElem?_extract,
      Nat.min_eq_left hle, Nat.min_self, Nat.sub_zero, Nat.zero_add]
    split
    · exact hword (by assumption)
    · rfl
  rw [truncate, truncate, hwords, x.capacity]

/-- From a clean code space nothing has to be dropped. -/
theorem Clean.truncate_eq (hclean : c.Clean) : c.truncate c.offset = c := by
  have hwords := words_truncate c
  obtain ⟨words, capacity, overflowed, labels, references⟩ := c
  cases hclean.fits
  cases hclean.references
  cases hclean.labels
  exact congrArg (CodeSpace.mk · capacity false #[] []) hwords

end CodeSpace

namespace Builder

variable {b : Builder} {inRegister : Bool}

theorem grows_leaveBy (x : Leave) : b.code.Grows (b.leaveBy inRegister x).code := by
  have hcode : (b.leaveBy inRegister x).code =
      (b.code.emit (Operation.charge inRegister x.amount).encode).emit x.op.encode := by
    obtain ⟨amount, op⟩ := x
    cases op <;> rfl
  rw [hcode]
  exact (CodeSpace.grows_emit _ _).trans (CodeSpace.grows_emit _ _)

/-- **The end of a block is appended**, with its forward jump. -/
theorem grows_closed (k : Closing) : b.code.Grows (b.closed inRegister k).code := by
  refine (CodeSpace.grows_emitOps b.code k.sketch.front).trans ?_
  rw [closed]
  generalize hfront : onward { b with code := b.code.emitOps k.sketch.front } k.context k.progress = d
  have hcode : d.code = b.code.emitOps k.sketch.front := by rw [← hfront]; rfl
  rw [← hcode]
  cases k.sketch.tail with
  | leave way => exact grows_leaveBy way
  | fork condition slot passed taken =>
    have hlabel : d.code.Grows (Lowering.withLabel d).code := .of_same rfl rfl rfl
    have hjump := hlabel.trans (CodeSpace.grows_emitReference (Lowering.withLabel d).code
      (Operation.jumpIf condition 0).encode d.code.labels.size)
    have hjumped : d.code.Grows (d.jumped condition slot).code :=
      hjump.trans (CodeSpace.grows_emitOps _ slot)
    have hplace : ((d.jumped condition slot).leaveBy inRegister passed).code.Grows
        (Lowering.withPlace ((d.jumped condition slot).leaveBy inRegister passed)
          d.code.labels.size).code := .of_same rfl rfl rfl
    exact ((hjumped.trans (grows_leaveBy passed)).trans hplace).trans (grows_leaveBy taken)

end Builder

namespace Lowering

variable {α : Type} {s : Setting} {b b' : Builder}

/-! ### Steps only append -/

theorem grows_of_straight {act : Lowering α} (hact : Straight s act) {x : α}
    (hok : act s b = .ok (x, b')) : b.code.Grows b'.code := by
  obtain ⟨ops, hemits, -⟩ := hact b x b' hok
  rw [hemits.code]
  exact CodeSpace.grows_emitOps _ ops

theorem grows_of_closes {act : Lowering Unit} {least most : Nat} {stop : Option UInt32}
    (hact : Closes ∅ act least most stop) {x : Unit} (hok : act s b = .ok (x, b')) :
    b.code.Grows b'.code := by
  obtain ⟨plan, hplan, -⟩ := hact
  rw [hplan] at hok
  cases hk : plan b.context b.progress with
  | error e =>
    rw [hk] at hok
    cases hok
  | ok k =>
    rw [hk] at hok
    cases hok
    exact Builder.grows_closed k

/-! ### Lowering in place -/

/-- A step that leaves the builder as it is when it fails.  That is of no account: a step that is
run so never fails (`inPlace_run`). -/
def runInPlace (act : Lowering Unit) (s : Setting) (b : Builder) : Except Failure Unit × Builder :=
  match act s b with
  | .ok (_, b') => (.ok (), b')
  | .error e => (.error e, b)

/-- Go on, unless the lowering was given up. -/
def goOn (r : Except Failure Unit × Builder) (next : Builder → Except Failure Unit × Builder) :
    Except Failure Unit × Builder :=
  match r with
  | (.ok (), b) => next b
  | (.error e, b) => (.error e, b)

/-- **The check behind an instruction.**  When a word did not fit, the lowering is given up; what
was emitted is still there. -/
def checkInPlace (s : Setting) (b : Builder) : Except Failure Unit × Builder :=
  if b.code.overflowed then (.error (.codeSpaceExhausted s.start), b) else (.ok (), b)

/-- What is done for an instruction that does not end a block, in front of the check. -/
def bodyStep (i : Instr) (pc : UInt32) : Lowering Unit := do
  charge
  plain i pc
  moveTo (pc + 4)
  releaseLocks

/-- What is done for the instruction that ends a block, in front of the check. -/
def lastStep (i : Instr) (pc : UInt32) : Lowering Unit := do
  terminator i pc
  releaseLocks

/-- **The instructions from `pc` on**, in place. -/
def instructionsInPlace (s : Setting) :
    (room : Nat) → (pc : UInt32) → Builder → Except Failure Unit × Builder
  | 0, pc, b => runInPlace (endBlock pc) s b
  | room + 1, pc, b =>
    if pc ≠ s.start && endsBefore s b pc then runInPlace (endBlock pc) s b
    else
      match s.memory.fetch? pc with
      | none =>
        if pc = s.start then (.error (.refused s.start .unmappedStart), b)
        else runInPlace (endBlock pc) s b
      | some word =>
        if (Instr.mk word).family.isTerminator then
          if belongsToNext s ⟨word⟩ pc then runInPlace (endBlock pc) s b
          else goOn (runInPlace (lastStep ⟨word⟩ pc) s b) (checkInPlace s)
        else
          goOn (goOn (runInPlace (bodyStep ⟨word⟩ pc) s b) (checkInPlace s))
            (instructionsInPlace s room (pc + 4))

/-- A whole block, in place. -/
def blockInPlace (s : Setting) (code : CodeSpace) : Except Failure Unit × Builder :=
  goOn (runInPlace entries s (Builder.start code s))
    (instructionsInPlace s (room s.memory) s.start)

/-! ### It comes to the same -/

/-- **How a lowering in place has ended**: as the lowering does, and with a builder whose code was
appended to, whether it was given up or not. -/
structure InPlace (s : Setting) (act : Lowering Unit) (b : Builder)
    (r : Except Failure Unit × Builder) : Prop where
  same : act s b = r.1.map fun u => (u, r.2)
  grows : b.code.Grows r.2.code
  failure : ∀ e, r.1 = .error e →
    e = .codeSpaceExhausted s.start ∨ e = .refused s.start .unmappedStart

theorem InPlace.of_eq {act act' : Lowering Unit} {r : Except Failure Unit × Builder}
    (heq : act s b = act' s b) (x : InPlace s act' b r) : InPlace s act b r :=
  ⟨heq.trans x.same, x.grows, x.failure⟩

/-- **One step in place after another.** -/
theorem inPlace_bind {act rest : Lowering Unit} {r : Except Failure Unit × Builder}
    {next : Builder → Except Failure Unit × Builder} (x : InPlace s act b r)
    (hrest : ∀ b', act s b = .ok ((), b') → InPlace s rest b' (next b')) :
    InPlace s (act >>= fun _ => rest) b (goOn r next) := by
  have hrun : (act >>= fun _ => rest) s b = (act s b >>= fun p => rest s p.2) := rfl
  obtain ⟨result, b'⟩ := r
  cases result with
  | error e =>
    have hfail : act s b = .error e := x.same
    exact ⟨by rw [hrun, hfail]; rfl, x.grows, x.failure⟩
  | ok u =>
    have hok : act s b = .ok ((), b') := x.same
    have y := hrest b' hok
    exact ⟨by rw [hrun, hok]; exact y.same, x.grows.trans y.grows, y.failure⟩

/-- **A step that finds its registers does not fail.** -/
theorem inPlace_run {act : Lowering Unit} {d : Pool → Nat} (hact : Takes s act d)
    (hd : d ≤ Pool.size) (hb : b.taken = 0)
    (hgrows : ∀ b', act s b = .ok ((), b') → b.code.Grows b'.code) :
    InPlace s act b (runInPlace act s b) := by
  obtain ⟨-, _, b', hok, -⟩ := hact b (by rw [hb, zero_add]; exact hd)
  rw [runInPlace, hok]
  exact ⟨hok, hgrows b' hok, nofun⟩

theorem inPlace_endBlock (pc : UInt32) (hb : b.taken = 0) :
    InPlace s (endBlock pc) b (runInPlace (endBlock pc) s b) :=
  inPlace_run (takes_endBlock pc) zero_le hb fun _ => grows_of_closes (closes_endBlock pc)

theorem inPlace_check (s : Setting) (b : Builder) : InPlace s checkSpace b (checkInPlace s b) := by
  have hcheck : checkSpace s b =
      if b.code.overflowed then .error (.codeSpaceExhausted s.start) else .ok ((), b) :=
    checkSpace_eq s b
  rw [checkInPlace]
  split
  · rename_i hov
    refine ⟨hcheck.trans (if_pos hov), .of_same rfl rfl rfl, fun e he => ?_⟩
    cases he
    exact .inl rfl
  · rename_i hov
    exact ⟨hcheck.trans (if_neg hov), .of_same rfl rfl rfl, nofun⟩

theorem inPlace_bodyInstruction (i : Instr) (pc : UInt32) (hb : b.taken = 0) :
    InPlace s (bodyInstruction i pc) b
      (goOn (runInPlace (bodyStep i pc) s b) (checkInPlace s)) := by
  have heq : bodyInstruction i pc = bodyStep i pc >>= fun _ => checkSpace := by
    simp only [bodyInstruction, bodyStep, bind_assoc]
  have htakes : Takes s (bodyStep i pc) Pool.demand :=
    takes_bind_zero takes_charge fun _ => takes_bind_last (takes_plain i pc) fun _ =>
      takes_bind_zero (takes_moveTo _) fun _ => takes_releaseLocks
  rw [heq]
  refine inPlace_bind (inPlace_run htakes Pool.demand_le_size hb fun b' hok => ?_) fun b' _ =>
    inPlace_check s b'
  obtain ⟨_, b₁, hcharge, hok⟩ := bind_eq_ok hok
  cases hcharge
  obtain ⟨_, b₂, hplain, hok⟩ := bind_eq_ok hok
  have x := grows_of_straight (straight_plain i pc) hplain
  cases hok
  exact x

theorem inPlace_lastInstruction (i : Instr) (pc : UInt32) (hb : b.taken = 0) :
    InPlace s (lastInstruction i pc) b
      (goOn (runInPlace (lastStep i pc) s b) (checkInPlace s)) := by
  have heq : lastInstruction i pc = lastStep i pc >>= fun _ => checkSpace := by
    simp only [lastInstruction, lastStep, bind_assoc]
  have htakes : Takes s (lastStep i pc) branchDemand :=
    takes_bind_last (takes_terminator i pc) fun _ => takes_releaseLocks
  rw [heq]
  refine inPlace_bind (inPlace_run htakes branchDemand_le_size hb fun b' hok => ?_) fun b' _ =>
    inPlace_check s b'
  obtain ⟨_, b₁, hterminator, hok⟩ := bind_eq_ok hok
  rw [terminator_eq] at hterminator
  have x := grows_of_closes (closes_terminatorWith _ i pc) hterminator
  cases hok
  exact x

/-- **The instructions of a block in place**, by induction on how many memory holds. -/
theorem inPlace_instructions (room : Nat) (pc : UInt32) (hb : b.taken = 0) :
    InPlace s (instructions room pc) b (instructionsInPlace s room pc b) := by
  induction room generalizing pc b with
  | zero => exact inPlace_endBlock pc hb
  | succ room ih =>
    have hend := inPlace_endBlock (s := s) pc hb
    refine InPlace.of_eq (instructions_succ_eq room pc) ?_
    rw [instructionsInPlace]
    split
    · exact hend
    · unfold instructionsAt
      cases s.memory.fetch? pc with
      | none =>
        dsimp only
        split
        · exact ⟨rfl, .of_same rfl rfl rfl, fun e he => .inr (Except.error.inj he).symm⟩
        · exact hend
      | some word =>
        dsimp only
        split
        · split
          · exact hend
          · exact inPlace_lastInstruction _ pc hb
        · exact inPlace_bind (inPlace_bodyInstruction _ pc hb) fun b' hok =>
            ih (pc + 4) ((sustains_bodyInstruction _ pc b hb).2 () b' hok)

/-- **A whole block in place.** -/
theorem inPlace_block (s : Setting) (code : CodeSpace) :
    InPlace s block (Builder.start code s) (blockInPlace s code) := by
  have hfree := Builder.taken_start code s
  have hentered : code.Grows (Builder.entered s code).code := code.grows_emit _
  have hentries : ∀ b', entries s (Builder.start code s) = .ok ((), b') → code.Grows b'.code := by
    intro b' hok
    have heq : entries s (Builder.start code s) = guardEntry s s (Builder.entered s code) := rfl
    rw [heq, guardEntry] at hok
    split at hok
    · cases hok
      exact hentered.trans (CodeSpace.grows_emit _ _)
    · cases hok
      exact hentered
  refine inPlace_bind (inPlace_run takes_entries zero_le hfree hentries) fun b' hok => ?_
  have hfree' := (sustains_of_takes takes_entries _ hfree).2 () b' hok
  have hread : (do
      let setting ← read
      instructions (room setting.memory) setting.start : Lowering Unit) s b' =
    instructions (room s.memory) s.start s b' := rfl
  exact InPlace.of_eq hread (inPlace_instructions (room s.memory) s.start hfree')

end Lowering

open Lowering

/-! ### The end of a lowering -/

/-- Fill in the forward jumps of a finished lowering in place.  When that fails, or a word did not
fit, everything that was appended to the space it was started in is dropped. -/
def Builder.closeInPlace (b : Builder) (s : Setting) (code : CodeSpace) :
    Except Failure Block × CodeSpace :=
  if b.code.overflowed then (.error (.codeSpaceExhausted s.start), b.code.truncate code.offset)
  else
    match b.code.resolve with
    | (.ok _, resolved) => (.ok (b.toBlock s code), resolved)
    | (.error _, resolved) => (.error (.refused s.start .unboundLabel), resolved.truncate code.offset)

/-- **Lower the block at an address in place.**  When it is given up, everything from the offset on
at which it began is dropped, and all labels and references. -/
def lowerInPlace (s : Setting) (code : CodeSpace) : Except Failure Block × CodeSpace :=
  match blockInPlace s code with
  | (.error e, b) => (.error e, b.code.truncate code.offset)
  | (.ok (), b) => b.closeInPlace s code

variable {s : Setting} {code : CodeSpace} {b : Builder}

/-- **Resolving only changes appended words**, whether it succeeds or not. -/
theorem CodeSpace.Grows.resolve {c c' : CodeSpace} (hclean : c.Clean) (x : c.Grows c') :
    c.Grows c'.resolve.2 := by
  have hpending : ∀ p l, (p, l) ∈ c'.references → c.offset ≤ p := fun p l hp =>
    (x.references p l hp).resolve_left (by rw [hclean.references]; exact List.not_mem_nil)
  obtain ⟨hcapacity, hoffset, hword, hrefs⟩ :=
    CodeSpace.grows_resolveReferences { c' with references := [] } hpending
  refine ⟨hcapacity.trans x.capacity, x.offset_le.trans_eq hoffset.symm,
    fun p hp => (hword p hp).trans (x.word p hp), fun p l hp => ?_⟩
  rw [CodeSpace.resolve, hrefs] at hp
  cases hp

theorem closeInPlace_eq (hclean : code.Clean) (x : code.Grows b.code) :
    b.closeInPlace s code = match b.close s code with
      | .error e => (.error e, code.truncate code.offset)
      | .ok (block, resolved) => (.ok block, resolved) := by
  have hresolved := (x.resolve hclean).truncate_eq
  rw [Builder.closeInPlace, Builder.close]
  split
  · exact congrArg (Prod.mk _) x.truncate_eq
  · generalize b.code.resolve = r at hresolved ⊢
    obtain ⟨outcome, resolved⟩ := r
    cases outcome with
    | error l => exact congrArg (Prod.mk _) hresolved
    | ok u => rfl

/-- **Lowering in place comes to the same** as lowering and starting again from the old code space. -/
theorem lowerInPlace_eq (hclean : code.Clean) : lowerInPlace s code = lowerBlock s code := by
  obtain ⟨hsame, hgrows, -⟩ := inPlace_block s code
  have hrun : block.run s (Builder.start code s) = block s (Builder.start code s) := rfl
  rw [lowerInPlace, lowerBlock, hrun, hsame]
  generalize blockInPlace s code = r at hgrows ⊢
  obtain ⟨result, b⟩ := r
  cases result with
  | error e => exact congrArg (Prod.mk _) hgrows.truncate_eq
  | ok u => exact closeInPlace_eq hclean hgrows

/-- **Whatever the result is**, the words that were there are still there. -/
theorem grows_lowerInPlace (s : Setting) (hclean : code.Clean) :
    code.Grows (lowerInPlace s code).2 := by
  have hgrows : code.Grows (blockInPlace s code).2.code := (inPlace_block s code).grows
  have hdropped : ∀ {c : CodeSpace}, code.Grows c → code.Grows (c.truncate code.offset) := fun x => by
    rw [x.truncate_eq, hclean.truncate_eq]
    exact .of_same rfl rfl rfl
  rw [lowerInPlace]
  generalize blockInPlace s code = r at hgrows ⊢
  obtain ⟨result, b⟩ := r
  cases result with
  | error e => exact hdropped hgrows
  | ok u =>
    have hresolved := CodeSpace.Grows.resolve hclean hgrows
    show code.Grows (b.closeInPlace s code).2
    rw [Builder.closeInPlace]
    split
    · exact hdropped hgrows
    · generalize b.code.resolve = r at hresolved ⊢
      obtain ⟨outcome, resolved⟩ := r
      cases outcome with
      | error l => exact hdropped hresolved
      | ok u => exact hresolved

/-- **A lowering only appends, and one that is given up leaves nothing behind.**  The code space is
changed in place, word by word, and the lowering may be given up behind any of them.  Starting from
a clean code space, no word that was there is changed.  A lowering that fails leaves the code space
that it was given, so that the next one finds no trace of it; one that succeeds leaves no references
and no lost words, and the block lies between the old and the new offset. -/
theorem lowerInPlace_appends (s : Setting) (code : CodeSpace) (hclean : code.Clean) :
    lowerInPlace s code = lowerBlock s code ∧
    (∀ p < code.offset, (lowerInPlace s code).2.word? p = code.word? p) ∧
    (∀ e space, lowerInPlace s code = (.error e, space) →
      space = code ∧ ∀ s', lowerInPlace s' space = lowerInPlace s' code) ∧
    ∀ block space, lowerInPlace s code = (.ok block, space) →
      space.references = [] ∧ space.labels = #[] ∧ space.overflowed = false ∧
      space.capacity = code.capacity ∧ code.offset ≤ space.offset ∧
      block.codeStart = code.offset ∧ block.codeEnd = space.offset := by
  have hsame := lowerInPlace_eq (s := s) hclean
  have hgrows := grows_lowerInPlace s hclean
  refine ⟨hsame, hgrows.word, fun e space hfail => ?_, fun block space hok => ?_⟩
  · have hspace : space = code :=
      (truncate_of_lowerBlock (hsame.symm.trans hfail)).trans hclean.truncate_eq
    rw [hspace]
    exact ⟨rfl, fun _ => rfl⟩
  · rw [hok] at hgrows
    obtain ⟨last, f⟩ := finished_of_ok (hsame.symm.trans hok)
    obtain ⟨hcapacity, hfits, hrefs, hlabels⟩ := f.space
    refine ⟨hrefs, hlabels, hfits, hcapacity, hgrows.offset_le, ?_, ?_⟩
    · rw [f.block_eq]
      rfl
    · rw [f.block_eq]
      exact (CodeSpace.resolve_same f.resolve).1.symm

/-- Memory with a branch on two equal registers, and an empty delay slot. -/
def forkMemory : Memory :=
  { Memory.create 0x1000 8 with bytes := ⟨#[0x01, 0x00, 0x22, 0x10, 0x00, 0x00, 0x00, 0x00]⟩ }

/-- The block of that branch. -/
def forkSetting : Setting := ⟨forkMemory, {}, 0x1000, .anyModifiers, none⟩

/-- A code space with one word, and room for six more. -/
def narrowSpace : CodeSpace := ⟨#[Operation.nop.encode], 7, false, #[], []⟩

/-- The branch is given up between its forward jump and the label, when seven words were written and
a reference is pending; the code space is as it was before. -/
theorem lowerInPlace_appends_tight :
    ((blockInPlace forkSetting narrowSpace).2.code.offset = 7 ∧
      (blockInPlace forkSetting narrowSpace).2.code.references = [(5, 0)]) ∧
    lowerInPlace forkSetting narrowSpace = (.error (.codeSpaceExhausted 0x1000), narrowSpace) := by
  obtain ⟨-, -, hfail, -⟩ := lowerInPlace_appends forkSetting narrowSpace ⟨rfl, rfl, rfl⟩
  refine ⟨by decide +kernel, ?_⟩
  have hresult : (match (lowerInPlace forkSetting narrowSpace).1 with
    | .error e => decide (e = .codeSpaceExhausted 0x1000)
    | _ => false) = true := by decide +kernel
  cases hlower : lowerInPlace forkSetting narrowSpace with
  | mk result space =>
    rw [hlower] at hresult
    cases result with
    | error e =>
      cases of_decide_eq_true hresult
      rw [(hfail _ space hlower).1]
    | ok block => cases hresult

end Dynarec
