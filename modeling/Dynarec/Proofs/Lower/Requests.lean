import Dynarec.Proofs.Lower.Placement

/-!
# The operations of a block are those that were asked for

A word that is an operation is the word of an operation whose fields fit, and so is every word that
the lowering of a block appends (`roundTrip_of_encode`).  The code of a request to the system is the
only field that has less room in a word than in an operation; the lowering asks for the code of a
request instruction (`Operation.AskedFor`), which has twenty bits.
-/

namespace Dynarec

/-- **The lowering of a block may ask for the operation.**  A request to the system carries the code
of the request instruction in front of the address at which it goes on. -/
def Operation.AskedFor (memory : Memory) : Operation → Prop
  | .exitSyscall code next => ∃ word, memory.fetch? (next - 4) = some word ∧
      (Instr.mk word).family = .syscall ∧ code = (Instr.mk word).code
  | _ => True

theorem Operation.AskedFor.fits {memory : Memory} {op : Operation} (h : op.AskedFor memory) :
    op.Fits := by
  cases op with
  | exitSyscall code next =>
    obtain ⟨word, -, -, rfl⟩ := h
    exact Lowering.code_lt _
  | _ => trivial

theorem Operation.Inline.askedFor {memory : Memory} {op : Operation} (h : op.Inline) :
    op.AskedFor memory := by
  cases op with
  | exitSyscall code next => exact h.elim
  | _ => trivial

/-- **Words of operations that were asked for are appended.** -/
def CodeSpace.Appends (memory : Memory) (c c' : CodeSpace) : Prop :=
  ∃ ops : List Operation, c'.words.toList = c.words.toList ++ ops.map Operation.encode ∧
    ∀ op ∈ ops, op.AskedFor memory

namespace CodeSpace.Appends

variable {memory : Memory} {c c' c'' : CodeSpace}

theorem of_words (h : c'.words = c.words) : Appends memory c c' :=
  ⟨[], by rw [h, List.map_nil, List.append_nil], nofun⟩

theorem trans (x : Appends memory c c') (y : Appends memory c' c'') : Appends memory c c'' := by
  obtain ⟨xs, hx, hxs⟩ := x
  obtain ⟨ys, hy, hys⟩ := y
  refine ⟨xs ++ ys, ?_, fun op hop => (List.mem_append.mp hop).elim (hxs op) (hys op)⟩
  rw [hy, hx, List.map_append, List.append_assoc]

/-- A word that does not fit is not appended. -/
theorem emit {op : Operation} (hop : op.AskedFor memory) : Appends memory c (c.emit op.encode) := by
  rw [CodeSpace.emit]
  split
  · exact ⟨[op], by rw [Array.toList_push]; rfl, fun _ hmem => List.mem_singleton.mp hmem ▸ hop⟩
  · exact of_words rfl

theorem emitOps {ops : List Operation} (hops : ∀ op ∈ ops, op.AskedFor memory) :
    Appends memory c (c.emitOps ops) := by
  induction ops generalizing c with
  | nil => exact of_words rfl
  | cons op rest ih =>
    exact (emit (hops op List.mem_cons_self)).trans (ih fun o ho => hops o (List.mem_cons_of_mem _ ho))

end CodeSpace.Appends

namespace Lowering

variable {α β : Type} {s : Setting}

/-- **A step that asks for operations** and appends nothing else. -/
def Asks (s : Setting) (act : Lowering α) : Prop :=
  ∀ b x b', act s b = .ok (x, b') → b.code.Appends s.memory b'.code

theorem asks_of_straight {act : Lowering α} (hact : Straight s act) : Asks s act := by
  intro b x b' hok
  obtain ⟨ops, hemits, -⟩ := hact b x b' hok
  rw [hemits.code]
  exact .emitOps fun op hop => (hemits.inline op hop).askedFor

theorem asks_bind {act : Lowering α} {f : α → Lowering β} (hact : Asks s act)
    (hf : ∀ x, Asks s (f x)) : Asks s (act >>= f) := by
  intro b y b'' hok
  obtain ⟨x, b', hx, hy⟩ := bind_eq_ok hok
  exact (hact b x b' hx).trans (hf x b' y b'' hy)

theorem asks_then {act : Lowering α} {f : α → Lowering β} (hact : Straight s act)
    (hf : ∀ x, Asks s (f x)) : Asks s (act >>= f) := asks_bind (asks_of_straight hact) hf

theorem asks_ite {c : Prop} [Decidable c] {x y : Lowering α} (hx : Asks s x) (hy : Asks s y) :
    Asks s (if c then x else y) := by
  split
  · exact hx
  · exact hy

/-! ### Primitive steps -/

theorem asks_modify {f : Builder → Builder}
    (hf : ∀ b : Builder, b.code.Appends s.memory (f b).code) : Asks s (modify f : Lowering Unit) := by
  intro b x b' hok
  cases hok
  exact hf b

theorem asks_emit {op : Operation} (hop : op.AskedFor s.memory) : Asks s (emit op) :=
  asks_modify fun _ => .emit hop

theorem asks_charge : Asks s charge := asks_modify fun _ => .of_words rfl

theorem asks_moveTo (pc : UInt32) : Asks s (moveTo pc) := asks_modify fun _ => .of_words rfl

theorem asks_newLabel : Asks s newLabel := by
  intro b x b' hok
  cases hok
  exact .of_words rfl

theorem asks_placeLabel (label : Label) : Asks s (placeLabel label) :=
  asks_modify fun _ => .of_words rfl

theorem asks_jumpForward (condition : Condition) (label : Label) :
    Asks s (jumpForward condition label) := by
  refine asks_modify fun b => ?_
  have hjump : b.code.Appends s.memory (b.code.emit (Operation.jumpIf condition 0).encode) :=
    .emit trivial
  rw [emitReference_eq]
  split
  · exact hjump
  · exact hjump.trans (.of_words rfl)

theorem asks_exitTo (target amount : UInt32) : Asks s (exitTo target amount) :=
  asks_then (straight_subtractCycles amount) fun _ => asks_modify fun _ => .emit trivial

theorem asks_exitHere (target : UInt32) : Asks s (exitHere target) :=
  asks_then straight_get fun _ => asks_exitTo _ _

/-! ### The end of a block -/

/-- The end of a block that leaves for good. -/
theorem asks_leave {o : Operation} (hop : o.AskedFor s.memory) (stop : UInt32) :
    Asks s (do
      subtractProgress
      emit o
      finish stop) :=
  asks_then straight_subtractProgress fun _ => asks_bind (asks_emit hop) fun _ => asks_moveTo _

theorem asks_endBlock (pc : UInt32) : Asks s (endBlock pc) :=
  asks_then straight_flushAll fun _ => asks_bind (asks_exitHere pc) fun _ => asks_moveTo _

theorem asks_delaySlot (slot : Instr) (pc : UInt32) (policy : SlotPolicy) :
    Asks s (delaySlot slot pc policy) := by
  rw [delaySlot_eq]
  exact asks_bind asks_charge fun _ => asks_of_straight (straight_slotCode slot pc policy)

theorem asks_branchExits (condition : Condition) (target fallthrough : UInt32) :
    Asks s (branchExits condition target fallthrough) :=
  asks_then straight_get fun _ => asks_bind asks_newLabel fun _ =>
    asks_bind (asks_jumpForward _ _) fun _ => asks_bind (asks_exitTo _ _) fun _ =>
      asks_bind (asks_placeLabel _) fun _ => asks_exitTo _ _

theorem asks_likelyBranch (i : Instr) (pc : UInt32) (slot : Instr) :
    Asks s (likelyBranch i pc slot) := by
  unfold likelyBranch
  refine asks_then (straight_compareOperands i) fun _ => asks_then straight_releaseLocks fun _ => ?_
  refine asks_then (straight_writeBranchLink i pc) fun _ => asks_then straight_flushAll fun _ => ?_
  refine asks_then straight_get fun _ => asks_bind asks_newLabel fun _ => ?_
  refine asks_bind (asks_jumpForward _ _) fun _ => asks_bind (asks_delaySlot _ _ _) fun _ => ?_
  exact asks_bind (asks_exitHere _) fun _ => asks_bind (asks_placeLabel _) fun _ => asks_exitTo _ _

theorem asks_ordinaryBranch (i : Instr) (pc : UInt32) (slot : Instr) :
    Asks s (ordinaryBranch i pc slot) := by
  unfold ordinaryBranch
  refine asks_ite ?_ (asks_ite ?_ ?_)
  · exact asks_bind (asks_delaySlot _ _ _) fun _ => asks_then straight_flushAll fun _ =>
      asks_exitHere _
  · refine asks_then (straight_compareOperands i) fun _ => asks_then straight_releaseLocks fun _ => ?_
    exact asks_then (straight_writeBranchLink i pc) fun _ =>
      asks_bind (asks_delaySlot _ _ _) fun _ => asks_branchExits _ _ _
  · refine asks_then (straight_writeBranchLink i pc) fun _ => ?_
    refine asks_bind (asks_delaySlot _ _ _) fun _ => asks_then straight_flushAll fun _ => ?_
    exact asks_then (straight_compareOperands i) fun _ => asks_branchExits _ _ _

theorem asks_branch (i : Instr) (pc : UInt32) (slot : Instr) : Asks s (branch i pc slot) := by
  unfold branch
  refine asks_bind asks_charge fun _ => ?_
  split
  · exact asks_bind (asks_likelyBranch i pc slot) fun _ => asks_moveTo _
  · exact asks_bind (asks_ordinaryBranch i pc slot) fun _ => asks_moveTo _

theorem asks_jump (i : Instr) (pc : UInt32) (slot : Instr) : Asks s (jump i pc slot) := by
  have hrest : Asks s (do
      delaySlot slot pc .plain
      flushAll
      exitHere (i.jumpTarget pc)
      finish (pc + 8)) :=
    asks_bind (asks_delaySlot _ _ _) fun _ => asks_then straight_flushAll fun _ =>
      asks_bind (asks_exitHere _) fun _ => asks_moveTo _
  unfold jump
  refine asks_bind asks_charge fun _ => ?_
  split
  · exact asks_then (straight_writeLink _ _) fun _ => hrest
  · exact hrest

theorem asks_jumpRegister (i : Instr) (pc : UInt32) (slot : Instr) :
    Asks s (jumpRegister i pc slot) := by
  have hrest : ∀ target : Lowering HostReg, Straight s target → Asks s (do
      writeLink (jumpLink i) pc
      delaySlot slot pc .plain
      flushAll
      let target ← target
      subtractProgress
      emit (.exitDispatchReg target)
      finish (pc + 8)) := fun target htarget =>
    asks_then (straight_writeLink _ _) fun _ => asks_bind (asks_delaySlot _ _ _) fun _ =>
      asks_then straight_flushAll fun _ => asks_then htarget fun a =>
        asks_leave (o := .exitDispatchReg a) trivial _
  unfold jumpRegister
  refine asks_bind asks_charge fun _ => asks_then (straight_bindGpr _) fun _ => ?_
  by_cases hchanges : targetChanges i slot = true
  · simp only [hchanges, if_true]
    exact asks_then (straight_move _ _) fun _ => hrest _ (straight_pure _)
  · simp only [hchanges]
    exact hrest _ (straight_bindGpr _)

/-- **The end of a block** at an instruction that is in memory. -/
theorem asks_terminator {i : Instr} {pc : UInt32} (hfetch : s.memory.fetch? pc = some i.word) :
    Asks s (terminator i pc) := by
  unfold terminator
  split
  · rename_i hfam
    refine asks_bind asks_charge fun _ => asks_then straight_flushAll fun _ => asks_leave ?_ _
    exact ⟨i.word, by rw [UInt32.add_sub_cancel, hfetch], hfam, rfl⟩
  · exact asks_bind asks_charge fun _ => asks_then straight_flushAll fun _ =>
      asks_leave (o := .exitBreak pc) trivial _
  · refine asks_then straight_read fun _ => ?_
    split
    · exact asks_then straight_flushAll fun _ => asks_leave (o := .exitInterpret pc) trivial _
    · split
      · exact asks_jump i pc _
      · exact asks_jumpRegister i pc _
      · exact asks_branch i pc _

/-! ### Whole blocks -/

theorem asks_bodyInstruction (i : Instr) (pc : UInt32) : Asks s (bodyInstruction i pc) := by
  unfold bodyInstruction
  refine asks_bind asks_charge fun _ => asks_then (straight_plain i pc) fun _ => ?_
  exact asks_bind (asks_moveTo _) fun _ => asks_then straight_releaseLocks fun _ =>
    asks_of_straight straight_checkSpace

theorem asks_lastInstruction {i : Instr} {pc : UInt32} (hfetch : s.memory.fetch? pc = some i.word) :
    Asks s (lastInstruction i pc) := by
  unfold lastInstruction
  exact asks_bind (asks_terminator hfetch) fun _ => asks_then straight_releaseLocks fun _ =>
    asks_of_straight straight_checkSpace

theorem asks_instructions (room : Nat) (pc : UInt32) : Asks s (instructions room pc) := by
  intro b x b' hok
  induction room generalizing pc b with
  | zero => exact asks_endBlock pc b x b' hok
  | succ room ih =>
    rcases instructions_ok hok with ⟨-, hok⟩ | ⟨word, hfetch, ⟨-, hok⟩ | ⟨-, b₁, hbody, hrest⟩⟩
    · exact asks_endBlock pc b x b' hok
    · exact asks_lastInstruction (i := ⟨word⟩) hfetch b x b' hok
    · exact (asks_bodyInstruction _ pc b () b₁ hbody).trans (ih (pc + 4) b₁ hrest)

theorem asks_guardEntry : Asks s (guardEntry s) := by
  unfold guardEntry
  split
  · exact asks_emit trivial
  · exact asks_of_straight (straight_pure ())

end Lowering

open Lowering

variable {s : Setting} {code resolved : CodeSpace} {block : Block} {last : Builder}

/-- **Words of operations that were asked for** are what a lowering has appended when it is finished. -/
theorem Finished.appends (f : Finished s code block resolved last) :
    code.Appends s.memory last.code := by
  obtain ⟨b, hguard, hinstructions⟩ := f.run
  have hentry : code.Appends s.memory (Builder.entered s code).code := .emit trivial
  exact (hentry.trans (asks_guardEntry _ _ _ hguard)).trans (asks_instructions _ _ _ _ _ hinstructions)

/-- **Every word of a block is that of an operation that was asked for**, or of a forward jump whose
target was filled in. -/
theorem Finished.asked (f : Finished s code block resolved last)
    (hrefs : ∀ p l, (p, l) ∈ code.references → p < code.offset) {p : Nat} (hle : code.offset ≤ p)
    (hlt : p < last.code.offset) :
    ∃ op : Operation, op.AskedFor s.memory ∧ resolved.words[p]? = some op.encode := by
  obtain ⟨ops, hwords, hops⟩ := f.appends
  obtain ⟨k, rfl⟩ := Nat.exists_eq_add_of_le hle
  have hlength : last.code.offset = code.offset + ops.length := by
    rw [← last.code.length_words, hwords, List.length_append, List.length_map, code.length_words]
  obtain ⟨op, hop⟩ : ∃ op, ops[k]? = some op := ⟨_, List.getElem?_eq_getElem (by omega)⟩
  have hword : last.code.words[code.offset + k]? = some op.encode := by
    rw [← Array.getElem?_toList, hwords, ← code.length_words,
      List.getElem?_append_right (Nat.le_add_right _ _), Nat.add_sub_cancel_left, List.getElem?_map,
      hop]
    rfl
  by_cases href : ∃ l, (code.offset + k, l) ∈ last.code.references
  · obtain ⟨l, hl⟩ := href
    obtain ⟨_, refs, _, x⟩ := f.goesOn f.fits
    have hstart : (code.offset + k, l) ∈ refs := by
      rw [x.allReferences, f.entered_code] at hl
      refine (List.mem_append.mp hl).resolve_left fun hold => ?_
      exact absurd (hrefs _ l hold) (by omega)
    obtain ⟨j, condition, hplace, hjump⟩ := x.refAt _ l hstart
    have hdecoded : last.code.operation? (code.offset + k) = some (.jumpIf condition 0) := by
      rw [hplace]
      exact x.operation? trivial hjump
    have hsame : op = .jumpIf condition 0 := by
      have hfits := Operation.decode?_encode (hops op (List.mem_of_getElem? hop)).fits
      rw [CodeSpace.operation?, CodeSpace.word?, hword] at hdecoded
      exact Option.some.inj (hfits.symm.trans hdecoded)
    obtain ⟨q, -, hfilled⟩ := (CodeSpace.words_resolveReferences
      (c := { last.code with references := [] }) f.resolve (code.offset + k)).2 l hl fun l' hl' =>
        x.ref_unique (f.placed hrefs) (by rw [f.entered_offset, hplace, f.entered_offset]; omega) hl hl'
    refine ⟨.jumpIf condition (UInt32.ofNat q), trivial, ?_⟩
    rw [hfilled]
    show (last.code.words[code.offset + k]?).map _ = _
    rw [hword, hsame]
    rfl
  · refine ⟨op, hops op (List.mem_of_getElem? hop), ?_⟩
    rw [Builder.Adds.word_resolve f.resolve fun l hl => href ⟨l, hl⟩, hword]

/-- **Operations and their words determine each other**, and compiled code holds the operations that
were asked for.  An operation whose fields fit is decoded from its word; a word that is an operation
is the word of one whose fields fit, up to bits that are not looked at; and lowering a block appends
the words of operations that fit, each of which is found where it was put. -/
theorem roundTrip_of_encode :
    (∀ op : Operation, op.Fits → Operation.decode? op.encode = some op) ∧
    (∀ (w : HostWord) (op : Operation), Operation.decode? w = some op →
      op.Fits ∧ Operation.decode? op.encode = some op) ∧
    ∀ (s : Setting) (code resolved : CodeSpace) (block : Block),
      (∀ p l, (p, l) ∈ code.references → p < code.offset) →
      lowerBlock s code = (.ok block, resolved) →
      block.codeStart = code.offset ∧ block.codeEnd = resolved.offset ∧
      ∀ p, block.codeStart ≤ p → p < block.codeEnd →
        ∃ op : Operation, op.Fits ∧ op.AskedFor s.memory ∧ resolved.words[p]? = some op.encode ∧
          Host.operationAt? resolved.words p = some op := by
  refine ⟨fun op => Operation.decode?_encode, fun w op hop => ?_, fun s code resolved block hrefs
    hok => ?_⟩
  · have hfits := Operation.fits_of_decode? hop
    exact ⟨hfits, Operation.decode?_encode hfits⟩
  · obtain ⟨last, f⟩ := finished_of_ok hok
    obtain ⟨hsize, -⟩ := CodeSpace.resolve_same f.resolve
    rw [f.block_eq]
    refine ⟨rfl, hsize.symm, fun p hle hlt => ?_⟩
    obtain ⟨op, hasked, hword⟩ := f.asked hrefs hle hlt
    refine ⟨op, hasked.fits, hasked, hword, ?_⟩
    rw [Host.operationAt?, hword]
    exact Operation.decode?_encode hasked.fits

/-- Memory with a request to the system for service five. -/
def requestMemory : Memory :=
  { Memory.create 0x1000 4 with bytes := ⟨#[0x4C, 0x01, 0x00, 0x00]⟩ }

/-- The block of that request. -/
def requestSetting : Setting := ⟨requestMemory, {}, 0x1000, .anyModifiers, none⟩

/-- An empty code space of eight words. -/
def smallSpace : CodeSpace := ⟨#[], 8, false, #[], []⟩

/-- A request with the largest code that fits is decoded again, a word whose unused bytes are set is
that of an operation, and the block of a request holds its code. -/
theorem roundTrip_of_request :
    (UInt32.toNat 0xFFFFFF < 2 ^ 24 ∧ Operation.decode? (Operation.exitSyscall 0xFFFFFF 8).encode =
      some (.exitSyscall 0xFFFFFF 8)) ∧
    (Operation.decode? ⟨0x00, 1, 2, 3, 4⟩ = some .nop ∧
      Operation.decode? Operation.nop.encode = some .nop) ∧
    ∃ block resolved, lowerBlock requestSetting smallSpace = (.ok block, resolved) ∧
      Host.operationAt? resolved.words 2 = some (.exitSyscall 5 0x1004) ∧
      ∃ op : Operation, op.Fits ∧ op.AskedFor requestMemory ∧ resolved.words[2]? = some op.encode ∧
        Host.operationAt? resolved.words 2 = some op := by
  obtain ⟨hencode, hdecode, hlower⟩ := roundTrip_of_encode
  refine ⟨⟨by decide, hencode _ (by decide : _ < _)⟩,
    ⟨rfl, (hdecode ⟨0x00, 1, 2, 3, 4⟩ .nop rfl).2⟩, ?_⟩
  have hmade : (match lowerBlock requestSetting smallSpace with
    | (.ok block, resolved) => decide (block.codeStart ≤ 2 ∧ 2 < block.codeEnd ∧
        Host.operationAt? resolved.words 2 = some (.exitSyscall 5 0x1004))
    | _ => false) = true := by decide +kernel
  split at hmade
  · rename_i block resolved hok
    obtain ⟨hle, hlt, hfound⟩ := of_decide_eq_true hmade
    obtain ⟨-, -, hwords⟩ :=
      hlower requestSetting smallSpace resolved block (fun _ _ h => nomatch h) hok
    exact ⟨block, resolved, hok, hfound, hwords 2 hle hlt⟩
  · cases hmade

end Dynarec
