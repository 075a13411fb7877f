import Dynarec.Proofs.Lower.Placement

/-!
# The shape of a block

The code of every block has one shape.  Behind its entries comes straight code, the `front`, and
behind that a `Tail`: one way out, or a forward jump over some more straight code and a first way
out to a second one.  A way out charges cycles and leaves.  `Sketch.ops` writes the code of a shape
down.

The steps that end a block follow a plan that makes a shape from the register caches and the
progress alone (`Closes`).  So the shape of a block does not depend on whether blocks are linked,
nor on where the downcount is kept.
-/

namespace Dynarec

/-- Charge cycles to the guest. -/
def Operation.charge (inRegister : Bool) (amount : UInt32) : Operation :=
  if inRegister then .aluImm .sub HostReg.downcount HostReg.downcount amount
  else .subDowncount amount

/-- The operation leaves the block, whatever the state is. -/
def Operation.Final : Operation → Prop
  | .exitSyscall code _ => code.toNat < 2 ^ 24
  | .exitDispatch _ | .exitDispatchReg _ | .exitInterpret _ | .exitBreak _ => True
  | _ => False

/-- The instructions that are run right behind an operation that leaves: the interpreter takes one
and its delay slot. -/
def Operation.behind : Operation → Nat
  | .exitInterpret _ => 2
  | _ => 0

/-- **A way out of a block**: cycles are charged, and an operation leaves. -/
structure Leave where
  amount : UInt32
  op : Operation

/-- **How the code of a block ends.** -/
inductive Tail where
  | leave (way : Leave)
  /-- Under the condition the slot and the first way out are jumped over. -/
  | fork (condition : Condition) (slot : List Operation) (passed taken : Leave)

/-- **The code of a block behind its entries.** -/
structure Sketch where
  front : List Operation
  tail : Tail

namespace Leave

/-- The code of a way out. -/
def ops (inRegister : Bool) (x : Leave) : List Operation := [.charge inRegister x.amount, x.op]

/-- The exit of a way out whose code starts at an offset, if it can be linked. -/
def exits (offset : Nat) (x : Leave) : List Exit :=
  match x.op with
  | .exitDispatch target => [{ target := target, stub := offset + 1 }]
  | _ => []

/-- The operation leaves, and looks at nothing but what is set. -/
structure Neat (G : Set HostCell) (x : Leave) : Prop where
  final : x.op.Final
  reads : x.op.reads ⊆ G

/-- The amount goes beyond `count` by at least `least`, an exit to the interpreter apart, and
together with what is run behind the exit by at most `most`. -/
def Charges (count : UInt32) (least most : Nat) (x : Leave) : Prop :=
  ∃ n, n + x.op.behind ≤ most ∧ x.amount = count + UInt32.ofNat n ∧
    ((∃ pc, x.op = .exitInterpret pc) ∨ least ≤ n)

/-- **All `count` instructions of a block are charged for**, but perhaps for the last one where the
block goes on at a known address: behind a likely branch that is not taken its slot is skipped. -/
def Pays (count : UInt32) (x : Leave) : Prop :=
  x.amount = count ∨ x.amount + 1 = count ∧ ∃ target, x.op = .exitDispatch target

@[simp] theorem length_ops (inRegister : Bool) (x : Leave) : (x.ops inRegister).length = 2 := rfl

theorem Neat.mono {G G' : Set HostCell} {x : Leave} (h : Neat G x) (hsub : G ⊆ G') : Neat G' x :=
  ⟨h.final, h.reads.trans hsub⟩

end Leave

namespace Tail

/-- The code of a tail that starts at an offset. -/
def ops (inRegister : Bool) (offset : Nat) : Tail → List Operation
  | leave way => way.ops inRegister
  | fork condition slot passed taken =>
    .jumpIf condition (UInt32.ofNat (offset + slot.length + 3)) ::
      (slot ++ passed.ops inRegister ++ taken.ops inRegister)

/-- The exits of a tail that starts at an offset. -/
def exits (offset : Nat) : Tail → List Exit
  | leave way => way.exits offset
  | fork _ slot passed taken =>
    passed.exits (offset + slot.length + 1) ++ taken.exits (offset + slot.length + 3)

/-- The ways out. -/
def ways : Tail → List Leave
  | leave way => [way]
  | fork _ _ passed taken => [passed, taken]

/-- The parts of a tail look at nothing but what is set in front of them. -/
def Neat (G : Set HostCell) : Tail → Prop
  | leave way => way.Neat G
  | fork _ slot passed taken => .flags ∈ G ∧ AllInline slot ∧ (∀ op ∈ slot, op.Quiet) ∧
      Host.Scoped G slot ∧ passed.Neat (G ∪ Host.allWrites slot) ∧ taken.Neat G

/-- Every way out charges what was done. -/
def Charges (count : UInt32) (least most : Nat) (t : Tail) : Prop :=
  ∀ way ∈ t.ways, way.Charges count least most

/-- Every way out charges for the instructions of the block. -/
def Pays (count : UInt32) (t : Tail) : Prop := ∀ way ∈ t.ways, way.Pays count

theorem Charges.mono {count : UInt32} {least most least' most' : Nat} {t : Tail}
    (h : t.Charges count least most) (hleast : least' ≤ least) (hmost : most ≤ most') :
    t.Charges count least' most' := fun way hway => by
  obtain ⟨n, hn, heq, hor⟩ := h way hway
  exact ⟨n, hn.trans hmost, heq, hor.imp_right hleast.trans⟩

/-- The amounts seen from `k` instructions earlier. -/
theorem Charges.shift {count : UInt32} {least most : Nat} {t : Tail} (k : Nat)
    (h : t.Charges (count + UInt32.ofNat k) least most) :
    t.Charges count (least + k) (most + k) := fun way hway => by
  obtain ⟨n, hn, heq, hor⟩ := h way hway
  refine ⟨n + k, by omega, ?_, hor.imp_right (Nat.add_le_add_right · k)⟩
  rw [heq, UInt32.ofNat_add, UInt32.add_assoc, UInt32.add_comm (UInt32.ofNat k)]

end Tail

namespace Sketch

/-- The code of a sketch that starts at an offset. -/
def ops (inRegister : Bool) (offset : Nat) (k : Sketch) : List Operation :=
  k.front ++ k.tail.ops inRegister (offset + k.front.length)

/-- The exits of a sketch that starts at an offset. -/
def exits (offset : Nat) (k : Sketch) : List Exit := k.tail.exits (offset + k.front.length)

/-- **The parts of a sketch look at nothing but what is set in front of them**, and leave the
downcount alone until they charge for it. -/
structure Neat (G : Set HostCell) (k : Sketch) : Prop where
  inline : AllInline k.front
  quiet : ∀ op ∈ k.front, op.Quiet
  inScope : Host.Scoped G k.front
  tail : k.tail.Neat (G ∪ Host.allWrites k.front)

end Sketch

theorem Tail.Neat.mono {G G' : Set HostCell} {t : Tail} (h : t.Neat G) (hsub : G ⊆ G') :
    t.Neat G' := by
  cases t with
  | leave way => exact Leave.Neat.mono h hsub
  | fork condition slot passed taken =>
    obtain ⟨hflags, hinline, hquiet, hscope, hpassed, htaken⟩ := h
    exact ⟨hsub hflags, hinline, hquiet, hscope.mono hsub,
      hpassed.mono (Set.union_subset_union_left _ hsub), htaken.mono hsub⟩

/-! ### Plans of closing steps -/

/-- What a step that ends a block makes: the rest of its code, and the caches and the progress
behind it. -/
structure Closing where
  sketch : Sketch
  context : Context
  progress : Progress

namespace Builder

/-- Emit a way out. -/
def leaveBy (inRegister : Bool) (b : Builder) (x : Leave) : Builder :=
  let b := { b with code := b.code.emit (Operation.charge inRegister x.amount).encode }
  match x.op with
  | .exitDispatch target => Lowering.pushExit b target
  | op => { b with code := b.code.emit op.encode }

/-- Emit a jump to a new label, and straight code behind it. -/
def jumped (b : Builder) (condition : Condition) (slot : List Operation) : Builder :=
  let b := Lowering.pushJump (Lowering.withLabel b) condition b.code.labels.size
  { b with code := b.code.emitOps slot }

/-- Emit a tail. -/
def endBy (inRegister : Bool) (b : Builder) : Tail → Builder
  | .leave way => b.leaveBy inRegister way
  | .fork condition slot passed taken =>
    (Lowering.withPlace ((b.jumped condition slot).leaveBy inRegister passed)
      b.code.labels.size).leaveBy inRegister taken

/-- The same code and exits, with other caches and other progress. -/
def onward (b : Builder) (c : Context) (p : Progress) : Builder :=
  { b with
    scalars := c.scalars
    elements := c.elements
    modifiers := c.modifiers
    progress := p }

/-- Emit a sketch, and go on with caches and progress. -/
def closed (inRegister : Bool) (b : Builder) (k : Closing) : Builder :=
  (onward { b with code := b.code.emitOps k.sketch.front } k.context k.progress).endBy inRegister
    k.sketch.tail

theorem onward_leaveBy (inRegister : Bool) (b : Builder) (x : Leave) (c : Context) (p : Progress) :
    (b.leaveBy inRegister x).onward c p = (b.onward c p).leaveBy inRegister x := by
  obtain ⟨amount, op⟩ := x
  cases op <;> rfl

theorem onward_endBy (inRegister : Bool) (b : Builder) (t : Tail) (c : Context) (p : Progress) :
    (b.endBy inRegister t).onward c p = (b.onward c p).endBy inRegister t := by
  cases t with
  | leave way => exact onward_leaveBy inRegister b way c p
  | fork condition slot passed taken =>
    have hpassed : (Lowering.withPlace ((b.jumped condition slot).leaveBy inRegister passed)
        b.code.labels.size).onward c p =
          Lowering.withPlace (((b.onward c p).jumped condition slot).leaveBy inRegister passed)
            b.code.labels.size :=
      congrArg (Lowering.withPlace · b.code.labels.size) (onward_leaveBy inRegister _ passed c p)
    rw [endBy, onward_leaveBy, hpassed]
    rfl

@[simp] theorem progress_leaveBy (inRegister : Bool) (b : Builder) (x : Leave) :
    (b.leaveBy inRegister x).progress = b.progress := by
  obtain ⟨amount, op⟩ := x
  cases op <;> rfl

@[simp] theorem context_leaveBy (inRegister : Bool) (b : Builder) (x : Leave) :
    (b.leaveBy inRegister x).context = b.context := by
  obtain ⟨amount, op⟩ := x
  cases op <;> rfl

@[simp] theorem progress_endBy (inRegister : Bool) (b : Builder) (t : Tail) :
    (b.endBy inRegister t).progress = b.progress := by
  cases t with
  | leave way => exact progress_leaveBy inRegister b way
  | fork condition slot passed taken =>
    rw [endBy, progress_leaveBy]
    exact progress_leaveBy inRegister _ passed

@[simp] theorem context_endBy (inRegister : Bool) (b : Builder) (t : Tail) :
    (b.endBy inRegister t).context = b.context := by
  cases t with
  | leave way => exact context_leaveBy inRegister b way
  | fork condition slot passed taken =>
    rw [endBy, context_leaveBy]
    exact context_leaveBy inRegister _ passed

@[simp] theorem progress_closed (inRegister : Bool) (b : Builder) (k : Closing) :
    (b.closed inRegister k).progress = k.progress := progress_endBy inRegister _ _

theorem onward_closed (inRegister : Bool) (b : Builder) (k : Closing) (c : Context) (p : Progress) :
    (b.closed inRegister k).onward c p =
      b.closed inRegister { k with context := c, progress := p } := onward_endBy inRegister _ _ _ _

@[simp] theorem context_closed (inRegister : Bool) (b : Builder) (k : Closing) :
    (b.closed inRegister k).context = k.context := context_endBy inRegister _ _

end Builder

/-- More straight code in front. -/
def Closing.prepend (code : List Operation) (k : Closing) : Closing :=
  { k with sketch := { k.sketch with front := code ++ k.sketch.front } }

theorem Builder.closed_apply {α : Type} (inRegister : Bool) (b : Builder) (w : Work α) (k : Closing) :
    (b.apply w).closed inRegister k = b.closed inRegister (k.prepend w.code) := by
  rw [closed, closed, Closing.prepend, CodeSpace.emitOps_append]
  rfl

/-- What a closing keeps to, if the cells `G` are set in front of it. -/
structure Closing.Neat (G : Set HostCell) (p : Progress) (least most : Nat) (stop : Option UInt32)
    (k : Closing) : Prop where
  sketch : k.sketch.Neat G
  charges : k.sketch.tail.Charges p.count least most
  pays : k.sketch.tail.Pays k.progress.count
  stop : k.progress.pc = stop.getD p.pc

theorem Sketch.Neat.prepend {G E : Set HostCell} {code : List Operation} {k : Sketch}
    (hinline : AllInline code) (hquiet : ∀ op ∈ code, op.Quiet) (hscope : Host.Scoped G code)
    (hE : E ⊆ G ∪ Host.allWrites code) (hk : k.Neat E) :
    Sketch.Neat G { k with front := code ++ k.front } where
  inline := hinline.append hk.inline
  quiet op hop := (List.mem_append.mp hop).elim (hquiet op) (hk.quiet op)
  inScope := hscope.append (hk.inScope.mono hE)
  tail := by
    rw [Host.allWrites_append, ← Set.union_assoc]
    exact hk.tail.mono (Set.union_subset_union_left _ hE)

namespace Lowering

variable {α : Type} {Γ : Set HostCell} {n least most : Nat} {stop : Option UInt32}
  {E : α → Set HostCell} {P : α → Prop}

/-- What a plan for the end of a block keeps to. -/
def KeepsNeat (G : Set HostCell) (p : Progress) (least most : Nat) (stop : Option UInt32) :
    Except Failure Closing → Prop
  | .error e => e.IsExhaustion
  | .ok k => k.Neat G p least most stop

/-- **A step that ends a block** follows a plan.  In front of it the cells `Γ` are set besides those
of the caches; its ways out charge at least `least` and at most `most` beyond the progress, and the
block ends at `stop`. -/
def Closes (Γ : Set HostCell) (act : Lowering Unit) (least most : Nat) (stop : Option UInt32) : Prop :=
  ∃ plan : Context → Progress → Except Failure Closing,
    (∀ s b, act s b = (plan b.context b.progress).map fun k =>
      ((), b.closed s.options.downcountInRegister k)) ∧
    ∀ c p G, Γ ⊆ G → c.cells ⊆ G → KeepsNeat G p least most stop (plan c p)

/-! ### Straight code in front -/

/-- **A step that hands out registers**, in front of the end of a block. -/
theorem closes_bind {act : Lowering α} {f : α → Lowering Unit}
    (hact : HandsOut Γ ∅ act n E (fun _ => ∅) P)
    (hf : ∀ a, P a → Closes (E a) (f a) least most stop) :
    Closes Γ (act >>= f) least most stop := by
  classical
  obtain ⟨plan, hplan, hkeeps⟩ := hact
  have hnext : ∀ a, ∃ next : Context → Progress → Except Failure Closing, P a →
      (∀ s b, f a s b = (next b.context b.progress).map fun k =>
        ((), b.closed s.options.downcountInRegister k)) ∧
      ∀ c p G, E a ⊆ G → c.cells ⊆ G → KeepsNeat G p least most stop (next c p) := fun a => by
    by_cases ha : P a
    · obtain ⟨next, hnext⟩ := hf a ha
      exact ⟨next, fun _ => hnext⟩
    · exact ⟨fun _ _ => .error (.registersExhausted .floatTemporary), fun h => absurd h ha⟩
  choose next hnext using hnext
  refine ⟨fun c p => plan c >>= fun w => (next w.value w.context p).map (·.prepend w.code),
    fun s b => ?_, fun c p G hG hc => ?_⟩
  · have hbind : (act >>= f) s b = (act s b >>= fun p => f p.1 s p.2) := rfl
    have hw := hkeeps b.context Set.univ (Set.subset_univ _)
      ((Set.subset_univ _).trans Set.subset_union_left)
    rw [hbind, hplan s b]
    dsimp only
    cases hx : plan b.context with
    | error e => rfl
    | ok w =>
      rw [hx] at hw
      have hrest := (hnext w.value hw.1).1 s (b.apply w)
      show f w.value s (b.apply w) =
        ((next w.value w.context b.progress).map (·.prepend w.code)).map _
      rw [hrest]
      show (next w.value w.context b.progress).map _ = _
      cases next w.value w.context b.progress with
      | error e => rfl
      | ok k => exact congrArg (fun b => Except.ok ((), b)) (b.closed_apply _ w k)
  · have hw := hkeeps c G hG (hc.trans Set.subset_union_left)
    show KeepsNeat G p least most stop (plan c >>= fun w => _)
    cases hx : plan c with
    | error e => rwa [hx] at hw
    | ok w =>
      rw [hx] at hw
      obtain ⟨hP, htidy⟩ := hw
      have hsub := htidy.covers
      have hk := (hnext w.value hP).2 w.context p (G ∪ Host.allWrites w.code)
        (Set.subset_union_left.trans hsub)
        (by simpa using Set.subset_union_right.trans hsub)
      show KeepsNeat G p least most stop ((next w.value w.context p).map (·.prepend w.code))
      cases hy : next w.value w.context p with
      | error e => rwa [hy] at hk
      | ok k =>
        rw [hy] at hk
        exact ⟨hk.sketch.prepend htidy.inline htidy.quiet htidy.inScope subset_rfl, hk.charges,
          hk.pays, hk.stop⟩

end Lowering

end Dynarec
