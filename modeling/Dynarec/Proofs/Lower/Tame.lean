import Dynarec.Proofs.Lower.Actions
import Dynarec.Proofs.Lower.Debt

/-!
# Tame steps

Most steps of a lowering look at nothing but the register caches and the pending modifiers, and
change nothing else but the code, to which they append.  Such a step has a plan: what it does to the
caches, and the code that it appends, as a function of the caches alone.  `Tame Γ M act n V` says
that `act` has a plan, that its code is straight and leaves the downcount alone, that the code reads
only registers that were set before, and that it takes at most `n` words more than it pays off.  `Γ`
are the registers that are set in front of the step besides those of the caches, `M` those of the
caches that are not, and `V` gives the registers that are set behind it.
-/

namespace Dynarec

/-- **What a step of a lowering looks at**, code and exits apart. -/
structure Context where
  scalars : ScalarCache
  elements : ElementCache
  modifiers : ModifierTracker

namespace Context

/-- The host registers that are bound. -/
def cells (c : Context) : Set HostCell := c.scalars.cells ∪ c.elements.cells

/-- Number of registers that are still to be stored. -/
def owed (c : Context) : Nat := c.scalars.owed + c.elements.owed

/-- **The debt is bounded by the number of slots.** -/
theorem owed_le (c : Context) : c.owed ≤ 41 := by
  have hscalars := c.scalars.arena.owed_le
  have hfloats := c.elements.floats.owed_le
  have hquads := c.elements.quads.owed_le
  simp only [owed, ScalarCache.owed, ElementCache.owed]
  omega

end Context

/-- What a step makes of a context: a value, code, and the next context. -/
structure Work (α : Type) where
  value : α
  code : List Operation
  context : Context

namespace Builder

/-- The caches and modifiers of a builder. -/
def context (b : Builder) : Context := ⟨b.scalars, b.elements, b.modifiers⟩

/-- Append code and go on with a context. -/
def apply {α : Type} (b : Builder) (w : Work α) : Builder :=
  { b with
    scalars := w.context.scalars
    elements := w.context.elements
    modifiers := w.context.modifiers
    code := b.code.emitOps w.code }

@[simp] theorem context_apply {α : Type} (b : Builder) (w : Work α) :
    (b.apply w).context = w.context := rfl

end Builder

/-- No register was free. -/
def Failure.IsExhaustion (e : Failure) : Prop := ∃ wanted, e = .registersExhausted wanted

namespace Lowering

variable {α β : Type} {s : Setting} {Γ M : Set HostCell} {n k : Nat}
  {V E D : α → Set HostCell} {P : α → Prop}

/-- A plan of a step: what it does, as a function of the context. -/
abbrev Plan (α : Type) := Context → Except Failure (Work α)

/-- **The step follows a plan**, in every setting and whatever the code is. -/
def Follows (act : Lowering α) (plan : Plan α) : Prop :=
  ∀ s b, act s b = (plan b.context).map fun w => (w.value, b.apply w)

/-- What a plan keeps to: its value satisfies `P`, the registers `E` are set, and those of the
caches apart from `D`. -/
def Keeps (G : Set HostCell) (c : Context) (n : Nat) (E D : α → Set HostCell) (P : α → Prop) :
    Except Failure (Work α) → Prop
  | .error e => e.IsExhaustion
  | .ok w => P w.value ∧
    Tidy w.code G (E w.value ∪ (w.context.cells \ D w.value)) (c.owed + n) w.context.owed

/-- **A step hands out registers**, in front of which `Γ` is set and `M` is not. -/
def HandsOut (Γ M : Set HostCell) (act : Lowering α) (n : Nat) (E D : α → Set HostCell)
    (P : α → Prop) : Prop :=
  ∃ plan, Follows act plan ∧
    ∀ c G, Γ ⊆ G → c.cells ⊆ G ∪ M → Keeps G c n E D P (plan c)

/-- **A tame step**: all registers of the caches are set behind it. -/
def Tame (Γ M : Set HostCell) (act : Lowering α) (n : Nat) (V : α → Set HostCell) : Prop :=
  HandsOut Γ M act n V (fun _ => ∅) fun _ => True

/-! ### Composition -/

/-- A step may be taken for a more expensive one that sets less. -/
theorem HandsOut.mono {act : Lowering α} {E' : α → Set HostCell} (x : HandsOut Γ M act n E D P)
    (hn : n ≤ k) (hE : ∀ a, E' a ⊆ E a) : HandsOut Γ M act k E' D P := by
  obtain ⟨plan, hplan, hkeeps⟩ := x
  refine ⟨plan, hplan, fun c G hG hc => ?_⟩
  have hw := hkeeps c G hG hc
  revert hw
  cases plan c with
  | error e => exact id
  | ok w =>
    intro hw
    exact ⟨hw.1, hw.2.mono (Set.union_subset_union_left _ (hE w.value)) (Nat.add_le_add_left hn _)⟩

/-- What is set in front of a step stays set. -/
theorem HandsOut.frame {act : Lowering α} (x : HandsOut ∅ M act n E D P) :
    HandsOut Γ M act n (fun a => E a ∪ Γ) D P := by
  obtain ⟨plan, hplan, hkeeps⟩ := x
  refine ⟨plan, hplan, fun c G hG hc => ?_⟩
  have hw := hkeeps c G (Set.empty_subset G) hc
  revert hw
  cases plan c with
  | error e => exact id
  | ok w =>
    rintro ⟨hP, htidy⟩
    have hsub := htidy.covers
    refine ⟨hP, htidy.inline, htidy.quiet, htidy.inScope, ?_, htidy.paid⟩
    refine Set.union_subset (Set.union_subset ?_ (hG.trans Set.subset_union_left)) ?_
    · exact Set.subset_union_left.trans hsub
    · exact Set.subset_union_right.trans hsub

/-- What is set already need not be set by the step. -/
theorem HandsOut.ofSet {act : Lowering α} (x : HandsOut Γ ∅ act n E D P) (hM : M ⊆ Γ) :
    HandsOut Γ M act n E D P := by
  obtain ⟨plan, hplan, hkeeps⟩ := x
  refine ⟨plan, hplan, fun c G hG hc => hkeeps c G hG ?_⟩
  rw [Set.union_empty]
  exact hc.trans (Set.union_subset subset_rfl (hM.trans hG))

/-- A step behind which nothing more is known. -/
theorem Tame.last {act : Lowering α} (x : Tame Γ M act n V) (hn : n ≤ k) :
    Tame Γ M act k fun _ => ∅ := x.mono hn fun _ => Set.empty_subset _

/-- The plan of one step after another. -/
def Plan.bind (plan : Plan α) (next : α → Plan β) : Plan β := fun c => do
  let w ← plan c
  let w' ← next w.value w.context
  return { w' with code := w.code ++ w'.code }

theorem follows_bind {act : Lowering α} {f : α → Lowering β} {plan : Plan α} {next : α → Plan β}
    (hact : Follows act plan)
    (hf : ∀ c w, plan c = .ok w → Follows (f w.value) (next w.value)) :
    Follows (act >>= f) (plan.bind next) := by
  intro s b
  have hbind : (act >>= f) s b = (act s b >>= fun p => f p.1 s p.2) := rfl
  rw [hbind, hact s b, Plan.bind]
  cases hw : plan b.context with
  | error e => rfl
  | ok w =>
    show f w.value s (b.apply w) = (next w.value w.context >>= fun w' =>
      pure { w' with code := w.code ++ w'.code }).map fun w => (w.value, b.apply w)
    rw [hf b.context w hw, Builder.context_apply]
    cases hw' : next w.value w.context with
    | error e => rfl
    | ok w' =>
      show Except.ok (w'.value, (b.apply w).apply w') =
        .ok (w'.value, b.apply { w' with code := w.code ++ w'.code })
      rw [Builder.apply, Builder.apply, Builder.apply, CodeSpace.emitOps_append]

/-- **One step after another.** -/
theorem HandsOut.bind {act : Lowering α} {f : α → Lowering β} {E' D' : β → Set HostCell}
    {P' : β → Prop} (hact : HandsOut Γ M act n E D P)
    (hf : ∀ a, P a → HandsOut (E a) (D a) (f a) k E' D' P') :
    HandsOut Γ M (act >>= f) (n + k) E' D' P' := by
  classical
  obtain ⟨plan, hplan, hkeeps⟩ := hact
  have hnext : ∀ a, ∃ next : Plan β, P a → Follows (f a) next ∧ ∀ c G, E a ⊆ G →
      c.cells ⊆ G ∪ D a → Keeps G c k E' D' P' (next c) := fun a => by
    by_cases ha : P a
    · obtain ⟨next, hnext⟩ := hf a ha
      exact ⟨next, fun _ => hnext⟩
    · exact ⟨fun c => .error (.registersExhausted .floatTemporary), fun h => absurd h ha⟩
  choose next hnext using hnext
  -- the plan of `f` matters only where the plan of `act` leads
  have hstep : ∀ c G, Γ ⊆ G → c.cells ⊆ G ∪ M → ∀ w, plan c = .ok w →
      P w.value ∧ Tidy w.code G (E w.value ∪ (w.context.cells \ D w.value)) (c.owed + n)
        w.context.owed := fun c G hG hc w hw => by
    have h := hkeeps c G hG hc
    rwa [hw] at h
  refine ⟨plan.bind next, follows_bind hplan fun c w hw => ?_, fun c G hG hc => ?_⟩
  · exact (hnext w.value (hstep c Set.univ (Set.subset_univ _)
      ((Set.subset_univ _).trans Set.subset_union_left) w hw).1).1
  · rw [Plan.bind]
    have herror := hkeeps c G hG hc
    cases hw : plan c with
    | error e => rwa [hw] at herror
    | ok w =>
      obtain ⟨hP, htidy⟩ := hstep c G hG hc w hw
      have hw' := (hnext w.value hP).2 w.context (E w.value ∪ (w.context.cells \ D w.value))
        Set.subset_union_left fun x hx => by
          by_cases hD : x ∈ D w.value
          · exact .inr hD
          · exact .inl (.inr ⟨hx, hD⟩)
      show Keeps G c (n + k) E' D' P' (next w.value w.context >>= fun w' =>
        pure { w' with code := w.code ++ w'.code })
      cases hnext : next w.value w.context with
      | error e => rwa [hnext] at hw'
      | ok w' =>
        rw [hnext] at hw'
        have hraised := htidy.raise k
        rw [Nat.add_assoc] at hraised
        exact ⟨hw'.1, hraised.append hw'.2⟩

/-- **A tame step in front of another**, within a budget. -/
theorem tame_then {act : Lowering α} {f : α → Lowering β} {V' : β → Set HostCell}
    (hact : Tame Γ M act n V) (hn : n ≤ k) (hf : ∀ x, Tame (V x) ∅ (f x) (k - n) V') :
    Tame Γ M (act >>= f) k V' :=
  (hact.bind fun x _ => hf x).mono (Nat.add_sub_cancel' hn).le fun _ => subset_rfl

/-- **Using registers that were handed out**, within a budget. -/
theorem tame_use {act : Lowering α} {f : α → Lowering β} {V' : β → Set HostCell}
    (hact : HandsOut ∅ ∅ act n E D P) (hn : n ≤ k)
    (hf : ∀ a, P a → Tame (E a ∪ Γ) (D a) (f a) (k - n) V') : Tame Γ ∅ (act >>= f) k V' :=
  (hact.frame.bind hf).mono (Nat.add_sub_cancel' hn).le fun _ => subset_rfl

theorem tame_return {x : α} (hx : V x ⊆ Γ) : Tame Γ ∅ (pure x) 0 V := by
  refine ⟨fun c => .ok ⟨x, [], c⟩, fun s b => rfl, fun c G hG hc => ⟨trivial, .nil ?_ le_rfl⟩⟩
  rw [Set.union_empty] at hc
  exact Set.union_subset (hx.trans hG) (Set.sdiff_subset.trans hc)

theorem tame_pure (x : α) : Tame Γ ∅ (pure x) 0 fun _ => Γ := tame_return subset_rfl

theorem tame_ite {c : Prop} [Decidable c] {x y : Lowering α} (hx : Tame Γ M x n V)
    (hy : Tame Γ M y n V) : Tame Γ M (if c then x else y) n V := by
  split
  · exact hx
  · exact hy

/-- A step that looks at the pending modifiers. -/
theorem tame_inspect {f : ModifierTracker → Lowering α} (hf : ∀ t, Tame Γ M (f t) n V) :
    Tame Γ M ((get : Lowering Builder) >>= fun b => f b.modifiers) n V := by
  choose plan hplan hkeeps using hf
  exact ⟨fun c => plan c.modifiers c, fun s b => hplan b.modifiers s b,
    fun c G hG hc => hkeeps c.modifiers c G hG hc⟩

/-- A step that goes on according to whether the pending modifiers are known. -/
theorem tame_known {rule : Lowering α} {f : ModifierTracker.Known → Lowering α}
    (hrule : Tame Γ M rule n V) (hf : ∀ known, Tame Γ M (f known) n V) :
    Tame Γ M ((get : Lowering Builder) >>= fun b =>
      match b.modifiers.known? with
      | none => rule
      | some known => f known) n V := by
  refine tame_inspect (f := fun t => match t.known? with
    | none => rule
    | some known => f known) fun t => ?_
  cases t.known? with
  | none => exact hrule
  | some known => exact hf known

/-! ### Emission -/

/-- **An operation may be emitted** when the registers `Γ` are set and those of `M` are not. -/
structure Works (op : Operation) (Γ M : Set HostCell) : Prop where
  inline : op.Inline
  quiet : op.Quiet
  reads : op.reads ⊆ Γ
  sets : M ⊆ op.writes

theorem tame_emit {op : Operation} (hop : Works op Γ M) :
    Tame Γ M (emit op) 1 fun _ => op.writes ∪ Γ := by
  refine ⟨fun c => .ok ⟨(), [op], c⟩, fun s b => rfl, fun c G hG hc => ⟨trivial, ?_⟩⟩
  refine .single hop.inline hop.quiet (hop.reads.trans hG) ?_ (Nat.add_comm _ _).le
  refine Set.union_subset (Set.union_subset Set.subset_union_right
    (hG.trans Set.subset_union_left)) (Set.sdiff_subset.trans ?_)
  exact hc.trans (Set.union_subset_union_right _ hop.sets)

theorem reads_one {x : HostCell} (hx : x ∈ Γ) : ({x} : Set HostCell) ⊆ Γ :=
  Set.singleton_subset_iff.mpr hx

theorem reads_two {x y : HostCell} (hx : x ∈ Γ) (hy : y ∈ Γ) : ({x, y} : Set HostCell) ⊆ Γ :=
  Set.insert_subset hx (reads_one hy)

theorem reads_three {x y z : HostCell} (hx : x ∈ Γ) (hy : y ∈ Γ) (hz : z ∈ Γ) :
    ({x, y, z} : Set HostCell) ⊆ Γ := Set.insert_subset hx (reads_two hy hz)

/-- An operation that sets one register. -/
theorem works_of_writes {op : Operation} {x : HostCell} (hop : op.Inline) (hwrites : op.writes = {x})
    (hne : ∀ n, op ≠ .subDowncount n) (hx : x ≠ .reg HostReg.downcount) (hreads : op.reads ⊆ Γ)
    (hM : M ⊆ {x}) : Works op Γ M :=
  ⟨hop, Operation.quiet_of_writes_eq hwrites hx hne, hreads, by rwa [hwrites]⟩

/-- **Emitting an operation that sets one register.** -/
theorem tame_set {op : Operation} {x : HostCell} (hop : op.Inline) (hwrites : op.writes = {x})
    (hne : ∀ n, op ≠ .subDowncount n) (hx : x ≠ .reg HostReg.downcount) (hreads : op.reads ⊆ Γ)
    (hM : M ⊆ {x}) : Tame Γ M (emit op) 1 fun _ => {x} ∪ Γ := by
  have hemit := tame_emit (works_of_writes hop hwrites hne hx hreads hM)
  rwa [hwrites] at hemit

/-- **Emitting an operation that sets nothing.** -/
theorem tame_effect {op : Operation} (hop : op.Inline) (hwrites : op.writes = ∅)
    (hne : ∀ n, op ≠ .subDowncount n) (hreads : op.reads ⊆ Γ) :
    Tame Γ ∅ (emit op) 1 fun _ => Γ := by
  have hemit := tame_emit (M := ∅) ⟨hop, Operation.quiet_of_writes_eq_empty hwrites hne, hreads,
    Set.empty_subset _⟩
  rwa [hwrites, Set.empty_union] at hemit

theorem ne_downcount_of_lt {a : HostReg} (ha : a.val < 13) :
    HostCell.reg a ≠ .reg HostReg.downcount := by
  intro heq
  rw [HostCell.reg.inj heq] at ha
  exact absurd ha (by decide)

/-- A copy, or nothing when source and destination are the same. -/
theorem tame_copy {c : Prop} [Decidable c] {op : Operation} {x y : HostCell} (hc : c → x = y)
    (hop : Works op Γ M) (hwrites : op.writes = {x}) (hy : y ∈ Γ) (hM : M ⊆ {x}) :
    Tame Γ M (unless c do emit op) 1 fun _ => {x} ∪ Γ := by
  show Tame Γ M (if c then pure () else emit op) 1 _
  split
  · rename_i h
    have hx : {x} ⊆ Γ := Set.singleton_subset_iff.mpr (hc h ▸ hy)
    exact ((tame_pure ()).ofSet (hM.trans hx)).mono (Nat.zero_le 1)
      fun _ => Set.union_subset hx subset_rfl
  · have hemit := tame_emit hop
    rwa [hwrites] at hemit

theorem tame_move {rd rs : HostReg} (hrd : rd.val < 13) (hrs : .reg rs ∈ Γ) (hM : M ⊆ {.reg rd}) :
    Tame Γ M (move rd rs) 1 fun _ => {.reg rd} ∪ Γ :=
  tame_copy (fun heq => congrArg HostCell.reg heq) (works_of_writes trivial rfl nofun
    (ne_downcount_of_lt hrd) (reads_one hrs) hM) rfl hrs hM

theorem tame_moveFloat {fd fs : FloatReg} (hfs : .floatReg fs ∈ Γ) (hM : M ⊆ {.floatReg fd}) :
    Tame Γ M (moveFloat fd fs) 1 fun _ => {.floatReg fd} ∪ Γ :=
  tame_copy (fun heq => congrArg HostCell.floatReg heq) (works_of_writes trivial rfl nofun
    nofun (reads_one hfs) hM) rfl hfs hM

/-! ### Scalar registers -/

/-- The plan of an action on the scalar cache. -/
def scalarPlan (wanted : GuestReg) (action : ScalarCache → Option (Placed HostReg ScalarCache)) :
    Plan HostReg := fun c =>
  match action c.scalars with
  | none => .error (.registersExhausted (.scalar wanted))
  | some p => .ok ⟨p.reg, p.code, { c with scalars := p.cache }⟩

theorem follows_useScalars (wanted : GuestReg)
    (action : ScalarCache → Option (Placed HostReg ScalarCache)) :
    Follows (useScalars wanted action) (scalarPlan wanted action) := by
  intro s b
  rw [useScalars_eq, scalarPlan, show b.context.scalars = b.scalars from rfl]
  cases action b.scalars <;> rfl

/-- A register of the scalar cache, and nothing else, was bound. -/
theorem diff_subset_of_scalars {c : Context} {d : ScalarCache} {G X : Set HostCell}
    (hc : c.cells ⊆ G) (hd : d.cells ⊆ c.scalars.cells ∪ X) :
    Context.cells { c with scalars := d } \ X ⊆ G := by
  rintro x ⟨hx | hx, hX⟩
  · exact hc (.inl ((hd hx).resolve_right hX))
  · exact hc (.inr hx)

/-- **A host register with the value of a scalar register.** -/
theorem handsOut_bindReg (r : GuestReg) :
    HandsOut ∅ ∅ (Lowering.bind r) 1 (fun a => {.reg a}) (fun _ => ∅) fun a => a.val < 13 := by
  refine ⟨_, follows_useScalars r _, fun c G _ hc => ?_⟩
  rw [Set.union_empty] at hc
  rw [scalarPlan]
  cases hp : c.scalars.bind? r with
  | none => exact ⟨_, rfl⟩
  | some p =>
    obtain ⟨htidy, hlt⟩ := ScalarCache.tidy_bind? hp
    have hscalars : c.scalars.cells ⊆ G := Set.subset_union_left.trans hc
    refine ⟨hlt, htidy.inline, htidy.quiet, htidy.inScope.mono hscalars, ?_, ?_⟩
    · have hcovers := htidy.covers.trans (Set.union_subset_union_left _ hscalars)
      refine Set.union_subset (Set.subset_union_right.trans hcovers) (Set.sdiff_subset.trans ?_)
      exact Set.union_subset (Set.subset_union_left.trans hcovers)
        (Set.subset_union_right.trans (hc.trans Set.subset_union_left))
    · have hpaid := htidy.paid
      simp only [Context.owed]
      omega

/-- **A host register that its user writes first.** -/
theorem handsOut_bindForWrite (r : GuestReg) :
    HandsOut ∅ ∅ (bindForWrite r) 1 (fun _ => ∅) (fun a => {.reg a}) fun a => a.val < 13 := by
  refine ⟨_, follows_useScalars r _, fun c G _ hc => ?_⟩
  rw [Set.union_empty] at hc
  rw [scalarPlan]
  cases hp : c.scalars.bindForWrite? r with
  | none => exact ⟨_, rfl⟩
  | some p =>
    have hprep := ScalarCache.prepares_bindForWrite? hp
    refine ⟨hprep.lt, hprep.inline, hprep.quiet, hprep.inScope.mono
      (SlotArena.freeCells_subset.trans (Set.subset_union_left.trans hc)), ?_, ?_⟩
    · refine Set.union_subset (Set.empty_subset _) ?_
      exact (diff_subset_of_scalars hc hprep.covers).trans Set.subset_union_left
    · have hpaid := hprep.paid
      simp only [Context.owed]
      omega

/-- **Two host registers that their user writes.**  The first is locked, so that it is not stored
for the second. -/
theorem handsOut_bindPair (r r' : GuestReg) :
    HandsOut ∅ ∅ (do
      let a ← bindForWrite r
      let a' ← bindForWrite r'
      return (a, a')) 2 (fun _ => ∅) (fun p => {.reg p.1, .reg p.2})
      fun p => p.1.val < 13 ∧ p.2.val < 13 := by
  have hplan : Follows (do
      let a ← bindForWrite r
      let a' ← bindForWrite r'
      return (a, a')) ((scalarPlan r (·.bindForWrite? r)).bind fun a =>
        (scalarPlan r' (·.bindForWrite? r')).bind fun a' => fun c => .ok ⟨(a, a'), [], c⟩) := by
    refine follows_bind (follows_useScalars r _) fun _ _ _ => ?_
    exact follows_bind (follows_useScalars r' _) fun _ _ _ _ _ => rfl
  refine ⟨_, hplan, fun c G _ hc => ?_⟩
  rw [Set.union_empty] at hc
  simp only [Plan.bind, scalarPlan]
  cases hp : c.scalars.bindForWrite? r with
  | none => exact ⟨_, rfl⟩
  | some p =>
    have hprep := ScalarCache.prepares_bindForWrite? hp
    dsimp only [Bind.bind, Except.bind]
    cases hp' : p.cache.bindForWrite? r' with
    | none => exact ⟨_, rfl⟩
    | some p' =>
      have hprep' := ScalarCache.prepares_bindForWrite? hp'
      have hscalars : c.scalars.cells ⊆ G := Set.subset_union_left.trans hc
      have hfree : p.cache.freeCells ⊆ G := fun x hx =>
        hscalars ((hprep.covers (SlotArena.freeCells_subset hx)).resolve_right
          fun heq => hprep.held (heq ▸ hx))
      have hcovers : p'.cache.cells ⊆ c.scalars.cells ∪ {.reg p.reg, .reg p'.reg} := by
        refine hprep'.covers.trans (Set.union_subset (hprep.covers.trans ?_) ?_)
        · exact Set.union_subset_union_right _ (by simp)
        · exact Set.Subset.trans (by simp) Set.subset_union_right
      have hcode : Host.Scoped G (p.code ++ p'.code) :=
        (hprep.inScope.mono (SlotArena.freeCells_subset.trans hscalars)).append
          (hprep'.inScope.mono (hfree.trans Set.subset_union_left))
      refine ⟨⟨hprep.lt, hprep'.lt⟩, ?_⟩
      show Tidy (p.code ++ (p'.code ++ [])) G _ _ _
      rw [List.append_nil]
      refine ⟨hprep.inline.append hprep'.inline, fun op hop =>
        (List.mem_append.mp hop).elim (hprep.quiet op) (hprep'.quiet op), hcode, ?_, ?_⟩
      · refine Set.union_subset (Set.empty_subset _) ?_
        exact (diff_subset_of_scalars hc hcovers).trans Set.subset_union_left
      · have hpaid := hprep.paid
        have hpaid' := hprep'.paid
        simp only [Context.owed, List.length_append]
        omega

/-- A step that only changes the context, for a cost. -/
theorem tame_change {act : Lowering Unit} {f : Context → Context}
    (hact : Follows act fun c => .ok ⟨(), [], f c⟩) (hcells : ∀ c, (f c).cells ⊆ c.cells)
    (howed : ∀ c, (f c).owed ≤ c.owed + n) : Tame Γ ∅ act n fun _ => Γ := by
  refine ⟨_, hact, fun c G hG hc => ⟨trivial, .nil ?_ (howed c)⟩⟩
  rw [Set.union_empty] at hc
  exact Set.union_subset hG (Set.sdiff_subset.trans ((hcells c).trans hc))

theorem tame_markDirty (r : GuestReg) : Tame Γ ∅ (markDirty r) 1 fun _ => Γ := by
  refine tame_change (f := fun c => { c with scalars := c.scalars.markDirty r }) (fun s b => rfl)
    (fun c => ?_) fun c => ?_
  · exact Set.union_subset_union_left _ (ScalarCache.cells_markDirty r).subset
  · have hle := c.scalars.owed_markDirty_le r
    simp only [Context.owed]
    omega

/-! ### Elements -/

/-- The plan of an action on the element cache. -/
def elementPlan {R : Type} (wanted : Wanted)
    (action : ElementCache → Option (Placed R ElementCache)) : Plan R := fun c =>
  match action c.elements with
  | none => .error (.registersExhausted wanted)
  | some p => .ok ⟨p.reg, p.code, { c with elements := p.cache }⟩

theorem follows_useElements {R : Type} (wanted : Wanted)
    (action : ElementCache → Option (Placed R ElementCache)) :
    Follows (useElements wanted action) (elementPlan wanted action) := by
  intro s b
  rw [useElements_eq, elementPlan, show b.context.elements = b.elements from rfl]
  cases action b.elements <;> rfl

/-- Taking the result of a tidy action on the element cache. -/
theorem handsOut_useElements {R : Type} {wanted : Wanted} {cell : R → HostCell}
    {action : ElementCache → Option (Placed R ElementCache)} (load : Bool)
    (haction : ∀ c p, action c = some p → Tidy p.code c.cells
      (p.cache.cells \ ElementCache.unset load (cell p.reg)) (c.owed + 1) p.cache.owed ∧
        cell p.reg ∈ p.cache.cells) :
    HandsOut ∅ ∅ (useElements wanted action) 1
      (fun a => if load then {cell a} else ∅) (fun a => if load then ∅ else {cell a})
      fun _ => True := by
  refine ⟨_, follows_useElements wanted action, fun c G _ hc => ?_⟩
  rw [Set.union_empty] at hc
  rw [elementPlan]
  cases hp : action c.elements with
  | none => exact ⟨_, rfl⟩
  | some p =>
    obtain ⟨htidy, hheld⟩ := haction _ p hp
    have helements : c.elements.cells ⊆ G := Set.subset_union_right.trans hc
    have hcovers := htidy.covers.trans (Set.union_subset_union_left _ helements)
    refine ⟨trivial, htidy.inline, htidy.quiet, htidy.inScope.mono helements, ?_, ?_⟩
    · refine Set.union_subset ?_ ?_
      · cases load with
        | false => exact Set.empty_subset _
        | true =>
          refine Set.Subset.trans ?_ hcovers
          exact Set.singleton_subset_iff.mpr ⟨hheld, id⟩
      · rintro x ⟨hx | hx, hD⟩
        · exact .inl (hc (.inl hx))
        · exact hcovers ⟨hx, hD⟩
    · have hpaid := htidy.paid
      simp only [Context.owed]
      omega

theorem handsOut_readElement (e : Element) :
    HandsOut ∅ ∅ (readElement e) 1 (fun a => {.floatReg a}) (fun _ => ∅) fun _ => True :=
  handsOut_useElements true fun _ _ hp => ElementCache.tidy_bindElement? hp

theorem handsOut_writeElement (e : Element) :
    HandsOut ∅ ∅ (writeElement e) 1 (fun _ => ∅) (fun a => {.floatReg a}) fun _ => True :=
  handsOut_useElements false fun _ _ hp => ElementCache.tidy_bindElement? hp

theorem handsOut_readQuad (reg : UInt8) :
    HandsOut ∅ ∅ (readQuad reg) 1 (fun a => {.quadReg a}) (fun _ => ∅) fun _ => True :=
  handsOut_useElements true fun _ _ hp => ElementCache.tidy_bindQuad? hp

theorem handsOut_writeQuad (reg : UInt8) :
    HandsOut ∅ ∅ (writeQuad reg) 1 (fun _ => ∅) (fun a => {.quadReg a}) fun _ => True :=
  handsOut_useElements false fun _ _ hp => ElementCache.tidy_bindQuad? hp

theorem tame_temporary : Tame Γ ∅ temporary 0 fun _ => Γ := by
  refine ⟨_, follows_useElements _ _, fun c G hG hc => ?_⟩
  rw [Set.union_empty] at hc
  rw [elementPlan]
  cases hp : c.elements.temporary? with
  | none => exact ⟨_, rfl⟩
  | some p =>
    have hcache : p.code = [] ∧ p.cache.cells = c.elements.cells ∧ p.cache.owed = c.elements.owed := by
      rw [ElementCache.temporary?] at hp
      split at hp
      · cases hp
        exact ⟨rfl, rfl, rfl⟩
      · cases hp
    obtain ⟨hcode, hcells, howed⟩ := hcache
    refine ⟨trivial, ?_⟩
    rw [hcode]
    refine .nil (Set.union_subset hG (Set.sdiff_subset.trans ?_)) ?_
    · exact Set.union_subset (Set.subset_union_left.trans hc)
        (hcells.subset.trans (Set.subset_union_right.trans hc))
    · exact (congrArg (c.scalars.owed + ·) howed).le

/-! ### The whole caches -/

theorem tame_releaseLocks : Tame Γ ∅ releaseLocks 0 fun _ => Γ := by
  refine tame_change (f := fun c => { c with
    scalars := c.scalars.releaseLocks, elements := c.elements.releaseLocks }) (fun s b => rfl)
    (fun c => Eq.subset ?_) fun c => le_of_eq ?_
  · simp only [Context.cells, ScalarCache.cells, ElementCache.cells, ScalarCache.releaseLocks,
      ElementCache.releaseLocks]
    rw [SlotArena.cells_congr (a := c.scalars.arena) fun j => by simp,
      SlotArena.cells_congr (a := c.elements.floats) fun j => by simp,
      SlotArena.cells_congr (a := c.elements.quads) fun j => by simp]
  · simp only [Context.owed, ScalarCache.owed, ElementCache.owed, ScalarCache.releaseLocks,
      ElementCache.releaseLocks, SlotArena.owed_releaseLocks, Nat.add_zero]

theorem tame_discardAll : Tame Γ ∅ discardAll 0 fun _ => Γ := by
  refine tame_change (f := fun c => { c with
    scalars := c.scalars.discardAll, elements := c.elements.discardAll }) (fun s b => rfl)
    (fun c => ?_) fun c => ?_
  · simp only [Context.cells, ScalarCache.cells, ElementCache.cells, ScalarCache.discardAll,
      ElementCache.discardAll]
    rw [SlotArena.cells_eq_empty fun j => by simp, SlotArena.cells_eq_empty fun j => by simp,
      SlotArena.cells_eq_empty fun j => by simp]
    simp
  · simp only [Context.owed, ScalarCache.owed, ElementCache.owed, ScalarCache.discardAll,
      ElementCache.discardAll, SlotArena.owed_clearAll]
    exact Nat.zero_le _

theorem tame_updateModifiers (f : ModifierTracker → ModifierTracker) :
    Tame Γ ∅ (updateModifiers f) 0 fun _ => Γ :=
  tame_change (f := fun c => { c with modifiers := f c.modifiers }) (fun _ _ => rfl)
    (fun _ => subset_rfl) fun _ => le_rfl

theorem length_dirtySlots_le (t : ModifierTracker) : t.dirtySlots.length ≤ 3 :=
  (List.length_filterMap_le _ _).trans (by decide)

theorem tame_flushModifiers : Tame Γ ∅ flushModifiers 3 fun _ => Γ := by
  refine ⟨fun c => .ok ⟨(), c.modifiers.dirtySlots.map storeModifier,
    { c with modifiers := c.modifiers.markFlushed }⟩, fun s b => flushModifiers_eq b,
    fun c G hG hc => ⟨trivial, AllInline.map (f := storeModifier) (fun _ => trivial) _,
    fun op hop => ?_,
      Host.scoped_of_reads_eq_empty fun op hop => ?_, ?_, ?_⟩⟩
  · obtain ⟨p, -, rfl⟩ := List.mem_map.mp hop
    exact Operation.quiet_of_writes_eq_empty rfl nofun
  · obtain ⟨p, -, rfl⟩ := List.mem_map.mp hop
    exact Set.empty_subset _
  · rw [Set.union_empty] at hc
    exact (Set.union_subset hG (Set.sdiff_subset.trans hc)).trans Set.subset_union_left
  · rw [List.length_map, Nat.add_comm]
    exact Nat.add_le_add_left (length_dirtySlots_le _) _

/-- **Making the guest state current** pays all debt, and stores at most three modifiers. -/
theorem tame_flushAll : Tame Γ ∅ flushAll 3 fun _ => Γ := by
  have hbindings : Tame Γ ∅ (modify fun b => flushedBindings b : Lowering Unit) 0 fun _ => Γ := by
    refine ⟨fun c => .ok ⟨(), c.scalars.flushAll.1 ++ c.elements.flushAll.1,
      { c with scalars := c.scalars.flushAll.2, elements := c.elements.flushAll.2 }⟩,
      fun s b => rfl, fun c G hG hc => ⟨trivial, ?_⟩⟩
    rw [Set.union_empty] at hc
    have hx := ScalarCache.tidy_flushAll (c := c.scalars)
    have hy := ElementCache.tidy_flushAll (c := c.elements)
    have hxcells : c.scalars.cells ⊆ G := Set.subset_union_left.trans hc
    have hycells : c.elements.cells ⊆ G := Set.subset_union_right.trans hc
    refine ⟨hx.inline.append hy.inline, fun op hop => (List.mem_append.mp hop).elim (hx.quiet op)
      (hy.quiet op), (hx.inScope.mono hxcells).append
        (hy.inScope.mono (hycells.trans Set.subset_union_left)), ?_, ?_⟩
    · rw [Host.allWrites_append]
      refine Set.union_subset (hG.trans Set.subset_union_left) (Set.sdiff_subset.trans ?_)
      refine Set.union_subset (hx.covers.trans ?_) (hy.covers.trans ?_)
      · exact Set.union_subset_union hxcells Set.subset_union_left
      · exact Set.union_subset_union hycells Set.subset_union_right
    · have hxpaid := hx.paid
      have hypaid := hy.paid
      simp only [Context.owed, List.length_append]
      omega
  have hseq : flushAll = (modify fun b => flushedBindings b : Lowering Unit) >>= fun _ =>
      flushModifiers := rfl
  rw [hseq]
  exact tame_then hbindings (Nat.zero_le 3) fun _ => tame_flushModifiers

/-! ### Lists -/

theorem tame_mapM {ι : Type} {f : ι → Lowering FloatReg}
    (hf : ∀ x Γ', Γ ⊆ Γ' → Tame Γ' ∅ (f x) n fun a => {.floatReg a} ∪ Γ') (l : List ι) :
    Tame Γ ∅ (l.mapM f) (n * l.length) fun as => {x | ∃ a ∈ as, x = .floatReg a} ∪ Γ := by
  induction l generalizing Γ with
  | nil =>
    rw [List.mapM_nil]
    exact tame_return (by simp)
  | cons x rest ih =>
    rw [List.mapM_cons, List.length_cons, Nat.mul_succ, Nat.add_comm]
    refine (hf x Γ subset_rfl).bind fun a _ => ?_
    refine tame_then (ih fun y Γ' hΓ' => hf y Γ' (Set.subset_union_right.trans hΓ')) le_rfl
      fun as => HandsOut.mono (tame_return ?_) (Nat.zero_le _) fun _ => subset_rfl
    rintro y (⟨a', ha', rfl⟩ | hy)
    · rcases List.mem_cons.mp ha' with rfl | ha'
      · exact .inr (.inl rfl)
      · exact .inl ⟨a', ha', rfl⟩
    · exact .inr (.inr hy)

theorem tame_forM {ι : Type} {f : ι → Lowering PUnit} (hf : ∀ x, Tame Γ ∅ (f x) n fun _ => Γ)
    (l : List ι) : Tame Γ ∅ (l.forM f) (n * l.length) fun _ => Γ := by
  induction l with
  | nil => exact tame_pure _
  | cons x rest ih =>
    rw [List.length_cons, Nat.mul_succ, Nat.add_comm]
    exact (hf x).bind fun _ _ => ih

end Lowering

end Dynarec
