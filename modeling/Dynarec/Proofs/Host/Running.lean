import Dynarec.Host.Executor
import Mathlib.Logic.Relation

/-!
# Host steps

`Host.Step` is one operation of a run that goes on; `Host.Reaches` is any number of them.  A run
from a cursor is a run from any cursor that it reaches (`Reaches.runCursor_eq`), and the outcome of
a run does not depend on the fuel that is left over (`runFrom_mono`).  A step is a function
(`step?_eq_some_iff`), so a run can be followed for some operations (`stepsLater`).  A stretch of
operations without jumps is run as a whole by `runOps` (`Laid.runOps_next`, `Laid.runOps_stop`);
what is left of a run that ended is in `Laid.follows`.
-/

namespace Dynarec

namespace Host

/-- Where a run is: the next word, and the registers and the machine in front of it. -/
structure Cursor where
  offset : Nat
  host : HostState
  machine : Machine

/-- The operation at an offset. -/
def operationAt? (code : Array HostWord) (offset : Nat) : Option Operation :=
  (code[offset]?).bind Operation.decode?

/-- **One operation of a run that goes on.** -/
inductive Step (code : Array HostWord) : Cursor → Cursor → Prop
  | next {c : Cursor} {op : Operation} {h : HostState} {m : Machine}
      (hop : operationAt? code c.offset = some op)
      (hperform : op.perform c.host c.machine = .next h m) : Step code c ⟨c.offset + 1, h, m⟩
  | jump {c : Cursor} {op : Operation} {target : Nat} {h : HostState} {m : Machine}
      (hop : operationAt? code c.offset = some op)
      (hperform : op.perform c.host c.machine = .jump target h m) : Step code c ⟨target, h, m⟩

/-- **Any number of operations.** -/
abbrev Reaches (code : Array HostWord) : Cursor → Cursor → Prop :=
  Relation.ReflTransGen (Step code)

/-- A run from a cursor. -/
def runCursor (code : Array HostWord) (fuel : Nat) (c : Cursor) : RunResult :=
  runFrom code fuel c.offset c.host c.machine

theorem Step.runCursor_eq {code : Array HostWord} {c c' : Cursor} (h : Step code c c') (fuel : Nat) :
    runCursor code (fuel + 1) c = runCursor code fuel c' := by
  cases h with
  | next hop hperform =>
    rw [Host.runCursor, runFrom]
    rw [operationAt?] at hop
    rw [hop]
    simp only [hperform]
    rfl
  | jump hop hperform =>
    rw [Host.runCursor, runFrom]
    rw [operationAt?] at hop
    rw [hop]
    simp only [hperform]
    rfl

/-- **A run goes through the cursors that it reaches.** -/
theorem Reaches.runCursor_eq {code : Array HostWord} {c c' : Cursor} (h : Reaches code c c') :
    ∃ n, ∀ fuel, runCursor code (fuel + n) c = runCursor code fuel c' := by
  induction h using Relation.ReflTransGen.head_induction_on with
  | refl => exact ⟨0, fun _ => rfl⟩
  | head hstep _ ih =>
    obtain ⟨n, hn⟩ := ih
    exact ⟨n + 1, fun fuel => (hstep.runCursor_eq (fuel + n)).trans (hn fuel)⟩

/-- The cursor after one operation, if the run goes on. -/
def step? (code : Array HostWord) (c : Cursor) : Option Cursor :=
  (operationAt? code c.offset).bind fun op =>
    match op.perform c.host c.machine with
    | .next h m => some ⟨c.offset + 1, h, m⟩
    | .jump target h m => some ⟨target, h, m⟩
    | _ => none

/-- **Steps can be computed**, so a cursor has one successor at most. -/
theorem step?_eq_some_iff {code : Array HostWord} {c c' : Cursor} :
    step? code c = some c' ↔ Step code c c' := by
  constructor
  · intro h
    obtain ⟨op, hop, hnext⟩ := Option.bind_eq_some_iff.mp h
    cases hperform : op.perform c.host c.machine with
    | next h m =>
      rw [hperform] at hnext
      cases hnext
      exact .next hop hperform
    | jump target h m =>
      rw [hperform] at hnext
      cases hnext
      exact .jump hop hperform
    | exit reason h m =>
      rw [hperform] at hnext
      cases hnext
    | broken v =>
      rw [hperform] at hnext
      cases hnext
  · intro h
    cases h with
    | next hop hperform | jump hop hperform =>
      rw [step?, hop, Option.bind_some, hperform]

/-- **So many operations later**, if the run goes on. -/
def stepsLater (code : Array HostWord) : Nat → Cursor → Option Cursor
  | 0, c => some c
  | n + 1, c => (step? code c).bind (stepsLater code n)

theorem transGen_of_stepsLater {code : Array HostWord} {n : Nat} {c c' : Cursor}
    (h : stepsLater code (n + 1) c = some c') : Relation.TransGen (Step code) c c' := by
  induction n generalizing c with
  | zero =>
    obtain ⟨c₁, hstep, hrest⟩ := Option.bind_eq_some_iff.mp h
    cases hrest
    exact .single (step?_eq_some_iff.mp hstep)
  | succ n ih =>
    obtain ⟨c₁, hstep, hrest⟩ := Option.bind_eq_some_iff.mp h
    exact .head (step?_eq_some_iff.mp hstep) (ih hrest)

/-- A run that ended does not look at the fuel that is left. -/
theorem runFrom_mono {code : Array HostWord} (fuel more : Nat) (offset : Nat) (h : HostState)
    (m : Machine) (hne : runFrom code fuel offset h m ≠ .error .outOfSteps) :
    runFrom code (fuel + more) offset h m = runFrom code fuel offset h m := by
  induction fuel generalizing offset h m with
  | zero => exact absurd rfl hne
  | succ fuel ih =>
    rw [Nat.add_right_comm]
    rw [runFrom] at hne ⊢
    rw [runFrom]
    cases hop : (code[offset]?).bind Operation.decode? with
    | none => rfl
    | some op =>
      rw [hop] at hne
      simp only at hne ⊢
      cases hperform : op.perform h m with
      | next h' m' =>
        rw [hperform] at hne
        exact ih _ _ _ hne
      | jump target h' m' =>
        rw [hperform] at hne
        exact ih _ _ _ hne
      | exit reason h' m' => rfl
      | broken v => rfl

/-! ### Stretches of code -/

/-- The operations of a list are laid out from an offset on. -/
def Laid (code : Array HostWord) (offset : Nat) (ops : List Operation) : Prop :=
  ∀ k op, ops[k]? = some op → operationAt? code (offset + k) = some op

theorem Laid.head {code : Array HostWord} {offset : Nat} {op : Operation} {ops : List Operation}
    (h : Laid code offset (op :: ops)) : operationAt? code offset = some op := h 0 op rfl

theorem Laid.tail {code : Array HostWord} {offset : Nat} {op : Operation} {ops : List Operation}
    (h : Laid code offset (op :: ops)) : Laid code (offset + 1) ops := by
  intro k x hx
  have hk := h (k + 1) x hx
  rw [show offset + 1 + k = offset + (k + 1) by omega]
  exact hk

/-- Perform operations one after the other, up to the first that does not go on. -/
def runOps : List Operation → HostState → Machine → Outcome
  | [], h, m => .next h m
  | op :: rest, h, m =>
    match op.perform h m with
    | .next h m => runOps rest h m
    | outcome => outcome

@[simp] theorem runOps_nil (h : HostState) (m : Machine) : runOps [] h m = .next h m := rfl

/-- The outcome is a jump, an exit or a broken promise. -/
def Stops : Outcome → Prop
  | .next _ _ => False
  | _ => True

theorem runOps_cons_next {op : Operation} {rest : List Operation} {h h' : HostState}
    {m m' : Machine} (hop : op.perform h m = .next h' m') :
    runOps (op :: rest) h m = runOps rest h' m' := by
  rw [runOps, hop]

theorem runOps_append (xs ys : List Operation) (h : HostState) (m : Machine) :
    runOps (xs ++ ys) h m =
      match runOps xs h m with
      | .next h m => runOps ys h m
      | outcome => outcome := by
  induction xs generalizing h m with
  | nil => rfl
  | cons op rest ih =>
    rw [List.cons_append, runOps, runOps]
    cases op.perform h m with
    | next h' m' => exact ih h' m'
    | jump target h' m' => rfl
    | exit reason h' m' => rfl
    | broken v => rfl

/-- **A stretch that is run to its end leads to the word behind it.** -/
theorem Laid.runOps_next {code : Array HostWord} {offset : Nat} {ops : List Operation}
    (hlaid : Laid code offset ops) {h h' : HostState} {m m' : Machine}
    (hrun : runOps ops h m = .next h' m') :
    Reaches code ⟨offset, h, m⟩ ⟨offset + ops.length, h', m'⟩ := by
  induction ops generalizing offset h m with
  | nil =>
    rw [runOps] at hrun
    cases hrun
    exact Relation.ReflTransGen.refl
  | cons op rest ih =>
    rw [runOps] at hrun
    cases hop : op.perform h m with
    | next h₁ m₁ =>
      rw [hop] at hrun
      have hstep : Step code ⟨offset, h, m⟩ ⟨offset + 1, h₁, m₁⟩ := .next hlaid.head hop
      rw [List.length_cons, show offset + (rest.length + 1) = offset + 1 + rest.length by omega]
      exact Relation.ReflTransGen.head hstep (ih hlaid.tail hrun)
    | jump target h₁ m₁ => rw [hop] at hrun; cases hrun
    | exit reason h₁ m₁ => rw [hop] at hrun; cases hrun
    | broken v => rw [hop] at hrun; cases hrun

/-- **A stretch that stops leads to the operation that stops it.** -/
theorem Laid.runOps_stop {code : Array HostWord} {offset : Nat} {ops : List Operation}
    (hlaid : Laid code offset ops) {h : HostState} {m : Machine} {outcome : Outcome}
    (hrun : runOps ops h m = outcome) (hstop : Stops outcome) :
    ∃ k h' m' op, k < ops.length ∧ Reaches code ⟨offset, h, m⟩ ⟨offset + k, h', m'⟩ ∧
      operationAt? code (offset + k) = some op ∧ op.perform h' m' = outcome := by
  induction ops generalizing offset h m with
  | nil =>
    rw [runOps] at hrun
    subst hrun
    exact absurd hstop not_false
  | cons op rest ih =>
    rw [runOps] at hrun
    cases hop : op.perform h m with
    | next h₁ m₁ =>
      rw [hop] at hrun
      obtain ⟨k, h', m', op', hk, hreach, hop', hperform⟩ := ih hlaid.tail hrun
      have hstep : Step code ⟨offset, h, m⟩ ⟨offset + 1, h₁, m₁⟩ := .next hlaid.head hop
      refine ⟨k + 1, h', m', op', Nat.succ_lt_succ hk, ?_, ?_, hperform⟩
      · rw [show offset + (k + 1) = offset + 1 + k by omega]
        exact Relation.ReflTransGen.head hstep hreach
      · rw [show offset + (k + 1) = offset + 1 + k by omega]
        exact hop'
    | jump target h₁ m₁ =>
      rw [hop] at hrun
      exact ⟨0, h, m, op, Nat.succ_pos _, Relation.ReflTransGen.refl, hlaid.head,
        hop.trans hrun⟩
    | exit reason h₁ m₁ =>
      rw [hop] at hrun
      exact ⟨0, h, m, op, Nat.succ_pos _, Relation.ReflTransGen.refl, hlaid.head,
        hop.trans hrun⟩
    | broken v =>
      rw [hop] at hrun
      exact ⟨0, h, m, op, Nat.succ_pos _, Relation.ReflTransGen.refl, hlaid.head,
        hop.trans hrun⟩

/-! ### Runs that ended -/

/-- **What is left of a run that ends with a result**, behind an outcome in front of `offset`. -/
def Follows (code : Array HostWord) (fuel offset : Nat) (result : ExitReason × HostState × Machine) :
    Outcome → Prop
  | .next h m => runCursor code fuel ⟨offset, h, m⟩ = .ok result
  | .jump target h m => runCursor code fuel ⟨target, h, m⟩ = .ok result
  | .exit reason h m => result = (reason, h, m)
  | .broken _ => False

variable {code : Array HostWord} {fuel offset : Nat} {h : HostState} {m : Machine}
  {result : ExitReason × HostState × Machine}

/-- **The first operation of a run that ended.** -/
theorem follows_of_operationAt? {op : Operation} (hop : operationAt? code offset = some op)
    (hrun : runCursor code fuel ⟨offset, h, m⟩ = .ok result) :
    ∃ fuel' < fuel, Follows code fuel' (offset + 1) result (op.perform h m) := by
  cases fuel with
  | zero => cases hrun
  | succ fuel =>
    refine ⟨fuel, Nat.lt_succ_self fuel, ?_⟩
    rw [operationAt?] at hop
    rw [runCursor, runFrom, hop] at hrun
    cases hperform : op.perform h m with
    | next h' m' =>
      simp only [hperform] at hrun
      exact hrun
    | jump target h' m' =>
      simp only [hperform] at hrun
      exact hrun
    | exit reason h' m' =>
      simp only [hperform] at hrun
      exact (Except.ok.inj hrun).symm
    | broken v =>
      simp only [hperform] at hrun
      cases hrun

/-- **The first stretch of a run that ended.** -/
theorem Laid.follows {ops : List Operation} (hlaid : Laid code offset ops)
    (hrun : runCursor code fuel ⟨offset, h, m⟩ = .ok result) :
    ∃ fuel' ≤ fuel, Follows code fuel' (offset + ops.length) result (runOps ops h m) := by
  induction ops generalizing offset fuel h m with
  | nil => exact ⟨fuel, Nat.le_refl fuel, hrun⟩
  | cons op rest ih =>
    obtain ⟨fuel₁, hlt, hfollows⟩ := follows_of_operationAt? hlaid.head hrun
    rw [runOps]
    cases hperform : op.perform h m with
    | next h' m' =>
      rw [hperform] at hfollows
      obtain ⟨fuel₂, hle, hrest⟩ := ih hlaid.tail hfollows
      rw [List.length_cons, show offset + (rest.length + 1) = offset + 1 + rest.length by omega]
      exact ⟨fuel₂, by omega, hrest⟩
    | jump target h' m' =>
      rw [hperform] at hfollows
      exact ⟨fuel₁, Nat.le_of_lt hlt, hfollows⟩
    | exit reason h' m' =>
      rw [hperform] at hfollows
      exact ⟨fuel₁, Nat.le_of_lt hlt, hfollows⟩
    | broken v =>
      rw [hperform] at hfollows
      exact hfollows.elim

end Host

end Dynarec
