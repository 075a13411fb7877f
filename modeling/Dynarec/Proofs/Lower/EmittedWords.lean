import Dynarec.Proofs.Lower.CacheCode
import Dynarec.Proofs.Lower.Growth

/-!
# Running emitted words

`Host.runWords?` decodes words one after the other and performs them, as a run of the code that
holds them does (`Host.reaches_of_runWords?`).  The words of straight code run as the operations do
that were asked for (`AllInline.runWords?_eq`).  A run is a chain of steps, and keeps what every
step keeps (`foldlM_keeps`).
-/

namespace Dynarec

/-- **Several steps keep what one step keeps.**  A state `s` stands for `g`; a step changes what is
seen of `g` as its request says. -/
theorem foldlM_keeps {S Q G V : Type} {step? : S → Q → Option S} {Inv : S → G → Prop} {view : G → V}
    {change : V → Q → V} (Legal : Q → Prop)
    (hstep : ∀ s g q s', Inv s g → Legal q → step? s q = some s' →
      ∃ g', Inv s' g' ∧ view g' = change (view g) q)
    {requests : List Q} (hlegal : ∀ q ∈ requests, Legal q) {s s' : S} {g : G} (x : Inv s g)
    (hrun : requests.foldlM step? s = some s') :
    ∃ g', Inv s' g' ∧ view g' = requests.foldl change (view g) := by
  induction requests generalizing s g with
  | nil =>
    cases hrun
    exact ⟨g, x, rfl⟩
  | cons q rest ih =>
    rw [List.foldlM_cons, Option.bind_eq_bind, Option.bind_eq_some_iff] at hrun
    obtain ⟨s₁, hs₁, hrest⟩ := hrun
    obtain ⟨g₁, x₁, hview₁⟩ := hstep s g q s₁ x (hlegal q List.mem_cons_self) hs₁
    obtain ⟨g', x', hview⟩ := ih (fun q hq => hlegal q (List.mem_cons_of_mem _ hq)) x₁ hrest
    exact ⟨g', x', by rw [hview, hview₁, List.foldl_cons]⟩

/-- Run words one after the other, to the last; all have to be operations that go on. -/
def Host.runWords? : List HostWord → HostState → Machine → Option (HostState × Machine)
  | [], h, m => some (h, m)
  | w :: rest, h, m =>
    match (Operation.decode? w).map fun op => op.perform h m with
    | some (Outcome.next h m) => runWords? rest h m
    | _ => none

/-- Code that holds the words goes on behind them. -/
theorem Host.reaches_of_runWords? {code : Array HostWord} {offset : Nat} {words : List HostWord}
    (hcode : ∀ k w, words[k]? = some w → code[offset + k]? = some w) {h h' : HostState}
    {m m' : Machine} (hrun : runWords? words h m = some (h', m')) :
    Reaches code ⟨offset, h, m⟩ ⟨offset + words.length, h', m'⟩ := by
  induction words generalizing offset h m with
  | nil =>
    rw [runWords?, Option.some_inj] at hrun
    cases hrun
    exact .refl
  | cons w rest ih =>
    have hw : code[offset]? = some w := hcode 0 w rfl
    have hrest : ∀ k w', rest[k]? = some w' → code[offset + 1 + k]? = some w' := fun k w' hk => by
      rw [Nat.add_assoc, Nat.add_comm 1 k]
      exact hcode (k + 1) w' hk
    rw [runWords?] at hrun
    cases hdecode : Operation.decode? w with
    | none => rw [hdecode] at hrun; cases hrun
    | some op =>
      rw [hdecode, Option.map_some] at hrun
      have hop : operationAt? code offset = some op := by
        rw [operationAt?, hw, Option.bind_some, hdecode]
      cases hperform : op.perform h m with
      | next h₁ m₁ =>
        rw [hperform] at hrun
        rw [List.length_cons, Nat.add_comm rest.length 1, ← Nat.add_assoc]
        exact .head (.next hop hperform) (ih hrest hrun)
      | jump target h₁ m₁ => rw [hperform] at hrun; cases hrun
      | exit reason h₁ m₁ => rw [hperform] at hrun; cases hrun
      | broken v => rw [hperform] at hrun; cases hrun

namespace AllInline

variable {ops : List Operation}

/-- A word of straight code is the operation that it was made of. -/
theorem decode?_mem (hops : AllInline ops) {w : HostWord} (hw : w ∈ ops.map Operation.encode) :
    ∃ op ∈ ops, Operation.decode? w = some op := by
  obtain ⟨op, hop, rfl⟩ := List.mem_map.mp hw
  exact ⟨op, hop, Operation.decode?_encode (hops op hop).fits⟩

/-- **The words of straight code run as the operations do.** -/
theorem runWords?_eq (hops : AllInline ops) {h h' : HostState} {m m' : Machine}
    (hrun : Host.runOps ops h m = .next h' m') :
    Host.runWords? (ops.map Operation.encode) h m = some (h', m') := by
  induction ops generalizing h m with
  | nil =>
    rw [Host.runOps] at hrun
    cases hrun
    rfl
  | cons op rest ih =>
    have hdecode := Operation.decode?_encode (hops op List.mem_cons_self).fits
    rw [Host.runOps] at hrun
    rw [List.map_cons, Host.runWords?, hdecode, Option.map_some]
    cases hperform : op.perform h m with
    | next h₁ m₁ =>
      rw [hperform] at hrun
      exact ih (fun op hop => hops op (List.mem_cons_of_mem _ hop)) hrun
    | jump target h₁ m₁ => rw [hperform] at hrun; cases hrun
    | exit reason h₁ m₁ => rw [hperform] at hrun; cases hrun
    | broken v => rw [hperform] at hrun; cases hrun

end AllInline

end Dynarec
