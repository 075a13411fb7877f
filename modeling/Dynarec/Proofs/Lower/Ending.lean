import Dynarec.Proofs.Guest.Agreement
import Dynarec.Proofs.Host.Cells
import Dynarec.Proofs.Lower.Leads

/-!
# How the code of a block ends

Between blocks the machine agrees with the reference machine up to the program counter, which the
exit writes, and the downcount, which may live in a register of the host: `Settled`.  `Ends` lists
the ways in which the code of a block ends, each with what the reference machine has done by then.
-/

namespace Dynarec

/-- The downcount after `n` instructions. -/
def cyclesAfter (d : Int32) (n : Nat) : Int32 := d - (UInt32.ofNat n).toInt32

theorem cyclesAfter_zero (d : Int32) : cyclesAfter d 0 = d := Int32.sub_zero d

theorem cyclesAfter_succ (d : Int32) (n : Nat) : cyclesAfter d n - 1 = cyclesAfter d (n + 1) := by
  rw [cyclesAfter, cyclesAfter, UInt32.ofNat_add, Int32.sub_sub]
  rfl

/-- **The block ends at `stop` with a branch at `pc`** that is left to the interpreter, since its
delay slot cannot be compiled. -/
def Setting.Leaves (s : Setting) (stop pc : UInt32) : Prop :=
  stop = pc + 8 ∧ ∃ word, s.memory.fetch? pc = some word ∧
    (Instr.mk word).family.hasDelaySlot = true ∧ Lowering.delaySlot? s.memory pc = none

/-- **All of the instructions of a block were taken**, with the exception of the delay slot of a
likely branch: it is skipped where the branch ends the block and is not taken. -/
def Setting.Takes (s : Setting) (count n : Nat) (stop next : UInt32) : Prop :=
  n = count ∨ n + 1 = count ∧ next = stop ∧ ∃ pc word, stop = pc + 8 ∧
    s.memory.fetch? pc = some word ∧ (Instr.mk word).isLikely = true

/-- **The host and the machine `m` stand for `G`** when no register of the guest is bound. -/
def Settled (inRegister : Bool) (h : HostState) (m G : Machine) : Prop :=
  m.at G.core.pc (cycles inRegister h m) = G

/-- **The code of a block ends here**, after `n` steps of the reference machine from `G₀`. -/
inductive Ends (code : Array HostWord) (s : Setting) (last : Builder) (G₀ : Machine)
    (c : Host.Cursor) : Prop
  /-- At the word of an exit that can be linked. -/
  | exit {n : Nat} {G : Machine} {e : Exit} (retires : Machine.Retires n G₀ G)
      (takes : s.Takes last.progress.count.toNat n last.progress.pc G.core.pc)
      (mem : e ∈ last.exits) (offset : c.offset = e.stub)
      (target : e.target = G.core.pc) (kept : ¬ s.Leaves last.progress.pc G.core.pc)
      (settled : Settled s.options.downcountInRegister c.host c.machine G)
  /-- At an indirect jump. -/
  | indirect {n : Nat} {G : Machine} {rs : HostReg} (retires : Machine.Retires n G₀ G)
      (all : n = last.progress.count.toNat)
      (found : Host.operationAt? code c.offset = some (.exitDispatchReg rs))
      (target : c.host.get rs = G.core.pc) (kept : ¬ s.Leaves last.progress.pc G.core.pc)
      (settled : Settled s.options.downcountInRegister c.host c.machine G)
  /-- In front of a branch that is left to the interpreter. -/
  | interpret {n : Nat} {G : Machine} (retires : Machine.Retires n G₀ G)
      (all : n = last.progress.count.toNat)
      (found : Host.operationAt? code c.offset = some (.exitInterpret G.core.pc))
      (left : s.Leaves last.progress.pc G.core.pc)
      (settled : Settled s.options.downcountInRegister c.host c.machine G)
  /-- Behind a request to the system. -/
  | syscall {n : Nat} {G G' : Machine} {request : UInt32} (retires : Machine.Retires n G₀ G)
      (all : n + 1 = last.progress.count.toNat)
      (step : Machine.step G = .ok (.syscall request) G')
      (found : Host.operationAt? code c.offset = some (.exitSyscall request G'.core.pc))
      (stop : last.progress.pc = G'.core.pc)
      (settled : Settled s.options.downcountInRegister c.host c.machine G')
  /-- At a breakpoint. -/
  | breakpoint {n : Nat} {G G' : Machine} {pc : UInt32} (retires : Machine.Retires n G₀ G)
      (all : n + 1 = last.progress.count.toNat)
      (step : Machine.step G = .ok .breakpoint (G'.stopped pc))
      (found : Host.operationAt? code c.offset = some (.exitBreak pc))
      (stop : last.progress.pc = G'.core.pc) (next : G'.core.pc = pc + 4)
      (settled : Settled s.options.downcountInRegister c.host c.machine G')
  /-- At an instruction that has no effect.  Nothing was charged for those in front of it. -/
  | trap {n : Nat} {G : Machine} {t : Trap} {h' : HostState} {m' : Machine} {op : Operation}
      (retires : Machine.Retires n G₀ G) (bound : n < last.progress.count.toNat)
      (found : Host.operationAt? code c.offset = some op)
      (perform : op.perform c.host c.machine = .exit (.fault t) h' m')
      (fails : Machine.Fails G (.trap t)) (there : m'.Coincides G)
      (clock : cycles s.options.downcountInRegister h' m' = G₀.core.downcount)
  /-- At an instruction that breaks a promise. -/
  | broken {n : Nat} {G : Machine} {v : Violation} {op : Operation}
      (retires : Machine.Retires n G₀ G) (bound : n < last.progress.count.toNat)
      (found : Host.operationAt? code c.offset = some op)
      (perform : op.perform c.host c.machine = .broken v) (fails : Machine.Fails G (.violation v))
  /-- In front of an instruction that is not the one that was compiled. -/
  | stale {n : Nat} {G : Machine} (retires : Machine.Retires n G₀ G)
      (bound : n < last.progress.count.toNat) (memory : c.machine.memory = G.memory)
      (place : G.core.pc = s.start + 4 * UInt32.ofNat n)
      (changed : G.memory.fetch? G.core.pc ≠ s.memory.fetch? G.core.pc)

namespace Lowering

variable {α : Type} {code : Array HostWord} {base : Nat} {last : Builder} {s : Setting}
  {E : Host.Cursor → Prop} {F : Outcome → Prop} {b : Builder} {h : HostState} {m G G₀ : Machine}

/-! ### Charging cycles -/

/-- **Charging cycles.** -/
theorem wp_subtractCycles {amount : UInt32} {Q : Unit → Builder → HostState → Machine → Prop}
    (hQ : ∀ space h' m', cycles s.options.downcountInRegister h' m' =
        cycles s.options.downcountInRegister h m - amount.toInt32 →
      (∀ a : HostReg, a ≠ HostReg.downcount → h'.get a = h.get a) →
      (∀ pc d, m'.at pc d = m.at pc d) → Q () { b with code := space } h' m') :
    wp s (subtractCycles amount) F Q b h m := by
  unfold subtractCycles
  refine wp_bind (wp_read ?_)
  cases hr : s.options.downcountInRegister with
  | true =>
    rw [hr] at hQ
    refine wp_emit_next trivial rfl (hQ _ _ _ ?_ (fun a ha => ?_) fun _ _ => rfl)
    · rw [cycles, cycles, if_pos rfl, if_pos rfl, HostState.get_set, if_pos rfl]
      exact UInt32.toInt32_sub _ _
    · rw [HostState.get_set, if_neg ha.symm]
  | false =>
    rw [hr] at hQ
    exact wp_emit_next trivial rfl (hQ _ _ _ rfl (fun _ _ => rfl) fun _ _ => rfl)

theorem wp_subtractProgress {Q : Unit → Builder → HostState → Machine → Prop}
    (hQ : ∀ space h' m', cycles s.options.downcountInRegister h' m' =
        cycles s.options.downcountInRegister h m - b.progress.count.toInt32 →
      (∀ a : HostReg, a ≠ HostReg.downcount → h'.get a = h.get a) →
      (∀ pc d, m'.at pc d = m.at pc d) → Q () { b with code := space } h' m') :
    wp s subtractProgress F Q b h m := by
  unfold subtractProgress
  exact wp_bind (wp_get (wp_subtractCycles hQ))

/-! ### Leaving -/

/-- An operation that leaves the block. -/
theorem leads_leave {op : Operation} (hop : op.Leaves)
    (hE : Host.operationAt? code b.code.offset = some op → E ⟨b.code.offset, h, m⟩) :
    leads code base last s (emit op) E (Nowhere Unit) b h m := by
  intro y x b' hok hlast
  cases hok
  exact .inr ⟨_, .refl, hE (y.leaveAt hop hlast)⟩

/-- **An exit that can be linked.** -/
theorem leads_exitTo {n : Nat} {amount : UInt32} (hretires : Machine.Retires n G₀ G)
    (htakes : s.Takes last.progress.count.toNat n last.progress.pc G.core.pc)
    (hkept : ¬ s.Leaves last.progress.pc G.core.pc)
    (hset : m.at G.core.pc (cycles s.options.downcountInRegister h m - amount.toInt32) = G) :
    leads code base last s (exitTo G.core.pc amount) (Ends code s last G₀) (Nowhere Unit) b h m := by
  unfold exitTo
  refine leads_bind_never (k := 0) (straight_subtractCycles amount) (fun _ b' x b'' hok => ?_)
    (wp_subtractCycles fun space h' m' hcycles _ hsame => ?_)
  · cases hok
    exact growing_of_extends (fun hfits => ⟨_, _, _, adds_pushExit hfits⟩) rfl
  · intro y x b' hok hlast
    cases hok
    refine .inr ⟨_, .refl, .exit hretires htakes (y.exitAt hlast) rfl rfl hkept ?_⟩
    rw [Settled, hsame, hcycles]
    exact hset

end Lowering

end Dynarec
