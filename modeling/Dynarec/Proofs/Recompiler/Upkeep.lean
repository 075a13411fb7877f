import Dynarec.Proofs.Guest.Watch
import Dynarec.Proofs.Recompiler.Actions

/-!
# What every reached recompiler has

A recompiler is reached by creating one and doing things with it, each with the machine that was at
hand (`Recompiler.Reached`).  What is done makes a block at an address, drops the blocks of a range
or clears the cache, any number of times, and else only counts, learns, and changes the machine.  So
a property of recompilers that survives those three (`Recompiler.Upheld`) survives every action
(`Recompiler.Upheld.act`), a run included, and holds of all that is reached.
-/

namespace Dynarec

/-- **A recompiler that can be reached**: it was created, and things were done with it, each with
the machine that was at hand. -/
inductive Recompiler.Reached (options : Options) : Recompiler → Prop
  | create {r : Recompiler} (made : Recompiler.create options = .ok r) : Reached options r
  | act {r : Recompiler} {m : Machine} {action : Session.Action} {s : Session}
      (before : Reached options r) (low : m.memory.Low)
      (done : Session.act ⟨r, m⟩ action = .ok s) : Reached options s.recompiler

/-- **A property that changes of the cache keep**, and that looks at nothing but the options and the
cache. -/
structure Recompiler.Upheld (P : Recompiler → Prop) : Prop where
  same : ∀ {r r' : Recompiler}, P r → r'.options = r.options → r'.cache = r.cache → P r'
  clear : ∀ {r : Recompiler}, P r → P { r with cache := r.cache.clear }
  invalidate : ∀ {r r' : Recompiler} {start length : UInt32} {n : Nat},
    r.invalidate start length = .ok (n, r') → P r → P r'
  lower : ∀ {s : Session} {address : UInt32} {allowed : Bool} {p : Session.Answer Nat},
    s.lower address allowed = .ok p → s.machine.memory.Low → P s.recompiler → P p.2.recompiler

namespace Session

variable {P : Recompiler → Prop} {s s' : Session}

/-! ### Memory -/

/-- **Making a block marks its bytes**, and changes no byte. -/
theorem alike_insert {block : Block} {id : Nat} (hok : s.insert block = .ok (id, s')) :
    s.machine.memory.Alike s'.machine.memory := by
  obtain ⟨r, ⟨core, memory⟩⟩ := s
  obtain ⟨p, -, hok⟩ := ok_of_bind hok
  cases hok
  obtain ⟨hbase, hbytes, -⟩ := memory.markCode_same block.start block.stop
  exact ⟨hbase, hbytes⟩

theorem alike_append (s : Session) (address : UInt32) (entry : EntryAssumption) :
    s.machine.memory.Alike (s.append address entry).2.machine.memory := by
  obtain ⟨r, m⟩ := s
  rw [append]
  dsimp only
  split
  · exact ⟨rfl, rfl⟩
  · exact .refl _

theorem alike_lower {address : UInt32} {allowed : Bool} {p : Answer Nat}
    (hok : s.lower address allowed = .ok p) : s.machine.memory.Alike p.2.machine.memory := by
  rw [lower] at hok
  split at hok
  · cases hok
    exact .refl _
  · rw [lowerNew] at hok
    dsimp only at hok
    have hfull : s.machine.memory.Alike (if s.recompiler.cache.stored ≥
        s.recompiler.options.maxBlocks then s.clear else s).machine.memory := by
      split
      · exact ⟨rfl, rfl⟩
      · exact .refl _
    obtain ⟨r, -, hok⟩ := ok_of_bind hok
    have happend := hfull.trans (alike_append ⟨r, _⟩ address
      ((if s.recompiler.cache.stored ≥ s.recompiler.options.maxBlocks then
        s.clear else s).recompiler.entryAssumption address allowed))
    split at hok
    · rename_i heq
      rw [heq] at happend
      cases hok
      exact happend
    · rename_i heq
      rw [heq] at happend
      obtain ⟨q, hinsert, hok⟩ := ok_of_bind hok
      cases hok
      exact happend.trans (alike_insert hinsert)

/-- **A session whose recompiler has a property**, with a low memory. -/
structure Has (P : Recompiler → Prop) (s : Session) : Prop where
  recompiler : P s.recompiler
  low : s.machine.memory.Low

end Session

/-! ### Turn by turn -/

namespace Recompiler.Upheld

open Session

variable {P : Recompiler → Prop} {s s' : Session}

/-- The machine ran. -/
theorem stores (h : Upheld P) (x : s.Has P) {r : Recompiler} {m : Machine}
    (hoptions : r.options = s.recompiler.options) (hcache : r.cache = s.recompiler.cache)
    (hstores : Memory.Stores s.machine.memory m.memory) : Has P ⟨r, m⟩ :=
  ⟨h.same x.recompiler hoptions hcache, x.low.of_stores hstores⟩

theorem invalidateAll (h : Upheld P) {r r' : Recompiler} {ranges : List ChangedRange}
    (hok : r.invalidateAll ranges = .ok r') (x : P r) : P r' := by
  induction ranges generalizing r with
  | nil =>
    cases hok
    exact x
  | cons range rest ih =>
    rw [Recompiler.invalidateAll] at hok
    obtain ⟨p, hone, hok⟩ := ok_of_bind hok
    exact ih hok (h.invalidate hone x)

theorem dropChanged (h : Upheld P) (hok : s.dropChanged = .ok s') (x : s.Has P) : s'.Has P := by
  obtain ⟨r, hdrop, hok⟩ := ok_of_bind hok
  cases hok
  exact ⟨h.invalidateAll hdrop x.recompiler, x.low⟩

theorem interpretOne (h : Upheld P) {p : Turn × Session} (hok : s.interpretOne = .ok p)
    (x : s.Has P) : p.2.Has P := by
  rw [Session.interpretOne] at hok
  split at hok
  · rename_i hrun
    cases hok
    exact h.stores x rfl rfl (Machine.stores_runOne hrun)
  · rename_i hrun
    cases hok
    exact h.stores x rfl rfl (Machine.stores_runOne hrun)
  · rename_i hrun
    cases hok
    exact h.stores x rfl rfl (Machine.stores_runOne hrun)
  · rename_i hrun
    have hstores := Machine.stores_runOne_trap hrun
    cases hok
    exact h.stores x rfl rfl hstores
  · cases hok

theorem lowered (h : Upheld P) {address : UInt32} {allowed : Bool} {p : Answer Nat}
    (hok : s.lower address allowed = .ok p) (x : s.Has P) : p.2.Has P :=
  ⟨h.lower hok x.low x.recompiler, (alike_lower hok).low x.low⟩

theorem entry (h : Upheld P) {pc : UInt32} {p : Answer Nat} (hok : s.entry pc = .ok p)
    (x : s.Has P) : p.2.Has P := by
  rw [Session.entry] at hok
  split at hok
  · cases hok
    exact ⟨h.same x.recompiler rfl rfl, x.low⟩
  · dsimp only at hok
    obtain ⟨⟨result, s₁⟩, hlower, hok⟩ := ok_of_bind hok
    have x₁ : s₁.Has P := h.lowered hlower ⟨h.same x.recompiler rfl rfl, x.low⟩
    cases result with
    | error e =>
      cases hok
      exact x₁
    | ok id =>
      dsimp only at hok
      split at hok <;> cases hok <;> exact x₁

theorem serve (h : Upheld P) {reason : ExitReason} {p : Turn × Session}
    (hok : s.serve reason = .ok p) (x : s.Has P) : p.2.Has P := by
  cases reason with
  | interpret => exact h.interpretOne hok x
  | dispatch | syscall _ | breakpoint | badCode _ =>
    cases hok
    exact x
  | fault t =>
    cases hok
    exact ⟨x.recompiler, x.low⟩
  | modifierMismatch block =>
    obtain ⟨q, hinvalidate, hok⟩ := ok_of_bind hok
    cases hok
    exact ⟨h.same (h.invalidate hinvalidate (h.same x.recompiler rfl rfl)) rfl rfl, x.low⟩

theorem turn (h : Upheld P) {p : Turn × Session} (hok : s.turn = .ok p) (x : s.Has P) :
    p.2.Has P := by
  obtain ⟨⟨result, s₁⟩, hentry, hok⟩ := ok_of_bind hok
  have x₁ : s₁.Has P := h.entry hentry x
  cases result with
  | ok entry =>
    obtain ⟨⟨reason, m⟩, hrun, hok⟩ := ok_of_bind hok
    exact h.serve hok (h.stores x₁ rfl rfl (Host.stores_run hrun))
  | error e =>
    dsimp only at hok
    split at hok
    · exact h.interpretOne hok x₁
    · cases hok
      exact x₁

/-- **A run**, by induction on its turns. -/
theorem turns (h : Upheld P) {fuel : Nat} {p : Answer RunExit} (hok : Session.turns fuel s = .ok p)
    (x : s.Has P) : p.2.Has P := by
  induction fuel generalizing s with
  | zero => cases hok
  | succ fuel ih =>
    rw [Session.turns] at hok
    obtain ⟨s₁, hdrop, hok⟩ := ok_of_bind hok
    have x₁ := h.dropChanged hdrop x
    dsimp only at hok
    split at hok
    · cases hok
      exact x₁
    · split at hok
      · cases hok
        exact x₁
      · obtain ⟨⟨t, s₂⟩, hturn, hok⟩ := ok_of_bind hok
        have x₂ := h.turn hturn x₁
        cases t with
        | again => exact ih hok x₂
        | done exit =>
          cases hok
          exact x₂
        | failed e =>
          cases hok
          exact x₂

/-! ### Any number of actions -/

theorem write (h : Upheld P) {f : Memory → Except Violation Memory}
    (hf : ∀ memory, f s.machine.memory = .ok memory → Memory.Stores s.machine.memory memory)
    (hok : s.write f = .ok s') (x : s.Has P) : s'.Has P := by
  obtain ⟨memory, hmemory, rfl⟩ := ok_of_map hok
  exact h.stores x rfl rfl (hf memory hmemory)

/-- **Every action keeps the property.** -/
theorem act (h : Upheld P) {action : Action} (hok : s.act action = .ok s') (x : s.Has P) :
    s'.Has P := by
  cases action with
  | run =>
    obtain ⟨p, hrun, rfl⟩ := ok_of_map hok
    exact h.turns hrun x
  | lower address allowed =>
    obtain ⟨p, hlower, rfl⟩ := ok_of_map hok
    exact h.lowered hlower x
  | invalidate start length =>
    obtain ⟨p, hinvalidate, rfl⟩ := ok_of_map hok
    exact ⟨h.invalidate hinvalidate x.recompiler, x.low⟩
  | clear =>
    cases hok
    exact ⟨h.same (h.clear x.recompiler) rfl rfl, x.low⟩
  | load text =>
    cases hok
    rw [load]
    split
    · exact x
    · exact ⟨h.same (h.clear x.recompiler) rfl rfl, x.low⟩
  | store width address value =>
    exact h.write (f := fun memory => width.store memory address value)
      (fun _ => Memory.stores_width) hok x
  | storeWords address words =>
    exact h.write (f := fun memory => memory.writeWords address words)
      (fun _ => Memory.stores_writeWords) hok x
  | setCore core =>
    cases hok
    exact ⟨x.recompiler, x.low⟩

/-- **Every reached recompiler has the property**, if new ones have it. -/
theorem reached (h : Upheld P) {options : Options} {r : Recompiler}
    (hnew : ∀ r, Recompiler.create options = .ok r → P r) (hr : r.Reached options) : P r := by
  induction hr with
  | create made => exact hnew _ made
  | act _ low done ih => exact (h.act done ⟨ih, low⟩).recompiler

end Recompiler.Upheld

end Dynarec
