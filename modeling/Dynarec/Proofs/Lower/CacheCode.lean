import Dynarec.Proofs.Lower.ElementBinding
import Dynarec.Proofs.Lower.Emission

/-!
# The code of the register caches

Every action on a register cache asks for straight code only: loads and stores of guest registers
and elements, and constants.
-/

namespace Dynarec

/-- All operations of a list are straight code. -/
def AllInline (ops : List Operation) : Prop := ∀ op ∈ ops, op.Inline

namespace AllInline

variable {xs ys : List Operation}

theorem nil : AllInline [] := nofun

theorem single {op : Operation} (hop : op.Inline) : AllInline [op] := by
  intro x hx
  rw [List.mem_singleton] at hx
  rwa [hx]

theorem append (hx : AllInline xs) (hy : AllInline ys) : AllInline (xs ++ ys) :=
  fun op hop => (List.mem_append.mp hop).elim (hx op) (hy op)

theorem map {α : Type} {f : α → Operation} (hf : ∀ a, (f a).Inline) (l : List α) :
    AllInline (l.map f) := by
  intro op hop
  obtain ⟨a, -, rfl⟩ := List.mem_map.mp hop
  exact hf a

end AllInline

namespace ScalarCache

variable (c : ScalarCache)

theorem allInline_saveCode (i : Fin 13) : AllInline (c.saveCode i) := by
  rw [saveCode]
  cases c.arena.held? i with
  | none => exact .nil
  | some p =>
    obtain ⟨r, d⟩ := p
    cases d with
    | false => exact .nil
    | true => exact .single trivial

theorem allInline_loadCode (i : Fin 13) (r : GuestReg) : AllInline (loadCode i r) := by
  rw [loadCode]
  split <;> exact .single trivial

variable {c}

theorem allInline_bind? {r : GuestReg} {p : Placed HostReg ScalarCache} (hp : c.bind? r = some p) :
    AllInline p.code := by
  rw [bind?] at hp
  cases hf : c.arena.find? r with
  | some i =>
    rw [hf] at hp
    cases hp
    exact .nil
  | none =>
    rw [hf] at hp
    simp only [allocate?, Option.map_map, Option.map_eq_some_iff] at hp
    obtain ⟨i, -, rfl⟩ := hp
    exact (c.allInline_saveCode i).append (allInline_loadCode i r)

theorem allInline_bindForWrite? {r : GuestReg} {p : Placed HostReg ScalarCache}
    (hp : c.bindForWrite? r = some p) : AllInline p.code := by
  rw [bindForWrite?] at hp
  cases hf : c.arena.find? r with
  | some i =>
    rw [hf] at hp
    cases hp
    exact .nil
  | none =>
    rw [hf] at hp
    simp only [allocate?, Option.map_map, Option.map_eq_some_iff] at hp
    obtain ⟨i, -, rfl⟩ := hp
    exact c.allInline_saveCode i

theorem allInline_flushAll : AllInline c.flushAll.1 := by
  refine .map (fun p => ?_) _
  exact trivial

end ScalarCache

namespace ElementCache

variable (c : ElementCache)

theorem allInline_evictFloat (i : Fin 20) : AllInline (c.evictFloat i).1 := by
  rw [evictFloat]
  cases c.floats.held? i with
  | none => exact .nil
  | some p =>
    obtain ⟨e, d⟩ := p
    cases d with
    | false => exact .nil
    | true => exact .single trivial

theorem allInline_evictQuad (i : Fin 8) : AllInline (c.evictQuad i).1 := by
  rw [evictQuad]
  cases c.quads.held? i with
  | none => exact .nil
  | some p =>
    obtain ⟨reg, d⟩ := p
    cases d with
    | false => exact .nil
    | true => exact .single trivial

theorem allInline_release (e : Element) : AllInline (c.release e).1 := by
  rw [release]
  cases c.place e with
  | memory => exact .nil
  | float i => exact c.allInline_evictFloat i
  | quad i lane => exact c.allInline_evictQuad i

theorem allInline_releaseAll (es : List Element) : AllInline (c.releaseAll es).1 := by
  induction es generalizing c with
  | nil => exact .nil
  | cons e rest ih => exact (c.allInline_release e).append (ih (c.release e).2)

variable {c}

theorem allInline_allocateFloat? {e : Element} {load : Bool} {p : Placed (Fin 20) ElementCache}
    (hp : c.allocateFloat? e load = some p) : AllInline p.code := by
  simp only [allocateFloat?, Option.map_eq_some_iff] at hp
  obtain ⟨i, -, rfl⟩ := hp
  refine (c.allInline_evictFloat i).append ?_
  cases load with
  | false => exact .nil
  | true => exact .single trivial

theorem allInline_placeFloat? {e : Element} {load : Bool} {p : Placed (Fin 20) ElementCache}
    (hp : c.placeFloat? e load = some p) : AllInline p.code := by
  rw [placeFloat?] at hp
  cases hf : c.floats.find? e with
  | some i =>
    rw [hf] at hp
    cases hp
    exact .nil
  | none =>
    rw [hf] at hp
    exact allInline_allocateFloat? hp

theorem allInline_leaveQuad (e : Element) : AllInline (c.leaveQuad e).1 := by
  rw [leaveQuad]
  cases c.place e with
  | memory => exact .nil
  | float i => exact .nil
  | quad i lane => exact c.allInline_evictQuad i

theorem allInline_bindElement? {e : Element} {load : Bool} {p : Placed FloatReg ElementCache}
    (hp : c.bindElement? e load = some p) : AllInline p.code := by
  rw [bindElement?_eq, Option.map_eq_some_iff] at hp
  obtain ⟨p, hp, rfl⟩ := hp
  exact (allInline_leaveQuad e).append (allInline_placeFloat? hp)

theorem allInline_bindQuad? {reg : Fin 128} {load : Bool} {p : Placed QuadReg ElementCache}
    (hp : c.bindQuad? reg load = some p) : AllInline p.code := by
  rw [bindQuad?] at hp
  cases hf : c.quads.find? reg with
  | some i =>
    rw [hf] at hp
    cases hp
    exact .nil
  | none =>
    rw [hf] at hp
    simp only [allocateQuad?, Option.map_eq_some_iff] at hp
    obtain ⟨i, -, rfl⟩ := hp
    refine ((c.allInline_releaseAll _).append (allInline_evictQuad _ i)).append ?_
    cases load with
    | false => exact .nil
    | true => exact .single trivial

theorem allInline_flushAll : AllInline c.flushAll.1 := by
  refine .append (.map (fun p => ?_) _) (.map (fun p => ?_) _)
  · exact trivial
  · exact trivial

end ElementCache

end Dynarec
