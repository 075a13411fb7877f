import Dynarec.Host.Executor

/-!
# Reading back what was written to a host register
-/

namespace Dynarec.HostState

variable (h : HostState)

@[simp] theorem get_set (r r' : HostReg) (v : UInt32) :
    (h.set r v).get r' = if r = r' then v else h.get r' := by
  show (h.regs.set r v)[r'] = _
  rw [Fin.getElem_fin, Vector.getElem_set]
  by_cases hr : r = r'
  · rw [if_pos (congrArg Fin.val hr), if_pos hr]
  · rw [if_neg (fun heq => hr (Fin.ext heq)), if_neg hr]
    rfl

@[simp] theorem set_set (r : HostReg) (v w : UInt32) : (h.set r v).set r w = h.set r w := by
  show { h with regs := (h.regs.set r v).set r w } = _
  rw [Vector.set_set]
  rfl

theorem set_comm {r r' : HostReg} (hr : r ≠ r') (v w : UInt32) :
    (h.set r v).set r' w = (h.set r' w).set r v := by
  show { h with regs := (h.regs.set r v).set r' w } = { h with regs := (h.regs.set r' w).set r v }
  rw [Vector.set_comm _ _ (fun heq => hr (Fin.ext heq))]

theorem set_get_self (r : HostReg) : h.set r (h.get r) = h := by
  have hregs : h.regs.set r (h.get r) = h.regs := by
    refine Vector.ext fun i hi => ?_
    rw [Vector.getElem_set]
    by_cases hr : r.val = i
    · rw [if_pos hr]
      subst hr
      rfl
    · rw [if_neg hr]
  rw [set, hregs]

@[simp] theorem float_set (r : HostReg) (v : UInt32) (f : FloatReg) :
    (h.set r v).float f = h.float f := rfl

@[simp] theorem quad_set (r : HostReg) (v : UInt32) (q : QuadReg) :
    (h.set r v).quad q = h.quad q := rfl

@[simp] theorem get_setFloat (f : FloatReg) (x : Single) (r : HostReg) :
    (h.setFloat f x).get r = h.get r := rfl

@[simp] theorem float_setFloat (f f' : FloatReg) (x : Single) :
    (h.setFloat f x).float f' = if f = f' then x else h.float f' := by
  show (h.floats.set f x)[f'] = _
  rw [Fin.getElem_fin, Vector.getElem_set]
  by_cases hf : f = f'
  · rw [if_pos (congrArg Fin.val hf), if_pos hf]
  · rw [if_neg (fun heq => hf (Fin.ext heq)), if_neg hf]
    rfl

@[simp] theorem setFloat_setFloat (f : FloatReg) (x y : Single) :
    (h.setFloat f x).setFloat f y = h.setFloat f y := by
  show { h with floats := (h.floats.set f x).set f y } = _
  rw [Vector.set_set]
  rfl

theorem setFloat_float_self (f : FloatReg) : h.setFloat f (h.float f) = h := by
  have hfloats : h.floats.set f (h.float f) = h.floats := by
    refine Vector.ext fun i hi => ?_
    rw [Vector.getElem_set]
    by_cases hf : f.val = i
    · rw [if_pos hf]
      subst hf
      rfl
    · rw [if_neg hf]
  rw [setFloat, hfloats]

@[simp] theorem quad_setFloat (f : FloatReg) (x : Single) (q : QuadReg) :
    (h.setFloat f x).quad q = h.quad q := rfl

@[simp] theorem get_setQuad (q : QuadReg) (x : Vector Single 4) (r : HostReg) :
    (h.setQuad q x).get r = h.get r := rfl

@[simp] theorem float_setQuad (q : QuadReg) (x : Vector Single 4) (f : FloatReg) :
    (h.setQuad q x).float f = h.float f := rfl

@[simp] theorem quad_setQuad (q q' : QuadReg) (x : Vector Single 4) :
    (h.setQuad q x).quad q' = if q = q' then x else h.quad q' := by
  show (h.quads.set q x)[q'] = _
  rw [Fin.getElem_fin, Vector.getElem_set]
  by_cases hq : q = q'
  · rw [if_pos (congrArg Fin.val hq), if_pos hq]
  · rw [if_neg (fun heq => hq (Fin.ext heq)), if_neg hq]
    rfl

@[simp] theorem setQuad_setQuad (q : QuadReg) (x y : Vector Single 4) :
    (h.setQuad q x).setQuad q y = h.setQuad q y := by
  show { h with quads := (h.quads.set q x).set q y } = _
  rw [Vector.set_set]
  rfl

theorem setQuad_quad_self (q : QuadReg) : h.setQuad q (h.quad q) = h := by
  have hquads : h.quads.set q (h.quad q) = h.quads := by
    refine Vector.ext fun i hi => ?_
    rw [Vector.getElem_set]
    by_cases hq : q.val = i
    · rw [if_pos hq]
      subst hq
      rfl
    · rw [if_neg hq]
  rw [setQuad, hquads]

end Dynarec.HostState
