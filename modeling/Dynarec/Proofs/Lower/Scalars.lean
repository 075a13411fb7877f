import Dynarec.Lower.Scalars
import Dynarec.Proofs.Guest.Core
import Dynarec.Proofs.Host.Registers
import Dynarec.Proofs.Host.Running
import Dynarec.Proofs.Lower.Slots

/-!
# The scalar cache shadows the guest

`ScalarCache.Shadows c h core g` says what the bindings of `c` mean at run time: bound registers of
the core `g` are in host registers, and every register that is not dirty is in the core `core`,
which lags behind `g`.  Each action on the cache keeps this, once its code has run.
-/

namespace Dynarec

/-- Host registers that hold no scalar register, and everything else of the host, are the same. -/
structure HostState.SameButScalars (h h' : HostState) : Prop where
  high : ∀ a : HostReg, 13 ≤ a.val → h'.get a = h.get a
  floats : h'.floats = h.floats
  quads : h'.quads = h.quads
  flags : h'.flags = h.flags
  savedFlags : h'.savedFlags = h.savedFlags

namespace HostState.SameButScalars

variable {h h' h'' : HostState}

theorem refl (h : HostState) : SameButScalars h h := ⟨fun _ _ => rfl, rfl, rfl, rfl, rfl⟩

end HostState.SameButScalars

/-- Only scalar registers of the core differ. -/
structure Core.SameButScalars (c c' : Core) : Prop where
  frame : SameFrame c c'
  elements : c'.elements = c.elements
  controls : ∀ k : Fin 16, k ≠ conditionControl → c'.control k = c.control k
  zero : c'.gpr 0 = c.gpr 0

namespace Core.SameButScalars

variable {c c' c'' : Core}

theorem refl (c : Core) : SameButScalars c c := ⟨SameFrame.refl c, rfl, fun _ _ => rfl, rfl⟩

theorem trans (x : SameButScalars c c') (y : SameButScalars c' c'') : SameButScalars c c'' :=
  ⟨x.frame.trans y.frame, y.elements.trans x.elements,
    fun k hk => (y.controls k hk).trans (x.controls k hk), y.zero.trans x.zero⟩

theorem setReg (c : Core) (r : GuestReg) (v : UInt32) : SameButScalars c (c.setReg r v) :=
  ⟨c.sameFrame_setReg r v, c.elements_setReg r v, fun _ hk => c.controls_setReg hk v,
    c.gpr_zero_setReg r v⟩

end Core.SameButScalars

/-- Some scalar registers were brought up to those of `g`. -/
structure Core.CatchesUp (c c' g : Core) : Prop extends SameButScalars c c' where
  advance : ∀ r, c'.reg r = c.reg r ∨ c'.reg r = g.reg r

theorem Core.CatchesUp.refl (c g : Core) : CatchesUp c c g := ⟨.refl c, fun _ => .inl rfl⟩

namespace ScalarCache

variable {c : ScalarCache} {h : HostState} {core g : Core} {M : Memory}

/-- **The bindings hold the registers of `g`.** -/
structure Shadows (c : ScalarCache) (h : HostState) (core g : Core) : Prop where
  sound : c.arena.Sound
  bound : ∀ i r, c.arena.guest i = some r → h.get (hostReg i) = g.reg r
  saved : ∀ r, (∀ i, c.arena.guest i = some r → c.arena.isDirty i = false) →
    core.reg r = g.reg r

/-- A register is bound to a host register that is not given away. -/
def Holds (c : ScalarCache) (r : GuestReg) (a : HostReg) : Prop :=
  ∃ i, c.arena.guest i = some r ∧ c.arena.locked i = true ∧ hostReg i = a

/-- A slot is kept, with the value of its host register; it may get dirty. -/
structure KeepsSlot (c c' : ScalarCache) (h h' : HostState) (i : Fin 13) : Prop where
  locked : c'.arena.locked i = true
  guest : c'.arena.guest i = c.arena.guest i
  value : h'.get (hostReg i) = h.get (hostReg i)
  dirty : c.arena.isDirty i = true → c'.arena.isDirty i = true

/-- **Locked slots are kept.** -/
def KeepsLocked (c c' : ScalarCache) (h h' : HostState) : Prop :=
  ∀ i, c.arena.locked i = true → KeepsSlot c c' h h' i

theorem KeepsLocked.refl (c : ScalarCache) (h : HostState) : KeepsLocked c c h h :=
  fun _ hi => ⟨hi, rfl, rfl, id⟩

theorem KeepsLocked.trans {c₁ c₂ c₃ : ScalarCache} {h₁ h₂ h₃ : HostState}
    (x : KeepsLocked c₁ c₂ h₁ h₂) (y : KeepsLocked c₂ c₃ h₂ h₃) : KeepsLocked c₁ c₃ h₁ h₃ :=
  fun i hi => by
    have hx := x i hi
    have hy := y i hx.locked
    exact ⟨hy.locked, hy.guest.trans hx.guest, hy.value.trans hx.value, fun hd =>
      hy.dirty (hx.dirty hd)⟩

theorem Holds.keep {c' : ScalarCache} {h' : HostState} {r : GuestReg} {a : HostReg}
    (x : c.Holds r a) (y : KeepsLocked c c' h h') : c'.Holds r a ∧ h'.get a = h.get a := by
  obtain ⟨i, hg, hl, rfl⟩ := x
  have hy := y i hl
  exact ⟨⟨i, hy.guest.trans hg, hy.locked, rfl⟩, hy.value⟩

/-- A register is bound to a host register that is not given away, and that the core lags behind. -/
def Owns (c : ScalarCache) (r : GuestReg) (a : HostReg) : Prop :=
  ∃ i, c.arena.guest i = some r ∧ c.arena.locked i = true ∧ c.arena.isDirty i = true ∧ hostReg i = a

theorem Owns.holds {r : GuestReg} {a : HostReg} (x : c.Owns r a) : c.Holds r a := by
  obtain ⟨i, hg, hl, -, ha⟩ := x
  exact ⟨i, hg, hl, ha⟩

theorem Owns.keep {c' : ScalarCache} {h' : HostState} {r : GuestReg} {a : HostReg}
    (x : c.Owns r a) (y : KeepsLocked c c' h h') : c'.Owns r a := by
  obtain ⟨i, hg, hl, hd, ha⟩ := x
  have hy := y i hl
  exact ⟨i, hy.guest.trans hg, hy.locked, hy.dirty hd, ha⟩

theorem Holds.get {r : GuestReg} {a : HostReg} (x : c.Holds r a) (y : c.Shadows h core g) :
    h.get a = g.reg r := by
  obtain ⟨i, hg, -, rfl⟩ := x
  exact y.bound i r hg

theorem hostReg_lt (i : Fin 13) : (hostReg i).val < 13 := i.isLt

theorem hostReg_inj {i j : Fin 13} (heq : hostReg i = hostReg j) : i = j := by
  have hv : (hostReg i).val = (hostReg j).val := by rw [heq]
  exact Fin.ext hv

theorem sameButScalars_set (h : HostState) (i : Fin 13) (v : UInt32) :
    h.SameButScalars (h.set (hostReg i) v) := by
  refine ⟨fun a ha => ?_, rfl, rfl, rfl, rfl⟩
  rw [HostState.get_set, if_neg]
  intro heq
  have := hostReg_lt i
  rw [heq] at this
  omega

theorem get_set_hostReg (h : HostState) (i j : Fin 13) (v : UInt32) :
    (h.set (hostReg i) v).get (hostReg j) = if i = j then v else h.get (hostReg j) := by
  rw [HostState.get_set]
  by_cases hij : i = j
  · rw [if_pos hij, if_pos (by rw [hij])]
  · rw [if_neg hij, if_neg (fun heq => hij (hostReg_inj heq))]

/-! ### Writing back -/

/-- The store of a slot brings the core up to date. -/
theorem Shadows.save (x : c.Shadows h core g) (i : Fin 13) :
    ∃ core', Host.runOps (c.saveCode i) h ⟨core, M⟩ = .next h ⟨core', M⟩ ∧
      core.CatchesUp core' g ∧ (ScalarCache.mk (c.arena.setDirty i false)).Shadows h core' g := by
  cases hheld : c.arena.held? i with
  | none =>
    refine ⟨core, by rw [saveCode, hheld]; rfl, Core.CatchesUp.refl core g, ?_, ?_, ?_⟩
    · exact SlotArena.sound_of_guest_eq x.sound (fun j => by simp)
    · intro j r hj
      rw [SlotArena.guest_setDirty] at hj
      exact x.bound j r hj
    · intro r hr
      refine x.saved r fun j hj => ?_
      have hd := hr j (by rw [SlotArena.guest_setDirty]; exact hj)
      rw [SlotArena.isDirty_setDirty] at hd
      by_cases hij : i = j
      · subst hij
        rw [SlotArena.held?_eq_none_iff] at hheld
        rw [hheld] at hj
        cases hj
      · rw [if_neg hij] at hd
        exact hd
  | some p =>
    obtain ⟨r, d⟩ := p
    obtain ⟨hg, hd⟩ := SlotArena.held?_eq_some_iff.mp hheld
    have hother : ∀ r', r' ≠ r → (∀ j, c.arena.guest j = some r' →
        (c.arena.setDirty i false).isDirty j = false) →
        ∀ j, c.arena.guest j = some r' → c.arena.isDirty j = false := by
      intro r' hne hr j hj
      have hdj := hr j hj
      rw [SlotArena.isDirty_setDirty] at hdj
      by_cases hij : i = j
      · subst hij
        rw [hg] at hj
        cases hj
        exact absurd rfl hne
      · rw [if_neg hij] at hdj
        exact hdj
    cases d with
    | false =>
      refine ⟨core, by rw [saveCode, hheld]; rfl, Core.CatchesUp.refl core g, ?_, ?_, ?_⟩
      · exact SlotArena.sound_of_guest_eq x.sound (fun j => by simp)
      · intro j r hj
        rw [SlotArena.guest_setDirty] at hj
        exact x.bound j r hj
      · intro r' hr
        simp only [SlotArena.guest_setDirty] at hr
        by_cases hne : r' = r
        · subst hne
          refine x.saved r' fun j hj => ?_
          rw [← x.sound i j r' hg hj]
          exact hd
        · exact x.saved r' (hother r' hne hr)
    | true =>
      refine ⟨core.setReg r (h.get (hostReg i)), by rw [saveCode, hheld]; rfl,
        ⟨Core.SameButScalars.setReg core r _, fun r' => ?_⟩, ?_, ?_, ?_⟩
      · rw [x.bound i r hg]
        cases hz : r.isZero with
        | true =>
          rw [Core.setReg_of_isZero _ hz]
          exact .inl rfl
        | false =>
          rw [Core.reg_setReg _ hz]
          by_cases hne : r = r'
          · rw [if_pos hne, hne]
            exact .inr rfl
          · rw [if_neg hne]
            exact .inl rfl
      · exact SlotArena.sound_of_guest_eq x.sound (fun j => by simp)
      · intro j r hj
        rw [SlotArena.guest_setDirty] at hj
        exact x.bound j r hj
      · intro r' hr
        simp only [SlotArena.guest_setDirty] at hr
        rw [x.bound i r hg]
        cases hz : r.isZero with
        | true =>
          rw [Core.setReg_of_isZero _ hz]
          by_cases hne : r' = r
          · rw [hne, Core.reg_of_isZero _ hz, Core.reg_of_isZero _ hz]
          · exact x.saved r' (hother r' hne hr)
        | false =>
          rw [Core.reg_setReg _ hz]
          by_cases hne : r = r'
          · rw [if_pos hne, hne]
          · rw [if_neg hne]
            exact x.saved r' (hother r' (Ne.symm hne) hr)

theorem Shadows.congr {c' : ScalarCache} (x : c.Shadows h core g)
    (hguest : ∀ i, c'.arena.guest i = c.arena.guest i)
    (hdirty : ∀ i, c'.arena.isDirty i = c.arena.isDirty i) : c'.Shadows h core g where
  sound := SlotArena.sound_of_guest_eq x.sound hguest
  bound i r hi := x.bound i r (by rw [← hguest, hi])
  saved r hr := x.saved r fun i hi => by
    rw [← hdirty]
    exact hr i (by rw [hguest, hi])

/-- A clean slot may be freed. -/
theorem Shadows.clear (x : c.Shadows h core g) {i : Fin 13} (hi : c.arena.isDirty i = false) :
    (ScalarCache.mk (c.arena.clear i)).Shadows h core g where
  sound := x.sound.clear i
  bound j r hj := by
    rw [SlotArena.guest_clear] at hj
    by_cases hij : i = j
    · rw [if_pos hij] at hj
      cases hj
    · rw [if_neg hij] at hj
      exact x.bound j r hj
  saved r hr := x.saved r fun j hj => by
    by_cases hij : i = j
    · rw [← hij]
      exact hi
    · have hd := hr j (by rw [SlotArena.guest_clear, if_neg hij, hj])
      rw [SlotArena.isDirty_clear, if_neg hij] at hd
      exact hd

/-- A register that is not bound may be bound to a free slot that is given its value. -/
theorem Shadows.assign (x : c.Shadows h core g) {i : Fin 13} (hi : c.arena.guest i = none)
    {r : GuestReg} (hr : ∀ j, c.arena.guest j ≠ some r) :
    (ScalarCache.mk (c.arena.assign i r)).Shadows (h.set (hostReg i) (g.reg r)) core g where
  sound := x.sound.assign fun j _ => hr j
  bound j r' hj := by
    rw [SlotArena.guest_assign] at hj
    rw [get_set_hostReg]
    by_cases hij : i = j
    · rw [if_pos hij] at hj ⊢
      cases hj
      rfl
    · rw [if_neg hij] at hj ⊢
      exact x.bound j r' hj
  saved r' hr' := x.saved r' fun j hj => by
    have hij : i ≠ j := fun heq => by
      rw [← heq, hi] at hj
      cases hj
    have hd := hr' j (by rw [SlotArena.guest_assign, if_neg hij, hj])
    rw [SlotArena.isDirty_assign, if_neg hij] at hd
    exact hd

/-- A bound register may be written in its host register, if its slot is dirty from then on. -/
theorem Shadows.write (x : c.Shadows h core g) {i : Fin 13} {r : GuestReg}
    (hi : c.arena.guest i = some r) (hz : r.isZero = false) (v : UInt32) :
    (ScalarCache.mk (c.arena.setDirty i true)).Shadows (h.set (hostReg i) v) core
      (g.setReg r v) where
  sound := SlotArena.sound_of_guest_eq x.sound (fun j => by simp)
  bound j r' hj := by
    rw [SlotArena.guest_setDirty] at hj
    rw [get_set_hostReg, Core.reg_setReg _ hz]
    by_cases hij : i = j
    · subst hij
      rw [hi] at hj
      cases hj
      rw [if_pos rfl, if_pos rfl]
    · have hne : r ≠ r' := fun heq => hij (x.sound i j r hi (by rw [heq, hj]))
      rw [if_neg hij, if_neg hne]
      exact x.bound j r' hj
  saved r' hr := by
    simp only [SlotArena.guest_setDirty, SlotArena.isDirty_setDirty] at hr
    by_cases hne : r = r'
    · subst hne
      have hd := hr i hi
      rw [if_pos rfl] at hd
      cases hd
    · rw [Core.reg_setReg _ hz, if_neg hne]
      refine x.saved r' fun j hj => ?_
      have hij : i ≠ j := fun heq => by
        subst heq
        rw [hi] at hj
        cases hj
        exact hne rfl
      have hd := hr j hj
      rw [if_neg hij] at hd
      exact hd

/-! ### Binding -/

/-- A register may be written in a host register. -/
def Ready (c : ScalarCache) (h : HostState) (core g : Core) (r : GuestReg) (a : HostReg) : Prop :=
  c.Owns r a ∧ ∀ v, c.Shadows (h.set a v) core (g.setReg r v)

/-- A register that the core lags behind anyway may be written again. -/
theorem Shadows.rewrite (x : c.Shadows h core g) {r : GuestReg} {a : HostReg} (ha : c.Owns r a)
    (hz : r.isZero = false) (v : UInt32) : c.Shadows (h.set a v) core (g.setReg r v) := by
  obtain ⟨i, hi, -, hd, rfl⟩ := ha
  refine (x.write hi hz v).congr (fun j => ?_) (fun j => ?_)
  · rw [SlotArena.guest_setDirty]
  · rw [SlotArena.isDirty_setDirty]
    by_cases hij : i = j
    · rw [if_pos hij, ← hij, hd]
    · rw [if_neg hij]

/-- Freeing the slot that is offered. -/
theorem Shadows.free (x : c.Shadows h core g) (i : Fin 13) :
    ∃ core', Host.runOps (c.saveCode i) h ⟨core, M⟩ = .next h ⟨core', M⟩ ∧
      core.CatchesUp core' g ∧ (ScalarCache.mk (c.arena.clear i)).Shadows h core' g := by
  obtain ⟨core', hrun, hsame, hs⟩ := x.save (M := M) i
  refine ⟨core', hrun, hsame, ?_⟩
  have hd : (c.arena.setDirty i false).isDirty i = false := by
    rw [SlotArena.isDirty_setDirty, if_pos rfl]
  refine (hs.clear hd).congr (fun j => ?_) (fun j => ?_)
  · simp
  · rw [SlotArena.isDirty_clear, SlotArena.isDirty_clear, SlotArena.isDirty_setDirty]
    by_cases hij : i = j <;> simp [hij]

theorem keepsLocked_of_assign {i : Fin 13} (hi : c.arena.locked i = false) (r : GuestReg)
    (h : HostState) (v : UInt32) :
    KeepsLocked c ⟨(c.arena.clear i).assign i r⟩ h (h.set (hostReg i) v) := by
  intro j hj
  have hij : i ≠ j := fun heq => by
    rw [← heq, hi] at hj
    cases hj
  refine ⟨?_, ?_, ?_, fun hd => ?_⟩
  · rw [SlotArena.locked_assign, if_neg hij, SlotArena.locked_clear, hj]
  · rw [SlotArena.guest_assign, if_neg hij, SlotArena.guest_clear, if_neg hij]
  · rw [get_set_hostReg, if_neg hij]
  · rw [SlotArena.isDirty_assign, if_neg hij, SlotArena.isDirty_clear, if_neg hij, hd]

theorem keepsLocked_reuse (c : ScalarCache) (i : Fin 13) (h : HostState) :
    KeepsLocked c (c.reuse i) h h := by
  intro j hj
  refine ⟨?_, ?_, rfl, fun hd => ?_⟩
  · rw [reuse, SlotArena.locked_lock, SlotArena.locked_touch, hj]
    split <;> rfl
  · rw [reuse, SlotArena.guest_lock, SlotArena.guest_touch]
  · rw [reuse, SlotArena.isDirty_lock, SlotArena.isDirty_touch, hd]

theorem holds_reuse {i : Fin 13} {r : GuestReg} (hi : c.arena.guest i = some r) :
    (c.reuse i).Holds r (hostReg i) := by
  refine ⟨i, ?_, ?_, rfl⟩
  · rw [reuse, SlotArena.guest_lock, SlotArena.guest_touch, hi]
  · rw [reuse, SlotArena.locked_lock, if_pos rfl]

theorem Shadows.reuse (x : c.Shadows h core g) (i : Fin 13) : (c.reuse i).Shadows h core g :=
  x.congr (fun j => by rw [ScalarCache.reuse, SlotArena.guest_lock, SlotArena.guest_touch])
    (fun j => by rw [ScalarCache.reuse, SlotArena.isDirty_lock, SlotArena.isDirty_touch])

theorem runOps_loadCode (i : Fin 13) (r : GuestReg) (h : HostState) (m : Machine) :
    Host.runOps (loadCode i r) h m = .next (h.set (hostReg i) (m.core.reg r)) m := by
  rw [loadCode]
  cases hz : r.isZero with
  | true =>
    rw [if_pos rfl, Core.reg_of_isZero _ hz]
    rfl
  | false => rfl

/-- **Binding a register gives its value to a host register.** -/
theorem Shadows.bind (x : c.Shadows h core g) {r : GuestReg} {p : Placed HostReg ScalarCache}
    (hp : c.bind? r = some p) :
    ∃ h' core', Host.runOps p.code h ⟨core, M⟩ = .next h' ⟨core', M⟩ ∧
      p.cache.Shadows h' core' g ∧ p.cache.Holds r p.reg ∧ KeepsLocked c p.cache h h' ∧
      h.SameButScalars h' ∧ core.CatchesUp core' g := by
  rw [bind?] at hp
  cases hf : c.arena.find? r with
  | some i =>
    rw [hf] at hp
    cases hp
    exact ⟨h, core, rfl, x.reuse i, holds_reuse (SlotArena.guest_of_find? hf),
      keepsLocked_reuse c i h, .refl h, .refl core g⟩
  | none =>
    rw [hf] at hp
    simp only [allocate?, Option.map_map, Option.map_eq_some_iff] at hp
    obtain ⟨i, hi, rfl⟩ := hp
    have hr := SlotArena.find?_eq_none_iff.mp hf
    obtain ⟨core', hrun, hsame, hs⟩ := x.free (M := M) i
    have hfree : (c.arena.clear i).guest i = none := by
      rw [SlotArena.guest_clear, if_pos rfl]
    have hnone : ∀ j, (c.arena.clear i).guest j ≠ some r := fun j => by
      rw [SlotArena.guest_clear]
      by_cases hij : i = j
      · rw [if_pos hij]
        simp
      · rw [if_neg hij]
        exact hr j
    refine ⟨h.set (hostReg i) (g.reg r), core', ?_, hs.assign hfree hnone, ?_, ?_, ?_, hsame⟩
    · show Host.runOps (c.saveCode i ++ loadCode i r) h _ = _
      rw [Host.runOps_append, hrun]
      show Host.runOps (loadCode i r) h _ = _
      rw [runOps_loadCode, hs.saved r (fun j hj => absurd hj (hnone j))]
    · exact ⟨i, by simp, by simp, rfl⟩
    · exact keepsLocked_of_assign (SlotArena.not_locked_of_select? hi) r h _
    · exact sameButScalars_set h i _

/-- **Binding a register for a write makes a host register ready.** -/
theorem Shadows.bindForWrite (x : c.Shadows h core g) {r : GuestReg} (hz : r.isZero = false)
    {p : Placed HostReg ScalarCache} (hp : c.bindForWrite? r = some p) :
    ∃ core', Host.runOps p.code h ⟨core, M⟩ = .next h ⟨core', M⟩ ∧
      p.cache.Ready h core' g r p.reg ∧ KeepsLocked c p.cache h h ∧
      core.SameButScalars core' := by
  rw [bindForWrite?] at hp
  cases hf : c.arena.find? r with
  | some i =>
    rw [hf] at hp
    cases hp
    have hi := SlotArena.guest_of_find? hf
    have hi' : (c.reuse i).arena.guest i = some r := by
      rw [ScalarCache.reuse, SlotArena.guest_lock, SlotArena.guest_touch, hi]
    refine ⟨core, rfl, ⟨⟨i, ?_, ?_, ?_, rfl⟩, fun v => ?_⟩, fun j hj => ?_, .refl core⟩
    · rw [SlotArena.guest_setDirty, hi']
    · rw [SlotArena.locked_setDirty, ScalarCache.reuse, SlotArena.locked_lock, if_pos rfl]
    · rw [SlotArena.isDirty_setDirty, if_pos rfl]
    · exact (x.reuse i).write hi' hz v
    · have hk := keepsLocked_reuse c i h j hj
      refine ⟨?_, ?_, hk.value, fun hd => ?_⟩
      · rw [SlotArena.locked_setDirty, hk.locked]
      · rw [SlotArena.guest_setDirty, hk.guest]
      · rw [SlotArena.isDirty_setDirty, hk.dirty hd, ite_self]
  | none =>
    rw [hf] at hp
    simp only [allocate?, Option.map_map, Option.map_eq_some_iff] at hp
    obtain ⟨i, hi, rfl⟩ := hp
    have hr := SlotArena.find?_eq_none_iff.mp hf
    obtain ⟨core', hrun, hsame, hs⟩ := x.free (M := M) i
    have hfree : (c.arena.clear i).guest i = none := by
      rw [SlotArena.guest_clear, if_pos rfl]
    have hnone : ∀ j, (c.arena.clear i).guest j ≠ some r := fun j => by
      rw [SlotArena.guest_clear]
      by_cases hij : i = j
      · rw [if_pos hij]
        simp
      · rw [if_neg hij]
        exact hr j
    refine ⟨core', hrun, ⟨⟨i, by simp, by simp, by simp, rfl⟩, fun v => ?_⟩, fun j hj => ?_,
      hsame.toSameButScalars⟩
    · have hbound : ((c.arena.clear i).assign i r).guest i = some r := by simp
      have hw := (hs.assign hfree hnone).write hbound hz v
      rw [HostState.set_set] at hw
      exact hw
    · have hk := keepsLocked_of_assign (SlotArena.not_locked_of_select? hi) r h 0 j hj
      refine ⟨?_, ?_, rfl, fun hd => ?_⟩
      · show ((c.arena.clear i).assign i r |>.setDirty i true).locked j = true
        rw [SlotArena.locked_setDirty, hk.locked]
      · show ((c.arena.clear i).assign i r |>.setDirty i true).guest j = _
        rw [SlotArena.guest_setDirty, hk.guest]
      · show ((c.arena.clear i).assign i r |>.setDirty i true).isDirty j = true
        rw [SlotArena.isDirty_setDirty, hk.dirty hd, ite_self]

/-- A register that is bound was written in its host register. -/
theorem Shadows.markDirty (x : c.Shadows h core g) {r : GuestReg} {a : HostReg}
    (ha : c.Holds r a) (hz : r.isZero = false) (v : UInt32) :
    (c.markDirty r).Shadows (h.set a v) core (g.setReg r v) := by
  obtain ⟨i, hi, -, rfl⟩ := ha
  have hf := x.sound.find?_eq_some_iff.mpr hi
  rw [ScalarCache.markDirty, hz, hf]
  exact x.write hi hz v

theorem holds_markDirty {r r' : GuestReg} {a : HostReg} (ha : c.Holds r a) :
    (c.markDirty r').Holds r a := by
  obtain ⟨i, hi, hl, rfl⟩ := ha
  rw [markDirty]
  cases r'.isZero with
  | true => exact ⟨i, hi, hl, rfl⟩
  | false =>
    cases c.arena.find? r' with
    | none => exact ⟨i, hi, hl, rfl⟩
    | some j => exact ⟨i, by simpa using hi, by simpa using hl, rfl⟩

/-! ### The whole cache -/

theorem shadows_empty : ScalarCache.empty.Shadows h core core where
  sound := SlotArena.sound_empty
  bound i r hi := by
    rw [ScalarCache.empty, SlotArena.guest_empty] at hi
    cases hi
  saved r _ := rfl

theorem Shadows.releaseLocks (x : c.Shadows h core g) : c.releaseLocks.Shadows h core g :=
  x.congr (fun i => by rw [ScalarCache.releaseLocks, SlotArena.guest_releaseLocks])
    (fun i => by rw [ScalarCache.releaseLocks, SlotArena.isDirty_releaseLocks])

/-- The stores of a list of bindings. -/
theorem runOps_stores (h : HostState) (bindings : List (Fin 13 × GuestReg)) (core : Core)
    (hbound : ∀ i r, (i, r) ∈ bindings → h.get (hostReg i) = g.reg r) :
    ∃ core', Host.runOps (bindings.map fun (i, r) => .storeGuest (hostReg i) r) h ⟨core, M⟩ =
        .next h ⟨core', M⟩ ∧ core.SameButScalars core' ∧
      ∀ r, core'.reg r = g.reg r ∨ core'.reg r = core.reg r ∧ ∀ i, (i, r) ∉ bindings := by
  induction bindings generalizing core with
  | nil => exact ⟨core, rfl, .refl core, fun r => .inr ⟨rfl, fun i => List.not_mem_nil⟩⟩
  | cons p rest ih =>
    obtain ⟨i, r⟩ := p
    obtain ⟨core', hrun, hsame, hall⟩ := ih (core.setReg r (h.get (hostReg i)))
      (fun j r' hj => hbound j r' (List.mem_cons_of_mem _ hj))
    refine ⟨core', hrun, (Core.SameButScalars.setReg core r _).trans hsame, fun r' => ?_⟩
    rw [hbound i r List.mem_cons_self] at hall
    rcases hall r' with heq | ⟨heq, hnot⟩
    · exact .inl heq
    · cases hz : r.isZero with
      | true =>
        rw [Core.setReg_of_isZero _ hz] at heq
        by_cases hr : r' = r
        · rw [hr, Core.reg_of_isZero _ hz, Core.reg_of_isZero _ hz]
          exact .inl rfl
        · refine .inr ⟨heq, fun j hj => ?_⟩
          rcases List.mem_cons.mp hj with hj | hj
          · cases hj
            exact hr rfl
          · exact hnot j hj
      | false =>
        rw [Core.reg_setReg _ hz] at heq
        by_cases hr : r = r'
        · rw [if_pos hr] at heq
          exact .inl (by rw [heq, hr])
        · rw [if_neg hr] at heq
          refine .inr ⟨heq, fun j hj => ?_⟩
          rcases List.mem_cons.mp hj with hj | hj
          · cases hj
            exact hr rfl
          · exact hnot j hj

/-- **Writing everything back brings the core up to date.** -/
theorem Shadows.flushAll (x : c.Shadows h core g) :
    ∃ core', Host.runOps c.flushAll.1 h ⟨core, M⟩ = .next h ⟨core', M⟩ ∧
      core.SameButScalars core' ∧ (∀ r, core'.reg r = g.reg r) ∧
      c.flushAll.2.Shadows h core' g := by
  obtain ⟨core', hrun, hsame, hall⟩ := runOps_stores (M := M) (g := g) h
    c.arena.dirtyBindings core
    (fun i r hmem => x.bound i r (SlotArena.mem_dirtyBindings_iff.mp hmem).1)
  have hreg : ∀ r, core'.reg r = g.reg r := fun r => by
    rcases hall r with heq | ⟨heq, hnot⟩
    · exact heq
    · rw [heq]
      refine x.saved r fun i hi => ?_
      cases hd : c.arena.isDirty i with
      | false => rfl
      | true => exact absurd (SlotArena.mem_dirtyBindings_iff.mpr ⟨hi, hd⟩) (hnot i)
  refine ⟨core', hrun, hsame, hreg, ?_, ?_, fun r _ => hreg r⟩
  · exact SlotArena.sound_of_guest_eq x.sound
      (fun i => by rw [ScalarCache.flushAll, SlotArena.guest_markClean])
  · intro i r hi
    rw [ScalarCache.flushAll, SlotArena.guest_markClean] at hi
    exact x.bound i r hi

/-- Bindings may be dropped when the core is up to date. -/
theorem shadows_discardAll (hreg : ∀ r, core.reg r = g.reg r) : c.discardAll.Shadows h core g where
  sound := SlotArena.sound_clearAll
  bound i r hi := by
    rw [discardAll, SlotArena.guest_clearAll] at hi
    cases hi
  saved r _ := hreg r

end ScalarCache

end Dynarec
