import Dynarec.Proofs.Guest.Execute
import Dynarec.Proofs.Lower.CacheCode
import Dynarec.Proofs.Lower.Scalars

/-!
# A lowering shadows the guest

`Shadow` says what the register caches and the knowledge about modifiers mean together: the host and
the machine `m`, which lags behind, stand for the machine `g`.  This file moves the relation along
the two kinds of change, those of scalar registers and those of elements, and gives one rule for
each primitive action of a lowering.
-/

namespace Dynarec

/-! ### Knowledge about modifiers -/

/-- What is known about a slot agrees with the control register that is held, and with the one that
is meant. -/
def Knowledge.Shadows (k : Knowledge) (held meant : UInt32) : Prop :=
  match k with
  | .unknown => held = meant
  | .clean value => held = value ∧ meant = value
  | .dirty value => meant = value

/-- What is known about all slots agrees with two cores. -/
def ModifierTracker.Shadows (t : ModifierTracker) (core g : Core) : Prop :=
  ∀ slot, (t.get slot).Shadows (core.modifier slot) (g.modifier slot)

theorem ModifierTracker.Shadows.congr {t : ModifierTracker} {core g core' g' : Core}
    (x : t.Shadows core g) (hcore : ∀ slot, core'.modifier slot = core.modifier slot)
    (hg : ∀ slot, g'.modifier slot = g.modifier slot) : t.Shadows core' g' := fun slot => by
  rw [hcore, hg]
  exact x slot

/-- A value that is known is the one that is meant. -/
theorem Knowledge.Shadows.meant_eq {k : Knowledge} {held meant value : UInt32}
    (x : k.Shadows held meant) (hk : k.value? = some value) : meant = value := by
  cases k with
  | unknown => cases hk
  | clean v => cases hk; exact x.2
  | dirty v => cases hk; exact x

namespace ModifierTracker

variable {t : ModifierTracker}

theorem value?_of_known? {known : Known} (h : t.known? = some known) :
    t.source.value? = some known.source ∧ t.target.value? = some known.target ∧
      t.destination.value? = some known.destination := by
  rw [known?] at h
  simp only [Option.bind_eq_bind, Option.bind_eq_some_iff] at h
  obtain ⟨source, hsource, target, htarget, destination, hdestination, heq⟩ := h
  cases heq
  exact ⟨hsource, htarget, hdestination⟩

theorem read?_of_hasNoModifier (h : t.hasNoModifier = true) (slot : ModifierSlot) :
    t.read? slot = some slot.identity := by
  rw [hasNoModifier, List.all_eq_true] at h
  refine eq_of_beq (h slot ?_)
  cases slot <;> decide

end ModifierTracker

theorem Core.SameButScalars.modifier {c c' : Core} (x : c.SameButScalars c')
    (slot : ModifierSlot) : c'.modifier slot = c.modifier slot :=
  x.controls slot.control (Core.control_ne_condition slot)

theorem Core.SameButElements.modifier {c c' : Core} (x : c.SameButElements c')
    (slot : ModifierSlot) : c'.modifier slot = c.modifier slot := x.controls slot.control

/-! ### The relation -/

/-- **The host and the machine `m` stand for the machine `g`.** -/
structure Shadow (c : ScalarCache) (e : ElementCache) (t : ModifierTracker) (h : HostState)
    (m g : Machine) : Prop where
  scalars : c.Shadows h m.core g.core
  elements : e.Shadows h m.core g.core
  modifiers : t.Shadows m.core g.core
  controls : ∀ k : Fin 16, 4 ≤ k.val → m.core.control k = g.core.control k
  frame : Core.SameFrame g.core m.core
  held : m.core.ZeroKept
  zero : g.core.ZeroKept
  memory : m.memory = g.memory

/-- The relation for the caches of a builder. -/
abbrev Builder.Shadows (b : Builder) (h : HostState) (m g : Machine) : Prop :=
  Shadow b.scalars b.elements b.modifiers h m g

theorem ElementCache.Shadows.transport {c : ElementCache} {h h' : HostState}
    {core core' g g' : Core} (x : c.Shadows h core g) (hfloats : h'.floats = h.floats)
    (hquads : h'.quads = h.quads) (hcore : core'.elements = core.elements)
    (hg : g'.elements = g.elements) : c.Shadows h' core' g' := by
  have hfloat : ∀ f, h'.float f = h.float f := fun f => by rw [HostState.float, hfloats]; rfl
  have hquad : ∀ q, h'.quad q = h.quad q := fun q => by rw [HostState.quad, hquads]; rfl
  have hec : ∀ e, core'.element e = core.element e := fun e => by rw [Core.element, hcore]; rfl
  have heg : ∀ e, g'.element e = g.element e := fun e => by rw [Core.element, hg]; rfl
  refine ⟨x.soundFloats, x.soundQuads, x.floatPlace, x.quadPlace, fun i e hi => ?_,
    fun i reg hi lane e hl => ?_, fun e hf hq => ?_⟩
  · rw [hfloat, heg]
    exact x.float i e hi
  · rw [hquad, heg]
    exact x.quad i reg hi lane e hl
  · rw [hec, heg]
    exact x.saved e hf hq

theorem ScalarCache.Shadows.transport {c : ScalarCache} {h h' : HostState} {core core' g g' : Core}
    (x : c.Shadows h core g) (hregs : h'.regs = h.regs) (hcore : ∀ r, core'.reg r = core.reg r)
    (hg : ∀ r, g'.reg r = g.reg r) : c.Shadows h' core' g' := by
  have hget : ∀ a, h'.get a = h.get a := fun a => by rw [HostState.get, hregs]; rfl
  refine ⟨x.sound, fun i r hi => ?_, fun r hr => ?_⟩
  · rw [hget, hg]
    exact x.bound i r hi
  · rw [hcore, hg]
    exact x.saved r hr

namespace Shadow

variable {c c' : ScalarCache} {e e' : ElementCache} {t : ModifierTracker} {h h' : HostState}
  {m g : Machine} {core' g' : Core}

/-- **A change of scalar registers.** -/
theorem changeScalars (x : Shadow c e t h m g) (hs : c'.Shadows h' core' g')
    (hh : h.SameButScalars h') (hm : m.core.SameButScalars core')
    (hg : g.core.SameButScalars g') : Shadow c' e t h' ⟨core', m.memory⟩ ⟨g', g.memory⟩ where
  scalars := hs
  elements := x.elements.transport hh.floats hh.quads hm.elements hg.elements
  modifiers := x.modifiers.congr hm.modifier hg.modifier
  controls k hk := by
    have hne : k ≠ Core.conditionControl := fun heq => by
      rw [heq] at hk
      exact absurd hk (by decide)
    show core'.control k = g'.control k
    rw [hm.controls k hne, hg.controls k hne]
    exact x.controls k hk
  frame := (hg.frame.symm.trans x.frame).trans hm.frame
  held := hm.zero.trans x.held
  zero := hg.zero.trans x.zero
  memory := x.memory

/-- **A change of elements.** -/
theorem changeElements (x : Shadow c e t h m g) (he : e'.Shadows h' core' g')
    (hh : h.SameButElements h') (hm : m.core.SameButElements core')
    (hg : g.core.SameButElements g') : Shadow c e' t h' ⟨core', m.memory⟩ ⟨g', g.memory⟩ where
  scalars := x.scalars.transport hh.regs hm.reg hg.reg
  elements := he
  modifiers := x.modifiers.congr hm.modifier hg.modifier
  controls k hk := by
    show core'.control k = g'.control k
    rw [hm.controls k, hg.controls k]
    exact x.controls k hk
  frame := (hg.frame.symm.trans x.frame).trans hm.frame
  held := hm.zero.trans x.held
  zero := hg.zero.trans x.zero
  memory := x.memory

/-- **A change of memory.** -/
theorem changeMemory (x : Shadow c e t h m g) (memory : Memory) :
    Shadow c e t h ⟨m.core, memory⟩ ⟨g.core, memory⟩ :=
  ⟨x.scalars, x.elements, x.modifiers, x.controls, x.frame, x.held, x.zero, rfl⟩

/-- Registers of the host that hold nothing may change. -/
theorem changeHost (x : Shadow c e t h m g)
    (hregs : ∀ a : HostReg, a.val < 13 → h'.get a = h.get a)
    (hfloats : ∀ f : FloatReg, f.val < 20 → h'.float f = h.float f) (hquads : h'.quads = h.quads) :
    Shadow c e t h' m g := by
  refine ⟨⟨x.scalars.sound, fun i r hi => ?_, x.scalars.saved⟩, ⟨x.elements.soundFloats,
    x.elements.soundQuads, x.elements.floatPlace, x.elements.quadPlace, fun i el hi => ?_,
    fun i reg hi => ?_, x.elements.saved⟩, x.modifiers, x.controls, x.frame, x.held, x.zero,
    x.memory⟩
  · rw [hregs _ (ScalarCache.hostReg_lt i)]
    exact x.scalars.bound i r hi
  · rw [hfloats _ (ElementCache.floatReg_lt i)]
    exact x.elements.float i el hi
  · rw [HostState.quad, hquads]
    exact x.elements.quad i reg hi

/-- A scalar register that a host register was given away for holds its value. -/
theorem get_of_holds (x : Shadow c e t h m g) {r : GuestReg} {a : HostReg} (ha : c.Holds r a) :
    h.get a = g.core.reg r := ha.get x.scalars

theorem get_of_holds_gpr (x : Shadow c e t h m g) {n : Fin 32} {a : HostReg}
    (ha : c.Holds (.gpr n) a) : h.get a = g.core.gpr n := by
  rw [x.get_of_holds ha, Core.reg_gpr x.zero]

theorem float_of_holds (x : Shadow c e t h m g) {el : Element} {f : FloatReg}
    (hf : e.HoldsElement el f) : h.float f = g.core.element el := hf.get x.elements

end Shadow

/-! ### When the machine does not lag behind -/

/-- The core is that of `g`, up to the program counter. -/
def Machine.Current (m g : Machine) : Prop := ∃ pc, m.core = { g.core with pc := pc }

theorem Shadow.current {c : ScalarCache} {e : ElementCache} {t : ModifierTracker} {h : HostState}
    {m g : Machine} (x : Shadow c e t h m g) (hreg : ∀ r, m.core.reg r = g.core.reg r)
    (helement : ∀ el, m.core.element el = g.core.element el)
    (hmodifier : ∀ slot, m.core.modifier slot = g.core.modifier slot) : m.Current g := by
  refine ⟨m.core.pc, Core.ext_readers (fun r => ?_) ?_ helement (fun k hk => ?_) ?_ rfl⟩
  · exact (hreg r).trans (by cases r <;> rfl)
  · exact x.held.trans x.zero.symm
  · by_cases h4 : 4 ≤ k.val
    · exact x.controls k h4
    · obtain ⟨slot, rfl⟩ := Core.exists_control hk (Nat.lt_of_not_le h4)
      exact hmodifier slot
  · exact ⟨x.frame.downcount, x.frame.runState, x.frame.inDelaySlot, x.frame.branchTarget,
      x.frame.exitRequested⟩

theorem Machine.Current.reg {m g : Machine} (hcur : m.Current g) (r : GuestReg) :
    m.core.reg r = g.core.reg r := by
  obtain ⟨pc, heq⟩ := hcur
  rw [heq]
  cases r <;> rfl

theorem Machine.Current.element {m g : Machine} (hcur : m.Current g) (e : Element) :
    m.core.element e = g.core.element e := by
  obtain ⟨pc, heq⟩ := hcur
  rw [heq]
  rfl

theorem Machine.Current.modifier {m g : Machine} (hcur : m.Current g) (slot : ModifierSlot) :
    m.core.modifier slot = g.core.modifier slot := by
  obtain ⟨pc, heq⟩ := hcur
  rw [heq]
  rfl

/-- Registers that are brought up to date are up to date. -/
theorem Shadow.current_of_catchesUp {c : ScalarCache} {e : ElementCache} {t : ModifierTracker}
    {h : HostState} {m g : Machine} {core' : Core} (x : Shadow c e t h ⟨core', m.memory⟩ g)
    (hm : m.core.CatchesUp core' g.core) (hcur : m.Current g) :
    Machine.Current ⟨core', m.memory⟩ g := by
  refine x.current (fun r => ?_) (fun el => ?_) fun slot => ?_
  · rcases hm.advance r with heq | heq
    · exact heq.trans (hcur.reg r)
    · exact heq
  · have hel : core'.element el = m.core.element el := by
      rw [Core.element, hm.elements]
      rfl
    exact hel.trans (hcur.element el)
  · exact (hm.modifier slot).trans (hcur.modifier slot)

/-! ### What an action within an instruction keeps -/

/-- **Registers that were given away, and everything that holds no guest value, are kept.** -/
structure Builder.Keeps (b b' : Builder) (h h' : HostState) : Prop where
  scalars : ScalarCache.KeepsLocked b.scalars b'.scalars h h'
  floats : ∀ i, b.elements.floats.locked i = true → b'.elements.floats.locked i = true ∧
    b'.elements.floats.guest i = b.elements.floats.guest i ∧
    h'.float (ElementCache.floatReg i) = h.float (ElementCache.floatReg i)
  used : b.elements.temporaries ≤ b'.elements.temporaries
  temporaries : ∀ f : FloatReg, 20 ≤ f.val → f.val < 20 + b.elements.temporaries →
    h'.float f = h.float f
  high : ∀ a : HostReg, 13 ≤ a.val → h'.get a = h.get a
  flags : h'.flags = h.flags
  savedFlags : h'.savedFlags = h.savedFlags
  modifiers : b'.modifiers = b.modifiers
  progress : b'.progress = b.progress

/-- **What survives an instruction**: the host registers that the lowering of a block uses for
itself, and how far it has come. -/
structure Builder.Steady (b b' : Builder) (h h' : HostState) : Prop where
  jumpTarget : h'.get HostReg.jumpTarget = h.get HostReg.jumpTarget
  downcount : h'.get HostReg.downcount = h.get HostReg.downcount
  savedFlags : h'.savedFlags = h.savedFlags
  progress : b'.progress = b.progress

namespace Builder.Keeps

variable {b b' b'' : Builder} {h h' h'' : HostState}

theorem refl (b : Builder) (h : HostState) : Keeps b b h h :=
  ⟨.refl _ _, fun _ hi => ⟨hi, rfl, rfl⟩, Nat.le_refl _, fun _ _ _ => rfl, fun _ _ => rfl, rfl, rfl,
    rfl, rfl⟩

theorem trans (x : Keeps b b' h h') (y : Keeps b' b'' h' h'') : Keeps b b'' h h'' where
  scalars := x.scalars.trans y.scalars
  floats i hi := by
    obtain ⟨hl, hg, hv⟩ := x.floats i hi
    obtain ⟨hl', hg', hv'⟩ := y.floats i hl
    exact ⟨hl', hg'.trans hg, hv'.trans hv⟩
  used := Nat.le_trans x.used y.used
  temporaries f hf hlt :=
    (y.temporaries f hf (Nat.lt_of_lt_of_le hlt (Nat.add_le_add_left x.used 20))).trans
      (x.temporaries f hf hlt)
  high a ha := (y.high a ha).trans (x.high a ha)
  flags := y.flags.trans x.flags
  savedFlags := y.savedFlags.trans x.savedFlags
  modifiers := y.modifiers.trans x.modifiers
  progress := y.progress.trans x.progress

/-- What was emitted does not matter. -/
theorem emitted (x : Keeps b b' h h') (code : CodeSpace) : Keeps b { b' with code := code } h h' :=
  ⟨x.scalars, x.floats, x.used, x.temporaries, x.high, x.flags, x.savedFlags, x.modifiers,
    x.progress⟩

theorem steady (x : Keeps b b' h h') : b.Steady b' h h' :=
  ⟨x.high _ (by decide), x.high _ (by decide), x.savedFlags, x.progress⟩

theorem holds (x : Keeps b b' h h') {r : GuestReg} {a : HostReg} (ha : b.scalars.Holds r a) :
    b'.scalars.Holds r a := (ha.keep x.scalars).1

theorem owns (x : Keeps b b' h h') {r : GuestReg} {a : HostReg} (ha : b.scalars.Owns r a) :
    b'.scalars.Owns r a := ha.keep x.scalars

end Builder.Keeps

namespace Builder.Steady

variable {b b' b'' : Builder} {h h' h'' : HostState}

theorem refl (b : Builder) (h : HostState) : Steady b b h h := ⟨rfl, rfl, rfl, rfl⟩

theorem trans (x : Steady b b' h h') (y : Steady b' b'' h' h'') : Steady b b'' h h'' :=
  ⟨y.jumpTarget.trans x.jumpTarget, y.downcount.trans x.downcount, y.savedFlags.trans x.savedFlags,
    y.progress.trans x.progress⟩

/-- An integer register that is neither of the two may be written. -/
theorem set (x : Steady b b' h h') {a : HostReg} (hj : a ≠ HostReg.jumpTarget)
    (hd : a ≠ HostReg.downcount) (v : UInt32) : Steady b b' h (h'.set a v) := by
  refine ⟨?_, ?_, x.savedFlags, x.progress⟩
  · rw [HostState.get_set, if_neg hj]
    exact x.jumpTarget
  · rw [HostState.get_set, if_neg hd]
    exact x.downcount

/-- What was emitted does not matter. -/
theorem emitted (x : Steady b b' h h') (code : CodeSpace) :
    Steady b { b' with code := code } h h' := ⟨x.jumpTarget, x.downcount, x.savedFlags, x.progress⟩

theorem setFloat (x : Steady b b' h h') (f : FloatReg) (v : Single) :
    Steady b b' h (h'.setFloat f v) := ⟨x.jumpTarget, x.downcount, x.savedFlags, x.progress⟩

theorem setQuad (x : Steady b b' h h') (q : QuadReg) (v : Vector Single 4) :
    Steady b b' h (h'.setQuad q v) := ⟨x.jumpTarget, x.downcount, x.savedFlags, x.progress⟩

end Builder.Steady

end Dynarec
