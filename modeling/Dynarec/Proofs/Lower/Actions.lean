import Dynarec.Proofs.Lower.Shadow

/-!
# Rules for the primitive actions

One rule for each action that hands out a register, gives all of them back, or makes the guest state
current.  Each takes the relation in front of the action, and hands the relation behind it to what
follows.
-/

namespace Dynarec

namespace Lowering

variable {s : Setting} {E : Outcome → Prop} {b : Builder} {h : HostState} {m g : Machine}

/-! ### Scalar registers -/

theorem useScalars_eq (wanted : GuestReg)
    (action : ScalarCache → Option (Placed HostReg ScalarCache)) :
    useScalars wanted action s b =
      match action b.scalars with
      | none => .error (.registersExhausted (.scalar wanted))
      | some p => .ok (p.reg, { b with scalars := p.cache, code := b.code.emitOps p.code }) := by
  show (match action b.scalars with
    | none => throw (.registersExhausted (.scalar wanted))
    | some placed => do
      modify fun b => { b with scalars := placed.cache }
      emitAll placed.code
      return placed.reg : Lowering HostReg) s b = _
  cases action b.scalars <;> rfl

/-- What `useScalars` yields when the action has a rule. -/
theorem wp_useScalars {wanted : GuestReg}
    {action : ScalarCache → Option (Placed HostReg ScalarCache)}
    {Q : HostReg → Builder → HostState → Machine → Prop}
    (haction : ∀ p, action b.scalars = some p → AllInline p.code ∧ (Host.runOps p.code h m).Yields E
      (Q p.reg { b with scalars := p.cache, code := b.code.emitOps p.code })) :
    wp s (useScalars wanted action) E Q b h m := by
  intro a b' hok
  rw [useScalars_eq] at hok
  cases hp : action b.scalars with
  | none =>
    rw [hp] at hok
    cases hok
  | some p =>
    rw [hp] at hok
    cases hok
    obtain ⟨hinline, hyields⟩ := haction p hp
    exact ⟨p.code, ⟨rfl, rfl, hinline⟩, hyields⟩

/-- A change of the scalar cache keeps what is given away. -/
theorem keeps_scalars {c : ScalarCache} {code : CodeSpace} {h' : HostState}
    (hk : ScalarCache.KeepsLocked b.scalars c h h') (hh : h.SameButScalars h') :
    b.Keeps { b with scalars := c, code := code } h h' := by
  have hfloat : ∀ f, h'.float f = h.float f := fun f => by rw [HostState.float, hh.floats]; rfl
  exact ⟨hk, fun i hi => ⟨hi, rfl, hfloat _⟩, Nat.le_refl _, fun f _ _ => hfloat f, hh.high,
    hh.flags, hh.savedFlags, rfl, rfl⟩

/-- **Binding a scalar register.**  A machine that does not lag behind does not after it. -/
theorem wp_bindReg (x : b.Shadows h m g) {r : GuestReg}
    {Q : HostReg → Builder → HostState → Machine → Prop}
    (hQ : ∀ a b' h' core, b'.Shadows h' ⟨core, m.memory⟩ g → b.Keeps b' h h' →
      b'.scalars.Holds r a → (m.Current g → Machine.Current ⟨core, m.memory⟩ g) →
      Q a b' h' ⟨core, m.memory⟩) :
    wp s (Lowering.bind r) E Q b h m := by
  refine wp_useScalars fun p hp => ⟨ScalarCache.allInline_bind? hp, ?_⟩
  obtain ⟨h', core', hrun, hs, hholds, hkeep, hh, hm⟩ := x.scalars.bind (M := m.memory) hp
  have hrun : Host.runOps p.code h m = _ := hrun
  rw [hrun]
  have x' := x.changeScalars hs hh hm.toSameButScalars (.refl _)
  exact hQ p.reg _ h' core' x' (keeps_scalars hkeep hh) hholds (x'.current_of_catchesUp hm)

theorem wp_bindGpr (x : b.Shadows h m g) {n : Fin 32}
    {Q : HostReg → Builder → HostState → Machine → Prop}
    (hQ : ∀ a b' h' core, b'.Shadows h' ⟨core, m.memory⟩ g → b.Keeps b' h h' →
      b'.scalars.Holds (.gpr n) a → (m.Current g → Machine.Current ⟨core, m.memory⟩ g) →
      Q a b' h' ⟨core, m.memory⟩) :
    wp s (bindGpr n) E Q b h m := wp_bindReg x hQ

/-- A host register may be written, and becomes a scalar register. -/
structure Ready (b : Builder) (h : HostState) (m g : Machine) (r : GuestReg) (a : HostReg) :
    Prop where
  owns : b.scalars.Owns r a
  write : ∀ v, b.Shadows (h.set a v) m (g.mapCore (·.setReg r v))

/-- A register that is ready for a write stays so when it was written. -/
theorem Ready.set {r : GuestReg} {a : HostReg} (hr : Ready b h m g r a) (v : UInt32) :
    Ready b (h.set a v) m g r a :=
  ⟨hr.owns, fun w => by
    rw [HostState.set_set]
    exact hr.write w⟩

/-- What was emitted does not matter. -/
theorem Ready.emitted {r : GuestReg} {a : HostReg} (hr : Ready b h m g r a) (code : CodeSpace) :
    Ready { b with code := code } h m g r a := ⟨hr.owns, hr.write⟩

theorem holds_lt {c : ScalarCache} {r : GuestReg} {a : HostReg} (ha : c.Holds r a) : a.val < 13 := by
  obtain ⟨i, -, -, rfl⟩ := ha
  exact ScalarCache.hostReg_lt i

theorem sameButScalars_set {a : HostReg} (ha : a.val < 13) (v : UInt32) :
    h.SameButScalars (h.set a v) :=
  ScalarCache.sameButScalars_set h ⟨a.val, ha⟩ v

/-- **Binding a scalar register that is written next.** -/
theorem wp_bindForWrite (x : b.Shadows h m g) {r : GuestReg} (hz : r.isZero = false)
    {Q : HostReg → Builder → HostState → Machine → Prop}
    (hQ : ∀ a b' core, Ready b' h ⟨core, m.memory⟩ g r a → b.Keeps b' h h →
      Q a b' h ⟨core, m.memory⟩) :
    wp s (bindForWrite r) E Q b h m := by
  refine wp_useScalars fun p hp => ⟨ScalarCache.allInline_bindForWrite? hp, ?_⟩
  obtain ⟨core', hrun, ⟨howns, hs⟩, hkeep, hm⟩ :=
    x.scalars.bindForWrite (M := m.memory) hz hp
  have hrun : Host.runOps p.code h m = _ := hrun
  rw [hrun]
  refine hQ p.reg _ core' ⟨howns, fun v => ?_⟩ (keeps_scalars hkeep (.refl h))
  exact x.changeScalars (hs v) (sameButScalars_set (holds_lt howns.holds) v) hm (.setReg _ r v)

theorem wp_bindGprForWrite (x : b.Shadows h m g) {n : Fin 32} (hn : n ≠ 0)
    {Q : HostReg → Builder → HostState → Machine → Prop}
    (hQ : ∀ a b' core, Ready b' h ⟨core, m.memory⟩ g (.gpr n) a → b.Keeps b' h h →
      Q a b' h ⟨core, m.memory⟩) :
    wp s (bindGprForWrite n) E Q b h m :=
  wp_bindForWrite (r := .gpr n) x (decide_eq_false hn) hQ

/-- **A scalar register that was given away was written in its host register.** -/
theorem shadows_markDirty (x : b.Shadows h m g) {r : GuestReg} (hz : r.isZero = false)
    {a : HostReg} (ha : b.scalars.Holds r a) (v : UInt32) :
    Shadow (b.scalars.markDirty r) b.elements b.modifiers (h.set a v) m
      (g.mapCore (·.setReg r v)) :=
  x.changeScalars (x.scalars.markDirty ha hz v) (sameButScalars_set (holds_lt ha) v) (.refl _)
    (.setReg _ r v)

/-! ### Elements -/

theorem useElements_eq {R : Type} (wanted : Wanted)
    (action : ElementCache → Option (Placed R ElementCache)) :
    useElements wanted action s b =
      match action b.elements with
      | none => .error (.registersExhausted wanted)
      | some p => .ok (p.reg, { b with elements := p.cache, code := b.code.emitOps p.code }) := by
  show (match action b.elements with
    | none => throw (.registersExhausted wanted)
    | some placed => do
      modify fun b => { b with elements := placed.cache }
      emitAll placed.code
      return placed.reg : Lowering R) s b = _
  cases action b.elements <;> rfl

/-- What `useElements` yields when the action has a rule. -/
theorem wp_useElements {R : Type} {wanted : Wanted}
    {action : ElementCache → Option (Placed R ElementCache)}
    {Q : R → Builder → HostState → Machine → Prop}
    (haction : ∀ p, action b.elements = some p → AllInline p.code ∧
      (Host.runOps p.code h m).Yields E
        (Q p.reg { b with elements := p.cache, code := b.code.emitOps p.code })) :
    wp s (useElements wanted action) E Q b h m := by
  intro a b' hok
  rw [useElements_eq] at hok
  cases hp : action b.elements with
  | none =>
    rw [hp] at hok
    cases hok
  | some p =>
    rw [hp] at hok
    cases hok
    obtain ⟨hinline, hyields⟩ := haction p hp
    exact ⟨p.code, ⟨rfl, rfl, hinline⟩, hyields⟩

theorem get_of_sameButElements {h' : HostState} (hh : h.SameButElements h') (a : HostReg) :
    h'.get a = h.get a := by
  rw [HostState.get, hh.regs]
  rfl

/-- A change of the element cache keeps what is given away. -/
theorem keeps_elements {c : ElementCache} {code : CodeSpace} {h' : HostState}
    (hk : ElementCache.KeepsFloats b.elements c h h') (hh : h.SameButElements h') :
    b.Keeps { b with elements := c, code := code } h h' :=
  ⟨fun _ hi => ⟨hi, rfl, get_of_sameButElements hh _, id⟩, hk.locked, Nat.le_of_eq hk.temporaries.symm,
    fun f hf _ => hh.temporaries f hf, fun a _ => get_of_sameButElements hh a, hh.flags,
    hh.savedFlags, rfl, rfl⟩

/-- **Binding an element.** -/
theorem wp_readElement (x : b.Shadows h m g) {e : Element}
    {Q : FloatReg → Builder → HostState → Machine → Prop}
    (hQ : ∀ f b' h' core, b'.Shadows h' ⟨core, m.memory⟩ g → b.Keeps b' h h' →
      b'.elements.HoldsElement e f → Q f b' h' ⟨core, m.memory⟩) :
    wp s (readElement e) E Q b h m := by
  refine wp_useElements fun p hp => ⟨ElementCache.allInline_bindElement? hp, ?_⟩
  obtain ⟨h', core', hrun, hs, hholds, hkeep, hh, hm⟩ :=
    x.elements.bindElement (M := m.memory) hp
  have hrun : Host.runOps p.code h m = _ := hrun
  rw [hrun]
  exact hQ p.reg _ h' core' (x.changeElements hs hh hm (.refl _)) (keeps_elements hkeep hh) hholds

/-- A float register may be written, and becomes an element. -/
def ReadyElement (b : Builder) (h : HostState) (m g : Machine) (e : Element) (f : FloatReg) : Prop :=
  b.elements.HoldsElement e f ∧
    ∀ v, b.Shadows (h.setFloat f v) m (g.mapCore (·.setElement e v))

theorem holdsElement_lt {c : ElementCache} {e : Element} {f : FloatReg} (hf : c.HoldsElement e f) :
    f.val < 20 := by
  obtain ⟨i, -, -, rfl⟩ := hf
  exact ElementCache.floatReg_lt i

/-- **Binding an element that is written next.** -/
theorem wp_writeElement (x : b.Shadows h m g) {e : Element}
    {Q : FloatReg → Builder → HostState → Machine → Prop}
    (hQ : ∀ f b' core, ReadyElement b' h ⟨core, m.memory⟩ g e f → b.Keeps b' h h →
      Q f b' h ⟨core, m.memory⟩) :
    wp s (writeElement e) E Q b h m := by
  refine wp_useElements fun p hp => ⟨ElementCache.allInline_bindElement? hp, ?_⟩
  obtain ⟨core', hrun, ⟨hholds, hs⟩, hkeep, hm⟩ :=
    x.elements.bindElementForWrite (M := m.memory) hp
  have hrun : Host.runOps p.code h m = _ := hrun
  rw [hrun]
  refine hQ p.reg _ core' ⟨hholds, fun v => ?_⟩ (keeps_elements hkeep (.refl h))
  have hh : h.SameButElements (h.setFloat p.reg v) :=
    ElementCache.sameButElements_setFloat h ⟨p.reg.val, holdsElement_lt hholds⟩ v
  exact x.changeElements (hs v) hh hm (.setElement _ e v)

/-- A temporary that is in use. -/
def HoldsTemporary (b : Builder) (f : FloatReg) : Prop :=
  20 ≤ f.val ∧ f.val < 20 + b.elements.temporaries

theorem HoldsTemporary.keep {b' : Builder} {h' : HostState} {f : FloatReg}
    (hf : HoldsTemporary b f) (hk : b.Keeps b' h h') :
    HoldsTemporary b' f ∧ h'.float f = h.float f :=
  ⟨⟨hf.1, Nat.lt_of_lt_of_le hf.2 (Nat.add_le_add_left hk.used 20)⟩, hk.temporaries f hf.1 hf.2⟩

/-- A temporary that was free may be written. -/
theorem keeps_setTemporary {b' : Builder} {h' : HostState} (hk : b.Keeps b' h h') {t : FloatReg}
    (ht : HoldsTemporary b' t) (hfresh : ¬ HoldsTemporary b t) (v : Single) :
    b.Keeps b' h (h'.setFloat t v) := by
  refine ⟨fun i hi => ?_, fun i hi => ?_, hk.used, fun f hf hlt => ?_, hk.high, hk.flags,
    hk.savedFlags, hk.modifiers, hk.progress⟩
  · have hslot := hk.scalars i hi
    exact ⟨hslot.locked, hslot.guest, hslot.value, hslot.dirty⟩
  · obtain ⟨hl, hg, hv⟩ := hk.floats i hi
    refine ⟨hl, hg, ?_⟩
    rw [HostState.float_setFloat, if_neg, hv]
    intro heq
    have hi' := ElementCache.floatReg_lt i
    rw [← heq] at hi'
    exact absurd ht.1 (Nat.not_le_of_lt hi')
  · rw [HostState.float_setFloat, if_neg, hk.temporaries f hf hlt]
    intro heq
    rw [heq] at hfresh
    exact hfresh ⟨hf, hlt⟩

/-- **Taking a temporary.** -/
theorem wp_temporary (x : b.Shadows h m g)
    {Q : FloatReg → Builder → HostState → Machine → Prop}
    (hQ : ∀ f b', b'.Shadows h m g → b.Keeps b' h h → HoldsTemporary b' f →
      ¬ HoldsTemporary b f → Q f b' h m) :
    wp s temporary E Q b h m := by
  refine wp_useElements fun p hp => ?_
  rw [ElementCache.temporary?] at hp
  by_cases hlt : b.elements.temporaries < ElementCache.temporaryCount
  · rw [if_pos hlt] at hp
    cases hp
    refine ⟨.nil, ?_⟩
    have hlt : b.elements.temporaries < 12 := hlt
    have hval : (Fin.ofNat 32 (20 + b.elements.temporaries)).val = 20 + b.elements.temporaries :=
      Nat.mod_eq_of_lt (by omega)
    refine hQ _ _ ⟨x.scalars, ?_, x.modifiers, x.controls, x.frame, x.held, x.zero, x.memory⟩
      ?_ ?_ ?_
    · exact x.elements.congr (fun _ => ⟨rfl, rfl⟩) (fun _ => ⟨rfl, rfl⟩) (fun _ => rfl)
    · exact ⟨fun _ hi => ⟨hi, rfl, rfl, id⟩, fun i hi => ⟨hi, rfl, rfl⟩, Nat.le_succ _,
        fun _ _ _ => rfl, fun _ _ => rfl, rfl, rfl, rfl, rfl⟩
    · refine ⟨?_, ?_⟩
      · rw [hval]
        omega
      · rw [hval]
        exact Nat.lt_succ_self _
    · rintro ⟨-, hused⟩
      rw [hval] at hused
      exact absurd hused (Nat.lt_irrefl _)
  · rw [if_neg hlt] at hp
    cases hp

/-! ### Quads -/

/-- Only the element cache and what it stands for changed. -/
structure KeepsScalars (b b' : Builder) (h h' : HostState) : Prop where
  scalars : b'.scalars = b.scalars
  host : h.SameButElements h'
  modifiers : b'.modifiers = b.modifiers
  progress : b'.progress = b.progress

namespace KeepsScalars

variable {b' b'' : Builder} {h' h'' : HostState}

theorem trans (x : KeepsScalars b b' h h') (y : KeepsScalars b' b'' h' h'') :
    KeepsScalars b b'' h h'' :=
  ⟨y.scalars.trans x.scalars, x.host.trans y.host, y.modifiers.trans x.modifiers,
    y.progress.trans x.progress⟩

theorem steady (x : KeepsScalars b b' h h') : b.Steady b' h h' :=
  ⟨get_of_sameButElements x.host _, get_of_sameButElements x.host _, x.host.savedFlags,
    x.progress⟩

end KeepsScalars

/-- Two vector registers are the same, or share no element. -/
def Agree (reg reg' : Fin 128) : Prop :=
  reg = reg' ∨ ∀ e ∈ ElementCache.quadElements reg, e ∉ ElementCache.quadElements reg'

/-- **Binding a vector register.** -/
theorem wp_readQuad (x : b.Shadows h m g) {reg : UInt8}
    {Q : QuadReg → Builder → HostState → Machine → Prop}
    (hQ : ∀ q b' h' core, b'.Shadows h' ⟨core, m.memory⟩ g → KeepsScalars b b' h h' →
      b'.elements.HoldsQuad (quadIndex reg) q →
      (∀ reg' q', b.elements.HoldsQuad reg' q' → Agree (quadIndex reg) reg' →
        b'.elements.HoldsQuad reg' q') → Q q b' h' ⟨core, m.memory⟩) :
    wp s (readQuad reg) E Q b h m := by
  refine wp_useElements fun p hp => ⟨ElementCache.allInline_bindQuad? hp, ?_⟩
  obtain ⟨h', core', hrun, hs, hholds, hkeep, hh, hm, -⟩ :=
    x.elements.bindQuad (M := m.memory) hp
  have hrun : Host.runOps p.code h m = _ := hrun
  rw [hrun]
  exact hQ p.reg _ h' core' (x.changeElements hs hh hm (.refl _)) ⟨rfl, hh, rfl, rfl⟩ hholds
    fun reg' q' hq hagree => (hkeep reg' q' hq hagree).1

/-- A quad register may be written, and becomes a vector register. -/
def ReadyQuad (b : Builder) (h : HostState) (m g : Machine) (reg : Fin 128) (q : QuadReg) : Prop :=
  ∀ v : Vector Single 4, b.Shadows (h.setQuad q v) m
    (g.mapCore fun c => setElements c (ElementCache.quadElements reg) v.toList)

/-- **Binding a vector register that is written next.** -/
theorem wp_writeQuad (x : b.Shadows h m g) {reg : UInt8}
    {Q : QuadReg → Builder → HostState → Machine → Prop}
    (hQ : ∀ q b' core, ReadyQuad b' h ⟨core, m.memory⟩ g (quadIndex reg) q →
      KeepsScalars b b' h h → Q q b' h ⟨core, m.memory⟩) :
    wp s (writeQuad reg) E Q b h m := by
  refine wp_useElements fun p hp => ⟨ElementCache.allInline_bindQuad? hp, ?_⟩
  obtain ⟨core', hrun, ⟨-, hs⟩, -, hm, -⟩ := x.elements.bindQuadForWrite (M := m.memory) hp
  have hrun : Host.runOps p.code h m = _ := hrun
  rw [hrun]
  exact hQ p.reg _ core' (fun v => x.changeElements (hs v)
    (ElementCache.sameButElements_setQuad h p.reg v) hm (.setElements _ _ _)) ⟨rfl, .refl h, rfl, rfl⟩

theorem quad_of_holds (x : b.Shadows h m g) {reg : Fin 128} {q : QuadReg}
    (hq : b.elements.HoldsQuad reg q) : h.quad q = ElementCache.quadValue g.core reg :=
  x.elements.quad_eq hq.1

/-! ### The whole caches -/

theorem shadows_releaseLocks (x : b.Shadows h m g) :
    Shadow b.scalars.releaseLocks b.elements.releaseLocks b.modifiers h m g :=
  ⟨x.scalars.releaseLocks, x.elements.releaseLocks, x.modifiers, x.controls, x.frame, x.held,
    x.zero, x.memory⟩

/-- **Giving all registers back.** -/
theorem wp_releaseLocks (x : b.Shadows h m g) {Q : Unit → Builder → HostState → Machine → Prop}
    (hQ : ∀ b', b'.Shadows h m g → b.Steady b' h h → b'.modifiers = b.modifiers → Q () b' h m) :
    wp s releaseLocks E Q b h m :=
  wp_modify rfl rfl (hQ _ (shadows_releaseLocks x) ⟨rfl, rfl, rfl, rfl⟩ rfl)

theorem straight_releaseLocks : Straight s releaseLocks :=
  straight_modify (fun _ => rfl) (fun _ => rfl) (fun _ => rfl)

/-- The store of a modifier. -/
def storeModifier (p : ModifierSlot × UInt32) : Operation :=
  .setControl (UInt8.ofNat p.1.control.val) p.2

/-- Emitting one operation for each item of a list. -/
theorem emitEach_eq {α : Type} (f : α → Operation) (l : List α) (b : Builder) :
    (forIn l PUnit.unit fun p _ => do
      emit (f p)
      pure (.yield PUnit.unit) : Lowering PUnit) s b =
      .ok (PUnit.unit, { b with code := b.code.emitOps (l.map f) }) := by
  induction l generalizing b with
  | nil => rfl
  | cons a rest ih =>
    rw [List.forIn_cons]
    exact ih { b with code := b.code.emit (f a).encode }

theorem flushModifiers_eq (b : Builder) :
    flushModifiers s b = .ok ((), { b with
      code := b.code.emitOps (b.modifiers.dirtySlots.map storeModifier)
      modifiers := b.modifiers.markFlushed }) := by
  have hloop := emitEach_eq (s := s) storeModifier b.modifiers.dirtySlots b
  show ((forIn b.modifiers.dirtySlots PUnit.unit fun p _ => do
      emit (storeModifier p)
      pure (.yield PUnit.unit) : Lowering PUnit) >>= fun _ => updateModifiers (·.markFlushed)) s b = _
  show (((forIn b.modifiers.dirtySlots PUnit.unit fun p _ => do
      emit (storeModifier p)
      pure (.yield PUnit.unit) : Lowering PUnit) s b) >>=
      fun p => updateModifiers (·.markFlushed) s p.2) = _
  rw [hloop]
  rfl

theorem straight_flushModifiers : Straight s flushModifiers := by
  intro b x b' hok
  rw [flushModifiers_eq] at hok
  cases hok
  refine ⟨_, ⟨rfl, rfl, AllInline.map (fun p => ?_) _⟩, rfl⟩
  exact trivial

/-- Only the control registers of modifiers differ. -/
structure SameButModifiers (c c' : Core) : Prop where
  frame : Core.SameFrame c c'
  reg : ∀ r, c'.reg r = c.reg r
  elements : c'.elements = c.elements
  controls : ∀ k : Fin 16, 4 ≤ k.val → c'.control k = c.control k
  zero : c'.gpr 0 = c.gpr 0

theorem SameButModifiers.refl (c : Core) : SameButModifiers c c :=
  ⟨.refl c, fun _ => rfl, rfl, fun _ _ => rfl, rfl⟩

theorem SameButModifiers.trans {c c' c'' : Core} (x : SameButModifiers c c')
    (y : SameButModifiers c' c'') : SameButModifiers c c'' :=
  ⟨x.frame.trans y.frame, fun r => (y.reg r).trans (x.reg r), y.elements.trans x.elements,
    fun k hk => (y.controls k hk).trans (x.controls k hk), y.zero.trans x.zero⟩

theorem sameButModifiers_setModifier (c : Core) (slot : ModifierSlot) (v : UInt32) :
    SameButModifiers c (c.setModifier slot v) := by
  refine ⟨c.sameFrame_setControl _ v,
    fun r => c.reg_setControl (Core.control_ne_condition slot) v r, rfl, fun k hk => ?_, rfl⟩
  rw [Core.setModifier, Core.controls_setControl, if_neg]
  intro heq
  rw [← heq] at hk
  cases slot <;> exact absurd hk (by decide)

theorem perform_storeModifier (slot : ModifierSlot) (v : UInt32) (h : HostState) (m : Machine) :
    (storeModifier (slot, v)).perform h m = .next h (m.mapCore (·.setModifier slot v)) := by
  have hindex : controlIndex (UInt8.ofNat slot.control.val) = slot.control := by
    cases slot <;> rfl
  show Outcome.next h ⟨m.core.setControl (controlIndex (UInt8.ofNat slot.control.val)) v, _⟩ = _
  rw [hindex]
  rfl

/-- The stores of a list of modifiers. -/
theorem runOps_storeModifiers (h : HostState) (g : Core) (l : List (ModifierSlot × UInt32))
    (core : Core) (memory : Memory) (hl : ∀ slot v, (slot, v) ∈ l → g.modifier slot = v) :
    ∃ core', Host.runOps (l.map storeModifier) h ⟨core, memory⟩ = .next h ⟨core', memory⟩ ∧
      SameButModifiers core core' ∧ ∀ slot, core'.modifier slot = g.modifier slot ∨
        core'.modifier slot = core.modifier slot ∧ ∀ v, (slot, v) ∉ l := by
  induction l generalizing core with
  | nil => exact ⟨core, rfl, .refl core, fun slot => .inr ⟨rfl, fun v => List.not_mem_nil⟩⟩
  | cons p rest ih =>
    obtain ⟨slot, v⟩ := p
    obtain ⟨core', hrun, hsame, hall⟩ := ih (core.setModifier slot v)
      fun slot' v' hmem => hl slot' v' (List.mem_cons_of_mem _ hmem)
    refine ⟨core', ?_, (sameButModifiers_setModifier core slot v).trans hsame, fun slot' => ?_⟩
    · rw [List.map_cons, Host.runOps_cons_next (perform_storeModifier slot v h ⟨core, memory⟩)]
      exact hrun
    · rcases hall slot' with heq | ⟨heq, hnot⟩
      · exact .inl heq
      · rw [Core.modifier_setModifier] at heq
        by_cases hs : slot = slot'
        · rw [if_pos hs] at heq
          rw [heq, ← hs, hl slot v List.mem_cons_self]
          exact .inl rfl
        · rw [if_neg hs] at heq
          refine .inr ⟨heq, fun v' hmem => ?_⟩
          rcases List.mem_cons.mp hmem with hmem | hmem
          · cases hmem
            exact hs rfl
          · exact hnot v' hmem

theorem mem_dirtySlots {t : ModifierTracker} {slot : ModifierSlot} {v : UInt32} :
    (slot, v) ∈ t.dirtySlots ↔ t.get slot = .dirty v := by
  rw [ModifierTracker.dirtySlots, List.mem_filterMap]
  constructor
  · rintro ⟨slot', -, hslot'⟩
    cases hk : t.get slot' with
    | unknown => rw [hk] at hslot'; cases hslot'
    | clean w => rw [hk] at hslot'; cases hslot'
    | dirty w => rw [hk] at hslot'; cases hslot'; exact hk
  · intro hk
    refine ⟨slot, ?_, by rw [hk]⟩
    cases slot <;> decide

theorem get_ofRule (rule : ModifierSlot → Knowledge) (slot : ModifierSlot) :
    (ModifierTracker.ofRule rule).get slot = rule slot := by
  cases slot <;> rfl

/-- **Writing the modifiers brings their control registers up to date.** -/
theorem runOps_flushModifiers (x : b.Shadows h m g) :
    ∃ core', Host.runOps (b.modifiers.dirtySlots.map storeModifier) h m =
        .next h ⟨core', m.memory⟩ ∧ SameButModifiers m.core core' ∧
      (∀ slot, core'.modifier slot = g.core.modifier slot) ∧
      Shadow b.scalars b.elements b.modifiers.markFlushed h ⟨core', m.memory⟩ g := by
  obtain ⟨core', hrun, hsame, hall⟩ := runOps_storeModifiers h g.core b.modifiers.dirtySlots
    m.core m.memory fun slot v hmem => by
      have hslot := x.modifiers slot
      rw [mem_dirtySlots.mp hmem] at hslot
      exact hslot
  have hmodifier : ∀ slot, core'.modifier slot = g.core.modifier slot := fun slot => by
    rcases hall slot with heq | ⟨heq, hnot⟩
    · exact heq
    · rw [heq]
      have hslot := x.modifiers slot
      cases hk : b.modifiers.get slot with
      | unknown => rw [hk] at hslot; exact hslot
      | clean v => rw [hk] at hslot; exact hslot.1.trans hslot.2.symm
      | dirty v => exact absurd (mem_dirtySlots.mpr hk) (hnot v)
  refine ⟨core', hrun, hsame, hmodifier, ?_⟩
  refine ⟨x.scalars.transport rfl hsame.reg fun _ => rfl,
    x.elements.transport rfl rfl hsame.elements rfl, fun slot => ?_, fun k hk => ?_,
    x.frame.trans hsame.frame, hsame.zero.trans x.held, x.zero, x.memory⟩
  · have hslot := x.modifiers slot
    rw [ModifierTracker.markFlushed, get_ofRule]
    cases hk : b.modifiers.get slot with
    | unknown => exact hmodifier slot
    | clean v =>
      rw [hk] at hslot
      exact ⟨(hmodifier slot).trans hslot.2, hslot.2⟩
    | dirty v =>
      rw [hk] at hslot
      exact ⟨(hmodifier slot).trans hslot, hslot⟩
  · exact (hsame.controls k hk).trans (x.controls k hk)

/-- **Writing the modifiers**, as an action. -/
theorem wp_flushModifiers (x : b.Shadows h m g)
    {Q : Unit → Builder → HostState → Machine → Prop}
    (hQ : ∀ b' core, b'.Shadows h ⟨core, m.memory⟩ g → b'.modifiers = b.modifiers.markFlushed →
      b.Steady b' h h → SameButModifiers m.core core →
      (∀ slot, core.modifier slot = g.core.modifier slot) → Q () b' h ⟨core, m.memory⟩) :
    wp s flushModifiers E Q b h m := by
  intro u b' hok
  rw [flushModifiers_eq] at hok
  cases hok
  obtain ⟨core', hrun, hsame, hmodifier, x'⟩ := runOps_flushModifiers x
  refine ⟨_, ⟨rfl, rfl, AllInline.map (fun p => ?_) _⟩, ?_⟩
  · exact trivial
  · rw [hrun]
    exact hQ _ core' x' rfl ⟨rfl, rfl, rfl, rfl⟩ hsame hmodifier

/-- The bindings were written back, the modifiers not yet. -/
def flushedBindings (b : Builder) : Builder :=
  { b with
    scalars := b.scalars.flushAll.2
    elements := b.elements.flushAll.2
    code := b.code.emitOps (b.scalars.flushAll.1 ++ b.elements.flushAll.1) }

theorem flushAll_eq (b : Builder) : flushAll s b = flushModifiers s (flushedBindings b) := rfl

theorem emits_flushedBindings (b : Builder) :
    b.Emits (flushedBindings b) (b.scalars.flushAll.1 ++ b.elements.flushAll.1) :=
  ⟨rfl, rfl, ScalarCache.allInline_flushAll.append ElementCache.allInline_flushAll⟩

theorem straight_flushAll : Straight s flushAll := by
  intro b x b' hok
  rw [flushAll_eq] at hok
  obtain ⟨ops, hemits, hprogress⟩ := straight_flushModifiers _ _ _ hok
  exact ⟨_, (emits_flushedBindings b).trans hemits, hprogress⟩

/-- **Making the guest state current.** -/
theorem wp_flushAll (x : b.Shadows h m g) {Q : Unit → Builder → HostState → Machine → Prop}
    (hQ : ∀ b' core, b'.Shadows h ⟨core, m.memory⟩ g → Machine.Current ⟨core, m.memory⟩ g →
      b.Steady b' h h → Q () b' h ⟨core, m.memory⟩) :
    wp s flushAll E Q b h m := by
  intro u b' hok
  rw [flushAll_eq] at hok
  obtain ⟨core₁, hrun₁, hsame₁, hreg₁, hs₁⟩ := x.scalars.flushAll (M := m.memory)
  have x₁ := x.changeScalars hs₁ (.refl h) hsame₁ (.refl _)
  obtain ⟨core₂, hrun₂, hsame₂, helement₂, hs₂⟩ := x₁.elements.flushAll (M := m.memory)
  have x₂ : (flushedBindings b).Shadows h ⟨core₂, m.memory⟩ g :=
    x₁.changeElements hs₂ (.refl h) hsame₂ (.refl _)
  have hrun : Host.runOps (b.scalars.flushAll.1 ++ b.elements.flushAll.1) h m =
      .next h ⟨core₂, m.memory⟩ := by
    rw [Host.runOps_append]
    have hrun₁ : Host.runOps b.scalars.flushAll.1 h m = _ := hrun₁
    rw [hrun₁]
    exact hrun₂
  have hmod := wp_flushModifiers (s := s) (E := E) x₂ (Q := Q)
    fun b'' core₃ x₃ _ hsteady hsame₃ hmodifier => by
      refine hQ b'' core₃ x₃ (x₃.current (fun r => ?_) (fun el => ?_) hmodifier)
        ⟨rfl, rfl, rfl, hsteady.progress⟩
      · exact (hsame₃.reg r).trans ((hsame₂.reg r).trans (hreg₁ r))
      · have hel : core₃.element el = core₂.element el := by
          rw [Core.element, hsame₃.elements]
          rfl
        exact hel.trans (helement₂ el)
  obtain ⟨ops, hemits, hyields⟩ := hmod u b' hok
  refine ⟨_, (emits_flushedBindings b).trans hemits, Host.yields_append ?_⟩
  rw [hrun]
  exact hyields

/-- **Dropping all bindings**, when the machine does not lag behind. -/
theorem wp_discardAll (x : b.Shadows h m g) (hcur : m.Current g)
    {Q : Unit → Builder → HostState → Machine → Prop}
    (hQ : ∀ b', b'.scalars = b.scalars.discardAll → b'.elements = b.elements.discardAll →
      b'.modifiers = b.modifiers → b'.progress = b.progress → b'.Shadows h m g → Q () b' h m) :
    wp s discardAll E Q b h m :=
  wp_modify rfl rfl (hQ _ rfl rfl rfl rfl ⟨ScalarCache.shadows_discardAll hcur.reg,
    ElementCache.shadows_discardAll hcur.element, x.modifiers, x.controls, x.frame, x.held, x.zero,
    x.memory⟩)

end Lowering

end Dynarec
