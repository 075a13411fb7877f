import Dynarec.Proofs.Lower.Plain

/-!
# Lanes of vector instructions

A lane of an operand is read through its modifier into a float register (`wp_readLane`), results of
lanes are collected in temporaries (`wp_mapLanes`), and the temporaries are written through the
destination modifier (`wp_writeLanes`).  What the interpreter does to whole operands is stated lane
by lane to match (`applySource_eq`, `writeElements_cons`).
-/

namespace Dynarec

namespace Lowering

variable {s : Setting} {b : Builder} {h : HostState} {m g : Machine}

/-! ### Float registers within an instruction -/

/-- A float register that an element or a temporary was given. -/
def HoldsFloat (b : Builder) (f : FloatReg) : Prop :=
  (∃ e, b.elements.HoldsElement e f) ∨ HoldsTemporary b f

theorem HoldsFloat.keep {b' : Builder} {h' : HostState} {f : FloatReg} (hf : HoldsFloat b f)
    (hk : b.Keeps b' h h') : HoldsFloat b' f ∧ h'.float f = h.float f := by
  rcases hf with ⟨e, i, hi, hl, rfl⟩ | ht
  · obtain ⟨hl', hi', hv⟩ := hk.floats i hl
    exact ⟨.inl ⟨e, i, hi'.trans hi, hl', rfl⟩, hv⟩
  · exact ⟨.inr (ht.keep hk).1, (ht.keep hk).2⟩

/-- Temporaries stand for nothing. -/
theorem shadows_setTemporary (x : b.Shadows h m g) {f : FloatReg} (hf : HoldsTemporary b f)
    (v : Single) : b.Shadows (h.setFloat f v) m g := by
  refine x.changeHost (fun _ _ => rfl) (fun f' hf' => ?_) rfl
  rw [HostState.float_setFloat, if_neg]
  intro heq
  rw [← heq] at hf'
  exact absurd hf.1 (Nat.not_le_of_lt hf')

/-- A step gave a float register that holds a value; what was given before is kept. -/
structure Gives (b b' : Builder) (h h' : HostState) (m' g : Machine) (f : FloatReg) (v : Single) :
    Prop where
  shadows : b'.Shadows h' m' g
  keeps : b.Keeps b' h h'
  holds : HoldsFloat b' f
  value : h'.float f = v

/-- A temporary that was free may be written. -/
theorem Gives.rewrite {b' : Builder} {h' : HostState} {m' : Machine} {t : FloatReg}
    (hk : b.Keeps b' h h') (x : b'.Shadows h' m' g) (ht : HoldsTemporary b' t)
    (hfresh : ¬ HoldsTemporary b t) (v : Single) (code : CodeSpace) :
    Gives b { b' with code := code } h (h'.setFloat t v) m' g t v :=
  ⟨shadows_setTemporary x ht v, (keeps_setTemporary hk ht hfresh v).emitted code, .inr ht, by
    rw [HostState.float_setFloat, if_pos rfl]⟩

/-- **A temporary that is written by the next operation.** -/
theorem wp_temporary_emit (x : b.Shadows h m g) {o : FloatReg → Operation} {v : Single}
    (hop : ∀ f, (o f).Inline) (hperform : ∀ f, (o f).perform h m = .next (h.setFloat f v) m)
    {Q : FloatReg → Builder → HostState → Machine → Prop} {f : FloatReg → Lowering FloatReg}
    (hQ : ∀ t b' h', Gives b b' h h' m g t v → HoldsTemporary b' t → ¬ HoldsTemporary b t →
      wp s (f t) Never Q b' h' m) :
    wp s (do
      let t ← temporary
      emit (o t)
      f t) Never Q b h m := by
  refine wp_bind (wp_temporary x fun t b₁ x₁ k₁ ht hfresh => ?_)
  refine wp_bind (wp_emit_next (hop t) (hperform t) ?_)
  exact hQ t _ _ (.rewrite k₁ x₁ ht hfresh v _) ht hfresh

theorem wp_constantTemporary (x : b.Shadows h m g) (value : Single)
    {Q : FloatReg → Builder → HostState → Machine → Prop}
    (hQ : ∀ t b' h', Gives b b' h h' m g t value → Q t b' h' m) :
    wp s (constantTemporary value) Never Q b h m :=
  wp_temporary_emit (o := fun t => .floatImm t value.bits) x (fun _ => trivial) (fun _ => rfl)
    fun t b' h' hgives _ _ => wp_pure (hQ t b' h' hgives)

/-! ### Reading one lane -/

/-- What a modifier does to the sign of a value. -/
def signed (m : LaneModifier) (x : Single) : Single :=
  if m.negate then (if m.abs then x.abs else x).neg else if m.abs then x.abs else x

theorem wp_modifySign (x : b.Shadows h m g) (mod : LaneModifier) {fs : FloatReg}
    (hfs : HoldsFloat b fs) {Q : FloatReg → Builder → HostState → Machine → Prop}
    (hQ : ∀ t b' h', Gives b b' h h' m g t (signed mod (h.float fs)) → Q t b' h' m) :
    wp s (modifySign mod fs) Never Q b h m := by
  unfold modifySign
  cases habs : mod.abs with
  | true =>
    rw [if_pos rfl]
    refine wp_temporary_emit (o := fun t => .floatUnary .abs t fs) x (fun _ => trivial)
      (fun _ => rfl) fun t b₁ h₁ hgives ht hfresh => ?_
    cases hneg : mod.negate with
    | true =>
      rw [if_pos rfl]
      refine wp_bind (wp_emit_next trivial rfl (wp_pure (hQ _ _ _ ?_)))
      rw [hgives.value, signed, hneg, habs]
      exact .rewrite hgives.keeps hgives.shadows ht hfresh _ _
    | false =>
      rw [if_neg (by decide)]
      refine wp_bind (wp_pure (wp_pure (hQ _ _ _ ?_)))
      rw [signed, hneg, habs]
      exact hgives
  | false =>
    rw [if_neg (by decide)]
    cases hneg : mod.negate with
    | true =>
      rw [if_pos rfl]
      refine wp_temporary_emit (o := fun t => .floatUnary .neg t fs) x (fun _ => trivial)
        (fun _ => rfl) fun t b₁ h₁ hgives ht _ => wp_pure (hQ _ _ _ ?_)
      rw [signed, hneg, habs]
      exact hgives
    | false =>
      rw [if_neg (by decide)]
      refine wp_pure (hQ _ _ _ ⟨x, .refl b h, hfs, ?_⟩)
      rw [signed, hneg, habs]
      rfl

theorem abs_zero : Single.zero.abs = Single.zero := rfl

/-- What a lane of a modifier delivers. -/
theorem apply_eq (mod : LaneModifier) (operand : List Single) : mod.apply operand =
    if mod.constant then (if mod.negate then mod.constantValue.neg else mod.constantValue)
    else match operand[mod.lane.val]? with
      | none => if mod.negate then Single.zero.neg else Single.zero
      | some x => signed mod x := by
  rw [LaneModifier.apply]
  cases mod.constant with
  | true => rfl
  | false =>
    rw [List.getD_eq_getElem?_getD]
    cases operand[mod.lane.val]? with
    | some x => rfl
    | none =>
      show (if mod.negate then (if mod.abs then Single.zero.abs else Single.zero).neg
        else if mod.abs then Single.zero.abs else Single.zero) = _
      rw [abs_zero, ite_self]
      rfl

/-- **Reading one lane of an operand.** -/
theorem wp_readLane (x : b.Shadows h m g) (elements : List Element) (modifier : UInt32)
    (lane : Nat) {Q : FloatReg → Builder → HostState → Machine → Prop}
    (hQ : ∀ t b' h' m', Gives b b' h h' m' g t
      ((LaneModifier.ofWord modifier lane).apply (elements.map g.core.element)) → Q t b' h' m') :
    wp s (readLane elements modifier lane) Never Q b h m := by
  unfold readLane
  rw [apply_eq, List.getElem?_map] at hQ
  generalize LaneModifier.ofWord modifier lane = mod at hQ
  dsimp only
  cases hconstant : mod.constant with
  | true =>
    rw [if_pos rfl]
    rw [hconstant, if_pos rfl] at hQ
    exact wp_constantTemporary x _ fun t b' h' hgives => hQ t b' h' _ hgives
  | false =>
    rw [if_neg (by decide)]
    rw [hconstant, if_neg (by decide)] at hQ
    cases he : elements[mod.lane.val]? with
    | none =>
      rw [he] at hQ
      exact wp_constantTemporary x _ fun t b' h' hgives => hQ t b' h' _ hgives
    | some e =>
      rw [he] at hQ
      refine wp_bind (wp_readElement x fun fs b₁ h₁ c₁ x₁ k₁ hfs => ?_)
      refine wp_modifySign x₁ mod (.inl ⟨e, hfs⟩) fun t b' h' hgives => hQ t b' h' _ ?_
      rw [x₁.float_of_holds hfs] at hgives
      exact ⟨hgives.shadows, k₁.trans hgives.keeps, hgives.holds, hgives.value⟩

/-! ### Lane results -/

/-- **Results of lanes**, each in a temporary of its own. -/
structure HoldsResults (b : Builder) (h : HostState) (fs : List FloatReg) (vs : List Single) :
    Prop where
  values : fs.map h.float = vs
  temporaries : ∀ f ∈ fs, HoldsTemporary b f
  distinct : fs.Nodup

theorem HoldsResults.nil (b : Builder) (h : HostState) : HoldsResults b h [] [] :=
  ⟨rfl, nofun, .nil⟩

/-- A lane gives a result in a fresh temporary. -/
def LaneResult (b : Builder) (h : HostState) (g : Machine) (v : Single) :
    FloatReg → Builder → HostState → Machine → Prop :=
  fun t b' h' m' => Gives b b' h h' m' g t v ∧ HoldsTemporary b' t ∧ ¬ HoldsTemporary b t

/-- **The results of all lanes.** -/
theorem wp_mapLanes {act : Nat → Lowering FloatReg} {value : Nat → Single}
    (hact : ∀ lane b h m, b.Shadows h m g →
      wp s (act lane) Never (LaneResult b h g (value lane)) b h m) (lanes : List Nat)
    {b : Builder} {h : HostState} {m : Machine} (x : b.Shadows h m g) :
    wp s (lanes.mapM act) Never (fun fs b' h' m' => b'.Shadows h' m' g ∧ b.Keeps b' h h' ∧
      HoldsResults b' h' fs (lanes.map value) ∧ ∀ f ∈ fs, ¬ HoldsTemporary b f) b h m := by
  induction lanes generalizing b h m with
  | nil =>
    rw [List.mapM_nil]
    exact wp_pure ⟨x, .refl b h, .nil b h, nofun⟩
  | cons lane rest ih =>
    rw [List.mapM_cons]
    refine wp_bind (wp_imp (hact lane b h m x) ?_)
    rintro t b₁ h₁ m₁ ⟨hgives, ht, hfresh⟩
    refine wp_bind (wp_imp (ih hgives.shadows) ?_)
    rintro fs b₂ h₂ m₂ ⟨x₂, k₂, hresults, hrest⟩
    have hkeep := ht.keep k₂
    refine wp_pure ⟨x₂, hgives.keeps.trans k₂, ⟨?_, ?_, ?_⟩, ?_⟩
    · rw [List.map_cons, List.map_cons, hresults.values, hkeep.2, hgives.value]
    · intro f hf
      rcases List.mem_cons.mp hf with rfl | hf
      · exact hkeep.1
      · exact hresults.temporaries f hf
    · exact List.nodup_cons.mpr ⟨fun hmem => hrest t hmem ht, hresults.distinct⟩
    · intro f hf
      rcases List.mem_cons.mp hf with rfl | hf
      · exact hfresh
      · exact fun hused => hrest f hf (hused.keep hgives.keeps).1

/-! ### Writing results -/

theorem wp_clampResult (clamp : Clamp) {t : FloatReg} {Q : Unit → Builder → HostState → Machine → Prop}
    (hQ : ∀ code, Q () { b with code := code } (h.setFloat t (clamp.apply (h.float t))) m) :
    wp s (clampResult clamp t) Never Q b h m := by
  cases clamp with
  | none =>
    have hsame := hQ b.code
    rw [Clamp.apply, HostState.setFloat_float_self] at hsame
    exact wp_pure hsame
  | unit => exact wp_emit_next trivial rfl (hQ _)
  | signed => exact wp_emit_next trivial rfl (hQ _)

/-- Copying a float register to one that is ready for it. -/
theorem wp_moveFloat_write {e : Element} {fd fs : FloatReg} (hready : ReadyElement b h m g e fd)
    {Q : Unit → Builder → HostState → Machine → Prop}
    (hQ : ∀ code, Shadow b.scalars b.elements b.modifiers (h.setFloat fd (h.float fs)) m
      (g.mapCore (·.setElement e (h.float fs))) →
      Q () { b with code := code } (h.setFloat fd (h.float fs)) m) :
    wp s (moveFloat fd fs) Never Q b h m := by
  have hwrite := hready.2 (h.float fs)
  unfold moveFloat
  by_cases heq : fd = fs
  · rw [if_pos heq]
    have hsame := hQ b.code hwrite
    rw [← heq, HostState.setFloat_float_self] at hsame
    exact wp_pure hsame
  · rw [if_neg heq]
    exact wp_emit_next trivial rfl (hQ _ hwrite)

/-- The results after the clamps of a destination modifier, from `lane` on. -/
def clampFrom (modifier : UInt32) : Nat → List Single → List Single
  | _, [] => []
  | lane, v :: vs => (clampOf modifier lane).apply v :: clampFrom modifier (lane + 1) vs

theorem clampFrom_eq (modifier : UInt32) (lane : Nat) (vs : List Single) :
    clampFrom modifier lane vs = vs.mapIdx fun j v => (clampOf modifier (lane + j)).apply v := by
  induction vs generalizing lane with
  | nil => rfl
  | cons v vs ih =>
    rw [clampFrom, List.mapIdx_cons, ih]
    simp only [Nat.add_zero, Nat.add_assoc, Nat.add_comm 1]

theorem applyDestination_eq (modifier : UInt32) (vs : List Single) :
    applyDestination modifier vs = clampFrom modifier 0 vs := by
  rw [clampFrom_eq, applyDestination]
  simp only [Nat.zero_add]

/-- Results survive what does not touch their temporaries. -/
theorem HoldsResults.congr {b' : Builder} {h' : HostState} {fs : List FloatReg} {vs : List Single}
    (hr : HoldsResults b h fs vs) (hused : b.elements.temporaries ≤ b'.elements.temporaries)
    (hfloat : ∀ f ∈ fs, h'.float f = h.float f) : HoldsResults b' h' fs vs where
  values := by
    rw [← hr.values]
    exact List.map_congr_left hfloat
  temporaries f hf :=
    ⟨(hr.temporaries f hf).1,
      Nat.lt_of_lt_of_le (hr.temporaries f hf).2 (Nat.add_le_add_left hused 20)⟩
  distinct := hr.distinct

theorem float_ne_of_lt {f f' : FloatReg} (hf : f.val < 20) (hf' : 20 ≤ f'.val) : f ≠ f' := by
  intro heq
  rw [heq] at hf
  exact absurd hf' (Nat.not_le_of_lt hf)

/-- **Writing one lane result.** -/
theorem wp_writeLane (x : b.Shadows h m g) (clamp : Clamp) (e : Element) {f : FloatReg}
    {fs : List FloatReg} {v : Single} {vs : List Single}
    (hr : HoldsResults b h (f :: fs) (v :: vs)) {Q : Unit → Builder → HostState → Machine → Prop}
    {rest : Lowering Unit}
    (hQ : ∀ b' h' m', b'.Shadows h' m' (g.mapCore (·.setElement e (clamp.apply v))) →
      HoldsResults b' h' fs vs → b.Steady b' h h' → wp s rest Never Q b' h' m') :
    wp s (do
      clampResult clamp f
      let fd ← writeElement e
      moveFloat fd f
      rest) Never Q b h m := by
  obtain ⟨hv, hvs⟩ := List.cons.inj hr.values
  have ht := hr.temporaries f List.mem_cons_self
  have hnot := (List.nodup_cons.mp hr.distinct).1
  refine wp_bind (wp_clampResult clamp fun code => ?_)
  rw [hv]
  have hother : ∀ f' ∈ fs, (h.setFloat f (clamp.apply v)).float f' = h.float f' := fun f' hf' => by
    rw [HostState.float_setFloat, if_neg]
    intro heq
    rw [heq] at hnot
    exact hnot hf'
  have hrest : HoldsResults { b with code := code } (h.setFloat f (clamp.apply v)) fs vs :=
    .congr ⟨hvs, fun f' hf' => hr.temporaries f' (List.mem_cons_of_mem _ hf'),
      (List.nodup_cons.mp hr.distinct).2⟩ (Nat.le_refl _) hother
  have x₁ : Builder.Shadows { b with code := code } (h.setFloat f (clamp.apply v)) m g :=
    shadows_setTemporary x ht _
  refine wp_bind (wp_writeElement x₁ fun fd b₂ c₂ hready k₂ => ?_)
  have hsource : (h.setFloat f (clamp.apply v)).float f = clamp.apply v := by
    rw [HostState.float_setFloat, if_pos rfl]
  refine wp_bind (wp_moveFloat_write hready fun code' hwrite => ?_)
  rw [hsource] at hwrite ⊢
  refine hQ _ _ _ hwrite (.congr hrest k₂.used fun f' hf' => ?_) ?_
  · rw [HostState.float_setFloat, if_neg]
    exact float_ne_of_lt (holdsElement_lt hready.1)
      (hr.temporaries f' (List.mem_cons_of_mem _ hf')).1
  · have hsteady := ((Builder.Steady.refl b h).setFloat f (clamp.apply v)).emitted code
    exact ((hsteady.trans k₂.steady).setFloat fd _).emitted code'

theorem writeElements_cons (c : Core) (mask : Nat → Bool) (lane : Nat) (e : Element)
    (es : List Element) (v : Single) (vs : List Single) :
    c.writeElements mask lane (e :: es) (v :: vs) =
      (if mask lane then c else c.setElement e v).writeElements mask (lane + 1) es vs := rfl

/-- **Writing lane results through the destination modifier.** -/
theorem wp_writeLanes (modifier : UInt32) (es : List Element) {lane : Nat} {fs : List FloatReg}
    {vs : List Single} (x : b.Shadows h m g) (hr : HoldsResults b h fs vs) :
    wp s (writeLanes modifier lane es fs) Never (fun _ b' h' m' =>
      b'.Shadows h' m' (g.mapCore fun c =>
        c.writeElements (writeMasked modifier) lane es (clampFrom modifier lane vs)) ∧
      b.Steady b' h h') b h m := by
  induction es generalizing lane fs vs b h m g with
  | nil => exact wp_pure ⟨x, .refl b h⟩
  | cons e es ih =>
    cases fs with
    | nil =>
      rw [← hr.values]
      exact wp_pure ⟨x, .refl b h⟩
    | cons f fs =>
      cases vs with
      | nil => exact absurd hr.values (by simp)
      | cons v vs =>
        rw [writeLanes, clampFrom]
        simp only [writeElements_cons]
        by_cases hmask : writeMasked modifier lane = true
        · simp only [hmask, if_true]
          refine wp_bind (wp_pure (ih x ⟨?_, ?_, ?_⟩))
          · exact (List.cons.inj hr.values).2
          · exact fun f' hf' => hr.temporaries f' (List.mem_cons_of_mem _ hf')
          · exact (List.nodup_cons.mp hr.distinct).2
        · simp only [hmask]
          refine wp_writeLane x _ e hr fun b₁ h₁ m₁ x₁ hr₁ s₁ => ?_
          refine wp_imp (ih x₁ hr₁) ?_
          rintro _ b₂ h₂ m₂ ⟨x₂, s₂⟩
          exact ⟨x₂, s₁.trans s₂⟩

end Lowering

end Dynarec
