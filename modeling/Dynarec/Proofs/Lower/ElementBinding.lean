import Dynarec.Proofs.Lower.Elements

/-!
# Binding elements and quads

An element is bound to a float register after its quad register was evicted; a vector register is
bound to a quad register after everything that holds one of its elements was evicted.  Both end in a
register that holds the value (`Shadows.bindElement`, `Shadows.bindQuad`) or may be written
(`Shadows.bindElementForWrite`, `Shadows.bindQuadForWrite`).
-/

namespace Dynarec

namespace ElementCache

variable {c : ElementCache} {h : HostState} {core g : Core} {M : Memory}

/-! ### What an eviction leaves alone -/

theorem floats_evictFloat (c : ElementCache) (i : Fin 20) :
    (c.evictFloat i).2.floats = c.floats.clear i := by
  rw [evictFloat]
  cases c.floats.held? i <;> rfl

theorem quads_evictFloat (c : ElementCache) (i : Fin 20) :
    (c.evictFloat i).2.quads = c.quads := by
  rw [evictFloat]
  cases c.floats.held? i <;> rfl

theorem temporaries_evictFloat (c : ElementCache) (i : Fin 20) :
    (c.evictFloat i).2.temporaries = c.temporaries := by
  rw [evictFloat]
  cases c.floats.held? i <;> rfl

theorem floats_evictQuad (c : ElementCache) (i : Fin 8) : (c.evictQuad i).2.floats = c.floats := by
  rw [evictQuad]
  cases c.quads.held? i with
  | none => rfl
  | some p => exact floats_forget _ _

theorem quads_evictQuad (c : ElementCache) (i : Fin 8) :
    (c.evictQuad i).2.quads = c.quads.clear i := by
  rw [evictQuad]
  cases c.quads.held? i with
  | none => rfl
  | some p => exact quads_forget _ _

theorem temporaries_evictQuad (c : ElementCache) (i : Fin 8) :
    (c.evictQuad i).2.temporaries = c.temporaries := by
  rw [evictQuad]
  cases c.quads.held? i with
  | none => rfl
  | some p => exact temporaries_forget _ _

theorem temporaries_release (c : ElementCache) (e : Element) :
    (c.release e).2.temporaries = c.temporaries := by
  rw [release]
  cases c.place e with
  | memory => rfl
  | float i => exact c.temporaries_evictFloat i
  | quad i lane => exact c.temporaries_evictQuad i

theorem temporaries_releaseAll (c : ElementCache) (es : List Element) :
    (c.releaseAll es).2.temporaries = c.temporaries := by
  induction es generalizing c with
  | nil => rfl
  | cons e rest ih => exact (ih (c.release e).2).trans (c.temporaries_release e)

/-- An element that is in no register is in no slot. -/
theorem Shadows.place_memory (x : c.Shadows h core g) {e : Element} :
    c.place e = .memory ↔ (∀ i, c.floats.guest i ≠ some e) ∧
      ∀ i reg, c.quads.guest i = some reg → e ∉ quadElements reg := by
  constructor
  · intro hp
    refine ⟨fun i hi => ?_, fun i reg hi he => ?_⟩
    · rw [(x.floatPlace e i).mpr hi] at hp
      cases hp
    · obtain ⟨lane, hl⟩ := x.place_quad hi he
      rw [hl] at hp
      cases hp
  · rintro ⟨hf, hq⟩
    cases hp : c.place e with
    | memory => rfl
    | float i => exact absurd ((x.floatPlace e i).mp hp) (hf i)
    | quad i lane =>
      obtain ⟨reg, hreg, hl⟩ := (x.quadPlace e i lane).mp hp
      exact absurd (List.mem_of_getElem? hl) (hq i reg hreg)

/-! ### Releasing elements -/

/-- A quad slot is not touched: its register stays bound and locked. -/
def KeepsQuad (c c' : ElementCache) (i : Fin 8) : Prop :=
  c'.quads.guest i = c.quads.guest i ∧ c'.quads.locked i = c.quads.locked i

/-- **An element is written back and dropped.**  Slots that do not hold it are not touched, and
elements that are in no register stay there. -/
theorem Shadows.release (x : c.Shadows h core g) (e : Element) :
    ∃ core', Host.runOps (c.release e).1 h ⟨core, M⟩ = .next h ⟨core', M⟩ ∧
      (c.release e).2.Shadows h core' g ∧ core.SameButElements core' ∧
      (c.release e).2.place e = .memory ∧
      (∀ e', c.place e' = .memory → (c.release e).2.place e' = .memory) ∧
      ∀ i reg, c.quads.guest i = some reg → e ∉ quadElements reg →
        KeepsQuad c (c.release e).2 i := by
  rw [ElementCache.release]
  cases hp : c.place e with
  | memory =>
    exact ⟨core, rfl, x, .refl core, hp, fun _ h => h, fun _ _ _ _ => ⟨rfl, rfl⟩⟩
  | float i =>
    obtain ⟨core', hrun, hs, hsame⟩ := x.evictFloat (M := M) i
    have hi := (x.floatPlace e i).mp hp
    refine ⟨core', hrun, hs, hsame, ?_, fun e' he' => ?_, fun j reg hj he => ?_⟩
    · rw [hs.place_memory, floats_evictFloat, quads_evictFloat]
      refine ⟨fun j hj => ?_, fun j reg hj he => absurd hi (x.not_float_of_quad hj he)⟩
      rw [SlotArena.guest_clear] at hj
      by_cases hij : i = j
      · rw [if_pos hij] at hj
        cases hj
      · rw [if_neg hij] at hj
        exact hij (x.soundFloats i j e hi hj)
    · rw [hs.place_memory, floats_evictFloat, quads_evictFloat]
      obtain ⟨hf, hq⟩ := x.place_memory.mp he'
      refine ⟨fun j hj => ?_, hq⟩
      rw [SlotArena.guest_clear] at hj
      by_cases hij : i = j
      · rw [if_pos hij] at hj
        cases hj
      · rw [if_neg hij] at hj
        exact hf j hj
    · rw [KeepsQuad, quads_evictFloat]
      exact ⟨rfl, rfl⟩
  | quad i lane =>
    obtain ⟨core', hrun, hs, hsame⟩ := x.evictQuad (M := M) i
    obtain ⟨reg, hreg, hl⟩ := (x.quadPlace e i lane).mp hp
    have hmem := List.mem_of_getElem? hl
    refine ⟨core', hrun, hs, hsame, ?_, fun e' he' => ?_, fun j reg' hj he => ?_⟩
    · rw [hs.place_memory, floats_evictQuad, quads_evictQuad]
      refine ⟨fun j => x.not_float_of_quad hreg hmem, fun j reg' hj he => ?_⟩
      rw [SlotArena.guest_clear] at hj
      by_cases hij : i = j
      · rw [if_pos hij] at hj
        cases hj
      · rw [if_neg hij] at hj
        exact hij (x.quads_disjoint hreg hj hmem he)
    · rw [hs.place_memory, floats_evictQuad, quads_evictQuad]
      obtain ⟨hf, hq⟩ := x.place_memory.mp he'
      refine ⟨hf, fun j reg' hj => ?_⟩
      rw [SlotArena.guest_clear] at hj
      by_cases hij : i = j
      · rw [if_pos hij] at hj
        cases hj
      · rw [if_neg hij] at hj
        exact hq j reg' hj
    · have hij : i ≠ j := fun heq => by
        rw [← heq, hreg] at hj
        cases hj
        exact he hmem
      rw [KeepsQuad, quads_evictQuad, SlotArena.guest_clear, if_neg hij, SlotArena.locked_clear]
      exact ⟨rfl, rfl⟩

/-- **Several elements are written back and dropped.** -/
theorem Shadows.releaseAll (x : c.Shadows h core g) (es : List Element) :
    ∃ core', Host.runOps (c.releaseAll es).1 h ⟨core, M⟩ = .next h ⟨core', M⟩ ∧
      (c.releaseAll es).2.Shadows h core' g ∧ core.SameButElements core' ∧
      (∀ e ∈ es, (c.releaseAll es).2.place e = .memory) ∧
      (∀ e, c.place e = .memory → (c.releaseAll es).2.place e = .memory) ∧
      ∀ i reg, c.quads.guest i = some reg → (∀ e ∈ es, e ∉ quadElements reg) →
        KeepsQuad c (c.releaseAll es).2 i := by
  induction es generalizing c core with
  | nil => exact ⟨core, rfl, x, .refl core, nofun, fun _ h => h, fun _ _ _ _ => ⟨rfl, rfl⟩⟩
  | cons e rest ih =>
    obtain ⟨core₁, hrun₁, x₁, hsame₁, hplace₁, hkeep₁, hquad₁⟩ := x.release (M := M) e
    obtain ⟨core₂, hrun₂, x₂, hsame₂, hplace₂, hkeep₂, hquad₂⟩ := ih x₁
    refine ⟨core₂, ?_, x₂, hsame₁.trans hsame₂, fun e' he' => ?_,
      fun e' he' => hkeep₂ e' (hkeep₁ e' he'), fun i reg hi he => ?_⟩
    · show Host.runOps ((c.release e).1 ++ ((c.release e).2.releaseAll rest).1) h _ = _
      rw [Host.runOps_append, hrun₁]
      exact hrun₂
    · rcases List.mem_cons.mp he' with heq | hmem
      · rw [heq]
        exact hkeep₂ e hplace₁
      · exact hplace₂ e' hmem
    · obtain ⟨hg, hl⟩ := hquad₁ i reg hi (he e List.mem_cons_self)
      obtain ⟨hg', hl'⟩ := hquad₂ i reg (hg.trans hi) fun e' he' =>
        he e' (List.mem_cons_of_mem _ he')
      exact ⟨hg'.trans hg, hl'.trans hl⟩

/-! ### Binding an element -/

/-- An element that is in no register may be bound to a free float slot that is given its value. -/
theorem Shadows.assignFloat (x : c.Shadows h core g) {i : Fin 20} {e : Element}
    (hi : c.floats.guest i = none) (he : c.place e = .memory) :
    (ElementCache.setPlace { c with floats := c.floats.assign i e } e (.float i)).Shadows
      (h.setFloat (floatReg i) (g.element e)) core g where
  soundFloats := x.soundFloats.assign fun j _ => (x.place_memory.mp he).1 j
  soundQuads := x.soundQuads
  floatPlace e' j := by
    rw [place_setPlace]
    show (if e = e' then ElementPlace.float i else c.place e') = _ ↔
      (c.floats.assign i e).guest j = some e'
    rw [SlotArena.guest_assign]
    by_cases hee : e = e'
    · rw [if_pos hee, ElementPlace.float.injEq]
      by_cases hij : i = j
      · rw [if_pos hij, hee]
        exact ⟨fun _ => rfl, fun _ => hij⟩
      · rw [if_neg hij, ← hee]
        exact ⟨fun heq => absurd heq hij, fun hj => absurd hj ((x.place_memory.mp he).1 j)⟩
    · rw [if_neg hee, x.floatPlace]
      by_cases hij : i = j
      · rw [if_pos hij, ← hij, hi, Option.some_inj]
        exact ⟨nofun, fun heq => absurd heq hee⟩
      · rw [if_neg hij]
  quadPlace e' j lane := by
    rw [place_setPlace]
    show (if e = e' then ElementPlace.float i else c.place e') = _ ↔ _
    by_cases hee : e = e'
    · rw [if_pos hee]
      refine ⟨nofun, ?_⟩
      rintro ⟨reg, hreg, hl⟩
      rw [← hee] at hl
      exact absurd (List.mem_of_getElem? hl) ((x.place_memory.mp he).2 j reg hreg)
    · rw [if_neg hee]
      exact x.quadPlace e' j lane
  float j e' hj := by
    have hj : (c.floats.assign i e).guest j = some e' := hj
    rw [SlotArena.guest_assign] at hj
    rw [float_setFloat_floatReg]
    by_cases hij : i = j
    · rw [if_pos hij] at hj ⊢
      cases hj
      rfl
    · rw [if_neg hij] at hj ⊢
      exact x.float j e' hj
  quad j reg hj lane e' hl := x.quad j reg hj lane e' hl
  saved e' hf hq := by
    refine x.saved e' (fun j hj => ?_) hq
    have hij : i ≠ j := fun heq => by
      rw [← heq, hi] at hj
      cases hj
    have hd : (c.floats.assign i e).isDirty j = false := by
      refine hf j ?_
      show (c.floats.assign i e).guest j = _
      rw [SlotArena.guest_assign, if_neg hij, hj]
    rw [SlotArena.isDirty_assign, if_neg hij] at hd
    exact hd

/-- A bound element may be written in its float register, if its slot is dirty from then on. -/
theorem Shadows.writeFloat (x : c.Shadows h core g) {i : Fin 20} {e : Element}
    (hi : c.floats.guest i = some e) (v : Single) :
    ({ c with floats := c.floats.setDirty i true } : ElementCache).Shadows
      (h.setFloat (floatReg i) v) core (g.setElement e v) where
  soundFloats := SlotArena.sound_of_guest_eq x.soundFloats fun j => by simp
  soundQuads := x.soundQuads
  floatPlace e' j := by
    rw [SlotArena.guest_setDirty]
    exact x.floatPlace e' j
  quadPlace := x.quadPlace
  float j e' hj := by
    rw [SlotArena.guest_setDirty] at hj
    rw [float_setFloat_floatReg, Core.element_setElement]
    by_cases hij : i = j
    · subst hij
      rw [hi] at hj
      cases hj
      rw [if_pos rfl, if_pos rfl]
    · have hne : e ≠ e' := fun heq => hij (x.soundFloats i j e hi (by rw [heq, hj]))
      rw [if_neg hij, if_neg hne]
      exact x.float j e' hj
  quad j reg hj lane e' hl := by
    have hne : e ≠ e' := fun heq => by
      rw [← heq] at hl
      exact x.not_float_of_quad hj (List.mem_of_getElem? hl) hi
    rw [Core.element_setElement, if_neg hne]
    exact x.quad j reg hj lane e' hl
  saved e' hf hq := by
    by_cases hee : e = e'
    · subst hee
      have hd := hf i (by rw [SlotArena.guest_setDirty, hi])
      rw [SlotArena.isDirty_setDirty, if_pos rfl] at hd
      cases hd
    · rw [Core.element_setElement, if_neg hee]
      refine x.saved e' (fun j hj => ?_) hq
      have hij : i ≠ j := fun heq => by
        rw [← heq, hi] at hj
        exact hee (Option.some.inj hj)
      have hd := hf j (by rw [SlotArena.guest_setDirty, hj])
      rw [SlotArena.isDirty_setDirty, if_neg hij] at hd
      exact hd

/-- The float slot of an element that is in no quad register. -/
def placeFloat? (c : ElementCache) (e : Element) (load : Bool) :
    Option (Placed (Fin 20) ElementCache) :=
  match c.floats.find? e with
  | some i => some ⟨i, [], { c with floats := (c.floats.touch i).lock i }⟩
  | none => c.allocateFloat? e load

/-- The quad register of an element is evicted. -/
def leaveQuad (c : ElementCache) (e : Element) : List Operation × ElementCache :=
  match c.place e with
  | .quad i _ => c.evictQuad i
  | _ => ([], c)

theorem bindElement?_eq (c : ElementCache) (e : Element) (load : Bool) :
    c.bindElement? e load = ((c.leaveQuad e).2.placeFloat? e load).map fun p =>
      ⟨floatReg p.reg, (c.leaveQuad e).1 ++ p.code,
        { p.cache with
          floats := if load then p.cache.floats else p.cache.floats.setDirty p.reg true }⟩ := by
  have hstep : ∀ (code : List Operation) (d : ElementCache),
      (do
        let p ←
          match d.floats.find? e with
          | some i => some ⟨i, [], { d with floats := (d.floats.touch i).lock i }⟩
          | none => d.allocateFloat? e load
        let floats := if load then p.cache.floats else p.cache.floats.setDirty p.reg true
        return (⟨floatReg p.reg, code ++ p.code, { p.cache with floats := floats }⟩ :
          Placed FloatReg ElementCache)) =
      (d.placeFloat? e load).map fun p =>
        ⟨floatReg p.reg, code ++ p.code,
          { p.cache with
            floats := if load then p.cache.floats else p.cache.floats.setDirty p.reg true }⟩ := by
    intro code d
    rw [placeFloat?]
    cases d.floats.find? e with
    | some i => rfl
    | none => cases d.allocateFloat? e load <;> rfl
  rw [bindElement?, leaveQuad]
  cases c.place e with
  | memory => exact hstep [] c
  | float i => exact hstep [] c
  | quad i lane => exact hstep (c.evictQuad i).1 (c.evictQuad i).2

theorem Shadows.leaveQuad (x : c.Shadows h core g) (e : Element) :
    ∃ core', Host.runOps (c.leaveQuad e).1 h ⟨core, M⟩ = .next h ⟨core', M⟩ ∧
      (c.leaveQuad e).2.Shadows h core' g ∧ core.SameButElements core' ∧
      (c.leaveQuad e).2.floats = c.floats ∧ (c.leaveQuad e).2.temporaries = c.temporaries ∧
      ∀ i lane, (c.leaveQuad e).2.place e ≠ .quad i lane := by
  rw [ElementCache.leaveQuad]
  cases hp : c.place e with
  | memory => exact ⟨core, rfl, x, .refl core, rfl, rfl, fun i lane heq => by rw [hp] at heq; cases heq⟩
  | float j => exact ⟨core, rfl, x, .refl core, rfl, rfl, fun i lane heq => by
      rw [hp] at heq
      cases heq⟩
  | quad j lane =>
    obtain ⟨core', hrun, hs, hsame⟩ := x.evictQuad (M := M) j
    refine ⟨core', hrun, hs, hsame, c.floats_evictQuad j, c.temporaries_evictQuad j,
      fun i lane' heq => ?_⟩
    obtain ⟨reg, hreg, hl⟩ := (x.quadPlace e j lane).mp hp
    obtain ⟨reg', hreg', hl'⟩ := (hs.quadPlace e i lane').mp heq
    rw [quads_evictQuad, SlotArena.guest_clear] at hreg'
    by_cases hij : j = i
    · rw [if_pos hij] at hreg'
      cases hreg'
    · rw [if_neg hij] at hreg'
      exact hij (x.quads_disjoint hreg hreg' (List.mem_of_getElem? hl) (List.mem_of_getElem? hl'))

/-- **A float slot is found for an element.**  Its register holds the element once it was loaded. -/
theorem Shadows.placeFloat (x : c.Shadows h core g) {e : Element} {load : Bool}
    (hplace : ∀ i lane, c.place e ≠ .quad i lane) {p : Placed (Fin 20) ElementCache}
    (hp : c.placeFloat? e load = some p) :
    ∃ core', Host.runOps p.code h ⟨core, M⟩ =
        .next (if load then h.setFloat (floatReg p.reg) (g.element e) else h) ⟨core', M⟩ ∧
      p.cache.floats.guest p.reg = some e ∧ p.cache.floats.locked p.reg = true ∧
      p.cache.Shadows (h.setFloat (floatReg p.reg) (g.element e)) core' g ∧
      KeepsFloats c p.cache h (h.setFloat (floatReg p.reg) (g.element e)) ∧
      core.SameButElements core' := by
  rw [placeFloat?] at hp
  cases hf : c.floats.find? e with
  | some i =>
    rw [hf] at hp
    cases hp
    have hi := SlotArena.guest_of_find? hf
    have hsame : h.setFloat (floatReg i) (g.element e) = h := by
      rw [← x.float i e hi, HostState.setFloat_float_self]
    simp only [hsame, ite_self]
    refine ⟨core, rfl, ?_, ?_, ?_, ⟨fun j hj => ⟨?_, ?_, rfl⟩, rfl⟩, .refl core⟩
    · rw [SlotArena.guest_lock, SlotArena.guest_touch, hi]
    · rw [SlotArena.locked_lock, if_pos rfl]
    · exact x.congr (fun j => by simp) (fun _ => ⟨rfl, rfl⟩) (fun _ => rfl)
    · rw [SlotArena.locked_lock, SlotArena.locked_touch, hj, ite_self]
    · rw [SlotArena.guest_lock, SlotArena.guest_touch]
  | none =>
    rw [hf] at hp
    simp only [allocateFloat?, Option.map_eq_some_iff] at hp
    obtain ⟨i, hi, rfl⟩ := hp
    have hmem : c.place e = .memory := by
      cases hpl : c.place e with
      | memory => rfl
      | float j => exact absurd ((x.floatPlace e j).mp hpl) (SlotArena.find?_eq_none_iff.mp hf j)
      | quad j lane => exact absurd hpl (hplace j lane)
    obtain ⟨core', hrun, hs, hsame⟩ := x.evictFloat (M := M) i
    have hfree : (c.evictFloat i).2.floats.guest i = none := by
      rw [floats_evictFloat, SlotArena.guest_clear, if_pos rfl]
    have hmem' : (c.evictFloat i).2.place e = .memory := by
      obtain ⟨hfs, hqs⟩ := x.place_memory.mp hmem
      rw [hs.place_memory, floats_evictFloat, quads_evictFloat]
      refine ⟨fun j hj => ?_, hqs⟩
      rw [SlotArena.guest_clear] at hj
      by_cases hij : i = j
      · rw [if_pos hij] at hj
        cases hj
      · rw [if_neg hij] at hj
        exact hfs j hj
    have hload : core'.element e = g.element e := by
      obtain ⟨hfs, hqs⟩ := hs.place_memory.mp hmem'
      exact hs.saved e (fun j hj => absurd hj (hfs j)) fun j reg hj he => absurd he (hqs j reg hj)
    refine ⟨core', ?_, ?_, ?_, hs.assignFloat hfree hmem', ⟨fun j hj => ?_, ?_⟩, hsame⟩
    · show Host.runOps ((c.evictFloat i).1 ++ _) h _ = _
      rw [Host.runOps_append, hrun]
      cases load with
      | false => rfl
      | true =>
        show Outcome.next (h.setFloat (floatReg i)
          (core'.element (elementIndex (UInt8.ofNat e.val)))) _ = _
        rw [elementIndex_ofNat, hload]
        rfl
    · show ((c.evictFloat i).2.floats.assign i e).guest i = _
      rw [SlotArena.guest_assign, if_pos rfl]
    · show ((c.evictFloat i).2.floats.assign i e).locked i = _
      rw [SlotArena.locked_assign, if_pos rfl]
    · have hij : i ≠ j := fun heq => by
        rw [← heq, SlotArena.not_locked_of_select? hi] at hj
        cases hj
      refine ⟨?_, ?_, ?_⟩
      · show ((c.evictFloat i).2.floats.assign i e).locked j = _
        rw [SlotArena.locked_assign, if_neg hij, floats_evictFloat, SlotArena.locked_clear, hj]
      · show ((c.evictFloat i).2.floats.assign i e).guest j = _
        rw [SlotArena.guest_assign, if_neg hij, floats_evictFloat, SlotArena.guest_clear,
          if_neg hij]
      · rw [float_setFloat_floatReg, if_neg hij]
    · exact c.temporaries_evictFloat i

/-- **Binding an element gives its value to a float register.** -/
theorem Shadows.bindElement (x : c.Shadows h core g) {e : Element}
    {p : Placed FloatReg ElementCache} (hp : c.bindElement? e true = some p) :
    ∃ h' core', Host.runOps p.code h ⟨core, M⟩ = .next h' ⟨core', M⟩ ∧
      p.cache.Shadows h' core' g ∧ p.cache.HoldsElement e p.reg ∧ KeepsFloats c p.cache h h' ∧
      h.SameButElements h' ∧ core.SameButElements core' := by
  rw [bindElement?_eq, Option.map_eq_some_iff] at hp
  obtain ⟨p, hp, rfl⟩ := hp
  obtain ⟨core₁, hrun₁, x₁, hsame₁, hfloats, htemps, hplace⟩ := x.leaveQuad (M := M) e
  obtain ⟨core₂, hrun₂, hg, hl, x₂, hkeep, hsame₂⟩ := x₁.placeFloat (M := M) hplace hp
  refine ⟨h.setFloat (floatReg p.reg) (g.element e), core₂, ?_, x₂, ⟨p.reg, hg, hl, rfl⟩,
    ⟨fun i hi => ?_, hkeep.temporaries.trans htemps⟩, sameButElements_setFloat h _ _,
    hsame₁.trans hsame₂⟩
  · show Host.runOps ((c.leaveQuad e).1 ++ p.code) h _ = _
    rw [Host.runOps_append, hrun₁]
    exact hrun₂
  · have hk := hkeep.locked i (by rw [hfloats, hi])
    rw [hfloats] at hk
    exact hk

/-- A float register may be written, and becomes the element. -/
def ReadyElement (c : ElementCache) (h : HostState) (core g : Core) (e : Element) (f : FloatReg) :
    Prop :=
  c.HoldsElement e f ∧ ∀ v, c.Shadows (h.setFloat f v) core (g.setElement e v)

/-- **Binding an element for a write makes a float register ready.** -/
theorem Shadows.bindElementForWrite (x : c.Shadows h core g) {e : Element}
    {p : Placed FloatReg ElementCache} (hp : c.bindElement? e false = some p) :
    ∃ core', Host.runOps p.code h ⟨core, M⟩ = .next h ⟨core', M⟩ ∧
      p.cache.ReadyElement h core' g e p.reg ∧ KeepsFloats c p.cache h h ∧
      core.SameButElements core' := by
  rw [bindElement?_eq, Option.map_eq_some_iff] at hp
  obtain ⟨p, hp, rfl⟩ := hp
  obtain ⟨core₁, hrun₁, x₁, hsame₁, hfloats, htemps, hplace⟩ := x.leaveQuad (M := M) e
  obtain ⟨core₂, hrun₂, hg, hl, x₂, hkeep, hsame₂⟩ := x₁.placeFloat (M := M) hplace hp
  refine ⟨core₂, ?_, ⟨⟨p.reg, ?_, ?_, rfl⟩, fun v => ?_⟩,
    ⟨fun i hi => ⟨?_, ?_, rfl⟩, hkeep.temporaries.trans htemps⟩, hsame₁.trans hsame₂⟩
  · show Host.runOps ((c.leaveQuad e).1 ++ p.code) h _ = _
    rw [Host.runOps_append, hrun₁]
    exact hrun₂
  · show (p.cache.floats.setDirty p.reg true).guest p.reg = _
    rw [SlotArena.guest_setDirty, hg]
  · show (p.cache.floats.setDirty p.reg true).locked p.reg = _
    rw [SlotArena.locked_setDirty, hl]
  · have hw := x₂.writeFloat hg v
    rw [HostState.setFloat_setFloat] at hw
    exact hw
  · show (p.cache.floats.setDirty p.reg true).locked i = _
    rw [SlotArena.locked_setDirty, (hkeep.locked i (by rw [hfloats, hi])).1]
  · show (p.cache.floats.setDirty p.reg true).guest i = _
    rw [SlotArena.guest_setDirty, (hkeep.locked i (by rw [hfloats, hi])).2.1, hfloats]

/-! ### Binding a quad -/

theorem floats_setLanes (c : ElementCache) (i : Fin 8) (lane : Nat) (es : List Element) :
    (c.setLanes i lane es).floats = c.floats := by
  induction es generalizing c lane with
  | nil => rfl
  | cons e rest ih => exact ih (c.setPlace e (.quad i lane)) (lane + 1)

theorem quads_setLanes (c : ElementCache) (i : Fin 8) (lane : Nat) (es : List Element) :
    (c.setLanes i lane es).quads = c.quads := by
  induction es generalizing c lane with
  | nil => rfl
  | cons e rest ih => exact ih (c.setPlace e (.quad i lane)) (lane + 1)

theorem temporaries_setLanes (c : ElementCache) (i : Fin 8) (lane : Nat) (es : List Element) :
    (c.setLanes i lane es).temporaries = c.temporaries := by
  induction es generalizing c lane with
  | nil => rfl
  | cons e rest ih => exact ih (c.setPlace e (.quad i lane)) (lane + 1)

theorem place_setLanes_of_notMem (c : ElementCache) (i : Fin 8) (lane : Nat) {es : List Element}
    {e : Element} (he : e ∉ es) : (c.setLanes i lane es).place e = c.place e := by
  induction es generalizing c lane with
  | nil => rfl
  | cons a rest ih =>
    rw [List.mem_cons, not_or] at he
    rw [setLanes, ih _ _ he.2, place_setPlace, if_neg (Ne.symm he.1)]

theorem place_setLanes (c : ElementCache) (i : Fin 8) (lane : Nat) {es : List Element}
    (hes : es.Nodup) {k : Nat} {e : Element} (he : es[k]? = some e) :
    (c.setLanes i lane es).place e = .quad i (lane + k) := by
  induction es generalizing c lane k with
  | nil => simp at he
  | cons a rest ih =>
    rw [List.nodup_cons] at hes
    rw [setLanes]
    cases k with
    | zero =>
      rw [List.getElem?_cons_zero, Option.some_inj] at he
      rw [← he, place_setLanes_of_notMem _ _ _ hes.1, place_setPlace, if_pos rfl]
      rfl
    | succ k =>
      rw [List.getElem?_cons_succ] at he
      rw [ih _ _ hes.2 he, show lane + 1 + k = lane + (k + 1) by omega]

/-- The lanes of a vector register. -/
def quadValue (g : Core) (reg : Fin 128) : Vector Single 4 :=
  lanesOf fun lane => g.element (VectorSize.quad.element (UInt8.ofNat reg.val) lane)

theorem getElem?_quadValue {reg : Fin 128} {lane : Nat} {e : Element}
    (he : (quadElements reg)[lane]? = some e) :
    (quadValue g reg)[lane]? = some (g.element e) := by
  have hlt : lane < 4 := by
    rw [← length_quadElements reg]
    exact (List.getElem?_eq_some_iff.mp he).1
  rw [getElem?_quadElements reg hlt, Option.some_inj] at he
  rw [quadValue, lanesOf, Vector.getElem?_eq_getElem hlt, Vector.getElem_ofFn, ← he]

/-- A free quad slot is given to a vector register. -/
def withQuad (c : ElementCache) (i : Fin 8) (reg : Fin 128) (load : Bool) : ElementCache :=
  ElementCache.setLanes { c with quads := (c.quads.assign i reg).setDirty i (!load) } i 0
    (quadElements reg)

theorem floats_withQuad (c : ElementCache) (i : Fin 8) (reg : Fin 128) (load : Bool) :
    (c.withQuad i reg load).floats = c.floats := floats_setLanes _ _ _ _

theorem quads_withQuad (c : ElementCache) (i : Fin 8) (reg : Fin 128) (load : Bool) :
    (c.withQuad i reg load).quads = (c.quads.assign i reg).setDirty i (!load) :=
  quads_setLanes _ _ _ _

theorem temporaries_withQuad (c : ElementCache) (i : Fin 8) (reg : Fin 128) (load : Bool) :
    (c.withQuad i reg load).temporaries = c.temporaries := temporaries_setLanes _ _ _ _

theorem place_withQuad (c : ElementCache) (i : Fin 8) {reg : Fin 128} (load : Bool) {lane : Nat}
    {e : Element} (he : (quadElements reg)[lane]? = some e) :
    (c.withQuad i reg load).place e = .quad i lane := by
  rw [withQuad, place_setLanes _ i 0 (quadElements_nodup reg) he, Nat.zero_add]

theorem place_withQuad_of_notMem (c : ElementCache) (i : Fin 8) {reg : Fin 128} (load : Bool)
    {e : Element} (he : e ∉ quadElements reg) : (c.withQuad i reg load).place e = c.place e :=
  place_setLanes_of_notMem _ i 0 he

/-- A vector register whose elements are in no register may be bound to a free quad slot that is
given its value. -/
theorem Shadows.withQuad (x : c.Shadows h core g) {i : Fin 8} {reg : Fin 128}
    (hi : c.quads.guest i = none) (hreg : ∀ e ∈ quadElements reg, c.place e = .memory)
    (load : Bool) :
    (c.withQuad i reg load).Shadows (h.setQuad i (quadValue g reg)) core g := by
  have hnew : ∀ j, c.quads.guest j ≠ some reg := fun j hj => by
    have hmem : VectorSize.quad.element (UInt8.ofNat reg.val) 0 ∈ quadElements reg :=
      List.mem_of_getElem? (getElem?_quadElements reg (by decide : 0 < 4))
    exact (x.place_memory.mp (hreg _ hmem)).2 j reg hj hmem
  have hguest : ∀ j, (c.withQuad i reg load).quads.guest j =
      if i = j then some reg else c.quads.guest j := fun j => by
    rw [quads_withQuad, SlotArena.guest_setDirty, SlotArena.guest_assign]
  refine ⟨?_, ?_, fun e j => ?_, fun e j lane => ?_, fun j e hj => ?_, fun j reg' hj lane e hl => ?_,
    fun e hf hq => ?_⟩
  · rw [floats_withQuad]
    exact x.soundFloats
  · rw [quads_withQuad]
    exact SlotArena.sound_of_guest_eq (x.soundQuads.assign fun j _ => hnew j) fun j =>
      SlotArena.guest_setDirty _ i j (!load)
  · rw [floats_withQuad]
    by_cases he : e ∈ quadElements reg
    · obtain ⟨lane, hl⟩ := List.mem_iff_getElem?.mp he
      rw [place_withQuad c i load hl]
      exact ⟨nofun, fun hj => absurd hj ((x.place_memory.mp (hreg e he)).1 j)⟩
    · rw [place_withQuad_of_notMem c i load he]
      exact x.floatPlace e j
  · simp only [hguest]
    by_cases he : e ∈ quadElements reg
    · obtain ⟨k, hk⟩ := List.mem_iff_getElem?.mp he
      rw [place_withQuad c i load hk, ElementPlace.quad.injEq]
      constructor
      · rintro ⟨rfl, rfl⟩
        exact ⟨reg, if_pos rfl, hk⟩
      · rintro ⟨reg', hreg', hl⟩
        by_cases hij : i = j
        · rw [if_pos hij] at hreg'
          cases hreg'
          refine ⟨hij, ?_⟩
          have hlt := (List.getElem?_eq_some_iff.mp hk).1
          exact (List.getElem?_inj hlt (quadElements_nodup reg)).mp (hk.trans hl.symm)
        · rw [if_neg hij] at hreg'
          exact absurd (List.mem_of_getElem? hl) ((x.place_memory.mp (hreg e he)).2 j reg' hreg')
    · rw [place_withQuad_of_notMem c i load he, x.quadPlace]
      constructor
      · rintro ⟨reg', hreg', hl⟩
        refine ⟨reg', ?_, hl⟩
        rw [if_neg, hreg']
        intro hij
        rw [← hij, hi] at hreg'
        cases hreg'
      · rintro ⟨reg', hreg', hl⟩
        by_cases hij : i = j
        · rw [if_pos hij] at hreg'
          cases hreg'
          exact absurd (List.mem_of_getElem? hl) he
        · rw [if_neg hij] at hreg'
          exact ⟨reg', hreg', hl⟩
  · rw [floats_withQuad] at hj
    exact x.float j e hj
  · rw [hguest] at hj
    rw [HostState.quad_setQuad]
    by_cases hij : i = j
    · rw [if_pos hij] at hj ⊢
      cases hj
      exact getElem?_quadValue hl
    · rw [if_neg hij] at hj ⊢
      exact x.quad j reg' hj lane e hl
  · rw [floats_withQuad] at hf
    refine x.saved e hf fun j reg' hj he => ?_
    have hij : i ≠ j := fun heq => by
      rw [← heq, hi] at hj
      cases hj
    have hd := hq j reg' (by rw [hguest, if_neg hij, hj]) he
    rw [quads_withQuad, SlotArena.isDirty_setDirty, if_neg hij, SlotArena.isDirty_assign,
      if_neg hij] at hd
    exact hd

/-- A bound vector register may be written in its quad register, if its slot is dirty from then
on. -/
theorem Shadows.writeQuad (x : c.Shadows h core g) {i : Fin 8} {reg : Fin 128}
    (hi : c.quads.guest i = some reg) (v : Vector Single 4) :
    ({ c with quads := c.quads.setDirty i true } : ElementCache).Shadows (h.setQuad i v) core
      (setElements g (quadElements reg) v.toList) where
  soundFloats := x.soundFloats
  soundQuads := SlotArena.sound_of_guest_eq x.soundQuads fun j => by simp
  floatPlace := x.floatPlace
  quadPlace e j lane := by
    rw [SlotArena.guest_setDirty]
    exact x.quadPlace e j lane
  float j e hj := by
    rw [element_setElements_of_notMem _ _ fun he => x.not_float_of_quad hi he hj]
    exact x.float j e hj
  quad j reg' hj lane e hl := by
    rw [SlotArena.guest_setDirty] at hj
    rw [HostState.quad_setQuad]
    by_cases hij : i = j
    · subst hij
      rw [hi] at hj
      cases hj
      have hlt : lane < 4 := by
        rw [← length_quadElements reg]
        exact (List.getElem?_eq_some_iff.mp hl).1
      have hv : v.toList[lane]? = some v[lane] := by
        rw [Vector.getElem?_toList, Vector.getElem?_eq_getElem hlt]
      rw [if_pos rfl, Vector.getElem?_eq_getElem hlt,
        element_setElements g _ (quadElements_nodup reg) hl hv]
    · rw [if_neg hij, element_setElements_of_notMem _ _ fun he =>
        hij (x.quads_disjoint hi hj he (List.mem_of_getElem? hl))]
      exact x.quad j reg' hj lane e hl
  saved e hf hq := by
    by_cases he : e ∈ quadElements reg
    · have hd := hq i reg (by rw [SlotArena.guest_setDirty, hi]) he
      rw [SlotArena.isDirty_setDirty, if_pos rfl] at hd
      cases hd
    · rw [element_setElements_of_notMem _ _ he]
      refine x.saved e hf fun j reg' hj he' => ?_
      have hij : i ≠ j := fun heq => by
        rw [← heq, hi] at hj
        cases hj
        exact he he'
      have hd := hq j reg' (by rw [SlotArena.guest_setDirty, hj]) he'
      rw [SlotArena.isDirty_setDirty, if_neg hij] at hd
      exact hd

/-- A slot that is up to date may be called dirty. -/
theorem Shadows.setDirtyQuad (x : c.Shadows h core g) (i : Fin 8) :
    ({ c with quads := c.quads.setDirty i true } : ElementCache).Shadows h core g where
  soundFloats := x.soundFloats
  soundQuads := SlotArena.sound_of_guest_eq x.soundQuads fun j => by simp
  floatPlace := x.floatPlace
  quadPlace e j lane := by
    rw [SlotArena.guest_setDirty]
    exact x.quadPlace e j lane
  float := x.float
  quad j reg hj := x.quad j reg (by rwa [SlotArena.guest_setDirty] at hj)
  saved e hf hq := by
    refine x.saved e hf fun j reg hj he => ?_
    have hd := hq j reg (by rw [SlotArena.guest_setDirty, hj]) he
    rw [SlotArena.isDirty_setDirty] at hd
    by_cases hij : i = j
    · rw [if_pos hij] at hd
      cases hd
    · rw [if_neg hij] at hd
      exact hd

theorem Shadows.quad_eq (x : c.Shadows h core g) {i : Fin 8} {reg : Fin 128}
    (hi : c.quads.guest i = some reg) : h.quad i = quadValue g reg := by
  refine Vector.ext fun lane hlane => ?_
  have he := getElem?_quadElements reg hlane
  have hv := x.quad i reg hi lane _ he
  have hv' := getElem?_quadValue (g := g) he
  rw [Vector.getElem?_eq_getElem hlane, Option.some_inj] at hv hv'
  rw [hv, hv']

/-- What finding the quad slot `p.reg` for a vector register means: its register holds the lanes
once it was loaded, and quad registers with the same or with other elements are kept. -/
structure PlacedQuad (c : ElementCache) (h : HostState) (m : Machine) (g : Core) (reg : Fin 128)
    (load : Bool) (p : Placed QuadReg ElementCache) (core' : Core) : Prop where
  run : Host.runOps p.code h m =
    .next (if load then h.setQuad p.reg (quadValue g reg) else h) ⟨core', m.memory⟩
  holds : p.cache.HoldsQuad reg p.reg
  dirty : load = false → p.cache.quads.isDirty p.reg = true
  shadows : p.cache.Shadows (h.setQuad p.reg (quadValue g reg)) core' g
  keeps : ∀ reg' q, c.HoldsQuad reg' q → (reg = reg' ∨ ∀ e ∈ quadElements reg, e ∉ quadElements reg') →
    p.cache.HoldsQuad reg' q ∧ (h.setQuad p.reg (quadValue g reg)).quad q = h.quad q
  same : m.core.SameButElements core'
  temporaries : p.cache.temporaries = c.temporaries

/-- **A vector register that is not bound gets a quad slot.** -/
theorem Shadows.allocateQuad (x : c.Shadows h core g) {reg : Fin 128} {load : Bool}
    (hnone : c.quads.find? reg = none) {p : Placed QuadReg ElementCache}
    (hp : c.allocateQuad? reg load = some p) :
    ∃ core', PlacedQuad c h ⟨core, M⟩ g reg load p core' := by
  simp only [allocateQuad?, Option.map_eq_some_iff] at hp
  obtain ⟨i, hi, rfl⟩ := hp
  obtain ⟨core₁, hrun₁, x₁, hsame₁, hplace, -, hkeep⟩ :=
    x.releaseAll (M := M) (quadElements reg)
  obtain ⟨core₂, hrun₂, x₂, hsame₂⟩ := x₁.evictQuad (M := M) i
  have hlocked := SlotArena.not_locked_of_select? hi
  generalize hc₁ : c.releaseAll (quadElements reg) = r₁ at *
  have hfree : (r₁.2.evictQuad i).2.quads.guest i = none := by
    rw [quads_evictQuad, SlotArena.guest_clear, if_pos rfl]
  have hmem : ∀ e ∈ quadElements reg, (r₁.2.evictQuad i).2.place e = .memory := fun e he => by
    obtain ⟨hfs, hqs⟩ := x₁.place_memory.mp (hplace e he)
    rw [x₂.place_memory, floats_evictQuad, quads_evictQuad]
    refine ⟨hfs, fun j reg' hj => ?_⟩
    rw [SlotArena.guest_clear] at hj
    by_cases hij : i = j
    · rw [if_pos hij] at hj
      cases hj
    · rw [if_neg hij] at hj
      exact hqs j reg' hj
  have hvalue : ∀ e ∈ quadElements reg, core₂.element e = g.element e := fun e he => by
    obtain ⟨hfs, hqs⟩ := x₂.place_memory.mp (hmem e he)
    exact x₂.saved e (fun j hj => absurd hj (hfs j)) fun j reg' hj he' => absurd he' (hqs j reg' hj)
  have htemps : r₁.2.temporaries = c.temporaries := by
    rw [← hc₁]
    exact c.temporaries_releaseAll _
  have hquads := quads_withQuad (r₁.2.evictQuad i).2 i reg load
  refine ⟨core₂, ?_, ⟨?_, ?_⟩, fun hload => ?_, x₂.withQuad hfree hmem load,
    fun reg' q hq hagree => ?_, hsame₁.trans hsame₂, ?_⟩
  · show Host.runOps (r₁.1 ++ (r₁.2.evictQuad i).1 ++ _) h _ = _
    rw [Host.runOps_append, Host.runOps_append, hrun₁]
    simp only [hrun₂]
    cases load with
    | false => rfl
    | true =>
      show Outcome.next (h.setQuad i (lanesOf fun lane =>
        core₂.element (VectorSize.quad.element (UInt8.ofNat reg.val) lane))) _ = _
      have hlanes : (lanesOf fun lane =>
          core₂.element (VectorSize.quad.element (UInt8.ofNat reg.val) lane)) =
          quadValue g reg := by
        refine Vector.ext fun lane hlane => ?_
        rw [quadValue, lanesOf, lanesOf, Vector.getElem_ofFn, Vector.getElem_ofFn]
        exact hvalue _ (List.mem_of_getElem? (getElem?_quadElements reg hlane))
      rw [hlanes]
      rfl
  · exact (congrArg (·.guest i) hquads).trans (by
      rw [SlotArena.guest_setDirty, SlotArena.guest_assign, if_pos rfl])
  · exact (congrArg (·.locked i) hquads).trans (by
      rw [SlotArena.locked_setDirty, SlotArena.locked_assign, if_pos rfl])
  · refine (congrArg (·.isDirty i) hquads).trans ?_
    rw [SlotArena.isDirty_setDirty, if_pos rfl, hload]
    rfl
  · obtain ⟨hg, hl⟩ := hq
    rcases hagree with rfl | hother
    · exact absurd hg (SlotArena.find?_eq_none_iff.mp hnone q)
    · obtain ⟨hg', hl'⟩ := hkeep q reg' hg hother
      have hiq : i ≠ q := fun heq => by
        rw [← heq, hlocked] at hl'
        rw [← heq, ← hl'] at hl
        cases hl
      refine ⟨⟨(congrArg (·.guest q) hquads).trans ?_, (congrArg (·.locked q) hquads).trans ?_⟩, ?_⟩
      · rw [SlotArena.guest_setDirty, SlotArena.guest_assign, if_neg hiq, quads_evictQuad,
          SlotArena.guest_clear, if_neg hiq, hg', hg]
      · rw [SlotArena.locked_setDirty, SlotArena.locked_assign, if_neg hiq, quads_evictQuad,
          SlotArena.locked_clear, hl', hl]
      · rw [HostState.quad_setQuad, if_neg hiq]
  · exact (temporaries_withQuad _ i reg load).trans ((temporaries_evictQuad _ i).trans htemps)

/-- **A quad slot is found for a vector register.** -/
theorem Shadows.placeQuad (x : c.Shadows h core g) {reg : Fin 128} {load : Bool}
    {p : Placed QuadReg ElementCache} (hp : c.bindQuad? reg load = some p) :
    ∃ core', PlacedQuad c h ⟨core, M⟩ g reg load p core' := by
  rw [bindQuad?] at hp
  cases hf : c.quads.find? reg with
  | none =>
    rw [hf] at hp
    exact x.allocateQuad hf hp
  | some i =>
    rw [hf] at hp
    cases hp
    have hi := SlotArena.guest_of_find? hf
    have hsame : h.setQuad i (quadValue g reg) = h := by
      rw [← x.quad_eq hi, HostState.setQuad_quad_self]
    have hview : ∀ j, ((c.quads.touch i).lock i).guest j = c.quads.guest j ∧
        ((c.quads.touch i).lock i).isDirty j = c.quads.isDirty j := fun j => by simp
    have hs : ({ c with quads := (c.quads.touch i).lock i } : ElementCache).Shadows h core g :=
      x.congr (fun _ => ⟨rfl, rfl⟩) hview (fun _ => rfl)
    have hlock : ∀ j, c.quads.locked j = true ∨ i = j →
        ((c.quads.touch i).lock i).locked j = true := fun j hj => by
      rw [SlotArena.locked_lock, SlotArena.locked_touch]
      rcases hj with hj | hj
      · rw [hj, ite_self]
      · rw [if_pos hj]
    cases load with
    | true =>
      refine ⟨core, congrArg (fun k => Outcome.next k _) hsame.symm,
        ⟨(hview i).1.trans hi, hlock i (.inr rfl)⟩, nofun, ?_, fun reg' q hq _ => ⟨?_, ?_⟩,
        .refl core, rfl⟩
      · rw [hsame]
        exact hs
      · exact ⟨(hview q).1.trans hq.1, hlock q (.inl hq.2)⟩
      · rw [hsame]
    | false =>
      have hq : ∀ j r, c.quads.guest j = some r → c.quads.locked j = true ∨ i = j →
          (((c.quads.touch i).lock i).setDirty i true).guest j = some r ∧
          (((c.quads.touch i).lock i).setDirty i true).locked j = true := fun j r hj hl => by
        rw [SlotArena.guest_setDirty, (hview j).1, SlotArena.locked_setDirty]
        exact ⟨hj, hlock j hl⟩
      refine ⟨core, rfl, hq i reg hi (.inr rfl), fun _ => ?_, ?_,
        fun reg' q hheld _ => ⟨hq q reg' hheld.1 (.inl hheld.2), ?_⟩, .refl core, rfl⟩
      · show (((c.quads.touch i).lock i).setDirty i true).isDirty i = _
        rw [SlotArena.isDirty_setDirty, if_pos rfl]
      · rw [hsame]
        exact hs.setDirtyQuad i
      · rw [hsame]

/-- **Binding a vector register gives its lanes to a quad register.** -/
theorem Shadows.bindQuad (x : c.Shadows h core g) {reg : Fin 128}
    {p : Placed QuadReg ElementCache} (hp : c.bindQuad? reg true = some p) :
    ∃ h' core', Host.runOps p.code h ⟨core, M⟩ = .next h' ⟨core', M⟩ ∧
      p.cache.Shadows h' core' g ∧ p.cache.HoldsQuad reg p.reg ∧
      (∀ reg' q, c.HoldsQuad reg' q →
        (reg = reg' ∨ ∀ e ∈ quadElements reg, e ∉ quadElements reg') →
        p.cache.HoldsQuad reg' q ∧ h'.quad q = h.quad q) ∧
      h.SameButElements h' ∧ core.SameButElements core' ∧
      p.cache.temporaries = c.temporaries := by
  obtain ⟨core', hplaced⟩ := x.placeQuad (M := M) hp
  exact ⟨_, core', hplaced.run, hplaced.shadows, hplaced.holds, hplaced.keeps,
    sameButElements_setQuad h _ _, hplaced.same, hplaced.temporaries⟩

/-- A quad register may be written, and becomes the vector register. -/
def ReadyQuad (c : ElementCache) (h : HostState) (core g : Core) (reg : Fin 128) (q : QuadReg) :
    Prop :=
  c.HoldsQuad reg q ∧
    ∀ v, c.Shadows (h.setQuad q v) core (setElements g (quadElements reg) v.toList)

/-- **Binding a vector register for a write makes a quad register ready.** -/
theorem Shadows.bindQuadForWrite (x : c.Shadows h core g) {reg : Fin 128}
    {p : Placed QuadReg ElementCache} (hp : c.bindQuad? reg false = some p) :
    ∃ core', Host.runOps p.code h ⟨core, M⟩ = .next h ⟨core', M⟩ ∧
      p.cache.ReadyQuad h core' g reg p.reg ∧
      (∀ reg' q, c.HoldsQuad reg' q →
        (reg = reg' ∨ ∀ e ∈ quadElements reg, e ∉ quadElements reg') →
        p.cache.HoldsQuad reg' q) ∧
      core.SameButElements core' ∧ p.cache.temporaries = c.temporaries := by
  obtain ⟨core', hplaced⟩ := x.placeQuad (M := M) hp
  refine ⟨core', hplaced.run, ⟨hplaced.holds, fun v => ?_⟩,
    fun reg' q hq hagree => (hplaced.keeps reg' q hq hagree).1, hplaced.same, hplaced.temporaries⟩
  have hw := hplaced.shadows.writeQuad hplaced.holds.1 v
  rw [HostState.setQuad_setQuad] at hw
  refine hw.congr (fun _ => ⟨rfl, rfl⟩) (fun j => ?_) (fun _ => rfl)
  show _ = (p.cache.quads.setDirty p.reg true).guest j ∧
    _ = (p.cache.quads.setDirty p.reg true).isDirty j
  rw [SlotArena.guest_setDirty, SlotArena.isDirty_setDirty]
  refine ⟨rfl, ?_⟩
  by_cases hj : p.reg = j
  · rw [if_pos hj, ← hj, hplaced.dirty rfl]
  · rw [if_neg hj]

/-! ### The whole cache -/

theorem shadows_empty : ElementCache.empty.Shadows h core core where
  soundFloats := SlotArena.sound_empty
  soundQuads := SlotArena.sound_empty
  floatPlace e i := by
    rw [place_of_places rfl, ElementCache.empty, SlotArena.guest_empty]
    exact ⟨nofun, nofun⟩
  quadPlace e i lane := by
    rw [place_of_places rfl]
    refine ⟨nofun, ?_⟩
    rintro ⟨reg, hreg, -⟩
    rw [ElementCache.empty, SlotArena.guest_empty] at hreg
    cases hreg
  float i e hi := by
    rw [ElementCache.empty, SlotArena.guest_empty] at hi
    cases hi
  quad i reg hi := by
    rw [ElementCache.empty, SlotArena.guest_empty] at hi
    cases hi
  saved e _ _ := rfl

theorem Shadows.releaseLocks (x : c.Shadows h core g) : c.releaseLocks.Shadows h core g :=
  x.congr (fun i => by simp [ElementCache.releaseLocks])
    (fun i => by simp [ElementCache.releaseLocks]) (fun _ => rfl)

/-- The stores of a list of bound elements. -/
theorem runOps_storeElements (h : HostState) (bindings : List (Fin 20 × Element)) (core : Core)
    (hbound : ∀ i e, (i, e) ∈ bindings → h.float (floatReg i) = g.element e) :
    ∃ core', Host.runOps (bindings.map fun (i, e) =>
        .storeElement (floatReg i) (UInt8.ofNat e.val)) h ⟨core, M⟩ =
        .next h ⟨core', M⟩ ∧ core.SameButElements core' ∧
      ∀ e, core'.element e = g.element e ∨
        core'.element e = core.element e ∧ ∀ i, (i, e) ∉ bindings := by
  induction bindings generalizing core with
  | nil => exact ⟨core, rfl, .refl core, fun e => .inr ⟨rfl, fun i => List.not_mem_nil⟩⟩
  | cons p rest ih =>
    obtain ⟨i, e⟩ := p
    obtain ⟨core', hrun, hsame, hall⟩ := ih (core.setElement e (h.float (floatReg i)))
      (fun j e' hj => hbound j e' (List.mem_cons_of_mem _ hj))
    refine ⟨core', ?_, (Core.SameButElements.setElement core e _).trans hsame, fun e' => ?_⟩
    · rw [List.map_cons, ← List.singleton_append, Host.runOps_append, runOps_storeElement]
      exact hrun
    · rcases hall e' with heq | ⟨heq, hnot⟩
      · exact .inl heq
      · rw [Core.element_setElement, hbound i e List.mem_cons_self] at heq
        by_cases he : e = e'
        · rw [if_pos he, he] at heq
          exact .inl heq
        · rw [if_neg he] at heq
          refine .inr ⟨heq, fun j hj => ?_⟩
          rcases List.mem_cons.mp hj with hj | hj
          · cases hj
            exact he rfl
          · exact hnot j hj

/-- The stores of a list of bound vector registers. -/
theorem Shadows.runOps_storeQuads (x : c.Shadows h core g)
    (bindings : List (Fin 8 × Fin 128)) (core₁ : Core)
    (hbound : ∀ i reg, (i, reg) ∈ bindings → c.quads.guest i = some reg) :
    ∃ core', Host.runOps (bindings.map fun (i, reg) =>
        .storeQuad i (UInt8.ofNat reg.val)) h ⟨core₁, M⟩ =
        .next h ⟨core', M⟩ ∧ core₁.SameButElements core' ∧
      ∀ e, core'.element e = g.element e ∨ core'.element e = core₁.element e ∧
        ∀ i reg, (i, reg) ∈ bindings → e ∉ quadElements reg := by
  induction bindings generalizing core₁ with
  | nil => exact ⟨core₁, rfl, .refl core₁, fun e => .inr ⟨rfl, nofun⟩⟩
  | cons p rest ih =>
    obtain ⟨i, reg⟩ := p
    obtain ⟨core', hrun, hsame, hall⟩ :=
      ih (setElements core₁ (quadElements reg) (h.quad i).toList)
        (fun j reg' hj => hbound j reg' (List.mem_cons_of_mem _ hj))
    refine ⟨core', ?_, (Core.SameButElements.setElements core₁ _ _).trans hsame, fun e => ?_⟩
    · rw [List.map_cons, ← List.singleton_append, Host.runOps_append, runOps_storeQuad]
      exact hrun
    · rcases hall e with heq | ⟨heq, hnot⟩
      · exact .inl heq
      · rw [x.element_storeQuad (hbound i reg List.mem_cons_self)] at heq
        by_cases he : e ∈ quadElements reg
        · rw [if_pos he] at heq
          exact .inl heq
        · rw [if_neg he] at heq
          refine .inr ⟨heq, fun j reg' hj => ?_⟩
          rcases List.mem_cons.mp hj with hj | hj
          · cases hj
            exact he
          · exact hnot j reg' hj

/-- **Writing everything back brings the core up to date.** -/
theorem Shadows.flushAll (x : c.Shadows h core g) :
    ∃ core', Host.runOps c.flushAll.1 h ⟨core, M⟩ = .next h ⟨core', M⟩ ∧
      core.SameButElements core' ∧ (∀ e, core'.element e = g.element e) ∧
      c.flushAll.2.Shadows h core' g := by
  obtain ⟨core₁, hrun₁, hsame₁, hall₁⟩ := runOps_storeElements (M := M) (g := g) h
    c.floats.dirtyBindings core
    (fun i e hmem => x.float i e (SlotArena.mem_dirtyBindings_iff.mp hmem).1)
  obtain ⟨core₂, hrun₂, hsame₂, hall₂⟩ := x.runOps_storeQuads (M := M)
    c.quads.dirtyBindings core₁ (fun i reg hmem => (SlotArena.mem_dirtyBindings_iff.mp hmem).1)
  have helement : ∀ e, core₂.element e = g.element e := fun e => by
    rcases hall₂ e with heq | ⟨heq, hquads⟩
    · exact heq
    · rcases hall₁ e with heq' | ⟨heq', hfloats⟩
      · rw [heq, heq']
      · rw [heq, heq']
        refine x.saved e (fun i hi => ?_) fun i reg hi he => ?_
        · cases hd : c.floats.isDirty i with
          | false => rfl
          | true => exact absurd (SlotArena.mem_dirtyBindings_iff.mpr ⟨hi, hd⟩) (hfloats i)
        · cases hd : c.quads.isDirty i with
          | false => rfl
          | true => exact absurd he (hquads i reg (SlotArena.mem_dirtyBindings_iff.mpr ⟨hi, hd⟩))
  have hfloats : ∀ i, c.floats.markClean.guest i = c.floats.guest i := fun i => by simp
  have hquads : ∀ i, c.quads.markClean.guest i = c.quads.guest i := fun i => by simp
  refine ⟨core₂, ?_, hsame₁.trans hsame₂, helement, ?_⟩
  · show Host.runOps (_ ++ _) h _ = _
    rw [Host.runOps_append, hrun₁]
    exact hrun₂
  · refine ⟨SlotArena.sound_of_guest_eq x.soundFloats hfloats,
      SlotArena.sound_of_guest_eq x.soundQuads hquads, fun e i => ?_, fun e i lane => ?_,
      fun i e hi => x.float i e ((hfloats i).symm.trans hi),
      fun i reg hi => x.quad i reg ((hquads i).symm.trans hi), fun e _ _ => helement e⟩
    · exact (x.floatPlace e i).trans (by rw [ElementCache.flushAll, hfloats])
    · exact (x.quadPlace e i lane).trans (by rw [ElementCache.flushAll, hquads])

/-- Bindings may be dropped when the core is up to date. -/
theorem shadows_discardAll (helement : ∀ e, core.element e = g.element e) :
    c.discardAll.Shadows h core g where
  soundFloats := SlotArena.sound_clearAll
  soundQuads := SlotArena.sound_clearAll
  floatPlace e i := by
    rw [place_of_places rfl, discardAll, SlotArena.guest_clearAll]
    exact ⟨nofun, nofun⟩
  quadPlace e i lane := by
    rw [place_of_places rfl]
    refine ⟨nofun, ?_⟩
    rintro ⟨reg, hreg, -⟩
    rw [discardAll, SlotArena.guest_clearAll] at hreg
    cases hreg
  float i e hi := by
    rw [discardAll, SlotArena.guest_clearAll] at hi
    cases hi
  quad i reg hi := by
    rw [discardAll, SlotArena.guest_clearAll] at hi
    cases hi
  saved e _ _ := helement e

end ElementCache

end Dynarec
