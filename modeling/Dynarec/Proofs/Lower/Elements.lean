import Dynarec.Lower.Elements
import Dynarec.Proofs.Guest.Core
import Dynarec.Proofs.Host.Registers
import Dynarec.Proofs.Host.Running
import Dynarec.Proofs.Lower.Slots

/-!
# The element cache shadows the vector file

`ElementCache.Shadows c h core g` says what the bindings of `c` mean at run time: bound elements of
the core `g` are in float or quad registers of the host, each in one place, and every element that
is not dirty is in the core `core`, which lags behind `g`.  Each action on the cache keeps this,
once its code has run.
-/

namespace Dynarec

/-- Only float registers that hold elements, and quad registers, differ. -/
structure HostState.SameButElements (h h' : HostState) : Prop where
  regs : h'.regs = h.regs
  temporaries : ∀ f : FloatReg, 20 ≤ f.val → h'.float f = h.float f
  flags : h'.flags = h.flags
  savedFlags : h'.savedFlags = h.savedFlags

namespace HostState.SameButElements

variable {h h' h'' : HostState}

theorem refl (h : HostState) : SameButElements h h := ⟨rfl, fun _ _ => rfl, rfl, rfl⟩

theorem trans (x : SameButElements h h') (y : SameButElements h' h'') : SameButElements h h'' :=
  ⟨y.regs.trans x.regs, fun f hf => (y.temporaries f hf).trans (x.temporaries f hf),
    y.flags.trans x.flags, y.savedFlags.trans x.savedFlags⟩

end HostState.SameButElements

/-- Only elements of the core differ. -/
structure Core.SameButElements (c c' : Core) : Prop where
  frame : SameFrame c c'
  reg : ∀ r, c'.reg r = c.reg r
  controls : ∀ k : Fin 16, c'.control k = c.control k
  zero : c'.gpr 0 = c.gpr 0

namespace Core.SameButElements

variable {c c' c'' : Core}

theorem refl (c : Core) : SameButElements c c :=
  ⟨SameFrame.refl c, fun _ => rfl, fun _ => rfl, rfl⟩

theorem trans (x : SameButElements c c') (y : SameButElements c' c'') : SameButElements c c'' :=
  ⟨x.frame.trans y.frame, fun r => (y.reg r).trans (x.reg r),
    fun k => (y.controls k).trans (x.controls k), y.zero.trans x.zero⟩

theorem setElement (c : Core) (e : Element) (v : Single) : SameButElements c (c.setElement e v) :=
  ⟨c.sameFrame_setElement e v, fun r => c.reg_setElement e v r, fun _ => rfl, rfl⟩

theorem setElements (c : Core) (es : List Element) (xs : List Single) :
    SameButElements c (Dynarec.setElements c es xs) := by
  induction es generalizing c xs with
  | nil => exact refl c
  | cons e es ih =>
    cases xs with
    | nil => exact refl c
    | cons x xs => exact (setElement c e x).trans (ih (c.setElement e x) xs)

end Core.SameButElements

/-! ### Several elements -/

theorem element_setElements_of_notMem (c : Core) {es : List Element} (xs : List Single)
    {e : Element} (he : e ∉ es) : (setElements c es xs).element e = c.element e := by
  induction es generalizing c xs with
  | nil => rfl
  | cons a es ih =>
    rw [List.mem_cons, not_or] at he
    cases xs with
    | nil => rfl
    | cons x xs =>
      show (setElements (c.setElement a x) es xs).element e = _
      rw [ih (c.setElement a x) xs he.2, Core.element_setElement, if_neg (Ne.symm he.1)]

theorem element_setElements (c : Core) {es : List Element} (xs : List Single) (hes : es.Nodup)
    {k : Nat} {e : Element} {x : Single} (he : es[k]? = some e) (hx : xs[k]? = some x) :
    (setElements c es xs).element e = x := by
  induction es generalizing c xs k with
  | nil => simp at he
  | cons a es ih =>
    rw [List.nodup_cons] at hes
    cases xs with
    | nil => simp at hx
    | cons y xs =>
      show (setElements (c.setElement a y) es xs).element e = _
      cases k with
      | zero =>
        rw [List.getElem?_cons_zero, Option.some_inj] at he hx
        subst he
        subst hx
        rw [element_setElements_of_notMem _ _ hes.1, Core.element_setElement, if_pos rfl]
      | succ k =>
        rw [List.getElem?_cons_succ] at he hx
        exact ih (c.setElement a y) xs hes.2 he hx

namespace ElementCache

variable {c : ElementCache} {h : HostState} {core g : Core} {M : Memory}

/-- Whether an element is one of several is decided by comparing numbers. -/
instance lawfulBEq_element : LawfulBEq Element := inferInstance

theorem elementIndex_ofNat (e : Element) : elementIndex (UInt8.ofNat e.val) = e := by
  revert e
  decide

theorem quadElements_nodup (reg : Fin 128) : (quadElements reg).Nodup := by
  revert reg
  decide

theorem length_quadElements (reg : Fin 128) : (quadElements reg).length = 4 := by
  rw [quadElements, VectorSize.elements, List.length_map, List.length_range]
  rfl

theorem getElem?_quadElements (reg : Fin 128) {lane : Nat} (hl : lane < 4) :
    (quadElements reg)[lane]? = some (VectorSize.quad.element (UInt8.ofNat reg.val) lane) := by
  have hl' : lane < VectorSize.quad.lanes := hl
  rw [quadElements, VectorSize.elements, List.getElem?_map, List.getElem?_range hl',
    Option.map_some]

theorem place_setPlace (c : ElementCache) (e e' : Element) (p : ElementPlace) :
    (c.setPlace e p).place e' = if e = e' then p else c.place e' := by
  show (c.places.set e p)[e'] = _
  rw [Fin.getElem_fin, Vector.getElem_set]
  by_cases he : e = e'
  · rw [if_pos (congrArg Fin.val he), if_pos he]
  · rw [if_neg (fun heq => he (Fin.ext heq)), if_neg he]
    rfl

theorem place_of_places {c : ElementCache} (hplaces : c.places = Vector.replicate 128 .memory)
    (e : Element) : c.place e = .memory := by
  rw [place, hplaces]
  exact Vector.getElem_replicate _

/-- **The bindings hold the elements of `g`.** -/
structure Shadows (c : ElementCache) (h : HostState) (core g : Core) : Prop where
  soundFloats : c.floats.Sound
  soundQuads : c.quads.Sound
  floatPlace : ∀ e i, c.place e = .float i ↔ c.floats.guest i = some e
  quadPlace : ∀ e i lane, c.place e = .quad i lane ↔
    ∃ reg, c.quads.guest i = some reg ∧ (quadElements reg)[lane]? = some e
  float : ∀ i e, c.floats.guest i = some e → h.float (floatReg i) = g.element e
  quad : ∀ i reg, c.quads.guest i = some reg → ∀ (lane : Nat) (e : Element),
    (quadElements reg)[lane]? = some e → (h.quad i)[lane]? = some (g.element e)
  saved : ∀ e, (∀ i, c.floats.guest i = some e → c.floats.isDirty i = false) →
    (∀ i reg, c.quads.guest i = some reg → e ∈ quadElements reg → c.quads.isDirty i = false) →
    core.element e = g.element e

/-- An element is bound to a float register that is not given away. -/
def HoldsElement (c : ElementCache) (e : Element) (f : FloatReg) : Prop :=
  ∃ i, c.floats.guest i = some e ∧ c.floats.locked i = true ∧ floatReg i = f

/-- A vector register is bound to a quad register that is not given away. -/
def HoldsQuad (c : ElementCache) (reg : Fin 128) (q : QuadReg) : Prop :=
  c.quads.guest q = some reg ∧ c.quads.locked q = true

/-- Locked float slots are kept, with the values of their registers, and so are temporaries. -/
structure KeepsFloats (c c' : ElementCache) (h h' : HostState) : Prop where
  locked : ∀ i, c.floats.locked i = true → c'.floats.locked i = true ∧
    c'.floats.guest i = c.floats.guest i ∧ h'.float (floatReg i) = h.float (floatReg i)
  temporaries : c'.temporaries = c.temporaries

theorem HoldsElement.get {e : Element} {f : FloatReg} (x : c.HoldsElement e f)
    (y : c.Shadows h core g) : h.float f = g.element e := by
  obtain ⟨i, hg, -, rfl⟩ := x
  exact y.float i e hg

theorem floatReg_lt (i : Fin 20) : (floatReg i).val < 20 := i.isLt

theorem floatReg_inj {i j : Fin 20} (heq : floatReg i = floatReg j) : i = j := by
  have hv : (floatReg i).val = (floatReg j).val := by rw [heq]
  exact Fin.ext hv

theorem float_setFloat_floatReg (h : HostState) (i j : Fin 20) (x : Single) :
    (h.setFloat (floatReg i) x).float (floatReg j) = if i = j then x else h.float (floatReg j) := by
  rw [HostState.float_setFloat]
  by_cases hij : i = j
  · rw [if_pos hij, if_pos (by rw [hij])]
  · rw [if_neg hij, if_neg (fun heq => hij (floatReg_inj heq))]

theorem sameButElements_setFloat (h : HostState) (i : Fin 20) (x : Single) :
    h.SameButElements (h.setFloat (floatReg i) x) := by
  refine ⟨rfl, fun f hf => ?_, rfl, rfl⟩
  rw [HostState.float_setFloat, if_neg]
  intro heq
  have := floatReg_lt i
  rw [heq] at this
  omega

theorem sameButElements_setQuad (h : HostState) (i : Fin 8) (x : Vector Single 4) :
    h.SameButElements (h.setQuad i x) := ⟨rfl, fun _ _ => rfl, rfl, rfl⟩

theorem Shadows.congr {c' : ElementCache} (x : c.Shadows h core g)
    (hfloats : ∀ i, c'.floats.guest i = c.floats.guest i ∧ c'.floats.isDirty i = c.floats.isDirty i)
    (hquads : ∀ i, c'.quads.guest i = c.quads.guest i ∧ c'.quads.isDirty i = c.quads.isDirty i)
    (hplace : ∀ e, c'.place e = c.place e) : c'.Shadows h core g where
  soundFloats := SlotArena.sound_of_guest_eq x.soundFloats fun i => (hfloats i).1
  soundQuads := SlotArena.sound_of_guest_eq x.soundQuads fun i => (hquads i).1
  floatPlace e i := by rw [hplace, x.floatPlace, (hfloats i).1]
  quadPlace e i lane := by rw [hplace, x.quadPlace, (hquads i).1]
  float i e hi := x.float i e (by rw [← (hfloats i).1, hi])
  quad i reg hi := x.quad i reg (by rw [← (hquads i).1, hi])
  saved e hf hq := by
    refine x.saved e (fun i hi => ?_) fun i reg hi he => ?_
    · rw [← (hfloats i).2]
      exact hf i (by rw [(hfloats i).1, hi])
    · rw [← (hquads i).2]
      exact hq i reg (by rw [(hquads i).1, hi]) he

/-! ### Where an element is -/

/-- An element of a bound vector register is in its quad register. -/
theorem Shadows.place_quad (x : c.Shadows h core g) {i : Fin 8} {reg : Fin 128} {e : Element}
    (hi : c.quads.guest i = some reg) (he : e ∈ quadElements reg) :
    ∃ lane, c.place e = .quad i lane := by
  obtain ⟨lane, hlane⟩ := List.mem_iff_getElem?.mp he
  exact ⟨lane, (x.quadPlace e i lane).mpr ⟨reg, hi, hlane⟩⟩

theorem Shadows.quads_disjoint (x : c.Shadows h core g) {i j : Fin 8} {reg reg' : Fin 128}
    {e : Element} (hi : c.quads.guest i = some reg) (hj : c.quads.guest j = some reg')
    (he : e ∈ quadElements reg) (he' : e ∈ quadElements reg') : i = j := by
  obtain ⟨lane, hl⟩ := x.place_quad hi he
  obtain ⟨lane', hl'⟩ := x.place_quad hj he'
  rw [hl] at hl'
  cases hl'
  rfl

theorem Shadows.not_float_of_quad (x : c.Shadows h core g) {i : Fin 8} {j : Fin 20}
    {reg : Fin 128} {e : Element} (hi : c.quads.guest i = some reg) (he : e ∈ quadElements reg) :
    c.floats.guest j ≠ some e := by
  intro hj
  obtain ⟨lane, hl⟩ := x.place_quad hi he
  rw [(x.floatPlace e j).mpr hj] at hl
  cases hl

/-! ### Writing back -/

theorem Shadows.cleanFloat (x : c.Shadows h core g) {i : Fin 20}
    (hclean : ∀ e, c.floats.guest i = some e → core.element e = g.element e) :
    ({ c with floats := c.floats.setDirty i false } : ElementCache).Shadows h core g where
  soundFloats := SlotArena.sound_of_guest_eq x.soundFloats fun j => by simp
  soundQuads := x.soundQuads
  floatPlace e j := by
    rw [SlotArena.guest_setDirty]
    exact x.floatPlace e j
  quadPlace := x.quadPlace
  float j e hj := x.float j e (by rwa [SlotArena.guest_setDirty] at hj)
  quad := x.quad
  saved e hf hq := by
    by_cases hi : c.floats.guest i = some e
    · exact hclean e hi
    · refine x.saved e (fun j hj => ?_) hq
      have hd := hf j (by rw [SlotArena.guest_setDirty, hj])
      rw [SlotArena.isDirty_setDirty, if_neg] at hd
      · exact hd
      · intro heq
        rw [heq] at hi
        exact hi hj

theorem Shadows.cleanQuad (x : c.Shadows h core g) {i : Fin 8}
    (hclean : ∀ reg, c.quads.guest i = some reg → ∀ e ∈ quadElements reg,
      core.element e = g.element e) :
    ({ c with quads := c.quads.setDirty i false } : ElementCache).Shadows h core g where
  soundFloats := x.soundFloats
  soundQuads := SlotArena.sound_of_guest_eq x.soundQuads fun j => by simp
  floatPlace := x.floatPlace
  quadPlace e j lane := by
    rw [SlotArena.guest_setDirty]
    exact x.quadPlace e j lane
  float := x.float
  quad j reg hj := x.quad j reg (by rwa [SlotArena.guest_setDirty] at hj)
  saved e hf hq := by
    by_cases hi : ∃ reg, c.quads.guest i = some reg ∧ e ∈ quadElements reg
    · obtain ⟨reg, hreg, he⟩ := hi
      exact hclean reg hreg e he
    · refine x.saved e hf fun j reg hj he => ?_
      have hd := hq j reg (by rw [SlotArena.guest_setDirty, hj]) he
      rw [SlotArena.isDirty_setDirty, if_neg] at hd
      · exact hd
      · intro heq
        rw [heq] at hi
        exact hi ⟨reg, hj, he⟩

/-- Elements of the core may change to what they are in `g`. -/
theorem Shadows.advance (x : c.Shadows h core g) {core' : Core}
    (hcore : ∀ e, core'.element e = g.element e ∨ core'.element e = core.element e) :
    c.Shadows h core' g :=
  ⟨x.soundFloats, x.soundQuads, x.floatPlace, x.quadPlace, x.float, x.quad, fun e hf hq => by
    rcases hcore e with heq | heq
    · exact heq
    · rw [heq]
      exact x.saved e hf hq⟩

/-- The code that saves a float slot. -/
theorem runOps_storeElement (i : Fin 20) (e : Element) (h : HostState) (core : Core)
    (M : Memory) :
    Host.runOps [.storeElement (floatReg i) (UInt8.ofNat e.val)] h ⟨core, M⟩ =
      .next h ⟨core.setElement e (h.float (floatReg i)), M⟩ := by
  show Outcome.next h ⟨core.setElement (elementIndex (UInt8.ofNat e.val)) _, M⟩ = _
  rw [elementIndex_ofNat]

theorem runOps_storeQuad (i : Fin 8) (reg : Fin 128) (h : HostState) (core : Core)
    (M : Memory) :
    Host.runOps [.storeQuad i (UInt8.ofNat reg.val)] h ⟨core, M⟩ =
      .next h ⟨setElements core (quadElements reg) (h.quad i).toList, M⟩ := rfl

/-- Storing a quad register brings the elements of its vector register up to date. -/
theorem Shadows.element_storeQuad (x : c.Shadows h core g) {i : Fin 8} {reg : Fin 128}
    (hi : c.quads.guest i = some reg) (core' : Core) (e : Element) :
    (setElements core' (quadElements reg) (h.quad i).toList).element e =
      if e ∈ quadElements reg then g.element e else core'.element e := by
  by_cases he : e ∈ quadElements reg
  · rw [if_pos he]
    obtain ⟨lane, hlane⟩ := List.mem_iff_getElem?.mp he
    refine element_setElements core' _ (quadElements_nodup reg) hlane ?_
    rw [Vector.getElem?_toList]
    exact x.quad i reg hi lane e hlane
  · rw [if_neg he, element_setElements_of_notMem _ _ he]

/-! ### Dropping bindings -/

/-- A clean float slot may be freed. -/
theorem Shadows.dropFloat (x : c.Shadows h core g) {i : Fin 20} {e : Element}
    (hi : c.floats.guest i = some e) (hd : c.floats.isDirty i = false) :
    (ElementCache.setPlace { c with floats := c.floats.clear i } e .memory).Shadows h core g where
  soundFloats := x.soundFloats.clear i
  soundQuads := x.soundQuads
  floatPlace e' j := by
    rw [place_setPlace]
    show (if e = e' then ElementPlace.memory else c.place e') = _ ↔
      (c.floats.clear i).guest j = some e'
    rw [SlotArena.guest_clear]
    by_cases hee : e = e'
    · subst hee
      rw [if_pos rfl]
      constructor
      · intro heq
        cases heq
      · intro hj
        by_cases hij : i = j
        · rw [if_pos hij] at hj
          cases hj
        · rw [if_neg hij] at hj
          exact absurd (x.soundFloats i j e hi hj) hij
    · rw [if_neg hee, x.floatPlace]
      by_cases hij : i = j
      · subst hij
        rw [if_pos rfl, hi, Option.some_inj]
        exact ⟨fun heq => absurd heq hee, fun heq => by cases heq⟩
      · rw [if_neg hij]
  quadPlace e' j lane := by
    rw [place_setPlace]
    show (if e = e' then ElementPlace.memory else c.place e') = _ ↔ _
    by_cases hee : e = e'
    · subst hee
      rw [if_pos rfl]
      constructor
      · intro heq
        cases heq
      · rintro ⟨reg, hreg, hl⟩
        have hp : c.place e = .quad j lane := (x.quadPlace e j lane).mpr ⟨reg, hreg, hl⟩
        rw [(x.floatPlace e i).mpr hi] at hp
        cases hp
    · rw [if_neg hee]
      exact x.quadPlace e' j lane
  float j e' hj := by
    have hj : (c.floats.clear i).guest j = some e' := hj
    rw [SlotArena.guest_clear] at hj
    by_cases hij : i = j
    · rw [if_pos hij] at hj
      cases hj
    · rw [if_neg hij] at hj
      exact x.float j e' hj
  quad := x.quad
  saved e' hf hq := by
    refine x.saved e' (fun j hj => ?_) hq
    by_cases hij : i = j
    · rw [← hij]
      exact hd
    · have hdj : (c.floats.clear i).isDirty j = false := by
        refine hf j ?_
        show (c.floats.clear i).guest j = _
        rw [SlotArena.guest_clear, if_neg hij, hj]
      rw [SlotArena.isDirty_clear, if_neg hij] at hdj
      exact hdj

/-- Elements that are put in no register. -/
def forget (c : ElementCache) (es : List Element) : ElementCache :=
  es.foldl (fun c e => c.setPlace e .memory) c

theorem place_forget (c : ElementCache) (es : List Element) (e : Element) :
    (c.forget es).place e = if e ∈ es then .memory else c.place e := by
  induction es generalizing c with
  | nil => simp [forget]
  | cons a es ih =>
    show ((c.setPlace a .memory).forget es).place e = _
    rw [ih, place_setPlace]
    by_cases he : e ∈ es
    · rw [if_pos he, if_pos (List.mem_cons_of_mem _ he)]
    · by_cases ha : a = e
      · rw [if_neg he, if_pos ha, if_pos (by rw [ha]; exact List.mem_cons_self)]
      · rw [if_neg he, if_neg ha, if_neg]
        intro hmem
        rcases List.mem_cons.mp hmem with heq | hmem
        · exact ha heq.symm
        · exact he hmem

theorem floats_forget (c : ElementCache) (es : List Element) : (c.forget es).floats = c.floats := by
  induction es generalizing c with
  | nil => rfl
  | cons a es ih => exact ih (c.setPlace a .memory)

theorem quads_forget (c : ElementCache) (es : List Element) : (c.forget es).quads = c.quads := by
  induction es generalizing c with
  | nil => rfl
  | cons a es ih => exact ih (c.setPlace a .memory)

theorem temporaries_forget (c : ElementCache) (es : List Element) :
    (c.forget es).temporaries = c.temporaries := by
  induction es generalizing c with
  | nil => rfl
  | cons a es ih => exact ih (c.setPlace a .memory)

/-- A clean quad slot may be freed. -/
theorem Shadows.dropQuad (x : c.Shadows h core g) {i : Fin 8} {reg : Fin 128}
    (hi : c.quads.guest i = some reg) (hd : c.quads.isDirty i = false) :
    (ElementCache.forget { c with quads := c.quads.clear i } (quadElements reg)).Shadows h core g where
  soundFloats := by
    rw [floats_forget]
    exact x.soundFloats
  soundQuads := by
    rw [quads_forget]
    exact x.soundQuads.clear i
  floatPlace e j := by
    rw [place_forget, floats_forget]
    show (if e ∈ quadElements reg then ElementPlace.memory else c.place e) = _ ↔
      c.floats.guest j = some e
    by_cases he : e ∈ quadElements reg
    · rw [if_pos he]
      exact ⟨nofun, fun hj => absurd hj (x.not_float_of_quad hi he)⟩
    · rw [if_neg he]
      exact x.floatPlace e j
  quadPlace e j lane := by
    rw [place_forget, quads_forget]
    show (if e ∈ quadElements reg then ElementPlace.memory else c.place e) = _ ↔
      ∃ reg', (c.quads.clear i).guest j = some reg' ∧ _
    simp only [SlotArena.guest_clear]
    by_cases he : e ∈ quadElements reg
    · rw [if_pos he]
      refine ⟨nofun, ?_⟩
      rintro ⟨reg', hreg', hl⟩
      by_cases hij : i = j
      · rw [if_pos hij] at hreg'
        cases hreg'
      · rw [if_neg hij] at hreg'
        exact absurd (x.quads_disjoint hi hreg' he (List.mem_of_getElem? hl)) hij
    · rw [if_neg he, x.quadPlace]
      constructor
      · rintro ⟨reg', hreg', hl⟩
        refine ⟨reg', ?_, hl⟩
        rw [if_neg, hreg']
        intro hij
        rw [← hij, hi] at hreg'
        cases hreg'
        exact he (List.mem_of_getElem? hl)
      · rintro ⟨reg', hreg', hl⟩
        by_cases hij : i = j
        · rw [if_pos hij] at hreg'
          cases hreg'
        · rw [if_neg hij] at hreg'
          exact ⟨reg', hreg', hl⟩
  float j e hj := by
    rw [floats_forget] at hj
    exact x.float j e hj
  quad j reg' hj := by
    rw [quads_forget] at hj
    have hj : (c.quads.clear i).guest j = some reg' := hj
    rw [SlotArena.guest_clear] at hj
    by_cases hij : i = j
    · rw [if_pos hij] at hj
      cases hj
    · rw [if_neg hij] at hj
      exact x.quad j reg' hj
  saved e hf hq := by
    rw [floats_forget] at hf
    rw [quads_forget] at hq
    refine x.saved e hf fun j reg' hj he => ?_
    by_cases hij : i = j
    · rw [← hij]
      exact hd
    · have hdj : (c.quads.clear i).isDirty j = false := by
        refine hq j reg' ?_ he
        show (c.quads.clear i).guest j = _
        rw [SlotArena.guest_clear, if_neg hij, hj]
      rw [SlotArena.isDirty_clear, if_neg hij] at hdj
      exact hdj

/-- An empty slot may be freed. -/
theorem Shadows.clearFloat_of_none (x : c.Shadows h core g) {i : Fin 20}
    (hi : c.floats.guest i = none) :
    ({ c with floats := c.floats.clear i } : ElementCache).Shadows h core g := by
  have hguest : ∀ j, (c.floats.clear i).guest j = c.floats.guest j := fun j => by
    rw [SlotArena.guest_clear]
    by_cases hij : i = j
    · rw [if_pos hij, ← hij, hi]
    · rw [if_neg hij]
  refine ⟨SlotArena.sound_of_guest_eq x.soundFloats hguest, x.soundQuads, fun e j => ?_,
    x.quadPlace, fun j e hj => x.float j e (by rw [← hguest, hj]), x.quad, fun e hf hq => ?_⟩
  · rw [hguest]
    exact x.floatPlace e j
  · refine x.saved e (fun j hj => ?_) hq
    have hdj := hf j (by rw [hguest, hj])
    rw [SlotArena.isDirty_clear, if_neg] at hdj
    · exact hdj
    · intro hij
      rw [← hij, hi] at hj
      cases hj

theorem Shadows.clearQuad_of_none (x : c.Shadows h core g) {i : Fin 8}
    (hi : c.quads.guest i = none) :
    ({ c with quads := c.quads.clear i } : ElementCache).Shadows h core g := by
  have hguest : ∀ j, (c.quads.clear i).guest j = c.quads.guest j := fun j => by
    rw [SlotArena.guest_clear]
    by_cases hij : i = j
    · rw [if_pos hij, ← hij, hi]
    · rw [if_neg hij]
  refine ⟨x.soundFloats, SlotArena.sound_of_guest_eq x.soundQuads hguest, x.floatPlace,
    fun e j lane => ?_, x.float, fun j reg hj => x.quad j reg (by rw [← hguest, hj]),
    fun e hf hq => ?_⟩
  · rw [hguest]
    exact x.quadPlace e j lane
  · refine x.saved e hf fun j reg hj he => ?_
    have hdj := hq j reg (by rw [hguest, hj]) he
    rw [SlotArena.isDirty_clear, if_neg] at hdj
    · exact hdj
    · intro hij
      rw [← hij, hi] at hj
      cases hj

/-- What an eviction leaves alone: everything but one slot of one kind. -/
theorem clear_setDirty_view {n : Nat} {G : Type} (a : SlotArena n G) (i j : Fin n) :
    ((a.setDirty i false).clear i).guest j = (a.clear i).guest j ∧
      ((a.setDirty i false).clear i).isDirty j = (a.clear i).isDirty j := by
  simp only [SlotArena.guest_clear, SlotArena.isDirty_clear, SlotArena.guest_setDirty,
    SlotArena.isDirty_setDirty]
  by_cases hij : i = j <;> simp [hij]

/-- **A float slot is evicted.** -/
theorem Shadows.evictFloat (x : c.Shadows h core g) (i : Fin 20) :
    ∃ core', Host.runOps (c.evictFloat i).1 h ⟨core, M⟩ = .next h ⟨core', M⟩ ∧
      (c.evictFloat i).2.Shadows h core' g ∧ core.SameButElements core' := by
  rw [ElementCache.evictFloat]
  cases hheld : c.floats.held? i with
  | none =>
    exact ⟨core, rfl, x.clearFloat_of_none (SlotArena.held?_eq_none_iff.mp hheld), .refl core⟩
  | some p =>
    obtain ⟨e, d⟩ := p
    obtain ⟨hg, hd⟩ := SlotArena.held?_eq_some_iff.mp hheld
    cases d with
    | false => exact ⟨core, rfl, x.dropFloat hg hd, .refl core⟩
    | true =>
      refine ⟨core.setElement e (h.float (floatReg i)),
        runOps_storeElement i e h core M, ?_, .setElement core e _⟩
      have hcore : ∀ e', (core.setElement e (h.float (floatReg i))).element e' =
          if e = e' then g.element e else core.element e' := fun e' => by
        rw [Core.element_setElement, x.float i e hg]
      have hclean := (x.advance  fun e' => by
        rw [hcore]
        by_cases hee : e = e'
        · rw [if_pos hee, hee]
          exact .inl rfl
        · rw [if_neg hee]
          exact .inr rfl).cleanFloat (i := i) fun e' he' => by
        rw [hg] at he'
        cases he'
        rw [hcore, if_pos rfl]
      have hdrop := hclean.dropFloat (by
        show (c.floats.setDirty i false).guest i = _
        rw [SlotArena.guest_setDirty, hg]) (by
        show (c.floats.setDirty i false).isDirty i = _
        rw [SlotArena.isDirty_setDirty, if_pos rfl])
      exact hdrop.congr (fun j => ⟨(clear_setDirty_view c.floats i j).1.symm,
        (clear_setDirty_view c.floats i j).2.symm⟩) (fun _ => ⟨rfl, rfl⟩) (fun _ => rfl)

/-- **A quad slot is evicted.** -/
theorem Shadows.evictQuad (x : c.Shadows h core g) (i : Fin 8) :
    ∃ core', Host.runOps (c.evictQuad i).1 h ⟨core, M⟩ = .next h ⟨core', M⟩ ∧
      (c.evictQuad i).2.Shadows h core' g ∧ core.SameButElements core' := by
  rw [ElementCache.evictQuad]
  cases hheld : c.quads.held? i with
  | none =>
    exact ⟨core, rfl, x.clearQuad_of_none (SlotArena.held?_eq_none_iff.mp hheld), .refl core⟩
  | some p =>
    obtain ⟨reg, d⟩ := p
    obtain ⟨hg, hd⟩ := SlotArena.held?_eq_some_iff.mp hheld
    cases d with
    | false => exact ⟨core, rfl, x.dropQuad hg hd, .refl core⟩
    | true =>
      let core' := setElements core (quadElements reg) (h.quad i).toList
      refine ⟨core', runOps_storeQuad i reg h core M, ?_, .setElements core _ _⟩
      have hcore : ∀ e, core'.element e =
          if e ∈ quadElements reg then g.element e else core.element e :=
        x.element_storeQuad hg core
      have hclean := (x.advance fun e => by
        rw [hcore]
        by_cases he : e ∈ quadElements reg
        · rw [if_pos he]
          exact .inl rfl
        · rw [if_neg he]
          exact .inr rfl).cleanQuad (i := i) fun reg' hreg' e he => by
        rw [hg] at hreg'
        cases hreg'
        rw [hcore, if_pos he]
      have hdrop := hclean.dropQuad (by
        show (c.quads.setDirty i false).guest i = _
        rw [SlotArena.guest_setDirty, hg]) (by
        show (c.quads.setDirty i false).isDirty i = _
        rw [SlotArena.isDirty_setDirty, if_pos rfl])
      refine hdrop.congr (fun j => ?_) (fun j => ?_) (fun e => ?_)
      · show (ElementCache.forget _ _).floats.guest j = (ElementCache.forget _ _).floats.guest j ∧
          (ElementCache.forget _ _).floats.isDirty j = (ElementCache.forget _ _).floats.isDirty j
        rw [floats_forget, floats_forget]
        exact ⟨rfl, rfl⟩
      · show (ElementCache.forget _ _).quads.guest j = (ElementCache.forget _ _).quads.guest j ∧
          (ElementCache.forget _ _).quads.isDirty j = (ElementCache.forget _ _).quads.isDirty j
        rw [quads_forget, quads_forget]
        exact ⟨(clear_setDirty_view c.quads i j).1.symm, (clear_setDirty_view c.quads i j).2.symm⟩
      · show (ElementCache.forget _ _).place e = (ElementCache.forget _ _).place e
        rw [place_forget, place_forget]
        rfl

end ElementCache

end Dynarec
