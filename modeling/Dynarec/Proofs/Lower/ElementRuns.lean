import Dynarec.Proofs.Lower.EmittedWords

/-!
# Runs of the element cache

The element cache is used by requests (`ElementCache.Request`), and what a request emits is run
right away here, as for the scalar cache.  The value that the program sees in an element is that of
its one copy in a register, or of the core if it has none (`Stage.view`).

A vector register may share elements with four others, and with float registers, so that one binding
can force several others out.  What holds them together is `ElementCache.Shadows`, where the table
of places agrees with both arenas; one request keeps it (`Stage.Mirrors.step`), and
`Stage.one_live_copy` says what follows for every run from an empty cache.
-/

namespace Dynarec

/-- An element after several were written is the one that was written to it, if any. -/
theorem element_setElements_lookup (c : Core) {es : List Element} (hes : es.Nodup)
    (xs : List Single) (e : Element) :
    (setElements c es xs).element e = ((es.zip xs).lookup e).getD (c.element e) := by
  induction es generalizing c xs with
  | nil => rfl
  | cons a es ih =>
    rw [List.nodup_cons] at hes
    cases xs with
    | nil => rfl
    | cons x xs =>
      show (setElements (c.setElement a x) es xs).element e = _
      rw [List.zip_cons_cons, List.lookup_cons]
      by_cases he : e = a
      · subst he
        rw [element_setElements_of_notMem _ _ hes.1, Core.element_setElement, if_pos rfl,
          beq_self_eq_true]
        rfl
      · rw [ih (c.setElement a x) hes.2, Core.element_setElement, if_neg (Ne.symm he),
          beq_eq_false_iff_ne.mpr he]

namespace ElementCache

variable {c : ElementCache} {h : HostState} {core g : Core} {M : Memory}

/-! ### Requests -/

/-- **A request to the cache.**  Whoever binds without loading writes the register at once. -/
inductive Request where
  | bindElement (e : Element)
  | writeElement (e : Element) (value : Single)
  | bindQuad (reg : Fin 128)
  | writeQuad (reg : Fin 128) (value : Vector Single 4)
  | flushAll
  | releaseLocks

/-- A host register that holds elements. -/
inductive Register where
  | float (f : FloatReg)
  | quad (q : QuadReg)

/-- What the cache answers. -/
structure Answer where
  returned : Option Register
  code : List Operation
  cache : ElementCache

/-- The words to emit. -/
def Answer.words (p : Answer) : List HostWord := p.code.map Operation.encode

namespace Request

/-- The answer, if a host register is found. -/
def answer? (c : ElementCache) : Request → Option Answer
  | bindElement e => (c.bindElement? e true).map fun p => ⟨some (.float p.reg), p.code, p.cache⟩
  | writeElement e _ => (c.bindElement? e false).map fun p => ⟨some (.float p.reg), p.code, p.cache⟩
  | bindQuad reg => (c.bindQuad? reg true).map fun p => ⟨some (.quad p.reg), p.code, p.cache⟩
  | writeQuad reg _ => (c.bindQuad? reg false).map fun p => ⟨some (.quad p.reg), p.code, p.cache⟩
  | flushAll => some ⟨none, c.flushAll.1, c.flushAll.2⟩
  | releaseLocks => some ⟨none, [], c.releaseLocks⟩

/-- The write that follows the code. -/
def writeTo (h : HostState) : Request → Option Register → HostState
  | writeElement _ value, some (.float f) => h.setFloat f value
  | writeQuad _ value, some (.quad q) => h.setQuad q value
  | _, _ => h

/-- **What the request makes of the values seen**: only a write changes them. -/
def change (view : Element → Single) : Request → Element → Single
  | writeElement e value => fun e' => if e = e' then value else view e'
  | writeQuad reg value => fun e' => (((quadElements reg).zip value.toList).lookup e').getD (view e')
  | _ => view

/-- The register that is returned holds the values seen, lane by lane. -/
def Holds (h : HostState) (view : Element → Single) : Request → Option Register → Prop
  | bindElement e, returned | writeElement e _, returned =>
    ∃ f, returned = some (.float f) ∧ h.float f = view e
  | bindQuad reg, returned | writeQuad reg _, returned =>
    ∃ q, returned = some (.quad q) ∧ ∀ (lane : Nat) (e : Element),
      (quadElements reg)[lane]? = some e → (h.quad q)[lane]? = some (view e)
  | flushAll, returned | releaseLocks, returned => returned = none

end Request

/-- **A cache together with what its code was run on.** -/
structure Stage where
  cache : ElementCache
  host : HostState
  machine : Machine

namespace Stage

/-- The start of a block. -/
def start (c : ElementCache) (h : HostState) (m : Machine) : Stage := ⟨c.discardAll, h, m⟩

/-- The value seen in an element. -/
def view (s : Stage) (e : Element) : Single :=
  match s.cache.place e with
  | .memory => s.machine.core.element e
  | .float i => s.host.float (floatReg i)
  | .quad i lane => ((s.host.quad i)[lane]?).getD Single.zero

/-- **One request**, with its words run and its write done.  There is no next stage if no host
register is found, or if the words do not run to their end. -/
def step? (s : Stage) (q : Request) : Option Stage := do
  let p ← q.answer? s.cache
  let (h, m) ← Host.runWords? p.words s.host s.machine
  some ⟨p.cache, q.writeTo h p.returned, m⟩

/-- Several requests. -/
def run? (s : Stage) (requests : List Request) : Option Stage := requests.foldlM step? s

end Stage

/-! ### One request -/

/-- **An answer that was run.**  The host and the core are those behind the code and the write, and
the values seen are those of `g'`. -/
structure Served (c : ElementCache) (h : HostState) (core g : Core) (M : Memory) (q : Request)
    (p : Answer) (h' : HostState) (core' g' : Core) : Prop where
  run : Host.runOps p.code h ⟨core, M⟩ = .next h' ⟨core', M⟩
  shadows : p.cache.Shadows (q.writeTo h' p.returned) core' g'
  change : ∀ e, g'.element e = q.change g.element e
  holds : q.Holds (q.writeTo h' p.returned) g'.element p.returned
  saved : q = .flushAll → ∀ e, core'.element e = g'.element e

/-- **Every answer can be run.** -/
theorem Shadows.served (x : c.Shadows h core g) {q : Request} {p : Answer}
    (hp : q.answer? c = some p) : ∃ h' core' g', Served c h core g M q p h' core' g' := by
  cases q with
  | bindElement e =>
    obtain ⟨b, hb, rfl⟩ := Option.map_eq_some_iff.mp hp
    obtain ⟨h', core', hrun, hs, hholds, -⟩ := x.bindElement (M := M) hb
    exact ⟨h', core', g, hrun, hs, fun _ => rfl, ⟨b.reg, rfl, hholds.get hs⟩, nofun⟩
  | writeElement e value =>
    obtain ⟨b, hb, rfl⟩ := Option.map_eq_some_iff.mp hp
    obtain ⟨core', hrun, ⟨hholds, hs⟩, -⟩ := x.bindElementForWrite (M := M) hb
    exact ⟨h, core', g.setElement e value, hrun, hs value, fun e' => Core.element_setElement g e e'
      value, ⟨b.reg, rfl, hholds.get (hs value)⟩, nofun⟩
  | bindQuad reg =>
    obtain ⟨b, hb, rfl⟩ := Option.map_eq_some_iff.mp hp
    obtain ⟨h', core', hrun, hs, hholds, -⟩ := x.bindQuad (M := M) hb
    exact ⟨h', core', g, hrun, hs, fun _ => rfl, ⟨b.reg, rfl, hs.quad b.reg reg hholds.1⟩, nofun⟩
  | writeQuad reg value =>
    obtain ⟨b, hb, rfl⟩ := Option.map_eq_some_iff.mp hp
    obtain ⟨core', hrun, ⟨hholds, hs⟩, -⟩ := x.bindQuadForWrite (M := M) hb
    exact ⟨h, core', setElements g (quadElements reg) value.toList, hrun, hs value,
      element_setElements_lookup g (quadElements_nodup reg) value.toList,
      ⟨b.reg, rfl, (hs value).quad b.reg reg hholds.1⟩, nofun⟩
  | flushAll =>
    cases hp
    obtain ⟨core', hrun, -, helement, hs⟩ := x.flushAll (M := M)
    exact ⟨h, core', g, hrun, hs, fun _ => rfl, rfl, fun _ => helement⟩
  | releaseLocks =>
    cases hp
    exact ⟨h, core, g, rfl, x.releaseLocks, fun _ => rfl, rfl, nofun⟩

theorem allInline_answer? {q : Request} {p : Answer} (hp : q.answer? c = some p) :
    AllInline p.code := by
  cases q with
  | bindElement e =>
    obtain ⟨b, hb, rfl⟩ := Option.map_eq_some_iff.mp hp
    exact allInline_bindElement? hb
  | writeElement e value =>
    obtain ⟨b, hb, rfl⟩ := Option.map_eq_some_iff.mp hp
    exact allInline_bindElement? hb
  | bindQuad reg =>
    obtain ⟨b, hb, rfl⟩ := Option.map_eq_some_iff.mp hp
    exact allInline_bindQuad? hb
  | writeQuad reg value =>
    obtain ⟨b, hb, rfl⟩ := Option.map_eq_some_iff.mp hp
    exact allInline_bindQuad? hb
  | flushAll =>
    cases hp
    exact allInline_flushAll
  | releaseLocks =>
    cases hp
    exact .nil

namespace Stage

variable {s s' : Stage}

/-- The stage shows the elements of `g`. -/
abbrev Mirrors (s : Stage) (g : Core) : Prop := s.cache.Shadows s.host s.machine.core g

theorem mirrors_start (c : ElementCache) (h : HostState) (m : Machine) :
    (start c h m).Mirrors m.core :=
  shadows_discardAll fun _ => rfl

theorem view_eq (x : s.Mirrors g) (e : Element) : s.view e = g.element e := by
  rw [view]
  cases hp : s.cache.place e with
  | memory =>
    obtain ⟨hfloats, hquads⟩ := x.place_memory.mp hp
    exact x.saved e (fun i hi => absurd hi (hfloats i)) fun i reg hi he => absurd he (hquads i reg hi)
  | float i => exact x.float i e ((x.floatPlace e i).mp hp)
  | quad i lane =>
    obtain ⟨reg, hreg, hlane⟩ := (x.quadPlace e i lane).mp hp
    show ((s.host.quad i)[lane]?).getD Single.zero = _
    rw [x.quad i reg hreg lane e hlane, Option.getD_some]

/-- **A request keeps the mirror**, and the values seen change as it says. -/
theorem Mirrors.step (x : s.Mirrors g) {q : Request} {p : Answer} (hp : q.answer? s.cache = some p) :
    ∃ s' g', s.step? q = some s' ∧ s'.Mirrors g' ∧ g'.element = q.change g.element ∧
      q.Holds s'.host g'.element p.returned ∧
      (q = .flushAll → ∀ e, s'.machine.core.element e = g'.element e) := by
  obtain ⟨h', core', g', hserved⟩ := x.served (M := s.machine.memory) hp
  have hwords : Host.runWords? p.words s.host s.machine = some (h', ⟨core', s.machine.memory⟩) :=
    (allInline_answer? hp).runWords?_eq hserved.run
  refine ⟨⟨p.cache, q.writeTo h' p.returned, ⟨core', s.machine.memory⟩⟩, g', ?_, hserved.shadows,
    funext hserved.change, hserved.holds, hserved.saved⟩
  rw [step?, hp, Option.bind_eq_bind, Option.bind_some, hwords]
  rfl

/-- **The run keeps the mirror**, and the values seen change as the requests say. -/
theorem Mirrors.run (x : s.Mirrors g) {requests : List Request} (hrun : s.run? requests = some s') :
    ∃ g', s'.Mirrors g' ∧ g'.element = requests.foldl Request.change g.element := by
  refine foldlM_keeps (fun _ => True) (fun s g q s' x _ hstep => ?_) (fun _ _ => trivial) x hrun
  cases hp : q.answer? s.cache with
  | none =>
    rw [step?, hp] at hstep
    cases hstep
  | some p =>
    obtain ⟨s₁, g', hstep', x', hchange, -⟩ := Mirrors.step x hp
    rw [hstep', Option.some_inj] at hstep
    subst hstep
    exact ⟨g', x', hchange⟩

/-! ### What a compiler relies on -/

/-- **The table of places agrees with the bindings**, and no element is bound twice. -/
structure Consistent (s : Stage) : Prop where
  float : ∀ e i, s.cache.place e = .float i ↔ s.cache.floats.guest i = some e
  quad : ∀ e i lane, s.cache.place e = .quad i lane ↔
    ∃ reg, s.cache.quads.guest i = some reg ∧ (quadElements reg)[lane]? = some e
  memory : ∀ e, s.cache.place e = .memory ↔ (∀ i, s.cache.floats.guest i ≠ some e) ∧
    ∀ i reg, s.cache.quads.guest i = some reg → e ∉ quadElements reg
  oneFloat : ∀ i j e, s.cache.floats.guest i = some e → s.cache.floats.guest j = some e → i = j
  oneQuad : ∀ i j reg reg' e, s.cache.quads.guest i = some reg → s.cache.quads.guest j = some reg' →
    e ∈ quadElements reg → e ∈ quadElements reg' → i = j
  oneView : ∀ i j reg e, s.cache.quads.guest i = some reg → e ∈ quadElements reg →
    s.cache.floats.guest j ≠ some e

theorem Mirrors.consistent (x : s.Mirrors g) : s.Consistent where
  float := x.floatPlace
  quad := x.quadPlace
  memory _ := x.place_memory
  oneFloat := x.soundFloats
  oneQuad _ _ _ _ _ := x.quads_disjoint
  oneView _ _ _ _ := x.not_float_of_quad

/-- **What a request does**: it keeps the table in order and changes no value but those that it
writes.  The register that it returns holds the values seen; after everything was written back the
core has all values seen. -/
structure Does (s : Stage) (q : Request) (p : Answer) (s' : Stage) : Prop where
  step : s.step? q = some s'
  consistent : s'.Consistent
  view : s'.view = q.change s.view
  holds : q.Holds s'.host (q.change s.view) p.returned
  saved : q = .flushAll → ∀ e, s'.machine.core.element e = s'.view e

theorem Mirrors.does (x : s.Mirrors g) {q : Request} {p : Answer} (hp : q.answer? s.cache = some p) :
    ∃ s', Does s q p s' := by
  obtain ⟨s', g', hstep, x', hchange, hholds, hsaved⟩ := Mirrors.step x hp
  have hview : s.view = g.element := funext (view_eq x)
  have hview' : s'.view = g'.element := funext (view_eq x')
  refine ⟨s', hstep, Mirrors.consistent x', by rw [hview', hchange, hview], ?_, fun hq e => ?_⟩
  · rw [hview, ← hchange]
    exact hholds
  · rw [hsaved hq, hview']

/-- **The element cache keeps one live copy of every element.**  Take any run of requests from an
empty cache, on any host and machine, in which a host register was found for every request; vector
registers may overlap in any way.  The table of places agrees with the bindings, the values seen are
those of the core at the start with the writes of the requests, and every request that is answered
next does what it should: in particular its words run to their end. -/
theorem one_live_copy {c : ElementCache} {h : HostState} {m : Machine} {requests : List Request}
    {s : Stage} (hrun : (start c h m).run? requests = some s) :
    s.Consistent ∧ s.view = requests.foldl Request.change m.core.element ∧
      ∀ (q : Request) (p : Answer), q.answer? s.cache = some p → ∃ s', Does s q p s' := by
  obtain ⟨g, x, hview⟩ := Mirrors.run (mirrors_start c h m) hrun
  exact ⟨Mirrors.consistent x, (funext (view_eq x)).trans hview, fun q p hp => Mirrors.does x hp⟩

/-- A column is written as a quad and then read through a row that crosses it in one element. -/
theorem one_live_copy_crossing : ∃ s,
    (start .empty .start ⟨Core.start 0, Memory.create 0 0⟩).run?
      [.writeQuad 0 #v[⟨1⟩, ⟨2⟩, ⟨3⟩, ⟨4⟩], .releaseLocks, .bindQuad 0x21, .bindElement 0] = some s ∧
      s.view 32 = ⟨2⟩ := by
  obtain ⟨s, hs⟩ := Option.isSome_iff_exists.mp (show
    ((start .empty .start ⟨Core.start 0, Memory.create 0 0⟩).run?
      [.writeQuad 0 #v[⟨1⟩, ⟨2⟩, ⟨3⟩, ⟨4⟩], .releaseLocks, .bindQuad 0x21,
        .bindElement 0]).isSome = true by decide +kernel)
  have hview := (one_live_copy hs).2.1
  exact ⟨s, hs, (congrFun hview 32).trans (by decide +kernel)⟩

end Stage

end ElementCache

end Dynarec
