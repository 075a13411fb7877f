import Dynarec.Proofs.Lower.EmittedWords

/-!
# Runs of the scalar cache

The compiler uses the scalar cache by requests (`ScalarCache.Request`), and what a request emits is
run right away here: a `Stage` is a cache together with the host and the machine on which its words
were run.  What counts is the value that the program sees in a guest register, which is that of its
host register if it is bound, and that of the core else (`Stage.view`).

One request keeps `Stage.Mirrors`: the cache shadows a core that has the values seen, the zero
register is never dirty, and host registers that were handed out are kept.  By induction on the
requests every run from an empty cache keeps it, and `Stage.run_faithful` reads off what a compiler
relies on: no value is lost or invented, whatever is evicted on the way.
-/

namespace Dynarec

namespace ScalarCache

variable {c : ScalarCache} {h : HostState} {core g : Core} {M : Memory}

/-! ### The zero register is never dirty -/

/-- Only registers that can be written are dirty. -/
def ZeroClean (c : ScalarCache) : Prop :=
  ∀ i r, c.arena.guest i = some r → c.arena.isDirty i = true → r.isZero = false

/-- No operation stores to the zero register. -/
def NoZeroStore (ops : List Operation) : Prop :=
  ∀ x r, Operation.storeGuest x r ∈ ops → r.isZero = false

theorem noZeroStore_nil : NoZeroStore [] := fun _ _ hmem => absurd hmem List.not_mem_nil

theorem NoZeroStore.append {xs ys : List Operation} (hx : NoZeroStore xs) (hy : NoZeroStore ys) :
    NoZeroStore (xs ++ ys) :=
  fun x r hmem => (List.mem_append.mp hmem).elim (hx x r) (hy x r)

theorem ZeroClean.noZeroStore_saveCode (z : c.ZeroClean) (i : Fin 13) :
    NoZeroStore (c.saveCode i) := by
  intro x r hmem
  rw [saveCode] at hmem
  cases hheld : c.arena.held? i with
  | none =>
    rw [hheld] at hmem
    cases hmem
  | some p =>
    obtain ⟨r', d⟩ := p
    obtain ⟨hg, hd⟩ := SlotArena.held?_eq_some_iff.mp hheld
    rw [hheld] at hmem
    cases d with
    | false => cases hmem
    | true =>
      rw [List.mem_singleton] at hmem
      cases hmem
      exact z i _ hg hd

theorem ZeroClean.noZeroStore_flushAll (z : c.ZeroClean) : NoZeroStore c.flushAll.1 := by
  intro x r hmem
  obtain ⟨⟨i, r'⟩, hp, heq⟩ := List.mem_map.mp hmem
  cases heq
  obtain ⟨hg, hd⟩ := SlotArena.mem_dirtyBindings_iff.mp hp
  exact z i _ hg hd

theorem noZeroStore_loadCode (i : Fin 13) (r : GuestReg) : NoZeroStore (loadCode i r) := by
  intro x r' hmem
  rw [loadCode] at hmem
  split at hmem <;> cases List.mem_singleton.mp hmem

/-- A slot that is dirty was dirty with the same register. -/
theorem ZeroClean.of_dirty {c' : ScalarCache} (z : c.ZeroClean)
    (hdirty : ∀ i r, c'.arena.guest i = some r → c'.arena.isDirty i = true →
      c.arena.guest i = some r ∧ c.arena.isDirty i = true ∨ r.isZero = false) : c'.ZeroClean := by
  intro i r hg hd
  rcases hdirty i r hg hd with ⟨hg', hd'⟩ | hz
  · exact z i r hg' hd'
  · exact hz

theorem ZeroClean.reuse (z : c.ZeroClean) (i : Fin 13) : (c.reuse i).ZeroClean :=
  z.of_dirty fun j r hg hd => .inl (by simpa [ScalarCache.reuse] using And.intro hg hd)

/-- Marking the slot of a register that can be written. -/
theorem ZeroClean.setDirty (z : c.ZeroClean) {i : Fin 13} {r : GuestReg}
    (hi : c.arena.guest i = some r) (hz : r.isZero = false) :
    (ScalarCache.mk (c.arena.setDirty i true)).ZeroClean := by
  refine z.of_dirty fun j r' hg hd => ?_
  rw [SlotArena.guest_setDirty] at hg
  rw [SlotArena.isDirty_setDirty] at hd
  by_cases hij : i = j
  · subst hij
    rw [hi] at hg
    cases hg
    exact .inr hz
  · rw [if_neg hij] at hd
    exact .inl ⟨hg, hd⟩

theorem ZeroClean.setClean (z : c.ZeroClean) (i : Fin 13) :
    (ScalarCache.mk (c.arena.setDirty i false)).ZeroClean := by
  refine z.of_dirty fun j r hg hd => .inl ?_
  rw [SlotArena.guest_setDirty] at hg
  rw [SlotArena.isDirty_setDirty] at hd
  by_cases hij : i = j
  · rw [if_pos hij] at hd
    cases hd
  · rw [if_neg hij] at hd
    exact ⟨hg, hd⟩

theorem ZeroClean.allocate (z : c.ZeroClean) (i : Fin 13) (r : GuestReg) :
    (ScalarCache.mk ((c.arena.clear i).assign i r)).ZeroClean := by
  refine z.of_dirty fun j r' hg hd => .inl ?_
  rw [SlotArena.isDirty_assign, SlotArena.isDirty_clear] at hd
  rw [SlotArena.guest_assign, SlotArena.guest_clear] at hg
  by_cases hij : i = j
  · rw [if_pos hij] at hd
    cases hd
  · rw [if_neg hij, if_neg hij] at hd hg
    exact ⟨hg, hd⟩

theorem ZeroClean.flushAll (z : c.ZeroClean) : c.flushAll.2.ZeroClean :=
  z.of_dirty fun i r _ hd => by
    rw [ScalarCache.flushAll, SlotArena.isDirty_markClean] at hd
    cases hd

theorem ZeroClean.releaseLocks (z : c.ZeroClean) : c.releaseLocks.ZeroClean :=
  z.of_dirty fun i r hg hd => .inl (by simpa [ScalarCache.releaseLocks] using And.intro hg hd)

theorem zeroClean_discardAll : c.discardAll.ZeroClean := by
  intro i r hg
  rw [discardAll, SlotArena.guest_clearAll] at hg
  cases hg

theorem ZeroClean.bind (z : c.ZeroClean) {r : GuestReg} {p : Placed HostReg ScalarCache}
    (hp : c.bind? r = some p) : p.cache.ZeroClean ∧ NoZeroStore p.code := by
  rw [bind?] at hp
  cases hf : c.arena.find? r with
  | some i =>
    rw [hf] at hp
    cases hp
    exact ⟨z.reuse i, noZeroStore_nil⟩
  | none =>
    rw [hf] at hp
    simp only [allocate?, Option.map_map, Option.map_eq_some_iff] at hp
    obtain ⟨i, -, rfl⟩ := hp
    exact ⟨z.allocate i r, (z.noZeroStore_saveCode i).append (noZeroStore_loadCode i r)⟩

theorem ZeroClean.bindForWrite (z : c.ZeroClean) {r : GuestReg} (hz : r.isZero = false)
    {p : Placed HostReg ScalarCache} (hp : c.bindForWrite? r = some p) :
    p.cache.ZeroClean ∧ NoZeroStore p.code := by
  rw [bindForWrite?] at hp
  cases hf : c.arena.find? r with
  | some i =>
    rw [hf] at hp
    cases hp
    have hi : (c.reuse i).arena.guest i = some r := by
      rw [ScalarCache.reuse, SlotArena.guest_lock, SlotArena.guest_touch, SlotArena.guest_of_find? hf]
    exact ⟨(z.reuse i).setDirty hi hz, noZeroStore_nil⟩
  | none =>
    rw [hf] at hp
    simp only [allocate?, Option.map_map, Option.map_eq_some_iff] at hp
    obtain ⟨i, -, rfl⟩ := hp
    have hi : ((c.arena.clear i).assign i r).guest i = some r := by
      rw [SlotArena.guest_assign, if_pos rfl]
    exact ⟨(z.allocate i r).setDirty hi hz, z.noZeroStore_saveCode i⟩

theorem ZeroClean.markDirty (z : c.ZeroClean) (r : GuestReg) : (c.markDirty r).ZeroClean := by
  rw [ScalarCache.markDirty]
  cases hz : r.isZero with
  | true => exact z
  | false =>
    cases hf : c.arena.find? r with
    | none => exact z
    | some i => exact z.setDirty (SlotArena.guest_of_find? hf) hz

/-! ### Writing one register back -/

/-- **A register that is written back stays bound.** -/
theorem Shadows.flush (x : c.Shadows h core g) (r : GuestReg) :
    ∃ core', Host.runOps (c.flush r).1 h ⟨core, M⟩ = .next h ⟨core', M⟩ ∧
      (c.flush r).2.Shadows h core' g := by
  rw [ScalarCache.flush]
  cases c.arena.find? r with
  | none => exact ⟨core, rfl, x⟩
  | some i =>
    obtain ⟨core', hrun, -, hs⟩ := x.save (M := M) i
    exact ⟨core', hrun, hs⟩

theorem ZeroClean.flush (z : c.ZeroClean) (r : GuestReg) :
    (c.flush r).2.ZeroClean ∧ NoZeroStore (c.flush r).1 := by
  rw [ScalarCache.flush]
  cases c.arena.find? r with
  | none => exact ⟨z, noZeroStore_nil⟩
  | some i => exact ⟨z.setClean i, z.noZeroStore_saveCode i⟩

theorem Holds.flush {r : GuestReg} {a : HostReg} (x : c.Holds r a) (r' : GuestReg) :
    (c.flush r').2.Holds r a := by
  obtain ⟨i, hi, hl, rfl⟩ := x
  rw [ScalarCache.flush]
  cases c.arena.find? r' with
  | none => exact ⟨i, hi, hl, rfl⟩
  | some j => exact ⟨i, by simpa using hi, by simpa using hl, rfl⟩

theorem Holds.flushAll {r : GuestReg} {a : HostReg} (x : c.Holds r a) : c.flushAll.2.Holds r a := by
  obtain ⟨i, hi, hl, rfl⟩ := x
  exact ⟨i, by simpa [ScalarCache.flushAll] using hi, by simpa [ScalarCache.flushAll] using hl, rfl⟩

theorem allInline_flush (r : GuestReg) : AllInline (c.flush r).1 := by
  rw [flush]
  cases c.arena.find? r with
  | none => exact .nil
  | some i => exact c.allInline_saveCode i

/-! ### Requests -/

/-- **A request to the cache.**  Whoever binds a register in order to write it does so at once. -/
inductive Request where
  | bind (r : GuestReg)
  /-- Bind without loading, and write `value`. -/
  | write (r : GuestReg) (value : UInt32)
  /-- Bind, write a function of what the host register holds, and mark the register. -/
  | update (r : GuestReg) (f : UInt32 → UInt32)
  | flush (r : GuestReg)
  | flushAll
  | releaseLocks

/-- What the cache answers: the host register that it returns, if any, for a guest register. -/
structure Answer where
  returned : Option (GuestReg × HostReg)
  code : List Operation
  cache : ScalarCache

/-- The words to emit. -/
def Answer.words (p : Answer) : List HostWord := p.code.map Operation.encode

namespace Request

/-- The zero register is never written. -/
def Legal : Request → Prop
  | write r _ | update r _ => r.isZero = false
  | _ => True

/-- The answer, if a host register is found. -/
def answer? (c : ScalarCache) : Request → Option Answer
  | bind r => (c.bind? r).map fun p => ⟨some (r, p.reg), p.code, p.cache⟩
  | write r _ => (c.bindForWrite? r).map fun p => ⟨some (r, p.reg), p.code, p.cache⟩
  | update r _ => (c.bind? r).map fun p => ⟨some (r, p.reg), p.code, p.cache.markDirty r⟩
  | flush r => some ⟨none, (c.flush r).1, (c.flush r).2⟩
  | flushAll => some ⟨none, c.flushAll.1, c.flushAll.2⟩
  | releaseLocks => some ⟨none, [], c.releaseLocks⟩

/-- The write that follows the code. -/
def writeTo (h : HostState) : Request → Option (GuestReg × HostReg) → HostState
  | write _ value, some (_, a) => h.set a value
  | update _ f, some (_, a) => h.set a (f (h.get a))
  | _, _ => h

/-- **What the request makes of the values seen**: only a write changes one. -/
def change (view : GuestReg → UInt32) : Request → GuestReg → UInt32
  | write r value => fun r' => if r = r' then value else view r'
  | update r f => fun r' => if r = r' then f (view r) else view r'
  | _ => view

/-- Host registers stay handed out until locks are released. -/
def keeps : Request → Bool
  | releaseLocks => false
  | _ => true

end Request

/-- **A cache together with what its code was run on.** -/
structure Stage where
  cache : ScalarCache
  host : HostState
  machine : Machine
  /-- The host registers returned since locks were last released. -/
  handed : List (GuestReg × HostReg)
  /-- The words emitted so far. -/
  words : List HostWord

namespace Stage

/-- The start of a block. -/
def start (c : ScalarCache) (h : HostState) (m : Machine) : Stage := ⟨c.discardAll, h, m, [], []⟩

/-- The value seen in a guest register. -/
def view (s : Stage) (r : GuestReg) : UInt32 :=
  match s.cache.location? r with
  | some a => s.host.get a
  | none => s.machine.core.reg r

/-- **One request**, with its words run and its write done.  There is no next stage if no host
register is found, or if the words do not run to their end. -/
def step? (s : Stage) (q : Request) : Option Stage := do
  let p ← q.answer? s.cache
  let (h, m) ← Host.runWords? p.words s.host s.machine
  some
    { cache := p.cache
      host := q.writeTo h p.returned
      machine := m
      handed := p.returned.toList ++ if q.keeps then s.handed else []
      words := s.words ++ p.words }

/-- Several requests. -/
def run? (s : Stage) (requests : List Request) : Option Stage := requests.foldlM step? s

end Stage

/-! ### One request -/

/-- **An answer that was run.**  The host and the core are those behind the code and the write, and
the values seen are those of `g'`. -/
structure Served (c : ScalarCache) (h : HostState) (core g : Core) (M : Memory) (q : Request)
    (p : Answer) (h' : HostState) (core' g' : Core) : Prop where
  run : Host.runOps p.code h ⟨core, M⟩ = .next h' ⟨core', M⟩
  shadows : p.cache.Shadows (q.writeTo h' p.returned) core' g'
  change : ∀ r, g'.reg r = q.change g.reg r
  returned : ∀ r a, p.returned = some (r, a) → p.cache.Holds r a
  keeps : q.keeps = true → ∀ r a, c.Holds r a → p.cache.Holds r a
  saved : q = .flushAll → ∀ r, core'.reg r = g'.reg r

/-- **Every answer can be run.** -/
theorem Shadows.served (x : c.Shadows h core g) {q : Request} (hlegal : q.Legal) {p : Answer}
    (hp : q.answer? c = some p) : ∃ h' core' g', Served c h core g M q p h' core' g' := by
  cases q with
  | bind r =>
    obtain ⟨b, hb, rfl⟩ := Option.map_eq_some_iff.mp hp
    obtain ⟨h', core', hrun, hs, hholds, hkeeps, -, -⟩ := x.bind (M := M) hb
    refine ⟨h', core', g, hrun, hs, fun _ => rfl, fun r' a heq => ?_,
      fun _ r' a hr => (hr.keep hkeeps).1, nofun⟩
    cases heq
    exact hholds
  | write r value =>
    obtain ⟨b, hb, rfl⟩ := Option.map_eq_some_iff.mp hp
    obtain ⟨core', hrun, ⟨howns, hs⟩, hkeeps, -⟩ := x.bindForWrite (M := M) hlegal hb
    refine ⟨h, core', g.setReg r value, hrun, hs value, Core.reg_setReg g hlegal value,
      fun r' a heq => ?_, fun _ r' a hr => (hr.keep hkeeps).1, nofun⟩
    cases heq
    exact howns.holds
  | update r f =>
    obtain ⟨b, hb, rfl⟩ := Option.map_eq_some_iff.mp hp
    obtain ⟨h', core', hrun, hs, hholds, hkeeps, -, -⟩ := x.bind (M := M) hb
    refine ⟨h', core', g.setReg r (f (h'.get b.reg)), hrun, hs.markDirty hholds hlegal _, fun r' => ?_,
      fun r' a heq => ?_, fun _ r' a hr => holds_markDirty (hr.keep hkeeps).1, nofun⟩
    · rw [Core.reg_setReg g hlegal, hholds.get hs]
      rfl
    · cases heq
      exact holds_markDirty hholds
  | flush r =>
    cases hp
    obtain ⟨core', hrun, hs⟩ := x.flush (M := M) r
    exact ⟨h, core', g, hrun, hs, fun _ => rfl, nofun, fun _ r' a hr => hr.flush r, nofun⟩
  | flushAll =>
    cases hp
    obtain ⟨core', hrun, -, hreg, hs⟩ := x.flushAll (M := M)
    exact ⟨h, core', g, hrun, hs, fun _ => rfl, nofun, fun _ r' a hr => hr.flushAll, fun _ => hreg⟩
  | releaseLocks =>
    cases hp
    exact ⟨h, core, g, rfl, x.releaseLocks, fun _ => rfl, nofun, nofun, nofun⟩

theorem allInline_answer? {q : Request} {p : Answer} (hp : q.answer? c = some p) :
    AllInline p.code := by
  cases q with
  | bind r =>
    obtain ⟨b, hb, rfl⟩ := Option.map_eq_some_iff.mp hp
    exact allInline_bind? hb
  | write r value =>
    obtain ⟨b, hb, rfl⟩ := Option.map_eq_some_iff.mp hp
    exact allInline_bindForWrite? hb
  | update r f =>
    obtain ⟨b, hb, rfl⟩ := Option.map_eq_some_iff.mp hp
    exact allInline_bind? hb
  | flush r =>
    cases hp
    exact allInline_flush r
  | flushAll =>
    cases hp
    exact allInline_flushAll
  | releaseLocks =>
    cases hp
    exact .nil

theorem ZeroClean.answer (z : c.ZeroClean) {q : Request} (hlegal : q.Legal) {p : Answer}
    (hp : q.answer? c = some p) : p.cache.ZeroClean ∧ NoZeroStore p.code := by
  cases q with
  | bind r =>
    obtain ⟨b, hb, rfl⟩ := Option.map_eq_some_iff.mp hp
    exact z.bind hb
  | write r value =>
    obtain ⟨b, hb, rfl⟩ := Option.map_eq_some_iff.mp hp
    exact z.bindForWrite hlegal hb
  | update r f =>
    obtain ⟨b, hb, rfl⟩ := Option.map_eq_some_iff.mp hp
    exact ⟨(z.bind hb).1.markDirty r, (z.bind hb).2⟩
  | flush r =>
    cases hp
    exact z.flush r
  | flushAll =>
    cases hp
    exact ⟨z.flushAll, z.noZeroStore_flushAll⟩
  | releaseLocks =>
    cases hp
    exact ⟨z.releaseLocks, noZeroStore_nil⟩

namespace Stage

variable {s s' : Stage}

/-- **The stage shows the registers of `g`.** -/
structure Mirrors (s : Stage) (g : Core) : Prop where
  shadows : s.cache.Shadows s.host s.machine.core g
  zeroClean : s.cache.ZeroClean
  handed : ∀ r a, (r, a) ∈ s.handed → s.cache.Holds r a
  stores : ∀ w ∈ s.words, ∀ a r, Operation.decode? w = some (.storeGuest a r) → r.isZero = false

theorem mirrors_start (c : ScalarCache) (h : HostState) (m : Machine) :
    (start c h m).Mirrors m.core :=
  ⟨shadows_discardAll fun _ => rfl, zeroClean_discardAll, nofun, nofun⟩

theorem Mirrors.view_eq (x : s.Mirrors g) (r : GuestReg) : s.view r = g.reg r := by
  rw [view, location?]
  cases hf : s.cache.arena.find? r with
  | some i => exact x.shadows.bound i r (SlotArena.guest_of_find? hf)
  | none => exact x.shadows.saved r fun i hi => absurd hi (SlotArena.find?_eq_none_iff.mp hf i)

/-- **A request keeps the mirror**, and the values seen change as it says. -/
theorem Mirrors.step (x : s.Mirrors g) {q : Request} (hlegal : q.Legal) {p : Answer}
    (hp : q.answer? s.cache = some p) :
    ∃ s' g', s.step? q = some s' ∧ s'.Mirrors g' ∧ (∀ r, g'.reg r = q.change g.reg r) ∧
      s'.cache = p.cache ∧ s'.handed = p.returned.toList ++ (if q.keeps then s.handed else []) ∧
      (q = .flushAll → ∀ r, s'.machine.core.reg r = g'.reg r) := by
  obtain ⟨h', core', g', hserved⟩ := x.shadows.served (M := s.machine.memory) hlegal hp
  obtain ⟨hzero, hstore⟩ := x.zeroClean.answer hlegal hp
  have hinline := allInline_answer? hp
  have hwords : Host.runWords? p.words s.host s.machine =
      some (h', ⟨core', s.machine.memory⟩) := hinline.runWords?_eq hserved.run
  refine ⟨⟨p.cache, q.writeTo h' p.returned, ⟨core', s.machine.memory⟩,
      p.returned.toList ++ if q.keeps then s.handed else [],
      s.words ++ p.words⟩,
    g', ?_, ⟨hserved.shadows, hzero, fun r a hmem => ?_, fun w hw a r hdecode => ?_⟩,
    hserved.change, rfl, rfl, hserved.saved⟩
  · rw [step?, hp, Option.bind_eq_bind, Option.bind_some, hwords]
    rfl
  · rcases List.mem_append.mp hmem with hmem | hmem
    · exact hserved.returned r a (Option.mem_toList.mp hmem)
    · cases hkeeps : q.keeps with
      | true =>
        rw [hkeeps, if_pos rfl] at hmem
        exact hserved.keeps hkeeps r a (x.handed r a hmem)
      | false =>
        rw [hkeeps] at hmem
        cases hmem
  · rcases List.mem_append.mp hw with hw | hw
    · exact x.stores w hw a r hdecode
    · obtain ⟨op, hop, hop'⟩ := hinline.decode?_mem hw
      rw [hop', Option.some_inj] at hdecode
      exact hstore a r (hdecode ▸ hop)

/-- **The run keeps the mirror**, and the values seen change as the requests say. -/
theorem Mirrors.run (x : s.Mirrors g) {requests : List Request}
    (hlegal : ∀ q ∈ requests, q.Legal) (hrun : s.run? requests = some s') :
    ∃ g', s'.Mirrors g' ∧ g'.reg = requests.foldl Request.change g.reg := by
  refine foldlM_keeps Request.Legal (fun s g q s' x hq hstep => ?_) hlegal x hrun
  cases hp : q.answer? s.cache with
  | none =>
    rw [step?, hp] at hstep
    cases hstep
  | some p =>
    obtain ⟨s₁, g', hstep', x', hchange, -⟩ := x.step hq hp
    rw [hstep', Option.some_inj] at hstep
    subst hstep
    exact ⟨g', x', funext hchange⟩

/-! ### What a compiler relies on -/

/-- **The bindings are in order.** -/
structure Consistent (s : Stage) : Prop where
  /-- A guest register is bound to at most one host register. -/
  oneHost : ∀ i j r, s.cache.arena.guest i = some r → s.cache.arena.guest j = some r → i = j
  /-- A host register is bound to at most one guest register. -/
  oneGuest : ∀ r r' a, s.cache.location? r = some a → s.cache.location? r' = some a → r = r'
  /-- A binding that is not dirty holds what the core holds. -/
  clean : ∀ i r, s.cache.arena.guest i = some r → s.cache.arena.isDirty i = false →
    s.host.get (hostReg i) = s.machine.core.reg r
  /-- A host register that was handed out is still bound to the register that it was returned for. -/
  handed : ∀ r a, (r, a) ∈ s.handed → s.cache.location? r = some a
  /-- No emitted word stores to the zero register. -/
  stores : ∀ w ∈ s.words, ∀ a r, Operation.decode? w = some (.storeGuest a r) → r.isZero = false

theorem location?_inj {r r' : GuestReg} {a : HostReg} (hr : c.location? r = some a)
    (hr' : c.location? r' = some a) : r = r' := by
  obtain ⟨i, hi, rfl⟩ := Option.map_eq_some_iff.mp hr
  obtain ⟨j, hj, heq⟩ := Option.map_eq_some_iff.mp hr'
  have hji := hostReg_inj heq
  subst hji
  have hg := (SlotArena.guest_of_find? hi).symm.trans (SlotArena.guest_of_find? hj)
  exact Option.some_inj.mp hg

theorem Mirrors.consistent (x : s.Mirrors g) : s.Consistent where
  oneHost := x.shadows.sound
  oneGuest _ _ _ := location?_inj
  clean i r hi hd := by
    rw [x.shadows.bound i r hi, x.shadows.saved r]
    intro j hj
    rw [x.shadows.sound j i r hj hi, hd]
  handed r a hmem := by
    obtain ⟨i, hi, -, rfl⟩ := x.handed r a hmem
    rw [location?, x.shadows.sound.find?_eq_some_iff.mpr hi, Option.map_some]
  stores := x.stores

/-- **What a request does**: it keeps the bindings in order and changes no value but the one that it
writes.  The host register that it returns is handed out together with those before, and holds the
value seen; after everything was written back the core has all values seen. -/
structure Does (s : Stage) (q : Request) (p : Answer) (s' : Stage) : Prop where
  step : s.step? q = some s'
  consistent : s'.Consistent
  view : ∀ r, s'.view r = q.change s.view r
  returned : ∀ r a, p.returned = some (r, a) →
    (r, a) ∈ s'.handed ∧ s'.host.get a = q.change s.view r
  kept : q.keeps = true → ∀ b ∈ s.handed, b ∈ s'.handed
  saved : q = .flushAll → ∀ r, s'.machine.core.reg r = s'.view r

theorem Mirrors.does (x : s.Mirrors g) {q : Request} (hlegal : q.Legal) {p : Answer}
    (hp : q.answer? s.cache = some p) : ∃ s', Does s q p s' := by
  obtain ⟨s', g', hstep, x', hchange, hcache, hhanded, hsaved⟩ := x.step hlegal hp
  have hview : ∀ r, s'.view r = q.change s.view r := fun r => by
    rw [x'.view_eq, hchange, show s.view = g.reg from funext x.view_eq]
  refine ⟨s', hstep, x'.consistent, hview, fun r a hreturned => ?_, fun hkeeps b hb => ?_,
    fun hq r => ?_⟩
  · have hmem : (r, a) ∈ s'.handed := by
      rw [hhanded, hreturned]
      exact List.mem_append_left _ (List.mem_singleton_self _)
    refine ⟨hmem, ?_⟩
    rw [← hview, view, x'.consistent.handed r a hmem]
  · rw [hhanded, hkeeps]
    exact List.mem_append_right _ hb
  · rw [hsaved hq, x'.view_eq]

/-- **The scalar cache never loses or invents a value.**  Take any run of requests from an empty
cache, on any host and machine, in which a host register was found for every request.  The bindings
are in order, the values seen are those of the core at the start with the writes of the requests,
and every request that is answered next does what it should: in particular its words run to their end. -/
theorem run_faithful {c : ScalarCache} {h : HostState} {m : Machine} {requests : List Request}
    {s : Stage} (hlegal : ∀ q ∈ requests, q.Legal) (hrun : (start c h m).run? requests = some s) :
    s.Consistent ∧
      (∀ r, s.view r = requests.foldl Request.change m.core.reg r) ∧
      ∀ q : Request, q.Legal → ∀ p, q.answer? s.cache = some p → ∃ s', Does s q p s' := by
  obtain ⟨g, x, hview⟩ := (mirrors_start c h m).run hlegal hrun
  exact ⟨x.consistent, fun r => (x.view_eq r).trans (congrFun hview r), fun q hq p hp => x.does hq hp⟩

/-- A register is written and another one updated; the first keeps its value while it is written
back and bound again. -/
theorem run_faithful_written : ∃ s,
    (start .empty .start ⟨Core.start 0, Memory.create 0 0⟩).run?
      [.write (.gpr 4) 7, .update .hi (· + 1), .flushAll, .releaseLocks, .bind (.gpr 4)] = some s ∧
      s.view (.gpr 4) = 7 ∧ s.view .hi = 1 := by
  obtain ⟨s, hs⟩ := Option.isSome_iff_exists.mp (show
    ((start .empty .start ⟨Core.start 0, Memory.create 0 0⟩).run?
      [.write (.gpr 4) 7, .update .hi (· + 1), .flushAll, .releaseLocks,
        .bind (.gpr 4)]).isSome = true by decide +kernel)
  have hview := (run_faithful (by simp [Request.Legal, GuestReg.isZero]) hs).2.1
  exact ⟨s, hs, hview _, hview _⟩

end Stage

end ScalarCache

end Dynarec
