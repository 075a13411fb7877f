import Dynarec.Proofs.Recompiler.History
import Dynarec.Proofs.Recompiler.Lockstep

/-!
# Links and the place of the downcount cannot be seen

`Session.log` is all that the outside gets to see of a sequence of actions: what each of them
answers, and the view of the session after it, hits of the cache apart.  A session and one without
links that mirrors it have the same log (`Session.Mirrors.log`), so two sessions do whose options
differ in links and in the place of the downcount alone (`transparent_of_options`).
-/

namespace Dynarec

namespace Session

/-- **What an action answers.** -/
inductive Reply where
  | ran (result : Except Failure RunExit)
  | lowered (result : Except Failure Nat)
  | dropped (n : Nat)
  | loaded (result : Except Failure Unit)
  | done

/-- **An action with its answer**, and the session after it. -/
def answer (s : Session) : Action → Except Violation (Reply × Session)
  | .run => s.run.map fun p => (.ran p.1, p.2)
  | .lower address allowed => (s.lower address allowed).map fun p => (.lowered p.1, p.2)
  | .invalidate start length =>
    (s.recompiler.invalidate start length).map fun p => (.dropped p.1, ⟨p.2, s.machine⟩)
  | .load text => .ok (.loaded (s.load text).1, (s.load text).2)
  | .clear => .ok (.done, s.clear)
  | .store width address value =>
    (s.act (.store width address value)).map fun s' => (.done, s')
  | .storeWords address words => (s.act (.storeWords address words)).map fun s' => (.done, s')
  | .setCore core => .ok (.done, ⟨s.recompiler, ⟨core, s.machine.memory⟩⟩)

/-- The session after an action is that of its answer. -/
theorem act_eq (s : Session) (action : Action) : s.act action = (s.answer action).map Prod.snd := by
  cases action with
  | run =>
    rw [act, answer]
    cases s.run <;> rfl
  | lower address allowed =>
    rw [act, answer]
    cases s.lower address allowed <;> rfl
  | invalidate start length =>
    rw [act, answer]
    cases s.recompiler.invalidate start length <;> rfl
  | store width address value =>
    rw [answer]
    cases s.act (.store width address value) <;> rfl
  | storeWords address words =>
    rw [answer]
    cases s.act (.storeWords address words) <;> rfl
  | clear => rfl
  | load text => rfl
  | setCore core => rfl

/-- **What can be seen of a session**: the guest with its memory and the queue of changed code, the
valid blocks by increasing address, how much code was emitted, what was learned, and the counters
but for hits of the cache. -/
structure View where
  machine : Machine
  /-- Start, end, and whether no modifier is assumed to be pending. -/
  blocks : List (UInt32 × UInt32 × Bool)
  emitted : Nat
  assumesDefault : Bool
  distrusted : List UInt32
  stats : Statistics

/-- **The view of a session.** -/
def view (s : Session) : View where
  machine := s.machine
  blocks := s.recompiler.cache.valid.map fun b => (b.start, b.stop, b.assumesDefault)
  emitted := s.recompiler.cache.code.offset
  assumesDefault := s.recompiler.assumesDefault
  distrusted := s.recompiler.distrusted
  stats := { s.recompiler.stats with cacheHits := 0 }

/-- **The answers of some actions**, one after the other, each with the view after it. -/
def log (s : Session) : List Action → Except Violation (List (Reply × View))
  | [] => .ok []
  | action :: rest => do
    let (reply, s) ← s.answer action
    let later ← s.log rest
    return (reply, s.view) :: later

variable {s t : Session} {options : Options} {r u : Recompiler} {m : Machine}

namespace Mirrors

/-- **Both sides look the same.** -/
theorem view (x : MirroredBy s t) : t.view = s.view := by
  have hblocks := congrArg (List.map fun b : Block => (b.start, b.stop, b.assumesDefault))
    x.cache.alike.valid
  rw [List.map_map, List.map_map] at hblocks
  have hblocks : t.recompiler.cache.valid.map (fun b => (b.start, b.stop, b.assumesDefault)) =
    s.recompiler.cache.valid.map fun b => (b.start, b.stop, b.assumesDefault) := hblocks
  obtain ⟨hits, hstats⟩ := x.stats
  rw [Session.view, Session.view, x.machine, hblocks, x.cache.offset, x.assumes, x.distrusted, hstats]

/-- **What was learned is taken over on both sides.** -/
theorem restore (x : MirroredBy s t) (snapshot : Snapshot) :
    MirroredBy ⟨s.clear.recompiler.restore snapshot, s.clear.machine⟩
      ⟨t.clear.recompiler.restore snapshot, t.clear.machine⟩ := by
  have hclear := x.clear
  obtain ⟨origin, hs⟩ := hclear.sound
  obtain ⟨origin', ht⟩ := hclear.plain
  exact
    { sound := ⟨origin, hs.consistent, hs.stocked, hs.low, hs.watches,
        fun id b hb => absurd hb (BlockCache.not_isValid_clear _ id b)⟩
      plain := ⟨origin', ht.consistent, ht.stocked, ht.low, ht.watches,
        fun id b hb => absurd hb (BlockCache.not_isValid_clear _ id b)⟩
      machine := hclear.machine
      options := hclear.options
      assumes := rfl
      distrusted := rfl
      stats := hclear.stats
      cache := hclear.cache }

/-- **A saved state is loaded on both sides.** -/
theorem load (x : MirroredBy s t) (text : String) :
    (t.load text).1 = (s.load text).1 ∧ MirroredBy (s.load text).2 (t.load text).2 := by
  rw [Session.load, Session.load]
  cases Snapshot.ofText text with
  | error e => exact ⟨rfl, x⟩
  | ok snapshot => exact ⟨rfl, x.restore snapshot⟩

/-- **A store of the outside on both sides.** -/
theorem write (x : MirroredBy s t) {f : Memory → Except Violation Memory}
    (hf : ∃ memory, f s.machine.memory = .ok memory)
    (hstores : ∀ memory, f s.machine.memory = .ok memory → Memory.Stores s.machine.memory memory) :
    ∃ s' t', s.write f = .ok s' ∧ t.write f = .ok t' ∧ MirroredBy s' t' := by
  obtain ⟨r, m⟩ := s
  obtain ⟨u, m'⟩ := t
  obtain rfl : m' = m := x.machine
  obtain ⟨memory, hmemory⟩ := hf
  have hlow : m'.memory.Low := x.low
  have hlow' : (Machine.mk m'.core memory).memory.Low := hlow.of_stores (hstores memory hmemory)
  rw [Session.write, Session.write, hmemory]
  exact ⟨_, _, rfl, rfl, x.withMachine hlow'⟩

/-- **An action answers the same on both sides.** -/
theorem answer (x : MirroredBy s t) (action : Action) :
    ∃ reply s' t', s.answer action = .ok (reply, s') ∧ t.answer action = .ok (reply, t') ∧
      MirroredBy s' t' := by
  have hlow : s.machine.memory.Low := x.low
  cases action with
  | run =>
    obtain ⟨result, s', t', hs, ht, x'⟩ := x.run
    rw [Session.answer, Session.answer, hs, ht]
    exact ⟨_, _, _, rfl, rfl, x'⟩
  | lower address allowed =>
    obtain ⟨result, s', t', hs, ht, x'⟩ := x.lower address allowed
    rw [Session.answer, Session.answer, hs, ht]
    exact ⟨_, _, _, rfl, rfl, x'⟩
  | invalidate start length =>
    obtain ⟨r, m⟩ := s
    obtain ⟨u, m'⟩ := t
    obtain rfl : m' = m := x.machine
    obtain ⟨n, r', u', hr, hu, x', htrims, -⟩ := Mirrors.invalidate x start length
    have x' : MirroredBy ⟨r', m'⟩ ⟨u', m'⟩ := by
      rw [MirroredBy, htrims.space.offset]
      exact x'
    rw [Session.answer, Session.answer]
    dsimp only
    rw [hr, hu]
    exact ⟨_, _, _, rfl, rfl, x'⟩
  | clear => exact ⟨_, _, _, rfl, rfl, x.clear⟩
  | load text =>
    obtain ⟨hreply, x'⟩ := x.load text
    rw [Session.answer, Session.answer, hreply]
    exact ⟨_, _, _, rfl, rfl, x'⟩
  | store width address value =>
    obtain ⟨s', t', hs, ht, x'⟩ := x.write (f := fun memory => width.store memory address value)
      (hlow.width width address value) fun _ => Memory.stores_width
    rw [Session.answer, Session.answer, Session.act, Session.act, hs, ht]
    exact ⟨_, _, _, rfl, rfl, x'⟩
  | storeWords address words =>
    obtain ⟨s', t', hs, ht, x'⟩ := x.write (f := fun memory => memory.writeWords address words)
      (hlow.writeWords address words) fun _ => Memory.stores_writeWords
    rw [Session.answer, Session.answer, Session.act, Session.act, hs, ht]
    exact ⟨_, _, _, rfl, rfl, x'⟩
  | setCore core =>
    obtain ⟨r, m⟩ := s
    obtain ⟨u, m'⟩ := t
    obtain rfl : m' = m := x.machine
    have hlow' : (Machine.mk core m'.memory).memory.Low := hlow
    exact ⟨_, _, _, rfl, rfl, x.withMachine hlow'⟩

/-- **Both sides have the same log.** -/
theorem log (x : MirroredBy s t) (actions : List Action) :
    ∃ log, s.log actions = .ok log ∧ t.log actions = .ok log ∧ log.length = actions.length := by
  induction actions generalizing s t with
  | nil => exact ⟨[], rfl, rfl, rfl⟩
  | cons action rest ih =>
    obtain ⟨reply, s', t', hs, ht, x'⟩ := x.answer action
    obtain ⟨later, hlater, hlater', hlength⟩ := ih x'
    refine ⟨(reply, s'.view) :: later, ?_, ?_, congrArg Nat.succ hlength⟩
    · rw [Session.log, hs]
      dsimp only [bind, Except.bind]
      rw [hlater]
      rfl
    · rw [Session.log, ht]
      dsimp only [bind, Except.bind]
      rw [hlater', x'.view]
      rfl

end Mirrors

/-- **A new session is mirrored** by the new one with the plain options. -/
theorem mirrored_create (hsize : options.Addressable) (hr : Recompiler.create options = .ok r)
    (hlow : m.memory.Low) :
    ∃ u, Recompiler.create options.plain = .ok u ∧ MirroredBy ⟨r, m⟩ ⟨u, m⟩ := by
  obtain ⟨u, hu⟩ : ∃ u, Recompiler.create options.plain = .ok u := by
    rw [Recompiler.create] at hr ⊢
    have hsame : options.plain.codeSpaceSize = options.codeSpaceSize := rfl
    rw [hsame]
    cases hcode : CodeSpace.create? options.codeSpaceSize with
    | none =>
      rw [hcode] at hr
      cases hr
    | some code => exact ⟨_, rfl⟩
  refine ⟨u, hu, ?_⟩
  have hs : SoundBy (fun _ => m.memory) none ⟨r, m⟩ := (sound_new hr hsize hlow (by simp) _).1
  have ht : SoundBy (fun _ => m.memory) none ⟨u, m⟩ := (sound_new hu hsize hlow (by simp) _).1
  rw [Recompiler.create] at hr hu
  have hsame : options.plain.codeSpaceSize = options.codeSpaceSize := rfl
  rw [hsame] at hu
  cases hcode : CodeSpace.create? options.codeSpaceSize with
  | none =>
    rw [hcode] at hr
    cases hr
  | some code =>
    rw [hcode] at hr hu
    cases hr
    cases hu
    exact
      { sound := ⟨_, hs⟩
        plain := ⟨_, ht⟩
        machine := rfl
        options := rfl
        assumes := rfl
        distrusted := rfl
        stats := ⟨0, rfl⟩
        cache :=
          { alike := ⟨rfl, fun _ => rfl⟩
            offset := rfl
            capacity := rfl
            pieces := fun id b _ hb => by
              have hblock := hb.1
              rw [show (BlockCache.empty options.linkBlocks code).blocks = #[] from rfl,
                Array.getElem?_empty] at hblock
              cases hblock } }

end Session

open Session in
/-- **Links and the place of the downcount cannot be seen.**  Two recompilers whose options differ
in them alone, each with the same machine in front of it, answer the same to every sequence of
actions: runs, making, dropping and clearing blocks, loading, stores, and changes of the core.
After every action the guest, its memory, the queue, the valid blocks, the size of the code and the
counters are the same, hits of the cache apart. -/
theorem transparent_of_options {options : Options} (hsize : options.Addressable) {r : Recompiler}
    (hr : Recompiler.create options = .ok r) {m : Machine} (hlow : m.memory.Low)
    (links register : Bool) :
    ∃ r', Recompiler.create { options with linkBlocks := links, downcountInRegister := register } =
        .ok r' ∧
      ∀ actions : List Action, ∃ log, Session.log ⟨r, m⟩ actions = .ok log ∧
        Session.log ⟨r', m⟩ actions = .ok log ∧ log.length = actions.length := by
  obtain ⟨u, hu, x⟩ := mirrored_create hsize hr hlow
  obtain ⟨r', hr'⟩ : ∃ r', Recompiler.create
      { options with linkBlocks := links, downcountInRegister := register } = .ok r' := by
    rw [Recompiler.create] at hr ⊢
    dsimp only at hr ⊢
    cases hcode : CodeSpace.create? options.codeSpaceSize with
    | none =>
      rw [hcode] at hr
      cases hr
    | some code => exact ⟨_, rfl⟩
  have hsize' : Options.Addressable
      { options with linkBlocks := links, downcountInRegister := register } := hsize
  obtain ⟨u', hu', x'⟩ := mirrored_create hsize' hr' hlow
  have heq : u' = u := Except.ok.inj (hu'.symm.trans hu)
  rw [heq] at x'
  refine ⟨r', hr', fun actions => ?_⟩
  obtain ⟨log, hleft, hmiddle, hlength⟩ := x.log actions
  obtain ⟨log', hright, hmiddle', -⟩ := x'.log actions
  rw [hmiddle, Except.ok.injEq] at hmiddle'
  exact ⟨log, hleft, hmiddle' ▸ hright, hlength⟩

open Session in
/-- A block that jumps to itself is run with ten cycles left, with links and without. -/
theorem transparent_least :
    Recompiler.create leastSpace = .ok leastRecompiler ∧
    ∃ r', Recompiler.create { leastSpace with linkBlocks := false, downcountInRegister := true } =
        .ok r' ∧
      ∃ log, Session.log ⟨leastRecompiler, leastMachine⟩
          [.storeWords 0x1000 [0x08000400, 0], .setCore { leastMachine.core with downcount := 10 },
            .run] = .ok log ∧
        Session.log ⟨r', leastMachine⟩
          [.storeWords 0x1000 [0x08000400, 0], .setCore { leastMachine.core with downcount := 10 },
            .run] = .ok log ∧ log.length = 3 := by
  have hcreate : Recompiler.create leastSpace = .ok leastRecompiler := rfl
  have horderly : leastMachine.memory.Orderly := Memory.orderly_create (by decide)
  obtain ⟨r', hr', hlog⟩ := transparent_of_options (by decide) hcreate horderly.low false true
  exact ⟨hcreate, r', hr', hlog _⟩

end Dynarec
