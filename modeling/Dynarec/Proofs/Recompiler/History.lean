import Dynarec.Proofs.Recompiler.Turns

/-!
# Histories of a session

Whatever the outside does and whatever runs do, seen turn by turn, a session stays sound
(`Session.History.sound`).  With a history comes the memory that each block was compiled from.  A
run is made of such turns (`Session.goesOn_turns`), so all that is reached by actions has a history.
-/

namespace Dynarec

/-- **Every word of the code space has a 32-bit offset**, since that is all that the operand of a
jump has room for.  A code space that is not addressable has more than 2^32 words, which are 32 GiB;
nothing else is left out. -/
def Options.Addressable (options : Options) : Prop :=
  options.codeSpaceSize / HostWord.byteSize ≤ 2 ^ 32

instance (options : Options) : Decidable options.Addressable :=
  inferInstanceAs (Decidable (_ ≤ _))

namespace Session

variable {origin : Nat → Memory} {seen : Option (Nat → Memory)} {s s' : Session}

/-! ### Actions -/

/-- **A new session is sound**, with memories watched if the queue and the marks are in order. -/
theorem sound_new {options : Options} {r : Recompiler} (hr : Recompiler.create options = .ok r)
    (hsize : options.Addressable) {m : Machine} (hlow : m.memory.Low)
    (hm : ∀ recorded ∈ seen, m.memory.Orderly) (origin : Nat → Memory) :
    SoundBy origin seen ⟨r, m⟩ ∧ r.options = options := by
  rw [Recompiler.create] at hr
  split at hr
  · cases hr
  · rename_i code hcode
    cases hr
    rw [CodeSpace.create?] at hcode
    split at hcode
    · cases hcode
    · cases hcode
      have hnone : ∀ (id : Nat) (b : Block), ¬ (#[] : Array Block)[id]? = some b := fun id b hb => by
        rw [Array.getElem?_empty] at hb
        cases hb
      refine ⟨⟨BlockCache.Consistent.empty _ _, ⟨⟨fun id b hb => absurd hb (hnone id b),
        fun id b _ _ hb => absurd hb (hnone id b), fun r e he => ?_⟩, ⟨rfl, rfl, rfl⟩, le_rfl,
        Nat.zero_le _, hsize, rfl, fun id b hb => absurd hb.1 (hnone id b)⟩, hlow,
        fun recorded hrecorded => ⟨hm recorded hrecorded, fun id b hb => absurd hb.1 (hnone id b),
          fun id b hb => absurd hb.1 (hnone id b), fun id b hb => absurd hb.1 (hnone id b)⟩,
        fun id b hb => absurd hb.1 (hnone id b)⟩, rfl⟩
      obtain ⟨b, hb, -⟩ := BlockCache.exit?_eq_some_iff.mp he
      exact absurd hb (hnone _ b)

theorem sound_create {options : Options} {r : Recompiler} (hr : Recompiler.create options = .ok r)
    (hsize : options.Addressable) {m : Machine} (hm : m.memory.Orderly) (origin : Nat → Memory) :
    SoundBy origin seen ⟨r, m⟩ ∧ r.options = options :=
  sound_new hr hsize hm.low (fun _ _ => hm) origin

theorem Keeps.write (x : SoundBy origin seen s) {f : Memory → Except Violation Memory}
    (hf : ∃ memory, f s.machine.memory = .ok memory)
    (hstores : ∀ memory, f s.machine.memory = .ok memory →
      Memory.Stores s.machine.memory memory) :
    ∃ s', s.write f = .ok s' ∧ SoundBy origin seen s' ∧ s'.recompiler = s.recompiler := by
  obtain ⟨memory, hmemory⟩ := hf
  refine ⟨⟨s.recompiler, ⟨s.machine.core, memory⟩⟩, ?_,
    Keeps.stores x ⟨s.machine.core, memory⟩ (hstores memory hmemory), rfl⟩
  rw [Session.write, hmemory]
  rfl

/-- **An action of the outside**, a run apart, breaks no promise and leaves a session sound.  Only
loading forgets what was learned. -/
theorem Keeps.act (x : SoundBy origin seen s) {action : Action} (hrun : action ≠ .run) :
    ∃ s', s.act action = .ok s' ∧ SoundAfter origin seen s s' ∧
      s'.recompiler.options = s.recompiler.options ∧
      ((∀ text, action ≠ .load text) → s'.recompiler.distrusted = s.recompiler.distrusted) := by
  have hclear : SoundBy origin seen s.clear := x.clear
  cases action with
  | run => exact absurd rfl hrun
  | lower address allowed =>
    obtain ⟨p, hlower, -, hsteady, hsound⟩ := x.lower address allowed
    refine ⟨p.2, ?_, hsound, hsteady.options, fun _ => hsteady.distrusted⟩
    rw [Session.act, hlower]
    rfl
  | invalidate start length =>
    obtain ⟨n, r', hinvalidate, x', ht, -⟩ := Keeps.invalidate (r := s.recompiler) x start length
    have x' : SoundBy origin seen ⟨r', s.machine⟩ := by
      rw [SoundBy, ht.space.offset]
      exact x'
    refine ⟨⟨r', s.machine⟩, ?_, x'.of_same ht.compiled, ht.options, fun _ => ht.distrusted⟩
    rw [Session.act, hinvalidate]
    rfl
  | clear => exact ⟨s.clear, rfl, hclear.of_same rfl, rfl, fun _ => rfl⟩
  | load text =>
    refine ⟨(s.load text).2, rfl, ?_⟩
    rw [Session.load]
    split
    · exact ⟨x.of_same rfl, rfl, fun h => absurd rfl (h text)⟩
    · exact ⟨Keeps.of_same ⟨hclear.consistent, hclear.stocked, hclear.low, hclear.watches,
        fun id b hb => absurd hb (BlockCache.not_isValid_clear _ id b)⟩ rfl, rfl,
        fun h => absurd rfl (h text)⟩
  | store width address value =>
    obtain ⟨s', hs', hsound, hsame⟩ := x.write (f := fun memory => width.store memory address value)
      (x.low.width width address value) fun _ => Memory.stores_width
    exact ⟨s', hs', hsound.of_same (by rw [hsame]), by rw [hsame], fun _ => by rw [hsame]⟩
  | storeWords address words =>
    obtain ⟨s', hs', hsound, hsame⟩ := x.write (f := fun memory => memory.writeWords address words)
      (x.low.writeWords address words) fun _ => Memory.stores_writeWords
    exact ⟨s', hs', hsound.of_same (by rw [hsame]), by rw [hsame], fun _ => by rw [hsame]⟩
  | setCore core =>
    have hsound : SoundBy origin seen ⟨s.recompiler, ⟨core, s.machine.memory⟩⟩ :=
      Keeps.stores x ⟨core, s.machine.memory⟩ .refl
    exact ⟨_, rfl, hsound.of_same rfl, rfl, fun _ => rfl⟩

/-! ### Turn by turn -/

/-- The dispatcher would take a turn. -/
structure Runs (s : Session) : Prop where
  running : s.machine.core.isRunning = true
  attended : s.machine.core.exitRequested = false
  cycles : 0 < s.cyclesLeft

theorem runs_iff : s.Runs ↔ s.machine.core.isRunning = true ∧ s.machine.core.exitRequested = false ∧
    0 < s.cyclesLeft :=
  ⟨fun h => ⟨h.running, h.attended, h.cycles⟩, fun h => ⟨h.1, h.2.1, h.2.2⟩⟩

instance : Decidable s.Runs := decidable_of_iff _ runs_iff.symm

/-- **What can happen to a session**: an action of the outside, or one of the two halves of what a
run does again and again. -/
inductive Happens : Option Action → Session → Session → Prop
  | act {action : Action} {s s' : Session} (quick : action ≠ .run) (done : s.act action = .ok s') :
      Happens (some action) s s'
  | drop {s s' : Session} (done : s.dropChanged = .ok s') : Happens none s s'
  | turn {s s' : Session} {t : Turn} (runs : s.Runs) (fresh : s.machine.memory.changed = #[])
      (done : s.turn = .ok (t, s')) : Happens none s s'

/-- **What happened to a session** since it was `s₀`, with the memory that each block was compiled
from. -/
inductive History (s₀ : Session) : (Nat → Memory) → Session → Prop
  | start : History s₀ (fun _ => s₀.machine.memory) s₀
  | step {origin : Nat → Memory} {s s' : Session} {label : Option Action} (h : History s₀ origin s)
      (next : Happens label s s') : History s₀ (originsAfter origin s s') s'

/-- **Whatever happens leaves a session sound.** -/
theorem Keeps.happens (x : SoundBy origin seen s) {label : Option Action} (h : Happens label s s') :
    SoundAfter origin seen s s' ∧ s'.recompiler.options = s.recompiler.options ∧
      ((∀ text, label ≠ some (.load text)) →
        ∀ a ∈ s.recompiler.distrusted, a ∈ s'.recompiler.distrusted) := by
  cases h with
  | @act action _ _ quick done =>
    obtain ⟨s₁, hact, hsound, hoptions, hlearned⟩ := x.act quick
    cases done.symm.trans hact
    refine ⟨hsound, hoptions, fun hload a ha => ?_⟩
    rw [hlearned fun text heq => hload text (congrArg some heq)]
    exact ha
  | drop done =>
    obtain ⟨s₁, hdrop, x₁, ht, -⟩ := x.dropChanged
    cases done.symm.trans hdrop
    rw [← ht.space.offset] at x₁
    exact ⟨Keeps.of_same x₁ ht.compiled, ht.options, fun _ a ha => ht.distrusted ▸ ha⟩
  | turn runs fresh done =>
    obtain ⟨p, hturn, hsound, hoptions, hadvances⟩ := x.turn runs.cycles
    cases done.symm.trans hturn
    refine ⟨hsound, hoptions, fun _ a ha => ?_⟩
    rcases hadvances with ⟨hahead, -⟩ | ⟨b, -, hmismatch⟩
    · exact hahead.learned ▸ ha
    · rw [hmismatch.learned]
      exact Recompiler.mem_insertAddress_iff.mpr (.inr ha)

/-- **A session with a history is sound.** -/
theorem History.sound {s₀ : Session} (x₀ : ∀ origin, Sound origin s₀) (h : History s₀ origin s) :
    Sound origin s ∧ s.recompiler.options = s₀.recompiler.options := by
  induction h with
  | start => exact ⟨x₀ _, rfl⟩
  | step _ next ih =>
    obtain ⟨hsound, hoptions, -⟩ := ih.1.happens next
    exact ⟨hsound, hoptions.trans ih.2⟩

/-- **Anything but loading what was learned**, any number of times. -/
abbrev GoesOn : Session → Session → Prop :=
  Relation.ReflTransGen fun s s' => ∃ label, Happens label s s' ∧ ∀ text, label ≠ some (.load text)

theorem History.goesOn {s₀ : Session} (h : History s₀ origin s) (hgoes : s.GoesOn s') :
    ∃ origin', History s₀ origin' s' := by
  induction hgoes with
  | refl => exact ⟨origin, h⟩
  | tail _ hstep ih =>
    obtain ⟨origin', h'⟩ := ih
    obtain ⟨label, hnext, -⟩ := hstep
    exact ⟨_, h'.step hnext⟩

/-- **Turns happen one after the other.** -/
theorem goesOn_turns {fuel : Nat} {p : Answer RunExit} (hok : Session.turns fuel s = .ok p) :
    s.GoesOn p.2 := by
  induction fuel generalizing s with
  | zero => cases hok
  | succ fuel ih =>
    rw [Session.turns] at hok
    obtain ⟨s₁, hdrop, hok⟩ := ok_of_bind hok
    have h₁ : s.GoesOn s₁ := .single ⟨none, .drop hdrop, (by simp)⟩
    have hempty : s₁.machine.memory.changed = #[] := by
      obtain ⟨r, hinvalidate, hok⟩ := ok_of_bind hdrop
      cases hok
      rfl
    dsimp only at hok
    split at hok
    · cases hok
      exact h₁
    · rename_i hruns
      rw [Bool.or_eq_true, not_or, Bool.not_eq_true', Bool.not_eq_false, Bool.not_eq_true] at hruns
      split at hok
      · cases hok
        exact h₁
      · rename_i hd
        have hruns : s₁.Runs :=
          ⟨hruns.1, hruns.2, Int32.lt_iff_toInt_lt.mp (Int32.not_le.mp hd)⟩
        obtain ⟨⟨t, s₂⟩, hturn, hok⟩ := ok_of_bind hok
        have h₂ : s.GoesOn s₂ := h₁.tail ⟨none, .turn hruns hempty hturn, (by simp)⟩
        cases t with
        | again => exact h₂.trans (ih hok)
        | done exit =>
          cases hok
          exact h₂
        | failed e =>
          cases hok
          exact h₂

/-- **All that actions come to has a history.** -/
theorem History.becomes {s₀ : Session} (h : Becomes s₀ s) : ∃ origin, History s₀ origin s := by
  induction h with
  | refl => exact ⟨_, .start⟩
  | tail _ hstep ih =>
    obtain ⟨origin, h⟩ := ih
    obtain ⟨action, hact⟩ := hstep
    by_cases hrun : action = .run
    · subst hrun
      obtain ⟨p, hok, rfl⟩ := ok_of_map hact
      exact h.goesOn (goesOn_turns hok)
    · exact ⟨_, h.step (.act hrun hact)⟩

end Session

end Dynarec
