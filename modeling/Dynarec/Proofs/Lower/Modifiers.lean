import Dynarec.Proofs.Lower.Allocation

/-!
# What a lowering knows about modifiers is right

An instruction that sets a modifier emits nothing: the modifier is noted down in the tracker and
written to its control register later, if at all.  So three things have to agree at every point of a
block, the tracker, the control registers behind the code that was emitted, and the modifiers that
the interpreter would hold after the same instructions.  `ModifierTracker.Mirrors` says how, and
`modifiers_mirrored` that they do, whatever instructions come and wherever the modifiers are written
in between.  The relation that an instruction keeps is that of the whole lowering (`correct_plain`),
since an instruction that is left to the interpreter takes its modifiers from the control registers
and its operands from all the others.
-/

namespace Dynarec

/-! ### What a tracker says -/

namespace ModifierTracker

variable {t : ModifierTracker} {held meant core : Core}

/-- **Either a modifier may be pending, or none is.**  The write mask of the destination adds
nothing, since the modifier that stands for none masks no result. -/
theorem mayHaveModifier_eq (t : ModifierTracker) : t.mayHaveModifier = !t.hasNoModifier := by
  have hsome : (ModifierSlot.all.any fun slot => t.read? slot != some slot.identity) =
      !t.hasNoModifier := by
    rw [hasNoModifier, List.not_all_eq_any_not]
    rfl
  rw [mayHaveModifier, hsome]
  cases hno : t.hasNoModifier with
  | false => rw [Bool.not_false, Bool.or_true, Bool.true_or]
  | true =>
    have hread := read?_of_hasNoModifier hno
    have hknown : t.hasUnknown = false := by
      rw [hasUnknown, List.any_eq_false]
      intro slot _
      have hvalue : (t.get slot).value? = _ := hread slot
      rw [Knowledge.isKnown, hvalue]
      exact Bool.false_ne_true
    have hmask : (t.destination.value?.any fun modifier => writeMask modifier != 0) = false := by
      have hvalue : t.destination.value? = _ := hread .destination
      rw [hvalue]
      decide
    rw [hknown, hmask]
    rfl

/-- **A tracker mirrors the modifiers** of the core that is meant, of which the core that is held
may lack those that are still to be written. -/
structure Mirrors (t : ModifierTracker) (held meant : Core) : Prop where
  /-- What an instruction reads through a slot is the modifier. -/
  read : ∀ slot value, t.read? slot = some value → value = meant.modifier slot
  /-- So are the three that an instruction uses. -/
  known : ∀ known, t.known? = some known → known =
    ⟨meant.modifier .source, meant.modifier .target, meant.modifier .destination⟩
  /-- A control register holds its modifier, unless that is to be written. -/
  held : ∀ slot, (∀ value, t.get slot ≠ .dirty value) → held.modifier slot = meant.modifier slot
  none : t.hasNoModifier = true → ∀ slot, meant.modifier slot = slot.identity
  pending : t.mayHaveModifier = !t.hasNoModifier

theorem Shadows.mirrors (x : t.Shadows held meant) : t.Mirrors held meant where
  read slot value hread := ((x slot).meant_eq hread).symm
  known known hknown := by
    obtain ⟨hsource, htarget, hdestination⟩ := value?_of_known? hknown
    rw [(x .source).meant_eq hsource, (x .target).meant_eq htarget,
      (x .destination).meant_eq hdestination]
  held slot hclean := by
    have hslot := x slot
    cases hk : t.get slot with
    | unknown =>
      rw [hk] at hslot
      exact hslot
    | clean value =>
      rw [hk] at hslot
      exact hslot.1.trans hslot.2.symm
    | dirty value => exact absurd hk (hclean value)
  none hnone slot := (x slot).meant_eq (read?_of_hasNoModifier hnone slot)
  pending := t.mayHaveModifier_eq

/-- **At the entry of a block** the control registers hold the modifiers, none of them if the block
assumes so. -/
theorem shadows_start {entry : EntryAssumption}
    (hdefault : entry = .noModifiers → core.hasDefaultModifiers = true) :
    (start entry).Shadows core core := by
  intro slot
  cases entry with
  | anyModifiers =>
    rw [start, unknown, Lowering.get_ofRule]
    exact rfl
  | noModifiers =>
    have hidentity : core.modifier slot = slot.identity := by
      have hall := hdefault rfl
      rw [Core.hasDefaultModifiers, Bool.and_eq_true, Bool.and_eq_true, beq_iff_eq, beq_iff_eq,
        beq_iff_eq] at hall
      cases slot with
      | source => exact hall.1.1
      | target => exact hall.1.2
      | destination => exact hall.2
    rw [start, identity, Lowering.get_ofRule]
    exact ⟨hidentity, hidentity⟩

end ModifierTracker

namespace Lowering

variable {s : Setting} {b b' b'' : Builder} {h h' h'' : HostState}
  {m m' m'' g g' : Machine} {i : Instr} {pc : UInt32}

/-- **At the start of a block nothing is bound**, and the guest's registers are where the guest
keeps them. -/
theorem shadows_start (code : CodeSpace) (hz : m.core.ZeroKept)
    (hdefault : s.entry = .noModifiers → m.core.hasDefaultModifiers = true) :
    (Builder.start code s).Shadows h m m where
  scalars := ScalarCache.shadows_empty
  elements := ElementCache.shadows_empty
  modifiers := ModifierTracker.shadows_start hdefault
  controls _ _ := rfl
  frame := .refl _
  held := hz
  zero := hz
  memory := rfl

/-! ### Steps -/

/-- What comes next inside a block: an instruction, whose registers are given back behind it, or the
pending modifiers are written. -/
inductive Step where
  | instruction (i : Instr) (pc : UInt32)
  | flush
deriving DecidableEq

/-- The lowering of a step. -/
def Step.lower : Step → Lowering Unit
  | .instruction i pc => do
    plain i pc
    releaseLocks
  | .flush => flushModifiers

/-- The lowering of steps, one after another. -/
def lowerSteps : List Step → Lowering Unit
  | [] => pure ()
  | step :: rest => do
    step.lower
    lowerSteps rest

/-- **The interpreter takes the instructions of the steps** and accepts each of them; to write
modifiers means nothing to it. -/
inductive Accepted : List Step → Machine → Machine → Prop
  | nil (g : Machine) : Accepted [] g g
  | instruction {i : Instr} {pc : UInt32} {rest : List Step} {g g' g'' : Machine}
      (plain : i.family.isTerminator = false) (accepted : Machine.execute i pc g = .ok .normal g')
      (following : Accepted rest g' g'') : Accepted (.instruction i pc :: rest) g g''
  | flush {rest : List Step} {g g' : Machine} (following : Accepted rest g g') :
      Accepted (.flush :: rest) g g'

/-- **A lowering keeps up**: it succeeds, the code that it emits runs to its end, and then host and
machine stand for `g'` while no register is held. -/
structure KeepsUp (s : Setting) (act : Lowering Unit) (b b' : Builder) (ops : List Operation)
    (h h' : HostState) (m m' g' : Machine) : Prop where
  lowers : act s b = .ok ((), b')
  emits : b.Emits b' ops
  runs : Host.runOps ops h m = .next h' m'
  shadows : b'.Shadows h' m' g'
  free : b'.taken = 0

/-- A rule of a step that succeeds, where the code does not stop. -/
theorem exists_of_wp {act : Lowering Unit} {E : Outcome → Prop}
    {Q : Unit → Builder → HostState → Machine → Prop} (hwp : wp s act E Q b h m)
    (hok : act s b = .ok ((), b')) (hgoes : ∀ outcome, ¬ E outcome) :
    ∃ ops h' m', b.Emits b' ops ∧ Host.runOps ops h m = .next h' m' ∧ Q () b' h' m' := by
  obtain ⟨ops, hemits, hyields⟩ := hwp () b' hok
  rcases (Host.runOps ops h m).next_or_stops with ⟨h', m', hrun⟩ | hstops
  · rw [hrun] at hyields
    exact ⟨ops, h', m', hemits, hrun, hyields⟩
  · rw [Outcome.yields_of_stops hstops] at hyields
    exact absurd hyields (hgoes _)

/-- An instruction that the interpreter accepts is not refused. -/
theorem not_refused (haccepted : Machine.execute i pc g = .ok .normal g') (outcome : Outcome) :
    ¬ Refused i pc g h outcome := by
  rintro (⟨t, g₁, h₁, hexec, -⟩ | ⟨v, g₁, hexec, -⟩)
  · rw [haccepted] at hexec
    cases hexec
  · rw [haccepted] at hexec
    cases hexec

/-- **An instruction keeps up**, in whatever way it is compiled. -/
theorem keepsUp_instruction (hplain : i.family.isTerminator = false)
    (haccepted : Machine.execute i pc g = .ok .normal g') (x : b.Shadows h m g) (hfree : b.taken = 0) :
    ∃ b' ops h' m', KeepsUp s (Step.instruction i pc).lower b b' ops h h' m m' g' := by
  obtain ⟨-, _, b₁, hok, -⟩ := takes_plain (s := s) i pc b
    (by rw [hfree, zero_add]; exact Pool.demand_le_size)
  obtain ⟨ops, h', m', hemits, hrun, g₁, hexec, x', -⟩ :=
    exists_of_wp (correct_plain hplain b h m g x) hok (not_refused haccepted)
  rw [haccepted] at hexec
  cases hexec
  have hlower : (Step.instruction i pc).lower s b = .ok ((), { b₁ with
      scalars := b₁.scalars.releaseLocks, elements := b₁.elements.releaseLocks }) := by
    show (plain i pc s b >>= fun p => releaseLocks s p.2) = _
    rw [hok]
    rfl
  exact ⟨_, ops, h', m', hlower, ⟨hemits.code, hemits.exits, hemits.inline⟩, hrun,
    shadows_releaseLocks x', Builder.taken_releaseLocks b₁⟩

/-- **Writing the modifiers keeps up**, and the control registers hold all of them then. -/
theorem keepsUp_flush (x : b.Shadows h m g) (hfree : b.taken = 0) :
    ∃ b' ops core, KeepsUp s Step.flush.lower b b' ops h h m ⟨core, m.memory⟩ g ∧
      ∀ slot, core.modifier slot = g.core.modifier slot := by
  obtain ⟨core, hrun, -, hmodifier, x'⟩ := runOps_flushModifiers x
  have hinline : AllInline (b.modifiers.dirtySlots.map storeModifier) :=
    AllInline.map (fun p => by exact trivial) _
  exact ⟨_, _, core, ⟨flushModifiers_eq b, ⟨rfl, rfl, hinline⟩, hrun, x', hfree⟩, hmodifier⟩

theorem KeepsUp.nil (x : b.Shadows h m g) (hfree : b.taken = 0) :
    KeepsUp s (lowerSteps []) b b [] h h m m g := ⟨rfl, .nothing rfl rfl, rfl, x, hfree⟩

theorem KeepsUp.cons {step : Step} {rest : List Step} {ops ops' : List Operation}
    (x : KeepsUp s step.lower b b' ops h h' m m' g)
    (y : KeepsUp s (lowerSteps rest) b' b'' ops' h' h'' m' m'' g') :
    KeepsUp s (lowerSteps (step :: rest)) b b'' (ops ++ ops') h h'' m m'' g' where
  lowers := by
    show (step.lower s b >>= fun p => lowerSteps rest s p.2) = _
    rw [x.lowers]
    exact y.lowers
  emits := x.emits.trans y.emits
  runs := by
    rw [Host.runOps_append, x.runs]
    exact y.runs
  shadows := y.shadows
  free := y.free

/-- **Steps keep up**, by induction on the way of the interpreter.  Behind a flush nothing is left
to be written. -/
theorem keepsUp_of_accepted {steps : List Step} (haccepted : Accepted steps g g') (x : b.Shadows h m g)
    (hfree : b.taken = 0) :
    ∃ b' ops h' m', KeepsUp s (lowerSteps steps) b b' ops h h' m m' g' ∧
      (steps.getLast? = some .flush → ∀ slot, m'.core.modifier slot = g'.core.modifier slot) := by
  induction haccepted generalizing b h m with
  | nil g => exact ⟨b, [], h, m, .nil x hfree, nofun⟩
  | @instruction i pc rest g g₁ g' hplain haccepted hrest ih =>
    obtain ⟨b₁, ops, h₁, m₁, y⟩ := keepsUp_instruction hplain haccepted x hfree
    obtain ⟨b', ops', h', m', z, hlast⟩ := ih y.shadows y.free
    refine ⟨b', ops ++ ops', h', m', y.cons z, fun hflush => hlast ?_⟩
    cases rest with
    | nil => cases hflush
    | cons => exact hflush
  | @flush rest g g' hrest ih =>
    obtain ⟨b₁, ops, core, y, hmodifier⟩ := keepsUp_flush x hfree
    cases rest with
    | nil =>
      cases hrest
      exact ⟨b₁, ops ++ [], h, ⟨core, m.memory⟩, y.cons (.nil y.shadows y.free), fun _ => hmodifier⟩
    | cons next rest =>
      obtain ⟨b', ops', h', m', z, hlast⟩ := ih y.shadows y.free
      exact ⟨b', ops ++ ops', h', m', y.cons z, fun hflush => hlast hflush⟩

/-! ### The result -/

/-- **The tracker mirrors the modifiers.**  A block is started on a machine whose register zero
holds zero, with no modifier pending if the block assumes so.  Whatever instructions the interpreter
accepts there, in whatever way they are compiled, and wherever the pending modifiers are written:
lowering succeeds, its code runs to its end, and the tracker that it leaves mirrors the modifiers
that the interpreter holds after the same instructions.  Behind a flush all control registers hold
them. -/
theorem modifiers_mirrored (s : Setting) (code : CodeSpace) (h : HostState) {steps : List Step}
    {g g' : Machine} (hzero : g.core.ZeroKept)
    (hdefault : s.entry = .noModifiers → g.core.hasDefaultModifiers = true)
    (haccepted : Accepted steps g g') :
    ∃ b' ops h' m', lowerSteps steps s (Builder.start code s) = .ok ((), b') ∧
      (Builder.start code s).Emits b' ops ∧ Host.runOps ops h g = .next h' m' ∧
      b'.modifiers.Mirrors m'.core g'.core ∧
      (steps.getLast? = some .flush → ∀ slot, m'.core.modifier slot = g'.core.modifier slot) := by
  obtain ⟨b', ops, h', m', x, hflush⟩ := keepsUp_of_accepted haccepted
    (shadows_start (h := h) code hzero hdefault) (Builder.taken_start code s)
  exact ⟨b', ops, h', m', x.lowers, x.emits, x.runs, x.shadows.modifiers.mirrors, hflush⟩

/-- A modifier that negates sources, a sum of four lanes that uses it up, and a modifier that masks
every result and is written. -/
def maskSteps : List Step :=
  [.instruction ⟨0xDC0F00E4⟩ 0, .instruction ⟨0x60018082⟩ 4, .instruction ⟨0xDE000F00⟩ 8, .flush]

/-- The block assumes that no modifier is pending.  In the end one is, and its control register
holds it. -/
theorem modifiers_mirrored_mask :
    ∃ g' b' ops h' m', Accepted maskSteps laneMachine g' ∧
      lowerSteps maskSteps bareSetting bareBuilder = .ok ((), b') ∧
      Host.runOps ops HostState.start laneMachine = .next h' m' ∧
      b'.modifiers.Mirrors m'.core g'.core ∧ m'.core.modifier .destination = 0xF00 := by
  have haccepted : Accepted maskSteps laneMachine _ :=
    .instruction (by decide) rfl (.instruction (by decide) rfl
      (.instruction (by decide) rfl (.flush (.nil _))))
  obtain ⟨b', ops, h', m', hok, -, hrun, hmirrors, hflush⟩ :=
    modifiers_mirrored bareSetting ⟨#[], 64, false, #[], []⟩ HostState.start
      (show laneMachine.core.ZeroKept from rfl) (by decide) haccepted
  exact ⟨_, b', ops, h', m', haccepted, hok, hrun, hmirrors, (hflush rfl .destination).trans rfl⟩

end Lowering

end Dynarec
