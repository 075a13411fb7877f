import Dynarec.Proofs.Lower.Branching
import Dynarec.Proofs.Lower.Closing
import Dynarec.Proofs.Lower.Ending

/-!
# Where the end of a block leads

The code that ends a block leads to one of its ways out, with the reference machine one instruction
further, or two where a delay slot runs (`leads_terminator`).  The reference machine takes the
branch before its delay slot; the code decides behind the slot, on a condition that the slot cannot
change.
-/

namespace Dynarec

namespace Lowering

variable {α : Type} {code : Array HostWord} {base k n : Nat} {last : Builder} {s : Setting}
  {E : Host.Cursor → Prop} {b b' : Builder} {h h' : HostState} {m m' g g' G₀ : Machine}
  {i slot : Instr} {pc target : UInt32}

/-! ### The reference machine -/

/-- **The host and the machine `m` stand for `g`**, and nothing was charged since `G₀`. -/
structure Stands (s : Setting) (G₀ : Machine) (b : Builder) (h : HostState) (m g : Machine) :
    Prop where
  shadows : b.Shadows h m g
  clock : cycles s.options.downcountInRegister h m = G₀.core.downcount
  closed : g.Closed

/-- `n` steps lead to the instruction at `pc`, with the registers and the memory of `g`. -/
abbrev Arrives (G₀ : Machine) (n : Nat) (g : Machine) (pc : UInt32) : Prop :=
  Machine.Retires n G₀ (g.at pc (cyclesAfter G₀.core.downcount n))

/-- `n` steps lead to the delay slot at `pc`, behind which the machine goes on at `target`. -/
abbrev ArrivesInSlot (G₀ : Machine) (n : Nat) (g : Machine) (pc target : UInt32) : Prop :=
  Machine.Retires n G₀ (g.inSlot pc (cyclesAfter G₀.core.downcount n) target)

/-- The downcount can be charged for every instruction of the block. -/
def Affords (last : Builder) (G₀ : Machine) : Prop :=
  ∀ k < last.progress.count.toNat, cyclesAfter G₀.core.downcount k ≠ Int32.minValue

/-- **The registers of the guest change, or where they are kept.** -/
theorem Stands.move (x : Stands s G₀ b h m g) (x' : b'.Shadows h' m' g')
    (hframe : g'.core.frame = g.core.frame)
    (hget : h'.get HostReg.downcount = h.get HostReg.downcount) : Stands s G₀ b' h' m' g' := by
  refine ⟨x', Eq.trans ?_ x.clock, x.closed.of_frame hframe⟩
  have hcore : m'.core.downcount = m.core.downcount := by
    rw [x'.frame.downcount, x.shadows.frame.downcount]
    exact congrArg Core.Frame.downcount hframe
  rw [cycles, cycles, hget, hcore]

/-- Only where registers are kept changes. -/
theorem Stands.keep (x : Stands s G₀ b h m g) (x' : b'.Shadows h' m' g) (hs : b.Steady b' h h') :
    Stands s G₀ b' h' m' g := x.move x' rfl hs.downcount

/-- **What is refused was not charged**, nor was anything since `G₀`. -/
theorem Stands.unspent (x : Stands s G₀ b h m g)
    (hget : h'.get HostReg.downcount = h.get HostReg.downcount) (pc : UInt32) :
    cycles s.options.downcountInRegister h' (g.reframe { g.core.frame with pc := pc }) =
      G₀.core.downcount := by
  refine Eq.trans ?_ x.clock
  rw [cycles, cycles, hget, x.shadows.frame.downcount]
  rfl

/-- **Everything is written back**: once program counter and downcount are in place, the machine `m`
is `g`. -/
structure Written (s : Setting) (G₀ : Machine) (h : HostState) (m g : Machine) : Prop where
  clock : cycles s.options.downcountInRegister h m = G₀.core.downcount
  same : ∀ pc d, m.at pc d = g.at pc d

theorem Stands.written (x : Stands s G₀ b h m g) (hcur : m.Current g) : Written s G₀ h m g := by
  refine ⟨x.clock, fun pc d => ?_⟩
  obtain ⟨pc', hcore⟩ := hcur
  show Machine.mk { m.core with pc := pc, downcount := d } m.memory = _
  rw [hcore, x.shadows.memory]
  rfl

/-! ### Ways out -/

theorem leads_of_ends {act : Lowering α} {Q : α → Builder → HostState → Machine → Prop}
    (hE : E ⟨b.code.offset, h, m⟩) : leads code base last s act E Q b h m :=
  fun _ _ _ _ _ => .inr ⟨_, .refl, hE⟩

theorem leads_charge {f : Unit → Lowering α} {Q : α → Builder → HostState → Machine → Prop}
    (hgrow : ∀ b', Growing s (f ()) k b')
    (hrest : leads code base last s (f ()) E Q { b with progress := b.progress.charge } h m) :
    leads code base last s (charge >>= f) E Q b h m :=
  leads_silent rfl rfl rfl hrest ⟨k, hgrow _⟩

/-- **Registers are written back** before the block is left. -/
theorem leads_flushAll {f : Unit → Lowering α} {Q : α → Builder → HostState → Machine → Prop}
    (x : Stands s G₀ b h m g) (hgrow : ∀ u b', Growing s (f u) k b')
    (hrest : ∀ b' m', Stands s G₀ b' h m' g → m'.Current g → b'.progress = b.progress →
      leads code base last s (f ()) E Q b' h m') :
    leads code base last s (flushAll >>= f) E Q b h m :=
  leads_bind_never straight_flushAll hgrow (wp_flushAll x.shadows fun b' core x' hcur hs =>
    hrest b' ⟨core, m.memory⟩ (x.keep x' hs) hcur hs.progress)

/-- **An exit to where the reference machine is.** -/
theorem leads_exitAt (x : Written s G₀ h m g) (harrives : Arrives G₀ n g target)
    (htakes : s.Takes last.progress.count.toNat n last.progress.pc target)
    (hkept : ¬ s.Leaves last.progress.pc target) :
    leads code base last s (exitTo target (UInt32.ofNat n)) (Ends code s last G₀) (Nowhere Unit)
      b h m := by
  have hset : m.at target (cycles s.options.downcountInRegister h m - (UInt32.ofNat n).toInt32) =
      g.at target (cyclesAfter G₀.core.downcount n) := by
    rw [x.clock]
    exact x.same _ _
  exact leads_exitTo (G := g.at target (cyclesAfter G₀.core.downcount n)) harrives htakes hkept hset

theorem leads_exitHereAt (x : Written s G₀ h m g) (hcount : b.progress.count = UInt32.ofNat n)
    (harrives : Arrives G₀ n g target) (hall : n = last.progress.count.toNat)
    (hkept : ¬ s.Leaves last.progress.pc target) :
    leads code base last s (exitHere target) (Ends code s last G₀) (Nowhere Unit) b h m := by
  unfold exitHere
  refine leads_bind_never straight_get (fun _ _ => growing_exitTo _ _) (wp_get ?_)
  rw [hcount]
  exact leads_exitAt x harrives (.inl hall) hkept

/-- **The block is left for good.** -/
theorem leads_leaveFor {op : Operation} {stop : UInt32} (hop : op.Leaves)
    (x : Written s G₀ h m g) (hcount : b.progress.count = UInt32.ofNat n)
    (hE : ∀ offset h' m', Host.operationAt? code offset = some op →
      (∀ a : HostReg, a ≠ HostReg.downcount → h'.get a = h.get a) →
      (∀ pc, Settled s.options.downcountInRegister h' m'
        (g.at pc (cyclesAfter G₀.core.downcount n))) → E ⟨offset, h', m'⟩) :
    leads code base last s (do
      subtractProgress
      emit op
      finish stop) E (Nowhere Unit) b h m := by
  have hfinish : ∀ (_ : Unit) b', Growing s (finish stop) 0 b' := fun _ _ => growing_moveTo _
  refine leads_bind_never straight_subtractProgress
    (fun _ _ => growing_bind (growing_emit hop) hfinish) (wp_subtractProgress ?_)
  intro space h' m' hclock hget hsame
  refine leads_bind_nowhere (growing_emit hop) hfinish (leads_leave hop fun hfound => ?_)
  refine hE _ h' m' hfound hget fun pc => ?_
  have hset : m'.at pc (cycles s.options.downcountInRegister h' m') =
      g.at pc (cyclesAfter G₀.core.downcount n) := by
    rw [hsame, hclock, x.clock, hcount]
    exact x.same _ _
  exact hset

/-! ### Two paths -/

/-- An exit takes a word at least. -/
theorem offset_lt_of_exitTo {target amount : UInt32} {b b' : Builder} {u : Unit}
    (hok : exitTo target amount s b = .ok (u, b')) (hfits : b'.code.overflowed = false) :
    b.code.offset < b'.code.offset := by
  obtain ⟨_, b₁, hcharge, hpush⟩ := bind_eq_ok hok
  cases hpush
  obtain ⟨hext, -⟩ := growing_of_straight (straight_subtractCycles amount) _ _ hcharge
  have hpush := adds_pushExit hfits
  obtain ⟨_, _, _, hcharged⟩ := hext hpush.fits
  exact Nat.lt_of_le_of_lt (hcharged.offset ▸ Nat.le_add_right _ _)
    (hpush.offset ▸ Nat.lt_succ_self _)

/-- **A forward jump over one path to another.**  Only the second path lies behind the label; it has
a word at least. -/
theorem leads_fork {condition : Condition} {first second : Label → Lowering Unit}
    (hfirst : ∀ l b', Growing s (first l) k b')
    (hlabels : ∀ l b₁ u b₂, first l s b₁ = .ok (u, b₂) → SameLabels b₁ b₂)
    (hsecond : ∀ l b', Growing s (second l) 0 b')
    (hmore : ∀ l b₁ u b₂, second l s b₁ = .ok (u, b₂) → b₂.code.overflowed = false →
      b₁.code.offset < b₂.code.offset) (hsmall : last.code.offset ≤ 2 ^ 32)
    (hfall : h.holds condition = false → ∀ l, leads code base last s (first l) E (Nowhere Unit)
      (pushJump (withLabel b) condition l) h m)
    (hjump : h.holds condition = true → ∀ l b', leads code base last s (second l) E (Nowhere Unit)
      b' h m) :
    leads code base last s (do
      let label ← newLabel
      jumpForward condition label
      first label
      placeLabel label
      second label) E (Nowhere Unit) b h m := by
  intro y u b₄ hok hlast
  obtain ⟨l, b₁, hlabel, hok⟩ := bind_eq_ok hok
  cases hlabel
  obtain ⟨_, b₂, hpush, hok⟩ := bind_eq_ok hok
  cases hpush
  obtain ⟨_, b₃, hone, hok⟩ := bind_eq_ok hok
  obtain ⟨_, b₃', hplace, htwo⟩ := bind_eq_ok hok
  cases hplace
  have hopen : Open b₃ b.code.labels.size :=
    ((open_withLabel b).congr (sameLabels_pushJump _ _ _)).congr (hlabels _ _ _ _ hone)
  have hext₃ : (withPlace b₃ b.code.labels.size).Extends last := (hsecond _ _ _ _ htwo).1.trans hlast
  have hext₂ : b₃.Extends last := (extends_withPlace hopen.1 hopen.2).trans hext₃
  have hext₁ : (pushJump (withLabel b) condition b.code.labels.size).Extends last :=
    (hfirst _ _ _ _ hone).1.trans hext₂
  have hgrown : (withLabel b).Extends (pushJump (withLabel b) condition b.code.labels.size) :=
    fun hfits => ⟨_, _, _, adds_pushJump hfits⟩
  have y₁ := y.step (extends_withLabel b) (hgrown.trans hext₁)
  have y₂ := y₁.step hgrown hext₁
  have y₃ := y₂.step (hfirst _ _ _ _ hone).1 hext₂
  have y₄ := y₃.step (extends_withPlace hopen.1 hopen.2) hext₃
  obtain ⟨q, hq, hfound⟩ := y₁.jumpAt hext₁
  have hbound : last.code.labelOffset? b.code.labels.size = some b₃.code.offset :=
    y₃.labelAt hopen.1 hext₃
  rw [hbound] at hq
  cases hq
  cases hholds : h.holds condition with
  | false =>
    have hperform : (Operation.jumpIf condition (UInt32.ofNat b₃.code.offset)).perform h m =
        .next h m := by
      rw [Operation.perform, hholds]
      rfl
    have hstep : Host.Step code ⟨b.code.offset, h, m⟩ ⟨b.code.offset + 1, h, m⟩ :=
      .next hfound hperform
    obtain ⟨_, _, _, x₃⟩ := hext₁ y.fits
    have hoffset : (pushJump (withLabel b) condition b.code.labels.size).code.offset =
        b.code.offset + 1 := (adds_pushJump x₃.fits).offset
    rcases hfall hholds _ y₂ _ _ hone hext₂ with ⟨_, _, _, hno⟩ | ⟨c, hreach, hE⟩
    · exact hno.elim
    · rw [hoffset] at hreach
      exact .inr ⟨c, .head hstep hreach, hE⟩
  | true =>
    obtain ⟨_, _, _, x₄⟩ := hlast y.fits
    have hlt : (withPlace b₃ b.code.labels.size).code.offset < b₄.code.offset :=
      hmore _ _ _ _ htwo x₄.fits
    have hle : b₄.code.offset ≤ last.code.offset := x₄.offset ▸ Nat.le_add_right _ _
    have htarget : (UInt32.ofNat b₃.code.offset).toNat = b₃.code.offset :=
      UInt32.toNat_ofNat_of_lt' (Nat.lt_of_lt_of_le hlt (hle.trans hsmall))
    have hperform : (Operation.jumpIf condition (UInt32.ofNat b₃.code.offset)).perform h m =
        .jump b₃.code.offset h m := by
      rw [Operation.perform, hholds, if_pos rfl, htarget]
    have hstep : Host.Step code ⟨b.code.offset, h, m⟩ ⟨b₃.code.offset, h, m⟩ :=
      .jump hfound hperform
    rcases hjump hholds _ _ y₄ _ _ htwo hlast with ⟨_, _, _, hno⟩ | ⟨c, hreach, hE⟩
    · exact hno.elim
    · exact .inr ⟨c, .head hstep hreach, hE⟩

/-! ### Delay slots -/

theorem delaySlot?_eq_some {memory : Memory} (hslot : delaySlot? memory pc = some slot) :
    memory.fetch? (pc + 4) = some slot.word ∧ slot.family.isTerminator = false := by
  rw [delaySlot?] at hslot
  cases hfetch : memory.fetch? (pc + 4) with
  | none =>
    rw [hfetch] at hslot
    cases hslot
  | some word =>
    rw [hfetch] at hslot
    dsimp only at hslot
    split at hslot
    · cases hslot
    · rename_i hfam
      cases hslot
      exact ⟨rfl, Bool.eq_false_iff.mpr hfam⟩

/-- **The code of a delay slot** retires the slot, unless it is refused or is not the one that was
compiled. -/
theorem leads_delaySlot {policy : SlotPolicy} {f : Unit → Lowering Unit}
    (x : Stands s G₀ b h m g) (hslot : delaySlot? s.memory pc = some slot)
    (harrives : ArrivesInSlot G₀ (n + 1) g (pc + 4) target)
    (hplace : pc + 4 = s.start + 4 * UInt32.ofNat (n + 1))
    (hbound : n + 2 ≤ last.progress.count.toNat) (hafford : Affords last G₀)
    (hgrow : ∀ u b', Growing s (f u) k b')
    (hrest : ∀ b' h' m' g',
      AfterSlot slot pc policy { b with progress := b.progress.charge } h g b' h' m' g' →
      Stands s G₀ b' h' m' g' → Arrives G₀ (n + 2) g' target →
      leads code base last s (f ()) (Ends code s last G₀) (Nowhere Unit) b' h' m') :
    leads code base last s (delaySlot slot pc policy >>= f) (Ends code s last G₀) (Nowhere Unit)
      b h m := by
  obtain ⟨hfetch, hfam⟩ := delaySlot?_eq_some hslot
  have hcode := growing_of_straight (s := s) (b := { b with progress := b.progress.charge })
    (straight_slotCode slot pc policy)
  rw [delaySlot_eq, bind_assoc]
  refine leads_charge (fun _ => growing_bind (growing_of_straight (straight_slotCode slot pc policy))
    hgrow) ?_
  by_cases hsame : g.memory.fetch? (pc + 4) = s.memory.fetch? (pc + 4)
  · rw [hfetch] at hsame
    have x' : Builder.Shadows { b with progress := b.progress.charge } h m g := x.shadows
    refine leads_bind hcode hgrow (leads_of_wp (F := Refused slot (pc + 4) g h)
      (wp_slotCode hfam x' fun b' h' m' g' hafter _ => ?_) ?_)
    · have hframe := Machine.frame_execute (Machine.ne_breakpoint hfam) hafter.executed
      refine hrest b' h' m' g' hafter (x.move hafter.shadows hframe hafter.downcount) ?_
      have hstep : Machine.step (g.inSlot (pc + 4) _ target) = .ok .normal (g'.at target _) :=
        Machine.step_inSlot x.closed hsame hfam hafter.executed (hafford (n + 1) (by omega))
      rw [cyclesAfter_succ] at hstep
      exact .succ harrives hstep
    · rintro c hreach ⟨op, hop, ⟨t, g', h', hexec, hget, hperform⟩ | ⟨v, g', hexec, hperform⟩⟩
      · exact .trap harrives (by omega) hop hperform (Machine.fails_inSlot hsame hfam hexec)
          (Machine.coincides_inSlot _ _ _ _) (x.unspent hget _)
      · exact .broken harrives (by omega) hop hperform (Machine.fails_inSlot hsame hfam hexec)
  · exact leads_of_ends (.stale harrives (by omega) x.shadows.memory hplace hsame)

/-! ### Branches -/

/-- **The reference machine is in front of the branch `i` at `pc`**, after `n` instructions.  The
block ends behind its delay slot. -/
structure AtBranch (s : Setting) (last : Builder) (G₀ : Machine) (n : Nat) (i slot : Instr)
    (pc : UInt32) (g : Machine) : Prop where
  closed : g.Closed
  arrives : Arrives G₀ n g pc
  place : pc = s.start + 4 * UInt32.ofNat n
  fetched : g.memory.fetch? pc = some i.word
  compiled : s.memory.fetch? pc = some i.word
  branches : i.family.hasDelaySlot = true
  slot : delaySlot? s.memory pc = some slot
  all : n + 2 = last.progress.count.toNat
  affords : Affords last G₀
  stop : last.progress.pc = pc + 8
  small : last.code.offset ≤ 2 ^ 32

namespace AtBranch

/-- A branch with a delay slot is not left to the interpreter. -/
theorem kept (x : AtBranch s last G₀ n i slot pc g) (target : UInt32) :
    ¬ s.Leaves last.progress.pc target := by
  rintro ⟨hstop, word, -, -, hnone⟩
  rw [x.stop] at hstop
  rw [← (UInt32.add_left_inj 8).mp hstop, x.slot] at hnone
  cases hnone

theorem ne_min (x : AtBranch s last G₀ n i slot pc g) :
    cyclesAfter G₀.core.downcount n ≠ Int32.minValue :=
  x.affords n (x.all ▸ Nat.lt_add_of_pos_right Nat.two_pos)

theorem place_slot (x : AtBranch s last G₀ n i slot pc g) :
    pc + 4 = s.start + 4 * UInt32.ofNat (n + 1) := by
  rw [x.place, UInt32.ofNat_add, UInt32.mul_add, ← UInt32.add_assoc]
  rfl

/-- Where the machine goes on behind the delay slot. -/
def next (g : Machine) (i : Instr) (pc : UInt32) : UInt32 :=
  if (g.core.branchOutcome i pc).taken then (g.core.branchOutcome i pc).target else pc + 8

/-- **The branch opens its delay slot**, unless it skips it. -/
theorem opens (x : AtBranch s last G₀ n i slot pc g)
    (htaken : (g.core.branchOutcome i pc).likely = true →
      (g.core.branchOutcome i pc).taken = true) :
    ArrivesInSlot G₀ (n + 1) (g.linked i pc) (pc + 4) (next g i pc) := by
  have hstep := Machine.step_branch x.closed x.fetched x.branches x.ne_min htaken
  rw [cyclesAfter_succ] at hstep
  exact .succ x.arrives hstep

/-- **A likely branch that is not taken** skips its delay slot. -/
theorem skips (x : AtBranch s last G₀ n i slot pc g)
    (hlikely : (g.core.branchOutcome i pc).likely = true)
    (htaken : (g.core.branchOutcome i pc).taken = false) :
    Arrives G₀ (n + 1) (g.linked i pc) (pc + 8) := by
  have hstep := Machine.step_skip x.closed x.fetched x.branches x.ne_min hlikely htaken
  rw [cyclesAfter_succ] at hstep
  exact .succ x.arrives hstep

/-- **The delay slot of a branch.** -/
theorem leads_slot (x : AtBranch s last G₀ n i slot pc g) {policy : SlotPolicy}
    {f : Unit → Lowering Unit} (y : Stands s G₀ b h m (g.linked i pc))
    (hcount : b.progress.count = UInt32.ofNat (n + 1))
    (htaken : (g.core.branchOutcome i pc).likely = true →
      (g.core.branchOutcome i pc).taken = true)
    (hgrow : ∀ u b', Growing s (f u) k b')
    (hrest : ∀ b' h' m' g',
      AfterSlot slot pc policy { b with progress := b.progress.charge } h (g.linked i pc) b' h' m' g' →
      Stands s G₀ b' h' m' g' → Arrives G₀ (n + 2) g' (next g i pc) →
      b'.progress.count = UInt32.ofNat (n + 2) →
      leads code base last s (f ()) (Ends code s last G₀) (Nowhere Unit) b' h' m') :
    leads code base last s (delaySlot slot pc policy >>= f) (Ends code s last G₀) (Nowhere Unit)
      b h m := by
  refine leads_delaySlot y x.slot (x.opens htaken) x.place_slot x.all.le x.affords hgrow ?_
  intro b' h' m' g' hafter y' harrives
  refine hrest b' h' m' g' hafter y' harrives ?_
  rw [hafter.progress, UInt32.ofNat_add (n + 1) 1, ← hcount]
  rfl

/-- **The delay slot of a branch that goes on at one place.** -/
theorem leads_slotExit (x : AtBranch s last G₀ n i slot pc g) (y : Stands s G₀ b h m (g.linked i pc))
    (hcount : b.progress.count = UInt32.ofNat (n + 1))
    (htaken : (g.core.branchOutcome i pc).taken = true)
    (htarget : (g.core.branchOutcome i pc).target = target) :
    leads code base last s (do
      delaySlot slot pc .plain
      flushAll
      exitHere target) (Ends code s last G₀) (Nowhere Unit) b h m := by
  have hexit : ∀ (_ : Unit) b', Growing s (exitHere target) 0 b' := fun _ _ => growing_exitHere _
  refine x.leads_slot y hcount (fun _ => htaken)
    (fun _ _ => growing_straight straight_flushAll hexit) ?_
  intro b₁ h₁ m₁ g' hafter y₁ harrives hcount₁
  refine leads_flushAll y₁ hexit fun b₂ m₂ y₂ hcur hprogress => ?_
  rw [next, htaken, if_pos rfl, htarget] at harrives
  exact leads_exitHereAt (y₂.written hcur) (by rw [hprogress, hcount₁]) harrives x.all (x.kept _)

end AtBranch

/-- The counts behind `charge`. -/
theorem count_charge (hcount : b.progress.count = UInt32.ofNat n) :
    b.progress.charge.count = UInt32.ofNat (n + 1) := by
  rw [UInt32.ofNat_add, ← hcount]
  rfl

/-- What is counted does not matter to the machine. -/
theorem Stands.charge (y : Stands s G₀ b h m g) :
    Stands s G₀ { b with progress := b.progress.charge } h m g := ⟨y.shadows, y.clock, y.closed⟩

/-! ### Jumps -/

theorem link_jump (hfam : i.family = .jump) (g : Machine) (pc : UInt32) :
    g.linked i pc = if i.major == 3 then g.mapCore (·.setGpr 31 (pc + 8)) else g := by
  show Machine.mk (g.core.link i pc) g.memory = _
  rw [Core.link, hfam]
  dsimp only
  split <;> rfl

/-- **A jump within the region.** -/
theorem leads_jump (x : AtBranch s last G₀ n i slot pc g) (hfam : i.family = .jump)
    (y : Stands s G₀ b h m g) (hcount : b.progress.count = UInt32.ofNat n) :
    leads code base last s (jump i pc slot) (Ends code s last G₀) (Nowhere Unit) b h m := by
  have hfinish : ∀ (_ : Unit) b', Growing s (finish (pc + 8)) 0 b' := fun _ _ => growing_moveTo _
  have hbody : ∀ b', Growing s (do
      delaySlot slot pc .plain
      flushAll
      exitHere (i.jumpTarget pc)) 1 b' := fun _ => growing_bind (k := 0) (growing_delaySlot _ _ _)
    fun _ _ => growing_straight straight_flushAll fun _ _ => growing_exitHere _
  have hrest : ∀ b₁ h₁ m₁, Stands s G₀ b₁ h₁ m₁ (g.linked i pc) →
      b₁.progress.count = UInt32.ofNat (n + 1) → leads code base last s (do
        delaySlot slot pc .plain
        flushAll
        exitHere (i.jumpTarget pc)
        finish (pc + 8)) (Ends code s last G₀) (Nowhere Unit) b₁ h₁ m₁ := by
    intro b₁ h₁ m₁ y₁ hcount₁
    have htaken : (g.core.branchOutcome i pc).taken = true := by rw [Core.branchOutcome, hfam]
    have htarget : (g.core.branchOutcome i pc).target = i.jumpTarget pc := by
      rw [Core.branchOutcome, hfam]
    have hleads : leads code base last s _ (Ends code s last G₀) (Nowhere Unit) b₁ h₁ m₁ :=
      leads_bind_nowhere (hbody b₁) hfinish (x.leads_slotExit y₁ hcount₁ htaken htarget)
    simp only [bind_assoc] at hleads
    exact hleads
  have hgrow : ∀ (_ : Unit) b', Growing s (do
      delaySlot slot pc .plain
      flushAll
      exitHere (i.jumpTarget pc)
      finish (pc + 8)) 1 b' := by
    intro _ b'
    have hbind := growing_bind (k := 0) (hbody b') hfinish
    simp only [bind_assoc] at hbind
    exact hbind
  have hlink := link_jump hfam g pc
  unfold jump
  split
  · rename_i hmajor
    rw [if_pos hmajor] at hlink
    refine leads_charge (k := 1) (fun _ => growing_straight (straight_writeLink _ _) hgrow) ?_
    refine leads_bind_never (straight_writeLink _ _) hgrow
      (wp_writeLink y.charge.shadows fun b₁ h₁ core₁ x₁ hs₁ _ => ?_)
    rw [← hlink] at x₁
    have y₁ := y.charge.move x₁ (g.frame_linked i pc) hs₁.downcount
    exact hrest b₁ h₁ _ y₁ ((congrArg Progress.count hs₁.progress).trans (count_charge hcount))
  · rename_i hmajor
    rw [if_neg hmajor] at hlink
    refine leads_charge (hgrow ()) (hrest _ h m ?_ (count_charge hcount))
    rw [hlink]
    exact y.charge

theorem link_jumpRegister (hfam : i.family = .jumpRegister) (g : Machine) (pc : UInt32) :
    g.linked i pc = g.mapCore (·.setGpr (jumpLink i) (pc + 8)) := by
  show Machine.mk (g.core.link i pc) g.memory = Machine.mk (g.core.setGpr (jumpLink i) (pc + 8)) _
  rw [Core.link, hfam, jumpLink]
  dsimp only
  split
  · rfl
  · rw [Core.setGpr_zero]

/-- **The target register of an indirect jump**, behind a slot and a link that leave it alone. -/
theorem gpr_of_not_targetChanges (hfam : i.family = .jumpRegister)
    (hchanges : targetChanges i slot = false) (hz : g.core.ZeroKept) (hz' : g'.core.ZeroKept)
    (hexec : Machine.execute slot (pc + 4) (g.linked i pc) = .ok .normal g') :
    g'.core.gpr i.rs = g.core.gpr i.rs := by
  rw [targetChanges, Bool.or_eq_false_iff] at hchanges
  have hslot := Machine.reg_execute hchanges.1 hexec
  rw [link_jumpRegister hfam] at hslot
  have hlink : (g.core.setGpr (jumpLink i) (pc + 8)).reg (.gpr i.rs) = g.core.reg (.gpr i.rs) := by
    by_cases hzero : jumpLink i = 0
    · rw [hzero, Core.setGpr_zero]
    · refine Machine.reg_setGpr_of_ne _ (fun heq => ?_) _
      injection heq with heq
      have hand := hchanges.2
      rw [decide_eq_true hzero, Bool.true_and] at hand
      exact of_decide_eq_false hand heq.symm
  rw [← Core.reg_gpr hz, ← Core.reg_gpr hz']
  exact hslot.trans hlink

/-- A host register that the block uses for itself may be written. -/
theorem shadows_jumpTarget (x : b.Shadows h m g) (v : UInt32) :
    b.Shadows (h.set HostReg.jumpTarget v) m g := by
  refine x.changeHost (fun a ha => ?_) (fun _ _ => rfl) rfl
  rw [HostState.get_set, if_neg (ne_jumpTarget ha).symm]

/-- What an indirect jump does once its target is safe.  `act` says where the target is. -/
theorem leads_jumpTail (x : AtBranch s last G₀ n i slot pc g) (hfam : i.family = .jumpRegister)
    {act : Lowering HostReg} (hact : Straight s act) (y : Stands s G₀ b h m g)
    (hcount : b.progress.count = UInt32.ofNat (n + 1))
    (htarget : ∀ b' h' m' g',
      Machine.execute slot (pc + 4) (g.linked i pc) = .ok .normal g' → Stands s G₀ b' h' m' g' →
      m'.Current g' → h'.get HostReg.jumpTarget = h.get HostReg.jumpTarget →
      wp s act Never (fun a b'' h'' m'' => Stands s G₀ b'' h'' m'' g' ∧ m''.Current g' ∧
        b''.progress = b'.progress ∧ a ≠ HostReg.downcount ∧ h''.get a = g.core.gpr i.rs) b' h' m') :
    leads code base last s (do
      writeLink (jumpLink i) pc
      delaySlot slot pc .plain
      flushAll
      let target ← act
      subtractProgress
      emit (.exitDispatchReg target)
      finish (pc + 8)) (Ends code s last G₀) (Nowhere Unit) b h m := by
  have hleave : ∀ (a : HostReg) b', Growing s (do
      subtractProgress
      emit (.exitDispatchReg a)
      finish (pc + 8)) 0 b' := fun a _ => growing_leave (o := .exitDispatchReg a) trivial _
  have hflush : ∀ (_ : Unit) b', Growing s (do
      flushAll
      let target ← act
      subtractProgress
      emit (.exitDispatchReg target)
      finish (pc + 8)) 0 b' := fun _ _ =>
    growing_straight straight_flushAll fun _ _ => growing_straight hact hleave
  have htaken : (g.core.branchOutcome i pc).taken = true := by rw [Core.branchOutcome, hfam]
  have hnext : AtBranch.next g i pc = g.core.gpr i.rs := by
    rw [AtBranch.next, htaken, if_pos rfl, Core.branchOutcome, hfam]
  refine leads_bind_never (straight_writeLink _ _)
    (fun _ _ => growing_bind (k := 0) (growing_delaySlot _ _ _) hflush)
    (wp_writeLink y.shadows fun b₁ h₁ core₁ x₁ hs₁ _ => ?_)
  rw [← link_jumpRegister hfam] at x₁
  have y₁ := y.move x₁ (g.frame_linked i pc) hs₁.downcount
  refine x.leads_slot y₁ ((congrArg Progress.count hs₁.progress).trans hcount) (fun _ => htaken)
    hflush fun b₂ h₂ m₂ g' hafter y₂ harrives hcount₂ => ?_
  refine leads_flushAll y₂ (fun _ _ => growing_straight hact hleave) fun b₃ m₃ y₃ hcur₃ hp₃ => ?_
  have hget : h₂.get HostReg.jumpTarget = h.get HostReg.jumpTarget :=
    hafter.jumpTarget.trans hs₁.jumpTarget
  refine leads_bind_never hact hleave (wp_imp (htarget b₃ h₂ m₃ g' hafter.executed y₃ hcur₃ hget) ?_)
  rintro a b₄ h₄ m₄ ⟨y₄, hcur₄, hp₄, hne, hvalue⟩
  refine leads_leaveFor trivial (y₄.written hcur₄) (by rw [hp₄, hp₃, hcount₂]) ?_
  intro offset h' m' hfound hkeep hsettled
  refine .indirect harrives x.all hfound ?_ (x.kept _) (hsettled _)
  rw [hkeep a hne, hvalue]
  exact hnext.symm

/-- **An indirect jump.** -/
theorem leads_jumpRegister (x : AtBranch s last G₀ n i slot pc g) (hfam : i.family = .jumpRegister)
    (y : Stands s G₀ b h m g) (hcount : b.progress.count = UInt32.ofNat n) :
    leads code base last s (jumpRegister i pc slot) (Ends code s last G₀) (Nowhere Unit) b h m := by
  have htail : ∀ {act : Lowering HostReg}, Straight s act → ∀ b', Growing s (do
      writeLink (jumpLink i) pc
      delaySlot slot pc .plain
      flushAll
      let target ← act
      subtractProgress
      emit (.exitDispatchReg target)
      finish (pc + 8)) 1 b' := fun hact b' => by
    refine growing_straight (straight_writeLink _ _) fun _ _ => ?_
    refine growing_bind (k := 0) (growing_delaySlot _ _ _) fun _ _ => ?_
    refine growing_straight straight_flushAll fun _ _ => growing_straight hact fun a _ => ?_
    exact growing_leave (o := .exitDispatchReg a) trivial _
  unfold jumpRegister
  by_cases hchanges : targetChanges i slot = true
  · -- The target is copied to a register that neither the link nor the slot can reach.
    simp only [hchanges, if_true]
    have hgrow : ∀ (a : HostReg) b', Growing s (do
        move HostReg.jumpTarget a
        writeLink (jumpLink i) pc
        delaySlot slot pc .plain
        flushAll
        let target ← pure HostReg.jumpTarget
        subtractProgress
        emit (.exitDispatchReg target)
        finish (pc + 8)) 1 b' := fun a _ =>
      growing_straight (straight_move _ a) fun _ _ => htail (straight_pure _) _
    refine leads_charge (k := 1) (fun _ => growing_straight (straight_bindGpr _) hgrow) ?_
    refine leads_bind_never (straight_bindGpr _) hgrow
      (wp_bindGpr y.charge.shadows fun a b₁ h₁ core₁ x₁ k₁ ha _ => ?_)
    have y₁ := y.charge.keep x₁ k₁.steady
    have hlt := holds_lt ha
    have hmove : move HostReg.jumpTarget a = emit (.mov HostReg.jumpTarget a) :=
      if_neg (ne_jumpTarget hlt).symm
    have hvalue : h₁.get a = g.core.gpr i.rs := x₁.get_of_holds_gpr ha
    refine leads_bind_never (straight_move _ a) (fun _ _ => htail (straight_pure _) _) ?_
    rw [hmove]
    refine wp_emit_next trivial rfl ?_
    have y₂ : Stands s G₀ { b₁ with code := b₁.code.emit (Operation.mov HostReg.jumpTarget a).encode }
        (h₁.set HostReg.jumpTarget (h₁.get a)) ⟨core₁, m.memory⟩ g := by
      refine y₁.move (shadows_jumpTarget x₁ _) rfl ?_
      rw [HostState.get_set, if_neg (by decide)]
    refine leads_jumpTail x hfam (straight_pure _) y₂
      ((congrArg Progress.count k₁.progress).trans (count_charge hcount)) ?_
    intro b' h' m' g' _ y' hcur hget
    refine wp_pure ⟨y', hcur, rfl, by decide, ?_⟩
    rw [hget, HostState.get_set, if_pos rfl, hvalue]
  · -- The target is read from its register behind the slot.
    have hchanges := Bool.eq_false_iff.mpr hchanges
    simp only [hchanges]
    have hgrow : ∀ (a : HostReg) b', Growing s (do
        writeLink (jumpLink i) pc
        delaySlot slot pc .plain
        flushAll
        let target ← bindGpr i.rs
        subtractProgress
        emit (.exitDispatchReg target)
        finish (pc + 8)) 1 b' := fun _ b' => htail (straight_bindGpr _) b'
    refine leads_charge (k := 1) (fun _ => growing_straight (straight_bindGpr _) hgrow) ?_
    refine leads_bind_never (straight_bindGpr _) hgrow
      (wp_bindGpr y.charge.shadows fun _ b₁ h₁ core₁ x₁ k₁ _ _ => ?_)
    have y₁ := y.charge.keep x₁ k₁.steady
    refine leads_jumpTail x hfam (straight_bindGpr _) y₁
      ((congrArg Progress.count k₁.progress).trans (count_charge hcount)) ?_
    intro b' h' m' g' hexec y' hcur _
    refine wp_bindGpr y'.shadows fun a b'' h'' core'' x'' k'' ha hcur'' => ?_
    refine ⟨y'.keep x'' k''.steady, hcur'' hcur, k''.progress, ne_downcount (holds_lt ha), ?_⟩
    rw [x''.get_of_holds_gpr ha]
    exact gpr_of_not_targetChanges hfam hchanges y.shadows.zero y'.shadows.zero hexec

/-! ### Conditional branches -/

/-- A branch that depends on a condition. -/
def IsConditional (i : Instr) : Prop :=
  i.family = .branch ∨ i.family = .branchSign ∨ i.family = .vectorBranch

theorem IsConditional.likely (hfam : IsConditional i) (g : Machine) (pc : UInt32) :
    (g.core.branchOutcome i pc).likely = i.isLikely := by
  rw [Core.branchOutcome, Instr.isLikely]
  rcases hfam with hfam | hfam | hfam <;> rw [hfam]

theorem IsConditional.leadsTo (hfam : IsConditional i) (g : Machine) (pc : UInt32) :
    (g.core.branchOutcome i pc).target = i.branchTarget pc := by
  rw [Core.branchOutcome]
  rcases hfam with hfam | hfam | hfam <;> rw [hfam]

/-- A branch on equality of a register with itself is taken. -/
theorem taken_of_isAlwaysTaken (halways : i.isAlwaysTaken = true) (g : Machine) (pc : UInt32) :
    (g.core.branchOutcome i pc).taken = true := by
  rw [Instr.isAlwaysTaken, Bool.and_eq_true, Bool.and_eq_true, decide_eq_true_eq, beq_iff_eq,
    decide_eq_true_eq] at halways
  obtain ⟨⟨hfam, hmajor⟩, hsame⟩ := halways
  rw [compareBranch_taken hfam, hmajor, hsame]
  exact beq_self_eq_true _

/-- **The two exits of a branch**, when the host decides as the reference machine did. -/
theorem leads_branchExits (x : AtBranch s last G₀ n i slot pc g) {condition : Condition}
    (y : Written s G₀ h m g') (harrives : Arrives G₀ (n + 2) g' (AtBranch.next g i pc))
    (hcount : b.progress.count = UInt32.ofNat (n + 2)) (hfam : IsConditional i)
    (hholds : h.holds condition = (g.core.branchOutcome i pc).taken) :
    leads code base last s (branchExits condition (i.branchTarget pc) (pc + 8))
      (Ends code s last G₀) (Nowhere Unit) b h m := by
  have hexit : ∀ target, AtBranch.next g i pc = target → ∀ b', leads code base last s
      (exitTo target (UInt32.ofNat (n + 2))) (Ends code s last G₀) (Nowhere Unit) b' h m := by
    intro target hnext b'
    rw [hnext] at harrives
    exact leads_exitAt y harrives (.inl x.all) (x.kept _)
  unfold branchExits
  refine leads_bind_never straight_get (fun _ _ => growing_fork (fun _ _ => growing_exitTo _ _)
    (fun _ _ _ _ => sameLabels_exitTo) fun _ _ => growing_exitTo _ _) (wp_get ?_)
  rw [hcount]
  refine leads_fork (fun _ _ => growing_exitTo _ _) (fun _ _ _ _ => sameLabels_exitTo)
    (fun _ _ => growing_exitTo _ _) (fun _ _ _ _ => offset_lt_of_exitTo) x.small
      (fun hno l => hexit _ ?_ _) fun hyes l b' => hexit _ ?_ b'
  · rw [AtBranch.next, ← hholds, hno]
    rfl
  · rw [AtBranch.next, ← hholds, hyes, if_pos rfl, hfam.leadsTo]

theorem linked_branch (hfam : i.family = .branch) (g : Machine) (pc : UInt32) :
    g.linked i pc = g := by
  show Machine.mk (g.core.link i pc) g.memory = g
  rw [Core.link, hfam]

theorem growing_linkedSlot (i : Instr) (pc : UInt32) (slot : Instr) (policy : SlotPolicy)
    {f : Unit → Lowering Unit} (hf : ∀ u b', Growing s (f u) 0 b') (b' : Builder) :
    Growing s (do
      writeBranchLink i pc
      delaySlot slot pc policy
      f ()) 1 b' :=
  growing_straight (straight_writeBranchLink i pc) fun _ _ =>
    growing_bind (k := 0) (growing_delaySlot _ _ _) fun _ _ => hf () _

/-- **A conditional branch that always runs its slot.** -/
theorem leads_ordinaryBranch (x : AtBranch s last G₀ n i slot pc g) (hfam : IsConditional i)
    (hlikely : i.isLikely = false) (y : Stands s G₀ b h m g)
    (hcount : b.progress.count = UInt32.ofNat (n + 1)) :
    leads code base last s (ordinaryBranch i pc slot) (Ends code s last G₀) (Nowhere Unit)
      b h m := by
  have hruns : (g.core.branchOutcome i pc).likely = true →
      (g.core.branchOutcome i pc).taken = true := by
    rw [hfam.likely, hlikely]
    intro hno
    cases hno
  have hexits : ∀ (condition : Condition) b', Growing s
      (branchExits condition (i.branchTarget pc) (pc + 8)) 0 b' := fun _ _ => growing_branchExits _ _ _
  unfold ordinaryBranch
  split
  · rename_i halways
    have hbranch : i.family = .branch := by
      rw [Instr.isAlwaysTaken, Bool.and_eq_true, Bool.and_eq_true] at halways
      exact of_decide_eq_true halways.1.1
    rw [← linked_branch hbranch g pc] at y
    exact x.leads_slotExit y hcount (taken_of_isAlwaysTaken halways g pc) (hfam.leadsTo g pc)
  split
  · -- The compared words are kept across the slot.
    have hlink := fun condition => growing_linkedSlot (s := s) i pc slot .guarded
      fun _ => hexits condition
    refine leads_bind_never (straight_compareOperands i)
      (fun condition _ => growing_straight straight_releaseLocks fun _ => hlink condition)
      (wp_compareOperands pc y.shadows hfam fun condition b₁ h₁ core₁ hcompare => ?_)
    have y₁ := y.keep hcompare.shadows hcompare.steady
    refine leads_bind_never straight_releaseLocks (fun _ => hlink condition)
      (wp_releaseLocks y₁.shadows fun b₂ x₂ hs₂ _ => ?_)
    have y₂ := y₁.keep x₂ hs₂
    refine leads_bind_never (straight_writeBranchLink i pc)
      (fun _ _ => growing_bind (k := 0) (growing_delaySlot _ _ _) fun _ => hexits condition)
      (wp_writeBranchLink y₂.shadows hfam fun b₃ h₃ core₃ x₃ hs₃ hflags₃ => ?_)
    have y₃ := y₂.move x₃ (g.frame_linked i pc) hs₃.downcount
    have hcount₃ : b₃.progress.count = UInt32.ofNat (n + 1) := by
      rw [hs₃.progress, hs₂.progress, hcompare.steady.progress, hcount]
    refine x.leads_slot y₃ hcount₃ hruns (fun _ => hexits condition) ?_
    intro b₄ h₄ m₄ g' hafter y₄ harrives hcount₄
    refine leads_branchExits x (y₄.written (hafter.current (by decide))) harrives hcount₄ hfam ?_
    have hholds : h₁.holds condition = (g.core.branchOutcome i pc).taken := hcompare.compared
    rw [HostState.holds, hafter.flags rfl, hflags₃]
    exact hholds
  · -- The slot and the link leave alone what is compared behind them.
    rename_i hafter
    have hafter : compareBeforeSlot i slot = false := Bool.eq_false_iff.mpr hafter
    have hcompared : ∀ (_ : Unit) b', Growing s (do
        let condition ← compareOperands i
        branchExits condition (i.branchTarget pc) (pc + 8)) 0 b' := fun _ _ =>
      growing_straight (straight_compareOperands i) hexits
    refine leads_bind_never (straight_writeBranchLink i pc)
      (fun _ _ => growing_bind (k := 0) (growing_delaySlot _ _ _) fun _ _ =>
        growing_straight straight_flushAll hcompared)
      (wp_writeBranchLink y.shadows hfam fun b₁ h₁ core₁ x₁ hs₁ _ => ?_)
    have y₁ := y.move x₁ (g.frame_linked i pc) hs₁.downcount
    refine x.leads_slot y₁ ((congrArg Progress.count hs₁.progress).trans hcount) hruns
      (fun _ _ => growing_straight straight_flushAll hcompared) ?_
    intro b₂ h₂ m₂ g' hslot y₂ harrives hcount₂
    refine leads_flushAll y₂ hcompared fun b₃ m₃ y₃ hcur₃ hp₃ => ?_
    refine leads_bind_never (straight_compareOperands i) hexits
      (wp_compareOperands pc y₃.shadows hfam fun condition b₄ h₄ core₄ hcompare => ?_)
    have y₄ := y₃.keep hcompare.shadows hcompare.steady
    refine leads_branchExits x (y₄.written (hcompare.current hcur₃)) harrives
      (by rw [hcompare.steady.progress, hp₃, hcount₂]) hfam ?_
    have hholds : h₄.holds condition = (g'.core.branchOutcome i pc).taken := hcompare.compared
    rw [hholds]
    exact taken_of_compareAfter hfam hafter y.shadows.zero hslot.executed

/-- **A likely branch** runs its slot on the path that is taken only. -/
theorem leads_likelyBranch (x : AtBranch s last G₀ n i slot pc g) (hfam : IsConditional i)
    (hlikely : i.isLikely = true) (y : Stands s G₀ b h m g)
    (hcount : b.progress.count = UInt32.ofNat (n + 1)) :
    leads code base last s (likelyBranch i pc slot) (Ends code s last G₀) (Nowhere Unit) b h m := by
  have hskips : (g.core.branchOutcome i pc).likely = true := by rw [hfam.likely, hlikely]
  have hexits : ∀ (condition : Condition) (b₀ b' : Builder), Growing s (do
      let notTaken ← newLabel
      jumpForward condition.invert notTaken
      delaySlot slot pc .flushed
      exitHere (i.branchTarget pc)
      placeLabel notTaken
      exitTo (pc + 8) b₀.progress.count) 1 b' := fun _ _ _ => growing_likelyExits _ _ _ _ _ _
  have hget := fun condition (_ : Unit) (b' : Builder) =>
    growing_straight (b := b') straight_get (hexits condition)
  unfold likelyBranch
  refine leads_bind_never (straight_compareOperands i)
    (fun condition _ => growing_straight straight_releaseLocks fun _ _ =>
      growing_straight (straight_writeBranchLink i pc) fun _ _ =>
        growing_straight straight_flushAll (hget condition))
    (wp_compareOperands pc y.shadows hfam fun condition b₁ h₁ core₁ hcompare => ?_)
  have y₁ := y.keep hcompare.shadows hcompare.steady
  refine leads_bind_never straight_releaseLocks
    (fun _ _ => growing_straight (straight_writeBranchLink i pc) fun _ _ =>
      growing_straight straight_flushAll (hget condition))
    (wp_releaseLocks y₁.shadows fun b₂ x₂ hs₂ _ => ?_)
  have y₂ := y₁.keep x₂ hs₂
  refine leads_bind_never (straight_writeBranchLink i pc)
    (fun _ _ => growing_straight straight_flushAll (hget condition))
    (wp_writeBranchLink y₂.shadows hfam fun b₃ h₃ core₃ x₃ hs₃ hflags₃ => ?_)
  have y₃ := y₂.move x₃ (g.frame_linked i pc) hs₃.downcount
  refine leads_flushAll y₃ (hget condition) fun b₄ m₄ y₄ hcur₄ hp₄ => ?_
  have hcount₄ : b₄.progress.count = UInt32.ofNat (n + 1) := by
    rw [hp₄, hs₃.progress, hs₂.progress, hcompare.steady.progress, hcount]
  have hcompared : h₁.holds condition = (g.core.branchOutcome i pc).taken := hcompare.compared
  have hholds : h₃.holds condition.invert = !(g.core.branchOutcome i pc).taken := by
    rw [holds_invert, HostState.holds, hflags₃]
    exact congrArg not hcompared
  refine leads_bind_never straight_get (hexits condition) (wp_get ?_)
  rw [hcount₄]
  have hslot : ∀ b', Growing s (do
      delaySlot slot pc .flushed
      exitHere (i.branchTarget pc)) 1 b' := fun _ =>
    growing_bind (k := 0) (growing_delaySlot _ _ _) fun _ _ => growing_exitHere _
  have hfork : leads code base last s (do
      let notTaken ← newLabel
      jumpForward condition.invert notTaken
      (delaySlot slot pc .flushed >>= fun _ => exitHere (i.branchTarget pc))
      placeLabel notTaken
      exitTo (pc + 8) (UInt32.ofNat (n + 1))) (Ends code s last G₀) (Nowhere Unit) b₄ h₃ m₄ := by
    refine leads_fork (fun _ => hslot) (fun _ _ _ _ => sameLabels_slotExit)
      (fun _ _ => growing_exitTo _ _) (fun _ _ _ _ => offset_lt_of_exitTo) x.small (fun hno l => ?_)
        fun hyes l b' => ?_
    · have htaken : (g.core.branchOutcome i pc).taken = true := by simpa [hno] using hholds
      have y₅ : Stands s G₀ (pushJump (withLabel b₄) condition.invert l) h₃ m₄ (g.linked i pc) :=
        ⟨y₄.shadows, y₄.clock, y₄.closed⟩
      refine x.leads_slot y₅ hcount₄ (fun _ => htaken) (fun _ _ => growing_exitHere _) ?_
      intro b₆ h₆ m₆ g' hafter y₆ harrives hcount₆
      rw [AtBranch.next, htaken, if_pos rfl, hfam.leadsTo] at harrives
      exact leads_exitHereAt (y₆.written (hafter.current (by decide))) hcount₆ harrives x.all
        (x.kept _)
    · have htaken : (g.core.branchOutcome i pc).taken = false := by simpa [hyes] using hholds
      refine leads_exitAt (y₄.written hcur₄) (x.skips hskips htaken) (.inr ?_) (x.kept _)
      exact ⟨x.all, x.stop.symm, pc, i.word, x.stop, x.compiled, hlikely⟩
  simp only [bind_assoc] at hfork
  exact hfork

/-- **A conditional branch.** -/
theorem leads_branch (x : AtBranch s last G₀ n i slot pc g) (hfam : IsConditional i)
    (y : Stands s G₀ b h m g) (hcount : b.progress.count = UInt32.ofNat n) :
    leads code base last s (branch i pc slot) (Ends code s last G₀) (Nowhere Unit) b h m := by
  have hfinish : ∀ (_ : Unit) b', Growing s (finish (pc + 8)) 0 b' := fun _ _ => growing_moveTo _
  have hbranch : ∀ {act : Lowering Unit}, (∀ b', Growing s act 1 b') →
      leads code base last s act (Ends code s last G₀) (Nowhere Unit)
        { b with progress := b.progress.charge } h m →
      leads code base last s (do
        charge
        act
        finish (pc + 8)) (Ends code s last G₀) (Nowhere Unit) b h m := fun hgrow hact =>
    leads_charge (k := 1) (fun b' => growing_bind (hgrow b') hfinish)
      (leads_bind_nowhere (hgrow _) hfinish hact)
  unfold branch
  cases hlikely : i.isLikely with
  | true =>
    simp only [if_true]
    exact hbranch (fun _ => growing_likelyBranch i pc slot)
      (leads_likelyBranch x hfam hlikely y.charge (count_charge hcount))
  | false =>
    simp only [Bool.false_eq_true, if_false]
    exact hbranch (fun _ => growing_ordinaryBranch i pc slot)
      (leads_ordinaryBranch x hfam hlikely y.charge (count_charge hcount))

/-! ### Every end of a block -/

theorem not_leaves_self (s : Setting) (pc : UInt32) : ¬ s.Leaves pc pc := by
  rintro ⟨hstop, -⟩
  have hzero : (8 : UInt32) = 0 :=
    (UInt32.add_right_inj pc).mp (hstop.symm.trans (UInt32.add_zero pc).symm)
  exact absurd hzero (by decide)

/-- **The end in front of an instruction that is not in the block.** -/
theorem leads_endBlock (y : Stands s G₀ b h m g) (harrives : Arrives G₀ n g pc)
    (hcount : b.progress.count = UInt32.ofNat n) (hall : n = last.progress.count.toNat)
    (hstop : last.progress.pc = pc) :
    leads code base last s (endBlock pc) (Ends code s last G₀) (Nowhere Unit) b h m := by
  have hfinish : ∀ (_ : Unit) b', Growing s (finish pc) 0 b' := fun _ _ => growing_moveTo _
  unfold endBlock
  refine leads_flushAll y (fun _ _ => growing_bind (growing_exitHere _) hfinish)
    fun b₁ m₁ y₁ hcur₁ hp₁ => leads_bind_nowhere (growing_exitHere _) hfinish ?_
  refine leads_exitHereAt (y₁.written hcur₁) (by rw [hp₁, hcount]) harrives hall ?_
  rw [hstop]
  exact not_leaves_self s pc

/-- **A branch that is left to the interpreter.** -/
theorem leads_leaveToInterpreter (y : Stands s G₀ b h m g) (harrives : Arrives G₀ n g pc)
    (hcount : b.progress.count = UInt32.ofNat n) (hall : n = last.progress.count.toNat)
    (hleaves : s.Leaves last.progress.pc pc) :
    leads code base last s (leaveToInterpreter pc) (Ends code s last G₀) (Nowhere Unit) b h m := by
  unfold leaveToInterpreter
  refine leads_flushAll y (fun _ _ => growing_leave (o := .exitInterpret pc) trivial _)
    fun b₁ m₁ y₁ hcur₁ hp₁ => ?_
  refine leads_leaveFor trivial (y₁.written hcur₁) (by rw [hp₁, hcount]) ?_
  intro offset h' m' hfound _ hsettled
  exact .interpret harrives hall hfound hleaves (hsettled pc)

/-- **A request to the system.** -/
theorem leads_syscall (y : Stands s G₀ b h m g) (harrives : Arrives G₀ n g pc)
    (hcount : b.progress.count = UInt32.ofNat n) (hall : n + 1 = last.progress.count.toNat)
    (hafford : Affords last G₀) (hfetch : g.memory.fetch? pc = some i.word)
    (hfam : i.family = .syscall) (hstop : last.progress.pc = pc + 4) :
    leads code base last s (syscall i pc) (Ends code s last G₀) (Nowhere Unit) b h m := by
  have hleave : ∀ (_ : Unit) b', Growing s (do
      subtractProgress
      emit (.exitSyscall i.code (pc + 4))
      finish (pc + 4)) 0 b' := fun _ _ =>
    growing_leave (o := .exitSyscall i.code (pc + 4)) (code_lt i) _
  have hstep := Machine.step_syscall y.closed hfetch hfam (hafford n hall.le)
  rw [cyclesAfter_succ] at hstep
  unfold syscall
  refine leads_charge (fun _ => growing_straight straight_flushAll hleave) ?_
  refine leads_flushAll y.charge hleave fun b₁ m₁ y₁ hcur₁ hp₁ => ?_
  refine leads_leaveFor (code_lt i) (y₁.written hcur₁)
    ((congrArg Progress.count hp₁).trans (count_charge hcount)) ?_
  intro offset h' m' hfound _ hsettled
  exact .syscall harrives hall hstep hfound hstop (hsettled _)

/-- **A breakpoint.** -/
theorem leads_breakpoint (y : Stands s G₀ b h m g) (harrives : Arrives G₀ n g pc)
    (hcount : b.progress.count = UInt32.ofNat n) (hall : n + 1 = last.progress.count.toNat)
    (hafford : Affords last G₀) (hfetch : g.memory.fetch? pc = some i.word)
    (hfam : i.family = .breakpoint) (hstop : last.progress.pc = pc + 4) :
    leads code base last s (breakpoint pc) (Ends code s last G₀) (Nowhere Unit) b h m := by
  have hleave : ∀ (_ : Unit) b', Growing s (do
      subtractProgress
      emit (.exitBreak pc)
      finish (pc + 4)) 0 b' := fun _ _ => growing_leave (o := .exitBreak pc) trivial _
  have hstep := Machine.step_breakpoint y.closed hfetch hfam (hafford n hall.le)
  rw [cyclesAfter_succ] at hstep
  unfold breakpoint
  refine leads_charge (fun _ => growing_straight straight_flushAll hleave) ?_
  refine leads_flushAll y.charge hleave fun b₁ m₁ y₁ hcur₁ hp₁ => ?_
  refine leads_leaveFor trivial (y₁.written hcur₁)
    ((congrArg Progress.count hp₁).trans (count_charge hcount)) ?_
  intro offset h' m' hfound _ hsettled
  have hstep : Machine.step (g.at pc (cyclesAfter G₀.core.downcount n)) =
      .ok .breakpoint ((g.at (pc + 4) (cyclesAfter G₀.core.downcount (n + 1))).stopped pc) := hstep
  exact .breakpoint harrives hall hstep hfound hstop rfl (hsettled _)

theorem hasDelaySlot_of_isTerminator (hfam : i.family.isTerminator = true)
    (hs : i.family ≠ .syscall) (hb : i.family ≠ .breakpoint) : i.family.hasDelaySlot = true := by
  revert hfam hs hb
  cases i.family <;> decide

theorem isConditional_of_hasDelaySlot (hfam : i.family.hasDelaySlot = true)
    (hjump : i.family ≠ .jump) (hregister : i.family ≠ .jumpRegister) : IsConditional i := by
  rw [IsConditional]
  revert hfam hjump hregister
  cases i.family <;> decide

/-- **Every instruction that ends a block.** -/
theorem leads_terminator (y : Stands s G₀ b h m g) (harrives : Arrives G₀ n g pc)
    (hcount : b.progress.count = UInt32.ofNat n) (hplace : pc = s.start + 4 * UInt32.ofNat n)
    (hfetch : s.memory.fetch? pc = some i.word) (hfam : i.family.isTerminator = true)
    (hall : n + terminatorCount s.memory i pc = last.progress.count.toNat)
    (hafford : Affords last G₀) (hstop : last.progress.pc = terminatorStop i pc)
    (hsmall : last.code.offset ≤ 2 ^ 32) :
    leads code base last s (terminator i pc) (Ends code s last G₀) (Nowhere Unit) b h m := by
  have hstale : n < last.progress.count.toNat → g.memory.fetch? pc ≠ s.memory.fetch? pc →
      Ends code s last G₀ ⟨b.code.offset, h, m⟩ := fun hlt hne =>
    .stale harrives hlt y.shadows.memory hplace hne
  refine leads_congr (terminator_eq i pc s b) ?_
  unfold terminatorWith
  split
  · rename_i hs
    rw [terminatorCount, hs] at hall
    rw [terminatorStop, hs] at hstop
    by_cases hsame : g.memory.fetch? pc = s.memory.fetch? pc
    · exact leads_syscall y harrives hcount hall hafford (hsame.trans hfetch) hs hstop
    · exact leads_of_ends (hstale hall.le hsame)
  · rename_i hb
    rw [terminatorCount, hb] at hall
    rw [terminatorStop, hb] at hstop
    by_cases hsame : g.memory.fetch? pc = s.memory.fetch? pc
    · exact leads_breakpoint y harrives hcount hall hafford (hsame.trans hfetch) hb hstop
    · exact leads_of_ends (hstale hall.le hsame)
  · rename_i hs hb
    have hbranches := hasDelaySlot_of_isTerminator hfam hs hb
    rw [terminatorCount_slot hs hb] at hall
    rw [terminatorStop_slot hs hb] at hstop
    cases hslot : delaySlot? s.memory pc with
    | none =>
      rw [hslot] at hall
      exact leads_leaveToInterpreter y harrives hcount hall ⟨hstop, _, hfetch, hbranches, hslot⟩
    | some slot =>
      rw [hslot] at hall
      by_cases hsame : g.memory.fetch? pc = s.memory.fetch? pc
      · have x : AtBranch s last G₀ n i slot pc g :=
          ⟨y.closed, harrives, hplace, hsame.trans hfetch, hfetch, hbranches, hslot, hall, hafford,
            hstop, hsmall⟩
        dsimp only
        split
        · rename_i hjump
          exact leads_jump x hjump y hcount
        · rename_i hjump
          exact leads_jumpRegister x hjump y hcount
        · rename_i hjump hregister
          exact leads_branch x (isConditional_of_hasDelaySlot hbranches hjump hregister) y hcount
      · exact leads_of_ends (hstale (hall ▸ Nat.lt_add_of_pos_right Nat.two_pos) hsame)

end Lowering

end Dynarec
