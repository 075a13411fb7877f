import Dynarec.Proofs.Lower.Terminators

/-!
# What the code of a block does

By induction on the instructions of a block, its code leads to one of the ways in which it ends,
with the reference machine as many instructions further (`ends_of_instructions`).  What carries the
induction is that host and machine stand for the reference machine in front of every instruction,
and that its program counter is the start of the block and as many words as were counted.
-/

namespace Dynarec

namespace Lowering

variable {code : Array HostWord} {base n : Nat} {last : Builder} {s : Setting} {b b' : Builder}
  {h : HostState} {m g G₀ : Machine} {i : Instr} {pc : UInt32}

/-! ### One instruction -/

theorem wp_checkSpace {F : Outcome → Prop} {Q : Unit → Builder → HostState → Machine → Prop}
    (hQ : Q () b h m) : wp s checkSpace F Q b h m := by
  unfold checkSpace
  refine wp_bind (wp_get ?_)
  split
  · exact wp_bind (wp_read wp_throw)
  · exact wp_pure hQ

/-- **The reference machine is in front of the instruction at `pc`**, after `n` instructions. -/
structure Abreast (s : Setting) (G₀ : Machine) (n : Nat) (pc : UInt32) (b : Builder) (h : HostState)
    (m g : Machine) : Prop where
  stands : Stands s G₀ b h m g
  arrives : Arrives G₀ n g pc
  counted : b.progress.count = UInt32.ofNat n
  place : pc = s.start + 4 * UInt32.ofNat n

/-- **An instruction that does not end the block.** -/
theorem leads_bodyInstruction (x : Abreast s G₀ n pc b h m g)
    (hfetch : s.memory.fetch? pc = some i.word) (hfam : i.family.isTerminator = false)
    (hbound : n < last.progress.count.toNat) (hafford : Affords last G₀) :
    leads code base last s (bodyInstruction i pc) (Ends code s last G₀)
      (fun _ b' h' m' => ∃ g', Abreast s G₀ (n + 1) (pc + 4) b' h' m' g') b h m := by
  have hend : ∀ (_ : Unit) b', Growing s (do
      releaseLocks
      checkSpace) 0 b' := fun _ _ =>
    growing_of_straight (straight_bind straight_releaseLocks fun _ => straight_checkSpace)
  have hmove : ∀ (_ : Unit) b', Growing s (do
      moveTo (pc + 4)
      releaseLocks
      checkSpace) 0 b' := fun _ _ => growing_zero (growing_moveTo _) hend
  unfold bodyInstruction
  by_cases hsame : g.memory.fetch? pc = s.memory.fetch? pc
  case neg =>
    exact leads_of_ends (.stale x.arrives hbound x.stands.shadows.memory x.place hsame)
  rw [hfetch] at hsame
  refine leads_charge (fun _ => growing_straight (straight_plain i pc) hmove) ?_
  refine leads_bind (growing_of_straight (straight_plain i pc)) hmove
    (leads_of_wp (wp_imp (correct_plain hfam _ h m g x.stands.charge.shadows) ?_) ?_)
  · rintro _ b₁ h₁ m₁ ⟨g', hexec, x₁, hs₁⟩ -
    have hframe := Machine.frame_execute (Machine.ne_breakpoint hfam) hexec
    have hstep := Machine.step_plain x.stands.closed hsame hfam hexec (hafford n hbound)
    rw [cyclesAfter_succ] at hstep
    have y₁ := x.stands.charge.move x₁ hframe hs₁.downcount
    have hcount₁ := (congrArg Progress.count hs₁.progress).trans (count_charge x.counted)
    have y₂ : Stands s G₀ { b₁ with progress := { b₁.progress with pc := pc + 4 } } h₁ m₁ g' :=
      ⟨y₁.shadows, y₁.clock, y₁.closed⟩
    refine leads_silent rfl rfl rfl ?_ ⟨0, hend () _⟩
    refine leads_of_never (wp_bind (wp_releaseLocks y₂.shadows fun b₃ x₃ hs₃ _ => wp_checkSpace ?_))
    refine ⟨g', y₂.keep x₃ hs₃, .succ x.arrives hstep, ?_, ?_⟩
    · exact (congrArg Progress.count hs₃.progress).trans hcount₁
    · rw [x.place, UInt32.ofNat_add, UInt32.mul_add, ← UInt32.add_assoc]
      rfl
  · rintro c hreach ⟨op, hop, ⟨t, g', h', hexec, hget, hperform⟩ | ⟨v, g', hexec, hperform⟩⟩
    · exact .trap x.arrives hbound hop hperform (Machine.fails_at hsame hfam hexec)
        (Machine.coincides_at _ _ _) (x.stands.unspent hget _)
    · exact .broken x.arrives hbound hop hperform (Machine.fails_at hsame hfam hexec)

/-! ### All instructions -/

theorem toNat_count {k : Nat} (hcount : b.progress.count = UInt32.ofNat n)
    (hlast : last.progress.count = b.progress.count + UInt32.ofNat k) (hlt : n + k < 2 ^ 32) :
    last.progress.count.toNat = n + k := by
  rw [hlast, hcount, ← UInt32.ofNat_add]
  exact UInt32.toNat_ofNat_of_lt' hlt

/-- What leads nowhere leads to an end of the block. -/
theorem ends_of_leads {act : Lowering Unit} (y : Way code base last b)
    (hok : act s b = .ok ((), b')) (hlast : b'.Extends last)
    (hleads : leads code base last s act (Ends code s last G₀) (Nowhere Unit) b h m) :
    ∃ c, Host.Reaches code ⟨b.code.offset, h, m⟩ c ∧ Ends code s last G₀ c := by
  rcases hleads y _ _ hok hlast with ⟨_, _, _, hno⟩ | hend
  · exact hno.elim
  · exact hend

theorem progress_lastInstruction {u : Unit} (hok : lastInstruction i pc s b = .ok (u, b')) :
    b'.progress.pc = terminatorStop i pc := by
  obtain ⟨_, b₁, hterm, hrest⟩ := bind_eq_ok hok
  obtain ⟨_, -, hprogress⟩ := straight_bind straight_releaseLocks (fun _ => straight_checkSpace)
    b₁ _ _ hrest
  have hstop := hterm
  rw [terminator_eq] at hstop
  rw [hprogress]
  exact pc_of_closes (closes_terminatorWith _ i pc) hstop

theorem ends_of_endBlock (y : Way code base last b) (hok : endBlock pc s b = .ok ((), last))
    (x : Abreast s G₀ n pc b h m g) (hlt : n < 2 ^ 32) :
    ∃ c, Host.Reaches code ⟨b.code.offset, h, m⟩ c ∧ Ends code s last G₀ c := by
  have hcount := toNat_count x.counted (growing_endBlock pc _ _ hok).2 hlt
  exact ends_of_leads y hok (.refl last) (leads_endBlock x.stands x.arrives x.counted hcount.symm
    (pc_of_closes (closes_endBlock pc) hok))

/-- **The code of the instructions from `pc` on leads to an end of the block.** -/
theorem ends_of_instructions {room : Nat} (y : Way code base last b)
    (hok : instructions room pc s b = .ok ((), last)) (x : Abreast s G₀ n pc b h m g)
    (hroom : n + room + 1 < 2 ^ 32) (hafford : Affords last G₀) (hsmall : last.code.offset ≤ 2 ^ 32) :
    ∃ c, Host.Reaches code ⟨b.code.offset, h, m⟩ c ∧ Ends code s last G₀ c := by
  induction room generalizing n pc b h m g with
  | zero => exact ends_of_endBlock y hok x (by omega)
  | succ room ih =>
    rcases instructions_ok hok with ⟨-, hok⟩ | ⟨word, hfetch, ⟨hterm, hok⟩ | ⟨hterm, b₁, hbody, hrest⟩⟩
    · exact ends_of_endBlock y hok x (by omega)
    · have hle := terminatorCount_le s.memory ⟨word⟩ pc
      have hcount := toNat_count x.counted (growing_lastInstruction _ pc _ _ hok).2 (by omega)
      have hstraight : ∀ (_ : Unit) b', Growing s (do
          releaseLocks
          checkSpace) 0 b' := fun _ _ =>
        growing_of_straight (straight_bind straight_releaseLocks fun _ => straight_checkSpace)
      refine ends_of_leads y hok (.refl last) (leads_bind_nowhere (growing_terminator _ pc)
        hstraight ?_)
      exact leads_terminator x.stands x.arrives x.counted x.place hfetch hterm hcount.symm hafford
        (progress_lastInstruction hok) hsmall
    · obtain ⟨hext, hcount⟩ := growing_bodyInstruction _ pc _ _ hbody
      obtain ⟨hext', k, hk, hcount'⟩ := growing_instructions hrest
      have hcount₁ : b₁.progress.count = UInt32.ofNat (n + 1) := by
        rw [hcount, x.counted, UInt32.ofNat_add]
      have hlast := toNat_count hcount₁ hcount' (by omega)
      rcases leads_bodyInstruction x hfetch hterm (by omega) hafford y _ _ hbody hext' with
        ⟨h', m', hreach, g', x'⟩ | hends
      · obtain ⟨c, hreach', hends⟩ := ih (y.step hext hext') hrest x' (by omega)
        exact ⟨c, hreach.trans hreach', hends⟩
      · exact hends

end Lowering

end Dynarec
