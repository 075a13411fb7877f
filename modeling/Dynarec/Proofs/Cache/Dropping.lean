import Dynarec.Proofs.Cache.Links

/-!
# Links of a dropped block

A block is dropped in three steps.  It is withdrawn from the index (`withdraw`); the exits that jump
to it are pointed back at the dispatcher, where those of other valid blocks wait again
(`Represents.unlinkIncoming`); and its own exits are forgotten (`Represents.forgetExits`).
-/

namespace Dynarec.BlockCache

variable {c c' : BlockCache} {s : ExitRef → LinkStatus}

/-! ### Pointing exits back at the dispatcher -/

/-- **An exit that jumps to a dropped block rests once it is pointed back.** -/
theorem Represents.unlink (h : c.Represents s) (hs : c.StubsApart) {r : ExitRef} {e : Exit}
    {d : Nat} (hr : s r = .jumps d) (he : c.exit? r = some e) (hd : ∀ b, ¬ c.IsValid d b) :
    (c.rewire r e.stub (.exitDispatch e.target) false).Represents (Function.update s r .rests) := by
  refine h.update (relinked_rewire _ _ hs he) (fun r' hne => exit?_rewire_of_ne _ _ hne)
    (fun r' e' hne he' => word?_rewire_of_ne _ _ hs he he' hne) (fun _ => ?_)
    (fun d' b hb r' => ?_) (fun t r' => ?_)
  · refine ⟨_, exit?_rewire_self _ _ he, rfl, ?_⟩
    show ((c.rewire r e.stub _ false).code.word? e.stub).bind Operation.decode? = _
    rw [word?_rewire_self _ _ hs he]
    rfl
  · have hne : d' ≠ d := fun heq => hd b (heq ▸ hb)
    rw [incoming_rewire, h.incoming d' b hb]
    by_cases hrr : r' = r
    · subst hrr
      simp [hr, Ne.symm hne]
    · simp [hrr]
  · show c.pending.count ⟨t, r'⟩ = _
    rw [h.pending]
    by_cases hrr : r' = r
    · subst hrr
      simp [hr]
    · simp [hrr]

/-- The state of an exit after the block that it jumps to was dropped. -/
def released (c : BlockCache) (d : Nat) (r : ExitRef) : LinkStatus :=
  if r.block != d && (c.blockAt r.block).valid && c.linking then .waits else .rests

theorem Relinked.released (h : Relinked c c') (d : Nat) : c'.released d = c.released d := by
  funext r
  rw [BlockCache.released, BlockCache.released, h.valid_blockAt, h.linking]

/-- **The exits that jump to a dropped block are released.** -/
theorem Represents.unlinkIncoming {d : Nat} {start : UInt32} (sources : List ExitRef) :
    ∀ {c : BlockCache} {s : ExitRef → LinkStatus}, c.Represents s → c.StubsApart →
      (∀ b, ¬ c.IsValid d b) → sources.Nodup →
      (∀ r ∈ sources, s r = .jumps d ∧ (c.exit? r).map Exit.target = some start) →
      ∃ c', c.unlinkIncoming d start sources = .ok c' ∧
        c'.Represents (fun r => if r ∈ sources then c.released d r else s r) ∧
        Relinked c c' := by
  induction sources with
  | nil =>
    intro c s h _ _ _ _
    exact ⟨c, rfl, by simpa using h, Relinked.refl c⟩
  | cons r rest ih =>
    intro c s h hs hd hnd hall
    rw [List.nodup_cons] at hnd
    obtain ⟨hr, ht⟩ := hall r List.mem_cons_self
    obtain ⟨e, he, hte⟩ := Option.map_eq_some_iff.mp ht
    subst hte
    let c₁ := (c.rewire r e.stub (.exitDispatch e.target) false).count fun st =>
      { st with linksUnpatched := st.linksUnpatched + 1 }
    have hre₁ : Relinked c c₁ :=
      (relinked_rewire _ _ hs he).trans (relinked_of_blocks_of_code rfl rfl rfl rfl)
    have hu := h.unlink hs hr he hd
    have h₁ : c₁.Represents (Function.update s r .rests) :=
      ⟨hu.shown, hu.incoming, hu.pending⟩
    let waits := r.block != d && (c₁.blockAt r.block).valid && c₁.linking
    let c₂ := if waits then c₁.await e.target r else c₁
    have hrel : c.released d r = if waits then .waits else .rests := by
      rw [← hre₁.released]
      rfl
    have hre₂ : Relinked c c₂ := by
      refine hre₁.trans ?_
      by_cases hw : waits = true
      · simp only [c₂, if_pos hw]
        exact relinked_of_blocks_of_code rfl rfl rfl rfl
      · simp only [c₂, if_neg hw]
        exact Relinked.refl c₁
    have h₂ : c₂.Represents (Function.update s r (c.released d r)) := by
      rw [hrel]
      by_cases hw : waits = true
      · simp only [c₂, if_pos hw]
        have hx : c₁.exit? r = some { e with linked := false } := exit?_rewire_self _ _ he
        have ha := h₁.await (Function.update_self r _ s) hx
        rw [Function.update_idem] at ha
        exact ha
      · simp only [c₂, if_neg hw]
        exact h₁
    have hall₂ : ∀ r' ∈ rest, Function.update s r (c.released d r) r' = .jumps d ∧
        (c₂.exit? r').map Exit.target = some e.target := by
      intro r' hr'
      have hne : r' ≠ r := fun heq => hnd.1 (heq ▸ hr')
      obtain ⟨hs', ht'⟩ := hall r' (List.mem_cons_of_mem _ hr')
      exact ⟨by rw [Function.update_of_ne hne, hs'], by rw [hre₂.target?_eq, ht']⟩
    have hd₂ : ∀ b, ¬ c₂.IsValid d b := fun b hb => by
      obtain ⟨b', hb', -⟩ := hre₂.isValid_rev hb
      exact hd b' hb'
    obtain ⟨c₃, hrest, h₃, hre₃⟩ := ih h₂ (hre₂.stubsApart hs) hd₂ hnd.2 hall₂
    refine ⟨c₃, ?_, ?_, hre₂.trans hre₃⟩
    · rw [BlockCache.unlinkIncoming, patchExit_eq hs he]
      exact hrest
    · have hfun : (fun r' => if r' ∈ r :: rest then c.released d r' else s r') =
          fun r' => if r' ∈ rest then c₂.released d r'
            else Function.update s r (c.released d r) r' := by
        funext r'
        rw [hre₂.released]
        by_cases heq : r' = r
        · subst heq
          simp
        · simp [heq]
      rw [hfun]
      exact h₃

/-! ### Forgetting the exits of a dropped block -/

/-- An exit of a block that jumps somewhere is taken off the list of its target. -/
theorem Represents.forget_linked (h : c.Represents s) (hc : c.SoundIndex) {d n : Nat} {e : Exit}
    (he : c.exit? ⟨d, n⟩ = some e) (hl : e.linked = true) :
    (c.forgetExit d e n).Represents (Function.update s ⟨d, n⟩ .dead) ∧
      Relinked c (c.forgetExit d e n) := by
  have hjump : ∀ d' b, c.IsValid d' b → s ⟨d, n⟩ = .jumps d' → c.find? e.target = some d' := by
    intro d' b hb hsd
    obtain ⟨-, b', hb', hstart, -⟩ := h.shows hsd (by simp) he
    have heq : b = b' := Option.some.inj (hb.1.symm.trans hb')
    subst heq
    exact hc.find?_eq_some_iff.mpr ⟨b, hb, hstart⟩
  have hwaits : s ⟨d, n⟩ ≠ .waits := fun hw => by
    have hshows := h.shows hw (by simp) he
    exact absurd (hl.symm.trans hshows.1) (by simp)
  rw [forgetExit, if_pos hl]
  have hpending : ∀ t r', c.pending.count ⟨t, r'⟩ =
      if Function.update s ⟨d, n⟩ .dead r' = .waits ∧ (c.exit? r').map Exit.target = some t
        then 1 else 0 := by
    intro t r'
    rw [h.pending]
    by_cases hrr : r' = ⟨d, n⟩
    · subst hrr
      simp [hwaits]
    · simp [hrr]
  cases hf : c.find? e.target with
  | none =>
    refine ⟨h.update (Relinked.refl c) (fun _ _ => rfl) (fun _ _ _ _ => rfl) (absurd rfl)
      (fun d' b hb r' => ?_) hpending, Relinked.refl c⟩
    rw [h.incoming d' b hb]
    by_cases hrr : r' = ⟨d, n⟩
    · subst hrr
      have hne : s ⟨d, n⟩ ≠ .jumps d' := fun hsd => by
        rw [hjump d' b hb hsd] at hf
        cases hf
      simp [hne]
    · simp [hrr]
  | some target =>
    obtain ⟨b, hb, -⟩ := hc.find?_eq_some_iff.mp hf
    have hre : Relinked c (c.modifyIncoming target (·.filter fun r => r != ⟨d, n⟩)) :=
      relinked_modifyIncoming target _
    refine ⟨h.update hre (fun r' _ => exit?_modifyIncoming _ _ r') (fun _ _ _ _ => rfl)
      (absurd rfl) (fun d' b' hb' r' => ?_) hpending, hre⟩
    rw [incoming_modifyIncoming hb.lt_size]
    by_cases hrr : r' = ⟨d, n⟩
    · subst hrr
      rw [Function.update_self]
      show _ = 0
      by_cases hdd : d' = target
      · rw [if_pos hdd]
        exact List.count_eq_zero.mpr (by simp)
      · rw [if_neg hdd, h.incoming d' b' hb']
        refine if_neg fun hsd => ?_
        rw [hjump d' b' hb' hsd] at hf
        exact hdd (Option.some.inj hf)
    · rw [Function.update_of_ne hrr, ← h.incoming d' b' hb']
      by_cases hdd : d' = target
      · rw [if_pos hdd, List.count_filter (by simpa using hrr), hdd]
      · rw [if_neg hdd]

/-- An exit that is not linked is forgotten, with all exits of its block that wait for the same
address. -/
theorem Represents.forget_unlinked (h : c.Represents s) {d n : Nat} {e : Exit}
    (he : c.exit? ⟨d, n⟩ = some e) (hl : e.linked = false) :
    (c.forgetExit d e n).Represents (fun r =>
      if r = ⟨d, n⟩ ∨ r.block = d ∧ s r = .waits ∧ (c.exit? r).map Exit.target = some e.target
        then .dead else s r) ∧
      Relinked c (c.forgetExit d e n) := by
  have hjump : ∀ d', s ⟨d, n⟩ ≠ .jumps d' := fun d' hsd => by
    have hshows := h.shows hsd (by simp) he
    exact absurd (hl.symm.trans hshows.1) (by simp)
  rw [forgetExit, if_neg (by simp [hl])]
  have hre : Relinked c { c with
      pending := c.pending.filter fun p => p.target != e.target || p.source.block != d } :=
    relinked_of_blocks_of_code rfl rfl rfl rfl
  refine ⟨⟨fun r hr => ?_, fun d' b hb r => ?_, fun t r => ?_⟩, hre⟩
  · by_cases hdead : r = ⟨d, n⟩ ∨ r.block = d ∧ s r = .waits ∧
        (c.exit? r).map Exit.target = some e.target
    · rw [if_pos hdead] at hr
      exact absurd rfl hr
    · rw [if_neg hdead] at hr ⊢
      exact h.shown r hr
  · show (c.incoming d').count r = _
    rw [h.incoming d' b hb]
    by_cases hdead : r = ⟨d, n⟩ ∨ r.block = d ∧ s r = .waits ∧
        (c.exit? r).map Exit.target = some e.target
    · rw [if_pos hdead, if_neg (show ¬ LinkStatus.dead = .jumps d' by simp), if_neg]
      rcases hdead with rfl | ⟨-, hw, -⟩
      · exact hjump d'
      · rw [hw]
        simp
    · rw [if_neg hdead]
  · rw [hre.target?_eq]
    show (c.pending.filter _).count _ = _
    by_cases hgone : r.block = d ∧ t = e.target
    · obtain ⟨rfl, rfl⟩ := hgone
      rw [List.count_eq_zero.mpr (by simp)]
      rw [if_neg]
      rintro ⟨hw, ht⟩
      by_cases hdead : r = ⟨r.block, n⟩ ∨ r.block = r.block ∧ s r = .waits ∧
          (c.exit? r).map Exit.target = some e.target
      · rw [if_pos hdead] at hw
        cases hw
      · rw [if_neg hdead] at hw
        exact hdead (.inr ⟨rfl, hw, ht⟩)
    · rw [List.count_filter (by
        simp only [Bool.or_eq_true, bne_iff_ne]
        by_cases hb : r.block = d
        · exact .inl fun ht => hgone ⟨hb, ht⟩
        · exact .inr hb), h.pending]
      by_cases hdead : r = ⟨d, n⟩ ∨ r.block = d ∧ s r = .waits ∧
          (c.exit? r).map Exit.target = some e.target
      · rw [if_pos hdead, if_neg (show ¬ (LinkStatus.dead = .waits ∧ _) by simp), if_neg]
        rintro ⟨-, ht⟩
        rcases hdead with rfl | ⟨hb, -, ht'⟩
        · rw [he] at ht
          exact hgone ⟨rfl, (Option.some.inj ht).symm⟩
        · rw [ht'] at ht
          exact hgone ⟨hb, (Option.some.inj ht).symm⟩
      · rw [if_neg hdead]

theorem exit?_forgetExit (d n : Nat) (e : Exit) (r : ExitRef) :
    (c.forgetExit d e n).exit? r = c.exit? r := by
  rw [forgetExit]
  by_cases hl : e.linked = true
  · rw [if_pos hl]
    cases c.find? e.target with
    | none => rfl
    | some target => exact exit?_modifyIncoming target (·.filter fun r => r != ⟨d, n⟩) r
  · rw [if_neg hl]
    rfl

/-- Forgetting an exit of a block makes it dead, and changes no exit of another block. -/
theorem Represents.forgetExit (h : c.Represents s) (hc : c.SoundIndex) {d n : Nat} {e : Exit}
    (he : c.exit? ⟨d, n⟩ = some e) :
    ∃ s', (c.forgetExit d e n).Represents s' ∧ Relinked c (c.forgetExit d e n) ∧
      (∀ r : ExitRef, r.block ≠ d → s' r = s r) ∧ (∀ r, s' r = s r ∨ s' r = .dead) ∧
      s' ⟨d, n⟩ = .dead := by
  cases hl : e.linked with
  | true =>
    obtain ⟨h', hre⟩ := h.forget_linked hc he hl
    refine ⟨_, h', hre, fun r hb => ?_, fun r => ?_, Function.update_self _ _ _⟩
    · exact Function.update_of_ne (fun heq => hb (by rw [heq])) _ _
    · by_cases hr : r = ⟨d, n⟩
      · exact .inr (by rw [hr, Function.update_self])
      · exact .inl (Function.update_of_ne hr _ _)
  | false =>
    obtain ⟨h', hre⟩ := h.forget_unlinked he hl
    refine ⟨_, h', hre, fun r hb => if_neg ?_, fun r => ?_, if_pos (.inl rfl)⟩
    · rintro (rfl | ⟨hb', -⟩)
      · exact hb rfl
      · exact hb hb'
    · by_cases hr : r = ⟨d, n⟩ ∨ r.block = d ∧ s r = .waits ∧
          (c.exit? r).map Exit.target = some e.target
      · exact .inr (if_pos hr)
      · exact .inl (if_neg hr)

/-- **All exits of a dropped block are forgotten.** -/
theorem Represents.forgetExits {d : Nat} (exits : List (Exit × Nat)) :
    ∀ {c : BlockCache} {s : ExitRef → LinkStatus}, c.Represents s → c.SoundIndex →
      (∀ e n, (e, n) ∈ exits → c.exit? ⟨d, n⟩ = some e) →
      ∃ s', (exits.foldl (fun c (e, n) => c.forgetExit d e n) c).Represents s' ∧
        Relinked c (exits.foldl (fun c (e, n) => c.forgetExit d e n) c) ∧
        (∀ r : ExitRef, r.block ≠ d → s' r = s r) ∧ (∀ r, s' r = s r ∨ s' r = .dead) ∧
        ∀ e n, (e, n) ∈ exits → s' ⟨d, n⟩ = .dead := by
  induction exits with
  | nil =>
    intro c s h _ _
    exact ⟨s, h, Relinked.refl c, fun _ _ => rfl, fun _ => .inl rfl, by simp⟩
  | cons x rest ih =>
    obtain ⟨e, n⟩ := x
    intro c s h hc hall
    obtain ⟨s₁, h₁, hre₁, hout₁, hsub₁, hdead₁⟩ :=
      h.forgetExit hc (hall e n List.mem_cons_self)
    obtain ⟨s₂, h₂, hre₂, hout₂, hsub₂, hdead₂⟩ := ih h₁ (hre₁.soundIndex hc)
      (fun e' n' hmem => by
        rw [exit?_forgetExit]
        exact hall e' n' (List.mem_cons_of_mem _ hmem))
    refine ⟨s₂, h₂, hre₁.trans hre₂, fun r hb => (hout₂ r hb).trans (hout₁ r hb), fun r => ?_,
      fun e' n' hmem => ?_⟩
    · rcases hsub₂ r with hr | hr
      · rw [hr]
        exact hsub₁ r
      · exact .inr hr
    · rcases List.mem_cons.mp hmem with heq | hmem
      · cases heq
        rcases hsub₂ ⟨d, n⟩ with hr | hr
        · rw [hr, hdead₁]
        · exact hr
      · exact hdead₂ e' n' hmem

/-! ### Withdrawing a block -/

/-- A block is taken off the index and marked as dropped. -/
def withdraw (c : BlockCache) (id : Nat) : BlockCache :=
  { c with
    index := c.index.filter fun e => e.start != (c.blockAt id).start
    blocks := c.blocks.modify id fun b => { b with valid := false, incoming := [] }
    stats := { c.stats with invalidated := c.stats.invalidated + 1 } }

theorem blocks_withdraw (id i : Nat) :
    (c.withdraw id).blocks[i]? =
      if id = i then (c.blocks[i]?).map fun b => { b with valid := false, incoming := [] }
      else c.blocks[i]? := Array.getElem?_modify

theorem exit?_withdraw (id : Nat) (r : ExitRef) : (c.withdraw id).exit? r = c.exit? r := by
  rw [exit?, exit?, blocks_withdraw]
  by_cases hb : id = r.block
  · rw [if_pos hb]
    cases c.blocks[r.block]? <;> rfl
  · rw [if_neg hb]

theorem isValid_withdraw_iff {id i : Nat} {b : Block} :
    (c.withdraw id).IsValid i b ↔ c.IsValid i b ∧ i ≠ id := by
  rw [IsValid, IsValid, blocks_withdraw]
  by_cases hb : id = i
  · rw [if_pos hb, Option.map_eq_some_iff]
    constructor
    · rintro ⟨⟨b', -, rfl⟩, hv⟩
      cases hv
    · rintro ⟨-, hne⟩
      exact absurd hb.symm hne
  · rw [if_neg hb]
    exact ⟨fun hv => ⟨hv, Ne.symm hb⟩, fun hv => hv.1⟩

theorem blockAt_withdraw {id i : Nat} (hne : i ≠ id) : (c.withdraw id).blockAt i = c.blockAt i := by
  rw [blockAt, blockAt, Array.getD_eq_getD_getElem?, Array.getD_eq_getD_getElem?, blocks_withdraw,
    if_neg (Ne.symm hne)]

theorem stubsApart_withdraw (hs : c.StubsApart) (id : Nat) : (c.withdraw id).StubsApart where
  emitted r e he := hs.emitted r e (by rw [← exit?_withdraw id, he])
  apart r e r' e' he he' := hs.apart r e r' e' (by rw [← exit?_withdraw id, he])
    (by rw [← exit?_withdraw id, he'])

theorem SoundIndex.withdraw (h : c.SoundIndex) {id : Nat} {b : Block} (hb : c.IsValid id b) :
    (c.withdraw id).SoundIndex where
  mem_iff start i := by
    show _ ∈ c.index.filter _ ↔ _
    rw [List.mem_filter, h.mem_iff, hb.blockAt, bne_iff_ne]
    simp only [isValid_withdraw_iff]
    constructor
    · rintro ⟨⟨x, hx, hs⟩, hne⟩
      refine ⟨x, ⟨hx, fun heq => ?_⟩, hs⟩
      rw [heq] at hx
      rw [hx.unique hb] at hs
      exact hne hs.symm
    · rintro ⟨x, ⟨hx, hne⟩, hs⟩
      exact ⟨⟨x, hx, hs⟩, fun heq => hne (h.id_eq hx hb (hs.trans heq))⟩
  sorted := h.sorted.filter _
  nonempty i x hx := h.nonempty i x (isValid_withdraw_iff.mp hx).1
  disjoint i x i' x' hx hx' :=
    h.disjoint i x i' x' (isValid_withdraw_iff.mp hx).1 (isValid_withdraw_iff.mp hx').1

theorem SoundIndex.find?_withdraw (h : c.SoundIndex) {id : Nat} {b : Block} (hb : c.IsValid id b)
    (t : UInt32) :
    (c.withdraw id).find? t = if c.find? t = some id then none else c.find? t := by
  have h' := h.withdraw hb
  by_cases hf : c.find? t = some id
  · rw [if_pos hf, h'.find?_eq_none_iff]
    intro i x hx hs
    obtain ⟨hx, hne⟩ := isValid_withdraw_iff.mp hx
    rw [h.find?_eq_some_iff.mpr ⟨x, hx, hs⟩] at hf
    exact hne (Option.some.inj hf)
  · rw [if_neg hf]
    cases hft : c.find? t with
    | none =>
      rw [h'.find?_eq_none_iff]
      exact fun i x hx => h.find?_eq_none_iff.mp hft i x (isValid_withdraw_iff.mp hx).1
    | some i =>
      obtain ⟨x, hx, hs⟩ := h.find?_eq_some_iff.mp hft
      refine h'.find?_eq_some_iff.mpr ⟨x, isValid_withdraw_iff.mpr ⟨hx, fun heq => ?_⟩, hs⟩
      rw [hft, heq] at hf
      exact hf rfl

theorem drop_eq (id : Nat) :
    c.drop id = (do
      let c' ← (c.withdraw id).unlinkIncoming id (c.blockAt id).start (c.incoming id)
      return (c'.blockAt id).exits.toList.zipIdx.foldl (fun c (e, n) => c.forgetExit id e n) c') :=
  rfl

end Dynarec.BlockCache
