import Dynarec.Proofs.Cache.Relinking
import Mathlib.Logic.Function.Basic

/-!
# Links between blocks

An exit is in one of four states: its word leaves to the dispatcher and nobody lists it (`rests`),
it waits for a block at its target (`waits`), it jumps to a block (`jumps`), or nothing is known
about it, since its block was dropped (`dead`).  `Represents c s` says that the four places where
links are kept agree with one assignment `s` of states to exits.  Each operation on links is then
an update of `s`.
-/

namespace Dynarec

/-- Where an exit stands. -/
inductive LinkStatus where
  | dead
  | rests
  | waits
  | jumps (target : Nat)
deriving DecidableEq, Repr

namespace BlockCache

/-- What an exit and its word say in each state. -/
def Shows (c : BlockCache) (e : Exit) : LinkStatus → Prop
  | .dead => True
  | .rests => e.linked = false ∧ c.code.operation? e.stub = some (.exitDispatch e.target)
  | .waits => e.linked = false ∧ c.code.operation? e.stub = some (.exitDispatch e.target)
  | .jumps d => e.linked = true ∧ ∃ b, c.blocks[d]? = some b ∧ b.start = e.target ∧
      c.code.operation? e.stub = some (.jump (UInt32.ofNat b.checkedEntry))

/-- **Words, flags, incoming lists and waiting exits agree with one assignment of states.** -/
structure Represents (c : BlockCache) (s : ExitRef → LinkStatus) : Prop where
  shown : ∀ r, s r ≠ .dead → ∃ e, c.exit? r = some e ∧ c.Shows e (s r)
  incoming : ∀ d b, c.IsValid d b → ∀ r,
    (c.incoming d).count r = if s r = .jumps d then 1 else 0
  pending : ∀ t r, c.pending.count ⟨t, r⟩ =
    if s r = .waits ∧ (c.exit? r).map Exit.target = some t then 1 else 0

variable {c c' : BlockCache} {s : ExitRef → LinkStatus}

theorem operation?_congr {code code' : CodeSpace} {k : Nat} (h : code'.word? k = code.word? k) :
    code'.operation? k = code.operation? k := by
  rw [CodeSpace.operation?, CodeSpace.operation?, h]

theorem Shows.relinked {e : Exit} {x : LinkStatus} (h : c.Shows e x) (hre : Relinked c c')
    (hword : c'.code.word? e.stub = c.code.word? e.stub) : c'.Shows e x := by
  cases x with
  | dead => trivial
  | rests => exact ⟨h.1, (operation?_congr hword).trans h.2⟩
  | waits => exact ⟨h.1, (operation?_congr hword).trans h.2⟩
  | jumps d =>
    obtain ⟨hlinked, b, hb, hstart, hop⟩ := h
    obtain ⟨b', hb', ho⟩ := hre.block? hb
    refine ⟨hlinked, b', hb', (Block.start_eq_of_outline ho).trans hstart, ?_⟩
    rw [operation?_congr hword, hop, Block.checkedEntry_eq_of_outline ho]

theorem Represents.shows (h : c.Represents s) {r : ExitRef} {e : Exit} {x : LinkStatus}
    (hr : s r = x) (hx : x ≠ .dead) (he : c.exit? r = some e) : c.Shows e x := by
  subst hr
  obtain ⟨e', he', hshows⟩ := h.shown r hx
  rw [he, Option.some_inj] at he'
  rw [he']
  exact hshows

/-- A change that only one exit sees. -/
theorem Represents.update (h : c.Represents s) (hre : Relinked c c') {r : ExitRef}
    {x : LinkStatus} (hexit : ∀ r', r' ≠ r → c'.exit? r' = c.exit? r')
    (hword : ∀ r' e, r' ≠ r → c.exit? r' = some e → c'.code.word? e.stub = c.code.word? e.stub)
    (hshown : x ≠ .dead → ∃ e, c'.exit? r = some e ∧ c'.Shows e x)
    (hincoming : ∀ d b, c.IsValid d b → ∀ r', (c'.incoming d).count r' =
      if Function.update s r x r' = .jumps d then 1 else 0)
    (hpending : ∀ t r', c'.pending.count ⟨t, r'⟩ =
      if Function.update s r x r' = .waits ∧ (c.exit? r').map Exit.target = some t then 1 else 0) :
    c'.Represents (Function.update s r x) where
  shown r' hr' := by
    by_cases heq : r' = r
    · subst heq
      rw [Function.update_self] at hr' ⊢
      exact hshown hr'
    · rw [Function.update_of_ne heq] at hr' ⊢
      obtain ⟨e, he, hs⟩ := h.shown r' hr'
      exact ⟨e, (hexit r' heq).trans he, hs.relinked hre (hword r' e heq he)⟩
  incoming d b hb r' := by
    obtain ⟨b', hb', -⟩ := hre.isValid_rev hb
    exact hincoming d b' hb' r'
  pending t r' := by
    rw [hpending, hre.target?_eq]

/-! ### Giving an exit another word -/

/-- The word and the flag of an exit are replaced. -/
def rewire (c : BlockCache) (r : ExitRef) (offset : Nat) (op : Operation) (linked : Bool) :
    BlockCache := (c.withWord offset op).setLinked r linked

section Rewire

variable {r : ExitRef} {e : Exit} (op : Operation) (linked : Bool)

theorem relinked_rewire (hs : c.StubsApart) (he : c.exit? r = some e) :
    Relinked c (c.rewire r e.stub op linked) :=
  (relinked_withWord hs he op).trans (relinked_setLinked r linked)

theorem exit?_rewire_self (he : c.exit? r = some e) :
    (c.rewire r e.stub op linked).exit? r = some { e with linked := linked } := by
  rw [rewire, exit?_setLinked, if_pos rfl]
  show (c.exit? r).map _ = _
  rw [he]
  rfl

theorem exit?_rewire_of_ne {r' : ExitRef} (hne : r' ≠ r) :
    (c.rewire r e.stub op linked).exit? r' = c.exit? r' := by
  rw [rewire, exit?_setLinked, if_neg hne]
  rfl

theorem incoming_rewire (d : Nat) :
    (c.rewire r e.stub op linked).incoming d = c.incoming d := by
  rw [rewire, incoming_setLinked]
  rfl

theorem word?_rewire_self (hs : c.StubsApart) (he : c.exit? r = some e) :
    (c.rewire r e.stub op linked).code.word? e.stub = some op.encode := by
  show (c.withWord e.stub op).code.word? e.stub = _
  rw [word?_withWord (hs.emitted r e he), if_pos rfl]

theorem word?_rewire_of_ne (hs : c.StubsApart) (he : c.exit? r = some e) {r' : ExitRef} {e' : Exit}
    (he' : c.exit? r' = some e') (hne : r' ≠ r) :
    (c.rewire r e.stub op linked).code.word? e'.stub = c.code.word? e'.stub := by
  show (c.withWord e.stub op).code.word? e'.stub = _
  rw [word?_withWord (hs.emitted r e he), if_neg]
  exact fun heq => hne (hs.apart r' e' r e he' he heq.symm)

end Rewire

/-! ### Linking and waiting -/

theorem count_append_singleton {α : Type} [DecidableEq α] (l : List α) (a b : α) :
    (l ++ [a]).count b = l.count b + if b = a then 1 else 0 := by
  rw [List.count_append, List.count_singleton]
  simp only [beq_iff_eq, eq_comm (a := b)]

/-- **Linking an exit that rests makes it jump.** -/
theorem Represents.link (h : c.Represents s) (hs : c.StubsApart) {r : ExitRef} {e : Exit} {d : Nat}
    {b : Block} (hr : s r = .rests) (he : c.exit? r = some e) (hd : c.blocks[d]? = some b)
    (ht : b.start = e.target) :
    ∃ c', c.link r d = .ok c' ∧ c'.Represents (Function.update s r (.jumps d)) ∧
      Relinked c c' := by
  have hb := blockAt_of_getElem? hd
  obtain ⟨hsize, -⟩ := Array.getElem?_eq_some_iff.mp hd
  let op : Operation := .jump (UInt32.ofNat (c.blockAt d).checkedEntry)
  let c₁ := c.rewire r e.stub op true
  have hre₁ : Relinked c c₁ := relinked_rewire op true hs he
  let c₂ := c₁.modifyIncoming d (· ++ [r])
  have hre : Relinked c c₂ := hre₁.trans (relinked_modifyIncoming d _)
  have hsize₁ : d < c₁.blocks.size := by
    obtain ⟨b', hb', -⟩ := hre₁.block? hd
    exact (Array.getElem?_eq_some_iff.mp hb').1
  let c₃ := c₂.count fun st => { st with linksPatched := st.linksPatched + 1 }
  have hre₃ : Relinked c c₃ := hre.trans (relinked_of_blocks_of_code rfl rfl rfl rfl)
  refine ⟨c₃, ?_, ?_, hre₃⟩
  · rw [BlockCache.link, patchExit_eq hs he]
    rfl
  · refine h.update hre₃ (fun r' hne => ?_) (fun r' e' hne he' => ?_) (fun _ => ?_)
      (fun d' b' hd' r' => ?_) (fun t r' => ?_)
    · show c₂.exit? r' = _
      rw [exit?_modifyIncoming, exit?_rewire_of_ne op true hne]
    · exact word?_rewire_of_ne op true hs he he' hne
    · refine ⟨{ e with linked := true }, ?_, rfl, ?_⟩
      · show c₂.exit? r = _
        rw [exit?_modifyIncoming, exit?_rewire_self op true he]
      · obtain ⟨b', hb', ho⟩ := hre.block? hd
        refine ⟨b', hb', (Block.start_eq_of_outline ho).trans ht, ?_⟩
        show (c₁.code.word? e.stub).bind Operation.decode? = _
        rw [word?_rewire_self op true hs he, Block.checkedEntry_eq_of_outline ho, ← hb]
        rfl
    · show (c₂.incoming d').count r' = _
      rw [incoming_modifyIncoming hsize₁, incoming_rewire, incoming_rewire]
      have hcount := h.incoming d' b' hd' r'
      by_cases hdd : d' = d
      · subst hdd
        rw [if_pos rfl, count_append_singleton, hcount]
        by_cases hrr : r' = r
        · subst hrr
          simp [hr]
        · simp [hrr]
      · rw [if_neg hdd, hcount]
        by_cases hrr : r' = r
        · subst hrr
          simp [hr, Ne.symm hdd]
        · simp [hrr]
    · show c.pending.count ⟨t, r'⟩ = _
      rw [h.pending]
      by_cases hrr : r' = r
      · subst hrr
        simp [hr]
      · simp [hrr]

/-- **An exit that rests may wait.** -/
theorem Represents.await (h : c.Represents s) {r : ExitRef} {e : Exit} (hr : s r = .rests)
    (he : c.exit? r = some e) :
    (c.await e.target r).Represents (Function.update s r .waits) := by
  have hre : Relinked c (c.await e.target r) := relinked_of_blocks_of_code rfl rfl rfl rfl
  refine h.update hre (fun r' _ => rfl) (fun r' e' _ _ => rfl) (fun _ => ?_) (fun d b hd r' => ?_)
    (fun t r' => ?_)
  · obtain ⟨e', he', hshows⟩ := h.shown r (by rw [hr]; simp)
    rw [hr] at hshows
    exact ⟨e', he', hshows⟩
  · show (c.incoming d).count r' = _
    rw [h.incoming d b hd]
    by_cases hrr : r' = r
    · subst hrr
      simp [hr]
    · simp [hrr]
  · show (c.pending ++ [_]).count _ = _
    rw [count_append_singleton, h.pending]
    by_cases hrr : r' = r
    · subst hrr
      simp [hr, he, eq_comm]
    · simp [hrr]

/-! ### Many exits at once -/

/-- **Exits that rest are linked one after the other.** -/
theorem Represents.linkAll {d : Nat} {b : Block} (sources : List ExitRef) :
    ∀ {c : BlockCache} {s : ExitRef → LinkStatus}, c.Represents s → c.StubsApart →
      sources.Nodup → c.blocks[d]? = some b →
      (∀ r ∈ sources, s r = .rests ∧ (c.blockAt r.block).valid = true ∧
        ∃ e, c.exit? r = some e ∧ e.target = b.start) →
      ∃ c', c.linkAll d sources = .ok c' ∧
        c'.Represents (fun r => if r ∈ sources then .jumps d else s r) ∧ Relinked c c' := by
  induction sources generalizing b with
  | nil =>
    intro c s h _ _ _ _
    exact ⟨c, rfl, by simpa using h, Relinked.refl c⟩
  | cons r rest ih =>
    intro c s h hs hnd hd hall
    rw [List.nodup_cons] at hnd
    obtain ⟨hr, hvalid, e, he, ht⟩ := hall r List.mem_cons_self
    obtain ⟨c₁, hlink, h₁, hre₁⟩ := h.link hs hr he hd ht.symm
    obtain ⟨b₁, hb₁, ho⟩ := hre₁.block? hd
    have hall₁ : ∀ r' ∈ rest, Function.update s r (.jumps d) r' = .rests ∧
        (c₁.blockAt r'.block).valid = true ∧ ∃ e, c₁.exit? r' = some e ∧ e.target = b₁.start := by
      intro r' hr'
      have hne : r' ≠ r := fun heq => hnd.1 (heq ▸ hr')
      obtain ⟨hs', hv', e', he', ht'⟩ := hall r' (List.mem_cons_of_mem _ hr')
      obtain ⟨x, hx, hxt, -⟩ := hre₁.exit? he'
      refine ⟨by rw [Function.update_of_ne hne, hs'], by rw [hre₁.valid_blockAt, hv'], x, hx, ?_⟩
      rw [hxt, ht', Block.start_eq_of_outline ho]
    obtain ⟨c₂, hrest, h₂, hre₂⟩ := ih h₁ (hre₁.stubsApart hs) hnd.2 hb₁ hall₁
    refine ⟨c₂, ?_, ?_, hre₁.trans hre₂⟩
    · rw [BlockCache.linkAll, if_pos hvalid, hlink]
      exact hrest
    · have hfun : (fun r' => if r' ∈ r :: rest then LinkStatus.jumps d else s r') =
          fun r' => if r' ∈ rest then .jumps d else Function.update s r (.jumps d) r' := by
        funext r'
        by_cases heq : r' = r
        · subst heq
          simp
        · simp [heq]
      rw [hfun]
      exact h₂

/-- The references of the exits that wait for an address. -/
def waitingFor (c : BlockCache) (start : UInt32) : List ExitRef :=
  (c.pending.filter fun p => p.target == start).map PendingLink.source

theorem mem_waitingFor_iff {start : UInt32} {r : ExitRef} :
    r ∈ c.waitingFor start ↔ (⟨start, r⟩ : PendingLink) ∈ c.pending := by
  rw [waitingFor, List.mem_map]
  constructor
  · rintro ⟨⟨t, r'⟩, hp, rfl⟩
    obtain ⟨hmem, ht⟩ := List.mem_filter.mp hp
    have ht : t = start := by simpa using ht
    rw [← ht]
    exact hmem
  · intro hmem
    exact ⟨_, List.mem_filter.mpr ⟨hmem, by simp⟩, rfl⟩

theorem Represents.mem_pending_iff (h : c.Represents s) {t : UInt32} {r : ExitRef} :
    (⟨t, r⟩ : PendingLink) ∈ c.pending ↔ s r = .waits ∧ (c.exit? r).map Exit.target = some t := by
  rw [← List.count_pos_iff, h.pending]
  by_cases hw : s r = .waits ∧ (c.exit? r).map Exit.target = some t
  · rw [if_pos hw]
    exact ⟨fun _ => hw, fun _ => Nat.one_pos⟩
  · rw [if_neg hw]
    exact ⟨fun hlt => absurd hlt (Nat.lt_irrefl 0), fun hw' => absurd hw' hw⟩

theorem Represents.pending_nodup (h : c.Represents s) : c.pending.Nodup := by
  rw [List.nodup_iff_count_le_one]
  intro p
  rw [h.pending p.target p.source]
  split <;> omega

theorem Represents.waitingFor_nodup (h : c.Represents s) (start : UInt32) :
    (c.waitingFor start).Nodup := by
  refine List.Nodup.map_on (fun p hp q hq heq => ?_) (h.pending_nodup.filter _)
  have hpt : p.target = start := by simpa using (List.mem_filter.mp hp).2
  have hqt : q.target = start := by simpa using (List.mem_filter.mp hq).2
  cases p
  cases q
  simp_all

/-- Nothing waits for an address any more. -/
def withoutWaiting (c : BlockCache) (start : UInt32) : BlockCache :=
  { c with pending := c.pending.filter fun p => !(p.target == start) }

/-- Exits that wait for an address rest once they are taken off the list. -/
theorem Represents.withoutWaiting (h : c.Represents s) (start : UInt32) :
    (c.withoutWaiting start).Represents
      fun r => if r ∈ c.waitingFor start then .rests else s r where
  shown r hr := by
    by_cases hmem : r ∈ c.waitingFor start
    · rw [if_pos hmem]
      obtain ⟨hw, -⟩ := h.mem_pending_iff.mp (mem_waitingFor_iff.mp hmem)
      obtain ⟨e, he, hshows⟩ := h.shown r (by rw [hw]; simp)
      rw [hw] at hshows
      exact ⟨e, he, hshows⟩
    · rw [if_neg hmem] at hr ⊢
      exact h.shown r hr
  incoming d b hb r := by
    show (c.incoming d).count r = _
    rw [h.incoming d b hb]
    by_cases hmem : r ∈ c.waitingFor start
    · obtain ⟨hw, -⟩ := h.mem_pending_iff.mp (mem_waitingFor_iff.mp hmem)
      simp [hmem, hw]
    · rw [if_neg hmem]
  pending t r := by
    have hx : (c.withoutWaiting start).exit? r = c.exit? r := rfl
    rw [hx, BlockCache.withoutWaiting]
    by_cases ht : t = start
    · rw [List.count_eq_zero.mpr (by simp [ht])]
      by_cases hmem : r ∈ c.waitingFor start
      · simp [hmem]
      · rw [if_neg hmem, if_neg]
        rw [mem_waitingFor_iff, h.mem_pending_iff] at hmem
        rw [ht]
        exact hmem
    · rw [List.count_filter (by simpa using ht), h.pending]
      by_cases hmem : r ∈ c.waitingFor start
      · obtain ⟨-, hts⟩ := h.mem_pending_iff.mp (mem_waitingFor_iff.mp hmem)
        simp [hts, Ne.symm ht]
      · rw [if_neg hmem]

/-- **Exits that wait for an address are linked to the block that starts there.** -/
theorem Represents.linkWaiting (h : c.Represents s) (hs : c.StubsApart) {d : Nat} {b : Block}
    (hd : c.blocks[d]? = some b)
    (hvalid : ∀ r, s r = .waits → (c.blockAt r.block).valid = true) :
    ∃ c', c.linkWaiting b.start d = .ok c' ∧
      c'.Represents (fun r =>
        if s r = .waits ∧ (c.exit? r).map Exit.target = some b.start then .jumps d else s r) ∧
      Relinked c c' := by
  have hre₁ : Relinked c (c.withoutWaiting b.start) := relinked_of_blocks_of_code rfl rfl rfl rfl
  have hmem : ∀ r, r ∈ c.waitingFor b.start ↔
      s r = .waits ∧ (c.exit? r).map Exit.target = some b.start := fun r => by
    rw [mem_waitingFor_iff, h.mem_pending_iff]
  obtain ⟨c₂, hlink, h₂, hre₂⟩ := (h.withoutWaiting b.start).linkAll (c.waitingFor b.start)
    (hre₁.stubsApart hs) (h.waitingFor_nodup b.start) hd (fun r hr => by
      obtain ⟨hw, ht⟩ := (hmem r).mp hr
      obtain ⟨e, he, hte⟩ := Option.map_eq_some_iff.mp ht
      exact ⟨if_pos hr, hvalid r hw, e, he, hte⟩)
  refine ⟨c₂, ?_, ?_, hre₁.trans hre₂⟩
  · rw [BlockCache.linkWaiting, List.partition_eq_filter_filter]
    exact hlink
  · have hfun : (fun r => if r ∈ c.waitingFor b.start then LinkStatus.jumps d
          else if r ∈ c.waitingFor b.start then .rests else s r) =
        fun r => if s r = .waits ∧ (c.exit? r).map Exit.target = some b.start then .jumps d
          else s r := by
      funext r
      by_cases hr : r ∈ c.waitingFor b.start
      · rw [if_pos hr, if_pos ((hmem r).mp hr)]
      · rw [if_neg hr, if_neg hr, if_neg (fun hw => hr ((hmem r).mpr hw))]
    rw [← hfun]
    exact h₂

/-! ### The state that is due to an exit -/

/-- The state that is due to an exit of a valid block with target `t`. -/
def statusFor (c : BlockCache) (t : UInt32) : LinkStatus :=
  if c.linking then
    match c.find? t with
    | some d => .jumps d
    | none => .waits
  else .rests

/-- **The state that is due to an exit.** -/
def due (c : BlockCache) (r : ExitRef) : LinkStatus :=
  match (c.exit? r).map Exit.target with
  | some t => if (c.blockAt r.block).valid then c.statusFor t else .dead
  | none => .dead

theorem due_of_exit? {r : ExitRef} {e : Exit} (he : c.exit? r = some e) :
    c.due r = if (c.blockAt r.block).valid then c.statusFor e.target else .dead := by
  rw [due, he]
  rfl

theorem due_of_exit?_eq_none {r : ExitRef} (he : c.exit? r = none) : c.due r = .dead := by
  rw [due, he]
  rfl

theorem Relinked.due (h : Relinked c c') : c'.due = c.due := by
  funext r
  rw [BlockCache.due, BlockCache.due, h.target?_eq]
  cases (c.exit? r).map Exit.target with
  | none => rfl
  | some t =>
    show (if _ then _ else _) = if _ then _ else _
    rw [h.valid_blockAt, statusFor, statusFor, h.linking, h.find?]

theorem due_eq_jumps_iff {r : ExitRef} {d : Nat} :
    c.due r = .jumps d ↔ c.linking = true ∧ (c.blockAt r.block).valid = true ∧
      ∃ e, c.exit? r = some e ∧ c.find? e.target = some d := by
  cases he : c.exit? r with
  | none => simp [due_of_exit?_eq_none he]
  | some e =>
    rw [due_of_exit? he, statusFor]
    cases hv : (c.blockAt r.block).valid with
    | false => simp
    | true =>
      cases hl : c.linking with
      | false => simp
      | true => cases hf : c.find? e.target <;> simp [hf]

theorem due_eq_waits_iff {r : ExitRef} :
    c.due r = .waits ↔ c.linking = true ∧ (c.blockAt r.block).valid = true ∧
      ∃ e, c.exit? r = some e ∧ c.find? e.target = none := by
  cases he : c.exit? r with
  | none => simp [due_of_exit?_eq_none he]
  | some e =>
    rw [due_of_exit? he, statusFor]
    cases hv : (c.blockAt r.block).valid with
    | false => simp
    | true =>
      cases hl : c.linking with
      | false => simp
      | true => cases hf : c.find? e.target <;> simp [hf]

/-- **The exits of a block are linked, or wait.** -/
theorem Represents.linkExits {d : Nat} (exits : List (Exit × Nat)) :
    ∀ {c : BlockCache} {s : ExitRef → LinkStatus}, c.Represents s → c.StubsApart → c.SoundIndex →
      c.linking = true → (c.blockAt d).valid = true → (exits.map Prod.snd).Nodup →
      (∀ e n, (e, n) ∈ exits → s ⟨d, n⟩ = .rests ∧
        ∃ e', c.exit? ⟨d, n⟩ = some e' ∧ e'.target = e.target) →
      ∃ c', c.linkExits d exits = .ok c' ∧
        c'.Represents (fun r =>
          if r.block = d ∧ r.exit ∈ exits.map Prod.snd then c.due r else s r) ∧
        Relinked c c' := by
  induction exits with
  | nil =>
    intro c s h _ _ _ _ _ _
    exact ⟨c, rfl, by simpa using h, Relinked.refl c⟩
  | cons x rest ih =>
    obtain ⟨e, n⟩ := x
    intro c s h hs hc hlinking hvalid hnd hall
    rw [List.map_cons, List.nodup_cons] at hnd
    obtain ⟨hr, e', he', ht⟩ := hall e n List.mem_cons_self
    have hdue : c.due ⟨d, n⟩ = c.statusFor e.target := by
      rw [due_of_exit? he', if_pos hvalid, ht]
    have hstep : ∃ c₁, (match c.find? e.target with
        | some target => c.link ⟨d, n⟩ target
        | none => .ok (c.await e.target ⟨d, n⟩)) = .ok c₁ ∧
        c₁.Represents (Function.update s ⟨d, n⟩ (c.due ⟨d, n⟩)) ∧ Relinked c c₁ := by
      rw [hdue, statusFor, if_pos hlinking]
      cases hf : c.find? e.target with
      | none =>
        rw [← ht]
        exact ⟨_, rfl, h.await hr he', relinked_of_blocks_of_code rfl rfl rfl rfl⟩
      | some target =>
        obtain ⟨b, hb, hstart⟩ := hc.find?_eq_some_iff.mp hf
        exact h.link hs hr he' hb.1 (hstart.trans ht.symm)
    obtain ⟨c₁, hlink, h₁, hre₁⟩ := hstep
    have hall₁ : ∀ e n', (e, n') ∈ rest → Function.update s ⟨d, n⟩ (c.due ⟨d, n⟩) ⟨d, n'⟩ = .rests ∧
        ∃ e', c₁.exit? ⟨d, n'⟩ = some e' ∧ e'.target = e.target := by
      intro e₁ n' hmem
      have hne : (⟨d, n'⟩ : ExitRef) ≠ ⟨d, n⟩ := fun heq => hnd.1 (by
        rw [ExitRef.mk.injEq] at heq
        rw [← heq.2]
        exact List.mem_map.mpr ⟨_, hmem, rfl⟩)
      obtain ⟨hr', y, hy, hyt⟩ := hall e₁ n' (List.mem_cons_of_mem _ hmem)
      obtain ⟨y', hy', hyt', -⟩ := hre₁.exit? hy
      exact ⟨by rw [Function.update_of_ne hne, hr'], y', hy', hyt'.trans hyt⟩
    obtain ⟨c₂, hrest, h₂, hre₂⟩ := ih h₁ (hre₁.stubsApart hs) (hre₁.soundIndex hc)
      (hre₁.linking.trans hlinking) (by rw [hre₁.valid_blockAt, hvalid]) hnd.2 hall₁
    refine ⟨c₂, ?_, ?_, hre₁.trans hre₂⟩
    · rw [BlockCache.linkExits]
      cases hf : c.find? e.target with
      | none =>
        rw [hf] at hlink
        rw [← Except.ok.inj hlink] at hrest
        exact hrest
      | some target =>
        rw [hf] at hlink
        have hlink : c.link ⟨d, n⟩ target = .ok c₁ := hlink
        show (c.link ⟨d, n⟩ target >>= fun c => c.linkExits d rest) = _
        rw [hlink]
        exact hrest
    · have hfun : (fun r : ExitRef =>
            if r.block = d ∧ r.exit ∈ ((e, n) :: rest).map Prod.snd then c.due r else s r) =
          fun r => if r.block = d ∧ r.exit ∈ rest.map Prod.snd then c₁.due r
            else Function.update s ⟨d, n⟩ (c.due ⟨d, n⟩) r := by
        funext r
        rw [hre₁.due]
        simp only [List.map_cons, List.mem_cons]
        by_cases heq : r = ⟨d, n⟩
        · subst heq
          simp
        · have hne : ¬ (r.block = d ∧ r.exit = n) := fun hr => heq (by rw [← hr.1, ← hr.2])
          rw [Function.update_of_ne heq]
          by_cases hb : r.block = d
          · have hx : r.exit ≠ n := fun hx => hne ⟨hb, hx⟩
            simp only [hb, hx, true_and, false_or]
          · rw [if_neg (fun hr => hb hr.1), if_neg (fun hr => hb hr.1)]
      rw [hfun]
      exact h₂

end BlockCache

end Dynarec
