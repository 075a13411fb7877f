import Dynarec.Proofs.Lower.Growth
import Mathlib.Data.List.Nodup

/-!
# Where the code of a block lies

`Carries code base b` says that host code holds what the lowering `b` emitted from `base` on, with
its forward jumps filled in; the words of exits that can be linked are left open.  The code space of
a finished lowering carries it (`carries_resolve`), and whatever an unfinished lowering `b` appended
is found in code that carries a lowering that goes on from `b` (`Way.laid`).
-/

namespace Dynarec

namespace CodeSpace

variable {c c' : CodeSpace}

/-! ### Filling in forward jumps -/

/-- A word with a new immediate. -/
def withImmediate (w : HostWord) (target : Nat) : HostWord := { w with imm := UInt32.ofNat target }

theorem getElem?_setImmediate (position target p : Nat) :
    (c.setImmediate position target).words[p]? =
      if position = p then (c.words[p]?).map (withImmediate · target) else c.words[p]? :=
  Array.getElem?_modify

/-- **What filling in references does to the words.** -/
theorem words_resolveReferences {refs : List (Nat × Label)}
    (hok : c.resolveReferences refs = (.ok (), c')) (p : Nat) :
    ((∀ l, (p, l) ∉ refs) → c'.words[p]? = c.words[p]?) ∧
      ∀ l, (p, l) ∈ refs → (∀ l', (p, l') ∈ refs → l' = l) →
        ∃ q, c.labelOffset? l = some q ∧ c'.words[p]? = (c.words[p]?).map (withImmediate · q) := by
  induction refs generalizing c with
  | nil =>
    rw [resolveReferences] at hok
    cases hok
    exact ⟨fun _ => rfl, nofun⟩
  | cons r rest ih =>
    obtain ⟨position, label⟩ := r
    rw [resolveReferences] at hok
    cases hlabel : c.labelOffset? label with
    | none =>
      rw [hlabel] at hok
      cases hok
    | some target =>
      rw [hlabel] at hok
      obtain ⟨hother, hhit⟩ := ih hok
      have hsame : ∀ l, (c.setImmediate position target).labelOffset? l = c.labelOffset? l :=
        fun _ => rfl
      refine ⟨fun hnot => ?_, fun l hl hunique => ?_⟩
      · rw [hother fun l hl => hnot l (List.mem_cons_of_mem _ hl), getElem?_setImmediate, if_neg]
        intro heq
        exact hnot label (by rw [← heq]; exact List.mem_cons_self)
      · by_cases hrest : (p, l) ∈ rest
        · obtain ⟨q, hq, hword⟩ := hhit l hrest fun l' hl' => hunique l' (List.mem_cons_of_mem _ hl')
          refine ⟨q, hq, ?_⟩
          rw [hword, getElem?_setImmediate]
          split
          · rw [Option.map_map]
            rfl
          · rfl
        · have hhead : (p, l) = (position, label) := (List.mem_cons.mp hl).resolve_right hrest
          cases hhead
          refine ⟨target, hlabel, ?_⟩
          rw [hother fun l' hl' => ?_, getElem?_setImmediate, if_pos rfl]
          rw [hunique l' (List.mem_cons_of_mem _ hl')] at hl'
          exact hrest hl'

/-- Filling in references changes words, and nothing else that lasts. -/
theorem resolveReferences_same {refs : List (Nat × Label)}
    (hok : c.resolveReferences refs = (.ok (), c')) :
    c'.words.size = c.words.size ∧ c'.capacity = c.capacity ∧ c'.overflowed = c.overflowed ∧
      c'.references = c.references ∧ c'.labels = #[] := by
  induction refs generalizing c with
  | nil =>
    rw [resolveReferences] at hok
    cases hok
    exact ⟨rfl, rfl, rfl, rfl, rfl⟩
  | cons r rest ih =>
    obtain ⟨position, label⟩ := r
    rw [resolveReferences] at hok
    cases hlabel : c.labelOffset? label with
    | none =>
      rw [hlabel] at hok
      cases hok
    | some target =>
      rw [hlabel] at hok
      obtain ⟨hsize, hcapacity, hov, hrefs, hlabels⟩ := ih hok
      exact ⟨hsize.trans Array.size_modify, hcapacity, hov, hrefs, hlabels⟩

end CodeSpace

theorem Operation.decode?_withImmediate (c : Condition) (target : Nat) :
    decode? (CodeSpace.withImmediate (jumpIf c 0).encode target) =
      some (jumpIf c (UInt32.ofNat target)) := by
  have hfits : (jumpIf c (UInt32.ofNat target)).Fits := trivial
  exact decode?_encode hfits

/-! ### Code that carries a lowering -/

/-- **Host code holds what a lowering emitted.** -/
structure Carries (code : Array HostWord) (base : Nat) (b : Builder) : Prop where
  word : ∀ p, base ≤ p → (∀ l, (p, l) ∉ b.code.references) → (∀ e ∈ b.exits, e.stub ≠ p) →
    ∀ op, b.code.operation? p = some op → Host.operationAt? code p = some op
  jump : ∀ p l c, base ≤ p → (p, l) ∈ b.code.references →
    b.code.operation? p = some (.jumpIf c 0) → ∃ q, b.code.labelOffset? l = some q ∧
      Host.operationAt? code p = some (.jumpIf c (UInt32.ofNat q))

/-- References and exits are words that were emitted. -/
structure Builder.Placed (b : Builder) : Prop where
  refs : ∀ p l, (p, l) ∈ b.code.references → p < b.code.offset
  stubs : ∀ e ∈ b.exits, e.stub < b.code.offset

namespace Builder.Adds

variable {b b' : Builder} {ops : List Operation} {refs : List (Nat × Label)} {exits : List Exit}

theorem placed (x : Adds b b' ops refs exits) (hb : b.Placed) : b'.Placed where
  refs p l hp := by
    rw [x.allReferences] at hp
    rcases List.mem_append.mp hp with hp | hp
    · have hlt := hb.refs p l hp
      have hoffset := x.offset
      omega
    · exact (x.refs_lt hp).2
  stubs e he := by
    rw [← Array.mem_toList_iff, x.allExits] at he
    rcases List.mem_append.mp he with he | he
    · have hlt := hb.stubs e (Array.mem_toList_iff.mp he)
      have hoffset := x.offset
      omega
    · exact (x.stub_lt he).2

/-- A word that was appended. -/
theorem operation? (x : Adds b b' ops refs exits) {k : Nat} {op : Operation} (hop : op.Fits)
    (hk : ops[k]? = some op) : b'.code.operation? (b.code.offset + k) = some op := by
  have hword : b'.code.words[b.code.offset + k]? = some op.encode := by
    rw [← Array.getElem?_toList, x.words, ← CodeSpace.length_words,
      List.getElem?_append_right (Nat.le_add_right _ _), Nat.add_sub_cancel_left, List.getElem?_map,
      hk]
    rfl
  rw [CodeSpace.operation?, CodeSpace.word?, hword]
  exact Operation.decode?_encode hop

/-- A word that was there is still there. -/
theorem operation?_of_lt (x : Adds b b' ops refs exits) {p : Nat} (hp : p < b.code.offset) :
    b'.code.operation? p = b.code.operation? p := by
  have hword : b'.code.words[p]? = b.code.words[p]? := by
    rw [← Array.getElem?_toList, x.words, List.getElem?_append_left, Array.getElem?_toList]
    rw [CodeSpace.length_words]
    exact hp
  rw [CodeSpace.operation?, CodeSpace.operation?, CodeSpace.word?, CodeSpace.word?, hword]

end Builder.Adds

/-- **The lowering has come to `b`** on its way to `last`, which host code carries. -/
structure Way (code : Array HostWord) (base : Nat) (last b : Builder) : Prop where
  carries : Carries code base last
  fits : last.code.overflowed = false
  placed : b.Placed
  base_le : base ≤ b.code.offset
  goesOn : b.Extends last

namespace Way

variable {code : Array HostWord} {base : Nat} {last b b' : Builder} {ops : List Operation}
  {refs : List (Nat × Label)} {exits : List Exit}

/-- What was appended since. -/
theorem adds (y : Way code base last b) (hext : b.Extends b') (hlast : b'.Extends last) :
    ∃ ops refs exits, b.Adds b' ops refs exits := by
  obtain ⟨_, _, _, hadds⟩ := hlast y.fits
  exact hext hadds.fits

theorem step (y : Way code base last b) (hext : b.Extends b') (hlast : b'.Extends last) :
    Way code base last b' := by
  obtain ⟨ops, refs, exits, x⟩ := y.adds hext hlast
  have hoffset := x.offset
  exact ⟨y.carries, y.fits, x.placed y.placed, Nat.le_trans y.base_le (by omega), hlast⟩

/-- The references of `last` to a word that was appended. -/
theorem mem_refs (y : Way code base last b) (x : b.Adds b' ops refs exits)
    (hlast : b'.Extends last) {k : Nat} (hk : k < ops.length) (l : Label) :
    (b.code.offset + k, l) ∈ last.code.references ↔ (b.code.offset + k, l) ∈ refs := by
  obtain ⟨ops', refs', exits', x'⟩ := hlast y.fits
  have hoffset := x.offset
  rw [x'.allReferences, x.allReferences, List.mem_append, List.mem_append]
  constructor
  · rintro ((hp | hp) | hp)
    · have hlt := y.placed.refs _ l hp
      omega
    · exact hp
    · have hle := (x'.refs_lt hp).1
      omega
  · exact fun hp => .inl (.inr hp)

/-- The exits of `last` at a word that was appended. -/
theorem mem_exits (y : Way code base last b) (x : b.Adds b' ops refs exits)
    (hlast : b'.Extends last) {k : Nat} (hk : k < ops.length) {e : Exit}
    (he : e.stub = b.code.offset + k) : e ∈ last.exits ↔ e ∈ exits := by
  obtain ⟨ops', refs', exits', x'⟩ := hlast y.fits
  have hoffset := x.offset
  rw [← Array.mem_toList_iff, x'.allExits, x.allExits, List.mem_append, List.mem_append]
  constructor
  · rintro ((hp | hp) | hp)
    · have hlt := y.placed.stubs e (Array.mem_toList_iff.mp hp)
      omega
    · exact hp
    · have hle := (x'.stub_lt hp).1
      omega
  · exact fun hp => .inl (.inr hp)

/-- **A word that was appended is found**, unless it is a forward jump or an exit. -/
theorem operationAt? (y : Way code base last b) (x : b.Adds b' ops refs exits)
    (hlast : b'.Extends last) {k : Nat} {op : Operation} (hk : ops[k]? = some op)
    (hop : op.Inline ∨ op.Leaves) : Host.operationAt? code (b.code.offset + k) = some op := by
  have hlt := (List.getElem?_eq_some_iff.mp hk).1
  obtain ⟨ops', refs', exits', x'⟩ := hlast y.fits
  refine y.carries.word _ (Nat.le_trans y.base_le (Nat.le_add_right _ _)) (fun l hl => ?_)
    (fun e he heq => ?_) op ?_
  · obtain ⟨k', c, hkk, hjump⟩ := x.refAt _ _ ((y.mem_refs x hlast hlt l).mp hl)
    rw [← Nat.add_left_cancel hkk, hk] at hjump
    cases hjump
    exact hop.elim id id
  · obtain ⟨k', hkk, hexit⟩ := x.stubAt e ((y.mem_exits x hlast hlt heq).mp he)
    rw [← Nat.add_left_cancel (heq.symm.trans hkk), hk] at hexit
    cases hexit
    exact hop.elim id id
  · rw [x'.operation?_of_lt (x.lt_offset hk)]
    exact x.operation? (hop.elim Operation.Inline.fits Operation.Leaves.fits) hk

/-- **Straight code that was appended is laid out.** -/
theorem laid (y : Way code base last b) (hemits : b.Emits b' ops) (hlast : b'.Extends last) :
    Host.Laid code b.code.offset ops ∧ b'.code.offset = b.code.offset + ops.length := by
  obtain ⟨_, _, _, x'⟩ := hlast y.fits
  have x := Builder.Adds.of_emits hemits x'.fits
  refine ⟨fun k op hk => ?_, x.offset⟩
  exact y.operationAt? x hlast hk (.inl (hemits.inline op (List.mem_of_getElem? hk)))

/-- **A forward jump that was appended is found**, and leads to its label. -/
theorem jumpAt (y : Way code base last b) {condition : Condition} {label : Label}
    (hlast : (Lowering.pushJump b condition label).Extends last) :
    ∃ q, last.code.labelOffset? label = some q ∧
      Host.operationAt? code b.code.offset = some (.jumpIf condition (UInt32.ofNat q)) := by
  obtain ⟨_, _, _, x'⟩ := hlast y.fits
  have x := Lowering.adds_pushJump x'.fits
  have hzero : ([.jumpIf condition 0] : List Operation)[0]? = some (.jumpIf condition 0) := rfl
  have hmem := (y.mem_refs x hlast Nat.zero_lt_one label).mpr (List.mem_singleton_self _)
  refine y.carries.jump _ label condition y.base_le hmem ?_
  have hlt : b.code.offset < (Lowering.pushJump b condition label).code.offset := x.lt_offset hzero
  have hfits : (Operation.jumpIf condition 0).Fits := trivial
  rw [x'.operation?_of_lt hlt]
  exact x.operation? hfits hzero

/-- **An exit that was appended is one of the exits of the block.** -/
theorem exitAt (y : Way code base last b) {target : UInt32}
    (hlast : (Lowering.pushExit b target).Extends last) :
    { target := target, stub := b.code.offset } ∈ last.exits := by
  obtain ⟨_, _, _, x'⟩ := hlast y.fits
  have x := Lowering.adds_pushExit x'.fits
  exact (y.mem_exits x hlast Nat.zero_lt_one rfl).mpr (List.mem_singleton_self _)

/-- An operation that leaves the block and was appended is found. -/
theorem leaveAt (y : Way code base last b) {op : Operation} (hop : op.Leaves)
    (hlast : Builder.Extends { b with code := b.code.emit op.encode } last) :
    Host.operationAt? code b.code.offset = some op := by
  obtain ⟨_, _, _, x'⟩ := hlast y.fits
  have x := Lowering.adds_emit hop x'.fits
  exact y.operationAt? x hlast (k := 0) rfl (.inr hop)

/-- **Where a label is bound, it stays bound.** -/
theorem labelAt (y : Way code base last b) {label : Label}
    (hlt : label < b.code.labels.size) (hlast : (Lowering.withPlace b label).Extends last) :
    last.code.labelOffset? label = some b.code.offset := by
  obtain ⟨_, _, _, x'⟩ := hlast y.fits
  refine x'.labels label _ ?_
  rw [Lowering.labelOffset?_withPlace hlt, if_pos rfl]

end Way

/-! ### A finished lowering -/

namespace CodeSpace

variable {c resolved : CodeSpace}

/-- **What `resolve` leaves.** -/
theorem resolve_same (hok : c.resolve = (.ok (), resolved)) :
    resolved.words.size = c.words.size ∧ resolved.capacity = c.capacity ∧
      resolved.overflowed = c.overflowed ∧ resolved.references = [] ∧ resolved.labels = #[] :=
  resolveReferences_same (c := { c with references := [] }) hok

end CodeSpace

namespace Builder.Adds

variable {b b' : Builder} {ops : List Operation} {refs : List (Nat × Label)} {exits : List Exit}
  {resolved : CodeSpace}

/-- A reference that was appended is the only one at its word. -/
theorem ref_unique (x : Adds b b' ops refs exits) (hb : b.Placed) {p : Nat} {l l' : Label}
    (hle : b.code.offset ≤ p) (hl : (p, l) ∈ b'.code.references)
    (hl' : (p, l') ∈ b'.code.references) : l' = l := by
  have hmem : ∀ k, (p, k) ∈ b'.code.references → (p, k) ∈ refs := fun k hk => by
    rw [x.allReferences] at hk
    refine (List.mem_append.mp hk).resolve_left fun hk => ?_
    have hlt := hb.refs p k hk
    omega
  have heq := List.inj_on_of_nodup_map x.refsApart (hmem l' hl') (hmem l hl) rfl
  exact congrArg Prod.snd heq

/-- **The words of a finished lowering, forward jumps apart.** -/
theorem word_resolve (hok : b'.code.resolve = (.ok (), resolved)) {p : Nat}
    (hp : ∀ l, (p, l) ∉ b'.code.references) : resolved.words[p]? = b'.code.words[p]? :=
  (CodeSpace.words_resolveReferences (c := { b'.code with references := [] }) hok p).1 hp

/-- **A finished lowering is carried by its code space.** -/
theorem carries_resolve (x : Adds b b' ops refs exits) (hb : b.Placed)
    (hok : b'.code.resolve = (.ok (), resolved)) :
    Carries resolved.words b.code.offset b' where
  word p _ hrefs _ op hop := by
    rw [Host.operationAt?, word_resolve hok hrefs]
    exact hop
  jump p l c hle hmem hop := by
    have hhit := (CodeSpace.words_resolveReferences (c := { b'.code with references := [] }) hok
      p).2 l hmem fun l' hl' => x.ref_unique hb hle hmem hl'
    obtain ⟨q, hq, hword⟩ := hhit
    refine ⟨q, hq, ?_⟩
    have hadded : (p, l) ∈ refs := by
      rw [x.allReferences] at hmem
      refine (List.mem_append.mp hmem).resolve_left fun hk => ?_
      have hlt := hb.refs p l hk
      omega
    obtain ⟨k, c', rfl, hk⟩ := x.refAt p l hadded
    have hfits : (Operation.jumpIf c' 0).Fits := trivial
    have hsame := x.operation? hfits hk
    have hc : c' = c := by
      rw [hop] at hsame
      cases hsame
      rfl
    have hemitted : b'.code.words[b.code.offset + k]? = some (Operation.jumpIf c' 0).encode := by
      rw [← Array.getElem?_toList, x.words, ← CodeSpace.length_words,
        List.getElem?_append_right (Nat.le_add_right _ _), Nat.add_sub_cancel_left,
        List.getElem?_map, hk]
      rfl
    rw [Host.operationAt?, hword]
    show ((b'.code.words[b.code.offset + k]?).map _).bind _ = _
    rw [hemitted, hc]
    exact Operation.decode?_withImmediate c q

/-- The exits that were appended, in a finished lowering. -/
theorem exit_resolve (x : Adds b b' ops refs exits) (hb : b.Placed)
    (hok : b'.code.resolve = (.ok (), resolved)) {e : Exit} (he : e ∈ exits) :
    resolved.operation? e.stub = some (.exitDispatch e.target) := by
  obtain ⟨k, heq, hk⟩ := x.stubAt e he
  have hword := word_resolve hok (p := e.stub) fun l hl => by
    rw [x.allReferences] at hl
    rcases List.mem_append.mp hl with hl | hl
    · have hlt := hb.refs _ l hl
      omega
    · obtain ⟨k', c, heq', hk'⟩ := x.refAt _ l hl
      rw [← Nat.add_left_cancel (heq.symm.trans heq'), hk] at hk'
      cases hk'
  have hfits : (Operation.exitDispatch e.target).Fits := trivial
  have hop := x.operation? hfits hk
  rw [← heq] at hop
  rw [CodeSpace.operation?, CodeSpace.word?, hword]
  exact hop

end Builder.Adds

/-- The lowering of a block behind its checked entry. -/
def Builder.entered (s : Setting) (code : CodeSpace) : Builder :=
  { Builder.start code s with
    code := code.emit (Operation.checkEntry s.options.downcountInRegister s.start).encode }

namespace Lowering

/-- The guard of a block that assumes that no modifier is pending. -/
def guardEntry (s : Setting) : Lowering Unit :=
  if s.entry = .noModifiers then emit (.guardModifiers s.start) else pure ()

theorem growing_guardEntry {s : Setting} {b : Builder} : Growing s (guardEntry s) 0 b := by
  unfold guardEntry
  split
  · exact growing_emit trivial
  · exact growing_of_straight (straight_pure _)

/-- What the lowering of a block is made of. -/
theorem block_ok {s : Setting} {code : CodeSpace} {last : Builder}
    (hok : block s (Builder.start code s) = .ok ((), last)) :
    ∃ b, guardEntry s s (Builder.entered s code) = .ok ((), b) ∧
      instructions (room s.memory) s.start s b = .ok ((), last) := by
  obtain ⟨_, b, hentries, hrest⟩ := bind_eq_ok hok
  obtain ⟨_, b', hread, hinstructions⟩ := bind_eq_ok hrest
  cases hread
  obtain ⟨_, b₀, hread, hentries⟩ := bind_eq_ok hentries
  cases hread
  obtain ⟨_, b₁, hemit, hguard⟩ := bind_eq_ok hentries
  cases hemit
  exact ⟨b, hguard, hinstructions⟩

end Lowering

/-- **What the lowering of a block has done**: `last` is the finished builder. -/
structure Finished (s : Setting) (code : CodeSpace) (block : Block) (resolved : CodeSpace)
    (last : Builder) : Prop where
  run : ∃ b, Lowering.guardEntry s s (Builder.entered s code) = .ok ((), b) ∧
    Lowering.instructions (Lowering.room s.memory) s.start s b = .ok ((), last)
  fits : last.code.overflowed = false
  resolve : last.code.resolve = (.ok (), resolved)
  block_eq : block = last.toBlock s code

theorem finished_of_ok {s : Setting} {code resolved : CodeSpace} {block : Block}
    (hok : lowerBlock s code = (.ok block, resolved)) :
    ∃ last, Finished s code block resolved last := by
  rw [lowerBlock] at hok
  cases hrun : Lowering.block.run s (Builder.start code s) with
  | error e =>
    rw [hrun] at hok
    cases hok
  | ok p =>
    obtain ⟨_, last⟩ := p
    rw [hrun] at hok
    dsimp only at hok
    rw [Builder.close] at hok
    cases hov : last.code.overflowed with
    | true =>
      rw [hov] at hok
      cases hok
    | false =>
      rw [hov] at hok
      cases hresolve : last.code.resolve with
      | mk outcome space =>
        rw [hresolve] at hok
        cases outcome with
        | error l => cases hok
        | ok u =>
          cases hok
          exact ⟨last, Lowering.block_ok hrun, hov, hresolve, rfl⟩

namespace Finished

variable {s : Setting} {code resolved : CodeSpace} {block : Block} {last : Builder}

theorem goesOn (f : Finished s code block resolved last) :
    (Builder.entered s code).Extends last := by
  obtain ⟨b, hguard, hinstructions⟩ := f.run
  exact (Lowering.growing_guardEntry _ _ hguard).1.trans
    (Lowering.growing_instructions hinstructions).1

/-- The checked entry fitted. -/
theorem entered_code (f : Finished s code block resolved last) :
    (Builder.entered s code).code = { code with
      words := code.words.push
        (Operation.checkEntry s.options.downcountInRegister s.start).encode } := by
  obtain ⟨_, _, _, x⟩ := f.goesOn f.fits
  exact (CodeSpace.emit_of_fits x.fits).2

theorem entered_offset (f : Finished s code block resolved last) :
    (Builder.entered s code).code.offset = code.offset + 1 := by
  rw [f.entered_code]
  exact Array.size_push _

theorem placed (f : Finished s code block resolved last)
    (hrefs : ∀ p l, (p, l) ∈ code.references → p < code.offset) :
    (Builder.entered s code).Placed where
  refs p l hp := by
    rw [f.entered_code] at hp
    have hlt := hrefs p l hp
    rw [f.entered_offset]
    omega
  stubs e he := absurd he (Array.not_mem_empty e)

/-- **The code space carries the finished lowering.** -/
theorem way (f : Finished s code block resolved last)
    (hrefs : ∀ p l, (p, l) ∈ code.references → p < code.offset) :
    Way resolved.words (code.offset + 1) last (Builder.entered s code) := by
  obtain ⟨_, _, _, x⟩ := f.goesOn f.fits
  have hcarries := x.carries_resolve (f.placed hrefs) f.resolve
  rw [f.entered_offset] at hcarries
  exact ⟨hcarries, f.fits, f.placed hrefs, Nat.le_of_eq f.entered_offset.symm, f.goesOn⟩

/-- **What is left of the code space.** -/
theorem space (f : Finished s code block resolved last) :
    resolved.capacity = code.capacity ∧ resolved.overflowed = false ∧ resolved.references = [] ∧
      resolved.labels = #[] := by
  obtain ⟨_, _, _, x⟩ := f.goesOn f.fits
  obtain ⟨-, hcapacity, hov, hrefs, hlabels⟩ := CodeSpace.resolve_same f.resolve
  have hentered : (Builder.entered s code).code.capacity = code.capacity := by rw [f.entered_code]
  exact ⟨hcapacity.trans (x.capacity.trans hentered), hov.trans f.fits, hrefs, hlabels⟩

/-- **The first word of a block is its checked entry.** -/
theorem checkEntry (f : Finished s code block resolved last)
    (hrefs : ∀ p l, (p, l) ∈ code.references → p < code.offset) :
    resolved.operation? code.offset =
      some (.checkEntry s.options.downcountInRegister s.start) := by
  obtain ⟨_, _, _, x⟩ := f.goesOn f.fits
  have hlt : code.offset < (Builder.entered s code).code.offset := by
    rw [f.entered_offset]
    exact Nat.lt_succ_self _
  have hnot : ∀ l, (code.offset, l) ∉ last.code.references := fun l hl => by
    rw [x.allReferences] at hl
    rcases List.mem_append.mp hl with hl | hl
    · rw [f.entered_code] at hl
      exact Nat.lt_irrefl _ (hrefs _ l hl)
    · have hle := (x.refs_lt hl).1
      omega
  have hword : resolved.words[code.offset]? = last.code.words[code.offset]? :=
    Builder.Adds.word_resolve f.resolve hnot
  have hfits : (Operation.checkEntry s.options.downcountInRegister s.start).Fits := trivial
  have hop := x.operation?_of_lt hlt
  rw [CodeSpace.operation?, CodeSpace.word?, hword]
  refine hop.trans ?_
  rw [CodeSpace.operation?, CodeSpace.word?, f.entered_code]
  show (((code.words.push _)[code.words.size]?).bind _) = _
  rw [Array.getElem?_push_size]
  exact Operation.decode?_encode hfits

end Finished

namespace CodeSpace

/-- **Nothing of an unfinished lowering is left.** -/
structure Clean (c : CodeSpace) : Prop where
  fits : c.overflowed = false
  references : c.references = []
  labels : c.labels = #[]

theorem clean_truncate (c : CodeSpace) (offset : Nat) : (c.truncate offset).Clean := ⟨rfl, rfl, rfl⟩

/-- A failure leaves the words as they were. -/
theorem words_truncate (c : CodeSpace) : (c.truncate c.offset).words = c.words := by
  show c.words.shrink c.words.size = c.words
  rw [Array.shrink_eq_take, Array.take_eq_extract, Array.extract_size]

end CodeSpace

/-- A lowering that fails leaves the words that it was given. -/
theorem truncate_of_lowerBlock {s : Setting} {code space : CodeSpace} {e : Failure}
    (hlower : lowerBlock s code = (.error e, space)) : space = code.truncate code.offset := by
  rw [lowerBlock] at hlower
  split at hlower
  · cases hlower
    rfl
  · split at hlower
    · cases hlower
      rfl
    · cases hlower

/-- **Lowering leaves a clean code space** of the same capacity. -/
theorem clean_lowerBlock {s : Setting} {code : CodeSpace} {result : Except Failure Block}
    {space : CodeSpace} (hlower : lowerBlock s code = (result, space)) :
    space.Clean ∧ space.capacity = code.capacity := by
  cases result with
  | ok block =>
    obtain ⟨last, f⟩ := finished_of_ok hlower
    obtain ⟨hcapacity, hfits, hrefs, hlabels⟩ := f.space
    exact ⟨⟨hfits, hrefs, hlabels⟩, hcapacity⟩
  | error e =>
    rw [truncate_of_lowerBlock hlower]
    exact ⟨CodeSpace.clean_truncate _ _, rfl⟩

end Dynarec
