import Dynarec.Proofs.Lower.Aborting
import Dynarec.Proofs.Past

/-!
# What becomes of forward references

`CodeSpace.Trace c₀ history c` says that a history of calls, each with its answer, leads from the
clean space `c₀` to `c`.  Which labels are bound and which references are pending can be read off
the history (`CodeSpace.BoundAt`, `CodeSpace.PendingAt`), and every call keeps the space in line
with it (`CodeSpace.Recorded.step`).

A call that fills in references forgets all of them, also when it stops at a label that is not
bound.  So the fate of a reference is settled by the first such call behind it
(`CodeSpace.fixups_exact`): if that succeeds, its word holds the position of its label from then on;
if it fails, that is so only for the references in front of the first unbound label, and the others
keep the word that was emitted.
-/

namespace Dynarec

namespace CodeSpace

variable {c c' c₀ c₁ : CodeSpace} {p : Nat} {l : Label} {refs : List (Nat × Label)}

/-! ### Filling in references, up to a label that is not bound -/

/-- **Filling in references touches words and labels only.** -/
theorem resolveReferences_frame (c : CodeSpace) (refs : List (Nat × Label)) :
    (c.resolveReferences refs).2.offset = c.offset ∧
      (c.resolveReferences refs).2.overflowed = c.overflowed ∧
      (c.resolveReferences refs).2.references = c.references ∧
      ∀ l, (c.resolveReferences refs).1 = .error l →
        (c.resolveReferences refs).2.labels = c.labels := by
  induction refs generalizing c with
  | nil => exact ⟨rfl, rfl, rfl, fun l h => by cases h⟩
  | cons r rest ih =>
    obtain ⟨position, label⟩ := r
    rw [resolveReferences]
    cases c.labelOffset? label with
    | none => exact ⟨rfl, rfl, rfl, fun _ _ => rfl⟩
    | some target =>
      obtain ⟨hoffset, hfits, hrefs, hlabels⟩ := ih (c.setImmediate position target)
      exact ⟨hoffset.trans Array.size_modify, hfits, hrefs, hlabels⟩

/-- A word that is not referred to is left alone. -/
theorem word?_resolveReferences_of_not_mem (c : CodeSpace) (hp : ∀ r ∈ refs, r.1 ≠ p) :
    (c.resolveReferences refs).2.word? p = c.word? p := by
  induction refs generalizing c with
  | nil => rfl
  | cons r rest ih =>
    obtain ⟨position, label⟩ := r
    rw [resolveReferences]
    cases c.labelOffset? label with
    | none => rfl
    | some target =>
      refine (ih _ fun r hr => hp r (List.mem_cons_of_mem _ hr)).trans ?_
      rw [word?, getElem?_setImmediate, if_neg (hp _ List.mem_cons_self)]
      rfl

/-- **A word that is referred to** is filled in if no reference up to it has an unbound label, and
left alone otherwise. -/
theorem word?_resolveReferences (c : CodeSpace) (hsorted : refs.Pairwise (·.1 < ·.1))
    (hmem : (p, l) ∈ refs) :
    (∀ r ∈ refs, r.1 ≤ p → ∃ t, c.labelOffset? r.2 = some t) ∧
        (∃ t, c.labelOffset? l = some t ∧
          (c.resolveReferences refs).2.word? p = (c.word? p).map (withImmediate · t)) ∨
      (∃ r ∈ refs, r.1 ≤ p ∧ c.labelOffset? r.2 = none) ∧
        (c.resolveReferences refs).2.word? p = c.word? p := by
  induction refs generalizing c with
  | nil => cases hmem
  | cons r rest ih =>
    obtain ⟨position, label⟩ := r
    obtain ⟨hfirst, hsorted⟩ := List.pairwise_cons.mp hsorted
    rw [resolveReferences]
    cases hlabel : c.labelOffset? label with
    | none =>
      have hle : position ≤ p := by
        rcases List.mem_cons.mp hmem with heq | hrest
        · cases heq
          exact le_rfl
        · exact (hfirst _ hrest).le
      exact .inr ⟨⟨_, List.mem_cons_self, hle, hlabel⟩, rfl⟩
    | some target =>
      have hsame : ∀ l, (c.setImmediate position target).labelOffset? l = c.labelOffset? l :=
        fun _ => rfl
      rcases List.mem_cons.mp hmem with heq | hrest
      · cases heq
        refine .inl ⟨fun r hr hle => ?_, target, hlabel, ?_⟩
        · rcases List.mem_cons.mp hr with rfl | hr
          · exact ⟨target, hlabel⟩
          · exact absurd (hfirst r hr) (Nat.not_lt.mpr hle)
        · refine (word?_resolveReferences_of_not_mem _ fun r hr => (hfirst r hr).ne').trans ?_
          rw [word?, getElem?_setImmediate, if_pos rfl]
          rfl
      · have hword : (c.setImmediate position target).word? p = c.word? p := by
          rw [word?, getElem?_setImmediate, if_neg (hfirst _ hrest).ne]
          rfl
        rcases ih (c.setImmediate position target) hsorted hrest with
          ⟨hall, t, ht, hfilled⟩ | ⟨⟨r, hr, hle, hnone⟩, hleft⟩
        · refine .inl ⟨fun r hr hle => ?_, t, ht, hfilled.trans (by rw [hword])⟩
          rcases List.mem_cons.mp hr with rfl | hr
          · exact ⟨target, hlabel⟩
          · exact hall r hr hle
        · exact .inr ⟨⟨r, List.mem_cons_of_mem _ hr, hle, hnone⟩, hleft.trans hword⟩

/-- **All references can be filled in** exactly when all their labels are bound. -/
theorem resolveReferences_ok_iff (c : CodeSpace) (refs : List (Nat × Label)) :
    (c.resolveReferences refs).1 = .ok () ↔ ∀ r ∈ refs, ∃ t, c.labelOffset? r.2 = some t := by
  induction refs generalizing c with
  | nil => exact iff_of_true rfl (List.forall_mem_nil _)
  | cons r rest ih =>
    obtain ⟨position, label⟩ := r
    rw [resolveReferences, List.forall_mem_cons]
    cases hlabel : c.labelOffset? label with
    | none => exact iff_of_false (by simp) fun h => by obtain ⟨t, ht⟩ := h.1; cases ht
    | some target =>
      rw [and_iff_right ⟨target, rfl⟩]
      exact ih (c.setImmediate position target)

/-! ### Histories of calls -/

/-- **A call on a code space**, with its answer if there are several. -/
inductive Call where
  | emit (w : HostWord)
  | newLabel
  | bind (label : Label)
  | reference (w : HostWord) (label : Label)
  /-- All references were filled in. -/
  | resolved
  /-- The label of a reference was not bound. -/
  | failed (label : Label)
deriving DecidableEq, Repr

namespace Call

/-- A word is emitted. -/
def emits : Call → Bool
  | emit _ | reference _ _ => true
  | _ => false

/-- References are filled in. -/
def resolves : Call → Bool
  | resolved | failed _ => true
  | _ => false

end Call

/-- **A call leads from one space to another.**  Words are emitted within the capacity. -/
def Does (c : CodeSpace) (call : Call) (c' : CodeSpace) : Prop :=
  match call with
  | .emit w => c.offset < c.capacity ∧ c' = c.emit w
  | .newLabel => c' = c.newLabel.2
  | .bind l => c.bind l = .ok c'
  | .reference w l => c.offset < c.capacity ∧ c' = c.emitReference w l
  | .resolved => c.resolve = (.ok (), c')
  | .failed l => c.resolve = (.error l, c')

/-- **A history of calls leads from one space to another.** -/
def Trace (c₀ : CodeSpace) : List Call → CodeSpace → Prop
  | [], c => c = c₀
  | call :: rest, c => ∃ c₁, c₀.Does call c₁ ∧ c₁.Trace rest c

variable {history before between rest : List Call} {call : Call} {w : HostWord} {t : Nat}

theorem trace_append : c₀.Trace (before ++ rest) c ↔ ∃ c₁, c₀.Trace before c₁ ∧ c₁.Trace rest c := by
  induction before generalizing c₀ with
  | nil =>
    refine ⟨fun x => ⟨c₀, rfl, x⟩, ?_⟩
    rintro ⟨c₁, rfl, x⟩
    exact x
  | cons call before ih =>
    constructor
    · rintro ⟨c₂, hcall, x⟩
      obtain ⟨c₁, y, z⟩ := ih.mp x
      exact ⟨c₁, ⟨c₂, hcall, y⟩, z⟩
    · rintro ⟨c₁, ⟨c₂, hcall, y⟩, z⟩
      exact ⟨c₂, hcall, ih.mpr ⟨c₁, y, z⟩⟩

/-- The offset of the next word after a history. -/
def position (c₀ : CodeSpace) (history : List Call) : Nat := c₀.offset + history.countP Call.emits

/-- **A label is bound to an offset**, by the last call that bound it. -/
def BoundAt (c₀ : CodeSpace) (history : List Call) (l : Label) (t : Nat) : Prop :=
  Since False (fun before call => call = .bind l ∧ t = c₀.position before)
    (fun call => call = .bind l ∨ call = .resolved) history

/-- **A reference is pending** for the word at an offset. -/
def PendingAt (c₀ : CodeSpace) (history : List Call) (p : Nat) (l : Label) : Prop :=
  Since False (fun before call => ∃ w, call = .reference w l ∧ p = c₀.position before)
    (fun call => call.resolves = true) history

theorem position_concat (c₀ : CodeSpace) (history : List Call) (call : Call) :
    c₀.position (history ++ [call]) = c₀.position history + if call.emits then 1 else 0 := by
  rw [position, position, List.countP_append, List.countP_singleton, Nat.add_assoc]

/-- A call that binds no label and drops none. -/
theorem boundAt_concat (hbind : ∀ l, call ≠ .bind l) (hresolved : call ≠ .resolved) :
    c₀.BoundAt (history ++ [call]) l t ↔ c₀.BoundAt history l t :=
  since_concat_of_not (fun h => hbind l h.1)
    (by rintro (h | h) <;> [exact hbind l h; exact hresolved h])

theorem boundAt_bind {l' : Label} : c₀.BoundAt (history ++ [.bind l']) l t ↔
    if l' = l then t = c₀.position history else c₀.BoundAt history l t := by
  rw [BoundAt, since_concat]
  split
  · rename_i heq
    subst heq
    simp
  · rename_i hne
    have hne' : Call.bind l' ≠ .bind l := fun heq => hne (Call.bind.inj heq)
    simp [hne', BoundAt]

theorem not_boundAt_resolved : ¬ c₀.BoundAt (history ++ [.resolved]) l t :=
  not_since_concat (by rintro ⟨heq, -⟩; cases heq) (.inr rfl)

/-- A call that makes no reference and fills in none. -/
theorem pendingAt_concat (hreference : ∀ w l, call ≠ .reference w l)
    (hresolves : call.resolves = false) :
    c₀.PendingAt (history ++ [call]) p l ↔ c₀.PendingAt history p l :=
  since_concat_of_not (by rintro ⟨w, heq, -⟩; exact hreference w l heq) (by rw [hresolves]; decide)

theorem pendingAt_reference {l' : Label} : c₀.PendingAt (history ++ [.reference w l']) p l ↔
    (p, l) = (c₀.position history, l') ∨ c₀.PendingAt history p l := by
  rw [PendingAt, since_concat, Prod.mk.injEq]
  refine or_congr ⟨?_, ?_⟩ (and_iff_left Bool.false_ne_true)
  · rintro ⟨w, heq, hp⟩
    cases heq
    exact ⟨hp, rfl⟩
  · rintro ⟨hp, rfl⟩
    exact ⟨w, rfl, hp⟩

/-- Calls that fill in no references leave a pending one. -/
theorem PendingAt.append (h : c₀.PendingAt history p l) (hrest : ∀ call ∈ rest, call.resolves = false) :
    c₀.PendingAt (history ++ rest) p l :=
  Since.append h fun call hmem => by
    rw [hrest call hmem]
    exact Bool.false_ne_true

theorem not_pendingAt_resolves (hresolves : call.resolves = true) :
    ¬ c₀.PendingAt (history ++ [call]) p l := by
  refine not_since_concat ?_ hresolves
  rintro ⟨w, rfl, -⟩
  cases hresolves

/-! ### What the space keeps of its history -/

/-- **A code space is in line with a history.** -/
structure Recorded (c₀ : CodeSpace) (history : List Call) (c : CodeSpace) : Prop where
  offset : c.offset = c₀.position history
  fits : c.overflowed = false
  labels : ∀ l t, c.labelOffset? l = some t ↔ c₀.BoundAt history l t
  references : ∀ p l, (p, l) ∈ c.references ↔ c₀.PendingAt history p l
  sorted : c.references.Pairwise (·.1 < ·.1)
  below : ∀ r ∈ c.references, r.1 < c.offset

theorem recorded_nil (hclean : c₀.Clean) : c₀.Recorded [] c₀ where
  offset := rfl
  fits := hclean.fits
  labels l t := by
    rw [BoundAt, since_nil, labelOffset?, hclean.labels]
    exact iff_of_false (by simp) id
  references p l := by
    rw [PendingAt, since_nil, hclean.references]
    exact iff_of_false (by simp) id
  sorted := by
    rw [hclean.references]
    exact .nil
  below r hr := by
    rw [hclean.references] at hr
    cases hr

/-- A word that fits is appended. -/
theorem emit_of_lt (hroom : c.offset < c.capacity) : c.emit w = { c with words := c.words.push w } :=
  if_pos hroom

theorem emitReference_of_lt (hfits : c.overflowed = false) (hroom : c.offset < c.capacity) :
    c.emitReference w l =
      { c with words := c.words.push w, references := c.references ++ [(c.offset, l)] } := by
  rw [emitReference, emit_of_lt hroom]
  exact if_neg (by rw [hfits]; decide)

theorem labelOffset?_place (c : CodeSpace) (l' l : Label) (hlive : l' < c.labels.size) :
    (c.place l').labelOffset? l = if l' = l then some c.offset else c.labelOffset? l := by
  rw [labelOffset?, labelOffset?, place, Array.getElem?_setIfInBounds]
  rw [if_pos hlive]
  split <;> rfl

theorem labelOffset?_newLabel (c : CodeSpace) (l : Label) :
    c.newLabel.2.labelOffset? l = c.labelOffset? l := by
  rw [labelOffset?, labelOffset?, newLabel, Array.getElem?_push]
  split
  · rename_i heq
    rw [heq, Array.getElem?_size]
    rfl
  · rfl

theorem eq_place_of_bind (hok : c.bind l = .ok c') : l < c.labels.size ∧ c' = c.place l := by
  rw [bind] at hok
  split at hok
  · rename_i hlive
    cases hok
    exact ⟨hlive, rfl⟩
  · cases hok

theorem resolve_eq_error (hfailed : c.resolve = (.error l, c')) :
    c'.offset = c.offset ∧ c'.overflowed = c.overflowed ∧ c'.references = [] ∧
      c'.labels = c.labels := by
  obtain ⟨hoffset, hfits, hrefs, hlabels⟩ :=
    resolveReferences_frame { c with references := [] } c.references
  rw [← resolve, hfailed] at hoffset hfits hrefs hlabels
  exact ⟨hoffset, hfits, hrefs, hlabels l rfl⟩

theorem resolve_eq_ok (hok : c.resolve = (.ok (), c')) :
    c'.offset = c.offset ∧ c'.overflowed = c.overflowed ∧ c'.references = [] ∧ c'.labels = #[] := by
  obtain ⟨hsize, -, hfits, hrefs, hlabels⟩ := resolveReferences_same hok
  exact ⟨hsize, hfits, hrefs, hlabels⟩

/-- A call that neither emits a word nor fills in references. -/
theorem Recorded.aside (x : c₀.Recorded history c) (hemits : call.emits = false)
    (hresolves : call.resolves = false) (hoffset : c'.offset = c.offset)
    (hfits : c'.overflowed = c.overflowed) (hrefs : c'.references = c.references)
    (hlabels : ∀ l t, c'.labelOffset? l = some t ↔ c₀.BoundAt (history ++ [call]) l t) :
    c₀.Recorded (history ++ [call]) c' where
  offset := by
    rw [position_concat, hemits, hoffset, x.offset]
    rfl
  fits := hfits.trans x.fits
  labels := hlabels
  references p l := by
    have hreference : ∀ w l, call ≠ .reference w l := by
      rintro w l rfl
      cases hemits
    rw [pendingAt_concat hreference hresolves, hrefs]
    exact x.references p l
  sorted := by
    rw [hrefs]
    exact x.sorted
  below r hr := by
    rw [hrefs] at hr
    exact (x.below r hr).trans_eq hoffset.symm

/-- A call that fills in references, whatever its answer. -/
theorem Recorded.dropped (x : c₀.Recorded history c) (hresolves : call.resolves = true)
    (hoffset : c'.offset = c.offset) (hfits : c'.overflowed = c.overflowed) (hrefs : c'.references = [])
    (hlabels : ∀ l t, c'.labelOffset? l = some t ↔ c₀.BoundAt (history ++ [call]) l t) :
    c₀.Recorded (history ++ [call]) c' where
  offset := by
    have hemits : call.emits = false := by
      cases call <;> first | rfl | cases hresolves
    rw [position_concat, hemits, hoffset, x.offset]
    rfl
  fits := hfits.trans x.fits
  labels := hlabels
  references p l := by
    rw [hrefs]
    exact iff_of_false List.not_mem_nil (not_pendingAt_resolves hresolves)
  sorted := by
    rw [hrefs]
    exact .nil
  below r hr := by
    rw [hrefs] at hr
    cases hr

/-- **Every call keeps the space in line with its history.** -/
theorem Recorded.step (x : c₀.Recorded history c) (hcall : c.Does call c') :
    c₀.Recorded (history ++ [call]) c' := by
  have hposition := position_concat c₀ history call
  cases call with
  | emit w =>
    obtain ⟨hroom, rfl⟩ := hcall
    rw [emit_of_lt hroom]
    refine ⟨?_, x.fits, fun l t => ?_, fun p l => ?_, x.sorted, fun r hr => ?_⟩
    · rw [hposition, ← x.offset]
      exact Array.size_push _
    · rw [boundAt_concat (by simp) (by simp)]
      exact x.labels l t
    · rw [pendingAt_concat (by simp) rfl]
      exact x.references p l
    · exact (x.below r hr).trans_le ((Nat.le_succ _).trans_eq (Array.size_push _).symm)
  | newLabel =>
    cases hcall
    refine x.aside rfl rfl rfl rfl rfl fun l t => ?_
    rw [boundAt_concat (by simp) (by simp), labelOffset?_newLabel]
    exact x.labels l t
  | bind l' =>
    obtain ⟨hlive, rfl⟩ := eq_place_of_bind hcall
    refine x.aside rfl rfl rfl rfl rfl fun l t => ?_
    rw [boundAt_bind, labelOffset?_place c l' l hlive]
    split
    · rw [Option.some.injEq, x.offset, eq_comm]
    · exact x.labels l t
  | reference w l' =>
    obtain ⟨hroom, rfl⟩ := hcall
    rw [emitReference_of_lt x.fits hroom]
    refine ⟨?_, x.fits, fun l t => ?_, fun p l => ?_, ?_, fun r hr => ?_⟩
    · rw [hposition, ← x.offset]
      exact Array.size_push _
    · rw [boundAt_concat (by simp) (by simp)]
      exact x.labels l t
    · rw [pendingAt_reference, ← x.references, ← x.offset, or_comm]
      exact List.mem_append.trans (or_congr_right List.mem_singleton)
    · -- the new reference is at the offset, behind all others
      refine List.pairwise_append.mpr ⟨x.sorted, List.pairwise_singleton _ _, fun r hr r' hr' => ?_⟩
      rw [List.mem_singleton.mp hr']
      exact x.below r hr
    · show r.1 < (c.words.push w).size
      rw [Array.size_push]
      rcases List.mem_append.mp hr with hr | hr
      · exact (x.below r hr).trans (Nat.lt_succ_self _)
      · rw [List.mem_singleton.mp hr]
        exact Nat.lt_succ_self _
  | resolved =>
    obtain ⟨hoffset, hfits, hrefs, hlabels⟩ := resolve_eq_ok hcall
    refine x.dropped rfl hoffset hfits hrefs fun l t => iff_of_false ?_ not_boundAt_resolved
    rw [labelOffset?, hlabels]
    simp
  | failed l' =>
    obtain ⟨hoffset, hfits, hrefs, hlabels⟩ := resolve_eq_error hcall
    refine x.dropped rfl hoffset hfits hrefs fun l t => ?_
    rw [boundAt_concat (by simp) (by simp), ← x.labels, labelOffset?, labelOffset?, hlabels]

theorem Recorded.trace (x : c₀.Recorded history c₁) (y : c₁.Trace rest c) :
    c₀.Recorded (history ++ rest) c := by
  induction rest generalizing history c₁ with
  | nil =>
    cases y
    rwa [List.append_nil]
  | cons call rest ih =>
    obtain ⟨c₂, hcall, y⟩ := y
    rw [List.append_cons]
    exact ih (x.step hcall) y

/-! ### What becomes of a word -/

/-- A call that fills in no references appends. -/
theorem Does.grows (hcall : c.Does call c') (hresolves : call.resolves = false) : c.Grows c' := by
  cases call with
  | emit w =>
    obtain ⟨-, rfl⟩ := hcall
    exact c.grows_emit w
  | newLabel =>
    cases hcall
    exact .of_same rfl rfl rfl
  | bind l =>
    rw [(eq_place_of_bind hcall).2]
    exact .of_same rfl rfl rfl
  | reference w l =>
    obtain ⟨-, rfl⟩ := hcall
    exact c.grows_emitReference w l
  | resolved | failed l => cases hresolves

theorem grows_trace (x : c₁.Trace rest c) (hrest : ∀ call ∈ rest, call.resolves = false) :
    c₁.Grows c := by
  induction rest generalizing c₁ with
  | nil =>
    cases x
    exact .of_same rfl rfl rfl
  | cons call rest ih =>
    obtain ⟨c₂, hcall, x⟩ := x
    exact (hcall.grows (hrest call List.mem_cons_self)).trans
      (ih x fun call hmem => hrest call (List.mem_cons_of_mem _ hmem))

/-- What a call that fills in references does, whatever its answer. -/
theorem Does.eq_resolve (hcall : c.Does call c') (hresolves : call.resolves = true) :
    c' = c.resolve.2 := by
  cases call with
  | resolved | failed l => exact (congrArg Prod.snd hcall).symm
  | _ => cases hresolves

/-- **A word without a pending reference is left alone** by every call. -/
theorem Does.word_stays (hcall : c.Does call c') (hp : p < c.offset)
    (hfree : ∀ r ∈ c.references, r.1 ≠ p) :
    c'.word? p = c.word? p ∧ p < c'.offset ∧ ∀ r ∈ c'.references, r.1 ≠ p := by
  cases hresolves : call.resolves with
  | false =>
    have x := hcall.grows hresolves
    refine ⟨x.word p hp, hp.trans_le x.offset_le, fun r hr => ?_⟩
    rcases x.references r.1 r.2 hr with hr | hle
    · exact hfree r hr
    · exact (hp.trans_le hle).ne'
  | true =>
    obtain ⟨hoffset, -, hrefs, -⟩ := resolveReferences_frame { c with references := [] } c.references
    rw [hcall.eq_resolve hresolves]
    refine ⟨word?_resolveReferences_of_not_mem _ hfree, hp.trans_eq hoffset.symm, fun r hr => ?_⟩
    rw [resolve, hrefs] at hr
    cases hr

theorem word_stays (x : c₁.Trace rest c) (hp : p < c₁.offset) (hfree : ∀ r ∈ c₁.references, r.1 ≠ p) :
    c.word? p = c₁.word? p := by
  induction rest generalizing c₁ with
  | nil =>
    cases x
    rfl
  | cons call rest ih =>
    obtain ⟨c₂, hcall, x⟩ := x
    obtain ⟨hword, hp, hfree⟩ := hcall.word_stays hp hfree
    exact (ih x hp hfree).trans hword

/-- The word of an emitted word or reference. -/
theorem word_of_emits (hfits : c.overflowed = false)
    (hcall : c.Does (.emit w) c' ∨ c.Does (.reference w l) c') :
    c'.word? c.offset = some w ∧ c'.offset = c.offset + 1 := by
  rcases hcall with ⟨hroom, rfl⟩ | ⟨hroom, rfl⟩
  · rw [emit_of_lt hroom]
    exact ⟨Array.getElem?_push_size, Array.size_push _⟩
  · rw [emitReference_of_lt hfits hroom]
    exact ⟨Array.getElem?_push_size, Array.size_push _⟩

theorem Recorded.of_trace (hclean : c₀.Clean) (x : c₀.Trace history c) : c₀.Recorded history c :=
  (recorded_nil hclean).trace x

/-- **The labels of the references that were pending after `first` are bound after `history`.** -/
def AllBound (c₀ : CodeSpace) (first history : List Call) : Prop :=
  ∀ p l, c₀.PendingAt first p l → ∃ t, c₀.BoundAt history l t

/-- The references up to one of those that are filled in have bound labels if those do that were
pending when it was made. -/
theorem Recorded.allBound_iff {first : List Call} (x₁ : c₀.Recorded first c₁)
    (x : c₀.Recorded (first ++ between) c) (y : c₁.Grows c)
    (hbetween : ∀ call ∈ between, call.resolves = false) :
    c₀.AllBound first (first ++ between) ↔
      ∀ r ∈ c.references, r.1 < c₁.offset → ∃ t, c.labelOffset? r.2 = some t := by
  simp only [AllBound, ← x.labels]
  constructor
  · intro h r hr hlt
    refine h r.1 r.2 ((x₁.references _ _).mp ?_)
    exact (y.references r.1 r.2 hr).resolve_right (Nat.not_le.mpr hlt)
  · intro h p l hpending
    exact h (p, l) ((x.references p l).mpr (hpending.append hbetween))
      (x₁.below _ ((x₁.references p l).mpr hpending))

/-- **What a reference finds at the first call behind it that fills in references.** -/
theorem settled (hclean : c₀.Clean) {after : List Call} (hresolves : call.resolves = true)
    (hbetween : ∀ call ∈ between, call.resolves = false)
    (x : c₀.Trace (before ++ .reference w l :: (between ++ call :: after)) c) :
    c₀.AllBound (before ++ [.reference w l]) (before ++ .reference w l :: between) ∧
        (∃ t, c₀.BoundAt (before ++ .reference w l :: between) l t ∧
          c.word? (c₀.position before) = some (withImmediate w t)) ∨
      ¬ c₀.AllBound (before ++ [.reference w l]) (before ++ .reference w l :: between) ∧
        c.word? (c₀.position before) = some w := by
  obtain ⟨c₁, x₁, c₂, hreference, x₂⟩ := trace_append.mp x
  obtain ⟨c₃, x₃, c₄, hcall, x₄⟩ := trace_append.mp x₂
  have r₁ := Recorded.of_trace hclean x₁
  have r₂ := r₁.step hreference
  have r₃ := r₂.trace x₃
  have hgrows := grows_trace x₃ hbetween
  have hbound := r₂.allBound_iff r₃ hgrows hbetween
  obtain ⟨hword, hoffset⟩ := word_of_emits r₁.fits (.inr hreference)
  -- the reference is pending at the call, and its word is what was emitted
  have hmem : (c₁.offset, l) ∈ c₃.references := (r₃.references _ _).mpr
    ((pendingAt_reference.mpr (.inl (by rw [r₁.offset]))).append hbetween)
  have hlt : c₁.offset < c₂.offset := by rw [hoffset]; exact Nat.lt_succ_self _
  have hkept : c₃.word? c₁.offset = some w := (hgrows.word _ hlt).trans hword
  -- behind the call nothing is pending, so the word stays
  have hlast : c.word? c₁.offset = (c₃.resolve).2.word? c₁.offset := by
    obtain ⟨hsize, -, hrefs, -⟩ := resolveReferences_frame { c₃ with references := [] } c₃.references
    rw [← hcall.eq_resolve hresolves]
    refine word_stays x₄ ?_ fun r hr => ?_
    · rw [hcall.eq_resolve hresolves]
      exact (hlt.trans_le hgrows.offset_le).trans_eq hsize.symm
    · rw [hcall.eq_resolve hresolves, resolve, hrefs] at hr
      cases hr
  rw [List.append_cons before _ between, hbound, ← r₁.offset, hlast]
  rcases word?_resolveReferences { c₃ with references := [] } r₃.sorted hmem with
    ⟨hall, t, ht, hfilled⟩ | ⟨⟨r, hr, hle, hnone⟩, hleft⟩
  · refine .inl ⟨fun r hr hr' => hall r hr (by omega), t, (r₃.labels l t).mp ht, hfilled.trans ?_⟩
    show (c₃.word? _).map _ = _
    rw [hkept]
    rfl
  · refine .inr ⟨fun hall => ?_, hleft.trans hkept⟩
    obtain ⟨t, ht⟩ := hall r hr (by omega)
    rw [show c₃.labelOffset? r.2 = none from hnone] at ht
    cases ht

/-- **What a space holds after a history.** -/
structure Fixed (c₀ : CodeSpace) (history : List Call) (c : CodeSpace) : Prop where
  offset : c.offset = c₀.position history
  older : ∀ p < c₀.offset, c.word? p = c₀.word? p
  plain : ∀ before w after, history = before ++ .emit w :: after →
    c.word? (c₀.position before) = some w
  pending : ∀ before w l after, history = before ++ .reference w l :: after →
    (∀ call ∈ after, call.resolves = false) → c.word? (c₀.position before) = some w
  /-- References that were filled in hold the position of their label. -/
  resolved : ∀ before w l between after,
    history = before ++ .reference w l :: (between ++ .resolved :: after) →
    (∀ call ∈ between, call.resolves = false) →
      ∃ t, c₀.BoundAt (before ++ .reference w l :: between) l t ∧
        c.word? (c₀.position before) = some (withImmediate w t)
  /-- If that failed, only references in front of the first unbound label do. -/
  failed : ∀ before w l between l' after,
    history = before ++ .reference w l :: (between ++ .failed l' :: after) →
    (∀ call ∈ between, call.resolves = false) →
      c₀.AllBound (before ++ [.reference w l]) (before ++ .reference w l :: between) ∧
          (∃ t, c₀.BoundAt (before ++ .reference w l :: between) l t ∧
            c.word? (c₀.position before) = some (withImmediate w t)) ∨
        ¬ c₀.AllBound (before ++ [.reference w l]) (before ++ .reference w l :: between) ∧
          c.word? (c₀.position before) = some w
  /-- The next call that fills in references succeeds exactly if the labels of all of them are bound. -/
  answer : (∃ c', c.Does .resolved c') ↔ c₀.AllBound history history

theorem Recorded.answer_iff (x : c₀.Recorded history c) :
    (∃ c', c.Does .resolved c') ↔ c₀.AllBound history history := by
  have hok : (∃ c', c.Does .resolved c') ↔ c.resolve.1 = .ok () := by
    refine ⟨?_, fun h => ⟨c.resolve.2, Prod.ext h rfl⟩⟩
    rintro ⟨c', hc'⟩
    exact congrArg Prod.fst hc'
  rw [hok, resolve, resolveReferences_ok_iff]
  simp only [AllBound, ← x.labels, ← x.references, Prod.forall]
  rfl

theorem allBound_of_resolved (hclean : c₀.Clean) {after : List Call}
    (hbetween : ∀ call ∈ between, call.resolves = false)
    (x : c₀.Trace (before ++ .reference w l :: (between ++ .resolved :: after)) c) :
    c₀.AllBound (before ++ [.reference w l]) (before ++ .reference w l :: between) := by
  rw [List.append_cons, ← List.append_assoc] at x
  obtain ⟨c₃, x₃, c₄, hcall, -⟩ := trace_append.mp x
  rw [List.append_cons before _ between]
  intro p l' hpending
  exact (Recorded.of_trace hclean x₃).answer_iff.mp ⟨c₄, hcall⟩ p l' (hpending.append hbetween)

/-- **Fixing up references is exact, call by call.**  Every emitted word, and every word that was
there before, stays what it was, but for the words of references.  Those are settled by the first
call behind them that fills in references: if it succeeds, they hold the position of their label; if
it fails, only those in front of the first unbound label do, and nothing that is done later fills in
the others. -/
theorem fixups_exact (hclean : c₀.Clean) (x : c₀.Trace history c) : c₀.Fixed history c := by
  have r := Recorded.of_trace hclean x
  refine ⟨r.offset, fun p hp => ?_, ?_, ?_, ?_, ?_, r.answer_iff⟩
  · refine word_stays x hp ?_
    rw [hclean.references]
    simp
  · rintro before w after rfl
    obtain ⟨c₁, x₁, c₂, hemit, x₂⟩ := trace_append.mp x
    have r₁ := Recorded.of_trace hclean x₁
    obtain ⟨hword, hoffset⟩ := word_of_emits (l := 0) r₁.fits (.inl hemit)
    rw [← r₁.offset, ← hword]
    refine word_stays x₂ (by omega) fun r hr => ?_
    have hpending := ((r₁.step hemit).references r.1 r.2).mp hr
    rw [pendingAt_concat (by simp) rfl, ← r₁.references] at hpending
    exact (r₁.below _ hpending).ne
  · rintro before w l after rfl hafter
    obtain ⟨c₁, x₁, c₂, hreference, x₂⟩ := trace_append.mp x
    have r₁ := Recorded.of_trace hclean x₁
    obtain ⟨hword, hoffset⟩ := word_of_emits r₁.fits (.inr hreference)
    rw [← r₁.offset, ← hword]
    exact (grows_trace x₂ hafter).word _ (by omega)
  · rintro before w l between after rfl hbetween
    rcases settled hclean rfl hbetween x with ⟨-, hfilled⟩ | ⟨hnot, -⟩
    · exact hfilled
    · exact absurd (allBound_of_resolved hclean hbetween x) hnot
  · rintro before w l between l' after rfl hbetween
    exact settled hclean rfl hbetween x

/-- A space of one page. -/
def pageSpace : CodeSpace :=
  { words := #[], capacity := 512, overflowed := false, labels := #[], references := [] }

/-- A word that refers to a label. -/
def referring : HostWord := ⟨0x11, 0, 0, 0, 0⟩

/-- A reference over another word. -/
theorem fixups_exact_page :
    ∃ c, pageSpace.Trace [.newLabel, .reference referring 0, .emit referring, .bind 0, .resolved] c ∧
      c.word? 0 = some (withImmediate referring 2) := by
  have x : pageSpace.Trace [.newLabel, .reference referring 0, .emit referring, .bind 0, .resolved] _ :=
    ⟨_, rfl, _, ⟨by decide, rfl⟩, _, ⟨by decide, rfl⟩, _, rfl, _, rfl, rfl⟩
  refine ⟨_, x, ?_⟩
  obtain ⟨t, ht, hword⟩ := (fixups_exact ⟨rfl, rfl, rfl⟩ x).resolved [.newLabel] referring 0
    [.emit referring, .bind 0] [] rfl (by simp [Call.resolves])
  rw [show ([.newLabel] ++ .reference referring 0 :: [.emit referring, .bind 0] : List Call) =
    [.newLabel, .reference referring 0, .emit referring] ++ [.bind 0] from rfl, boundAt_bind,
    if_pos rfl] at ht
  rw [ht] at hword
  exact hword

/-- **A reference is forgotten**: the call fails since its label is not bound, and the next call,
with the label bound, succeeds and leaves the word as it was emitted. -/
theorem reference_forgotten :
    ∃ c, pageSpace.Trace
        [.newLabel, .reference referring 0, .failed 0, .bind 0, .resolved] c ∧
      pageSpace.BoundAt [.newLabel, .reference referring 0, .failed 0, .bind 0] 0 1 ∧
      c.word? 0 = some referring ∧ referring ≠ withImmediate referring 1 := by
  refine ⟨_, ⟨_, rfl, _, ⟨by decide, rfl⟩, _, rfl, _, rfl, _, rfl, rfl⟩, ?_, rfl, by decide⟩
  rw [show ([.newLabel, .reference referring 0, .failed 0, .bind 0] : List Call) =
    [.newLabel, .reference referring 0, .failed 0] ++ [.bind 0] from rfl, boundAt_bind, if_pos rfl]
  rfl

end CodeSpace

end Dynarec
