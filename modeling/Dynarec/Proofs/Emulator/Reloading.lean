import Dynarec.Proofs.Emulator.Faults
import Dynarec.Proofs.Emulator.Resuming

/-!
# Loading images into an emulator

Loading an image is not tracked, so a block that was compiled from bytes that it overwrites is run
as it was compiled, until its range is invalidated (`stale_image_runs`).  Wherever the body of a
block begins, the bytes that no image overwrote since are those that it was compiled from.  Once no
byte of a block is left that an image overwrote and that the emulator was not told of, the next run
executes what memory holds (`compiled_of_calls`).

`Session.Reloads` is the history of a session that images are loaded into.  The invariant of calls
is `Session.Told`: what was seen of the blocks is what they were compiled from, off the addresses
that nothing was told of.
-/

namespace Dynarec

open Host

namespace Session

/-- **The bytes that images overwrote** since a block was made, after something happened to a session. -/
def patchesAfter (patched : Nat → Set UInt32) (s s' : Session) : Nat → Set UInt32 :=
  if s'.recompiler.stats.blocksCompiled = s.recompiler.stats.blocksCompiled then patched
  else Function.update patched (s'.recompiler.cache.blocks.size - 1) ∅

/-- **What happened to a session** that images are loaded into, with the memory that each block was
compiled from and the addresses that images overwrote since. -/
inductive Reloads (s₀ : Session) : (Nat → Memory) → (Nat → Set UInt32) → Session → Prop
  | start : Reloads s₀ (fun _ => s₀.machine.memory) (fun _ => ∅) s₀
  | happens {origin : Nat → Memory} {patched : Nat → Set UInt32} {s s' : Session}
      {label : Option Action} (h : Reloads s₀ origin patched s) (next : Happens label s s') :
      Reloads s₀ (originsAfter origin s s') (patchesAfter patched s s') s'
  /-- The outside stores to memory, and does what it likes with the core. -/
  | outside {origin : Nat → Memory} {patched : Nat → Set UInt32} {s : Session} {m : Machine}
      (h : Reloads s₀ origin patched s) (stores : Memory.Stores s.machine.memory m.memory) :
      Reloads s₀ origin patched ⟨s.recompiler, m⟩
  | load {origin : Nat → Memory} {patched : Nat → Set UInt32} {s : Session} {core : Core}
      {offset : Nat} {image : List UInt8} (h : Reloads s₀ origin patched s)
      (fits : offset + image.length ≤ s.machine.memory.size) :
      Reloads s₀ origin
        (fun id => patched id ∪ {a | s.machine.memory.ImageCovers offset image a})
        ⟨s.recompiler, ⟨core, s.machine.memory.overlay offset image⟩⟩

variable {origin recorded : Nat → Memory} {patched : Nat → Set UInt32} {s s' s₀ : Session}
  {r : Recompiler} {m : Machine}

/-- An image laid over a memory that was seen, if that has the window of the memory at hand. -/
def overSeen (m : Memory) (offset : Nat) (image : List UInt8) (recorded : Memory) : Memory :=
  if recorded.base = m.base ∧ recorded.size = m.size then recorded.overlay offset image else recorded

/-- **Loading an image** keeps a session sound, if the image is laid over what was seen as well. -/
theorem Keeps.overlay {free : Nat} (x : Keeps origin (some recorded) free ⟨r, m⟩) (core : Core)
    {offset : Nat} {image : List UInt8} (hfits : offset + image.length ≤ m.memory.size) :
    Keeps origin (some fun id => overSeen m.memory offset image (recorded id)) free
      ⟨r, ⟨core, m.memory.overlay offset image⟩⟩ := by
  have horderly : (m.memory.overlay offset image).Orderly := by
    refine ⟨?_, ?_, ?_⟩
    · rw [Memory.Low, Memory.size_overlay]
      exact x.low
    · rw [Memory.size_overlay]
      exact x.orderly.pages
    · rw [Memory.size_overlay]
      exact x.orderly.queue
  refine ⟨x.consistent, x.stocked, horderly.low, ?_, x.trusting⟩
  rintro _ ⟨⟩
  refine ⟨horderly, fun id b hb => ?_, fun id b hb a ha hin => ?_, fun id b hb a ha => ?_⟩
  · have hwindow := x.watched.window id b hb
    rw [Memory.size_overlay, overSeen, if_pos hwindow, Memory.size_overlay]
    exact hwindow
  · rw [Memory.size_overlay] at hin
    exact x.watched.marked id b hb a ha hin
  · have hwindow := x.watched.window id b hb
    rw [overSeen, if_pos hwindow]
    exact (x.watched.fresh id b hb a ha).imp_left
      (Memory.read8_overlay_congr hwindow.1 hwindow.2 hfits)

/-- What was seen changes where the image covers it. -/
theorem sameOff_overSeen {memory : Memory} {offset : Nat} {image : List UInt8}
    (hfits : offset + image.length ≤ m.memory.size) :
    Memory.SameOff {a | m.memory.ImageCovers offset image a} memory
      (overSeen m.memory offset image memory) := by
  rw [overSeen]
  split
  · rename_i hwindow
    refine (Memory.sameOff_overlay (hwindow.2 ▸ hfits)).mono fun a ha => ?_
    have hcovers : memory.ImageCovers offset image a := ha
    rw [Memory.ImageCovers, hwindow.1] at hcovers
    exact hcovers
  · exact .refl _ _

/-- **Memories that were seen** are those that blocks were compiled from, but for the bytes that
images overwrote. -/
def Patches (patched : Nat → Set UInt32) (origin recorded : Nat → Memory) : Prop :=
  ∀ id, Memory.SameOff (patched id) (origin id) (recorded id)

theorem Patches.after (h : Patches patched origin recorded) (s s' : Session) :
    Patches (patchesAfter patched s s') (originsAfter origin s s') (originsAfter recorded s s') := by
  intro id
  rw [patchesAfter, originsAfter, originsAfter]
  split
  · exact h id
  · by_cases hid : id = s'.recompiler.cache.blocks.size - 1
    · rw [hid, Function.update_self, Function.update_self, Function.update_self]
      exact .refl _ _
    · rw [Function.update_of_ne hid, Function.update_of_ne hid, Function.update_of_ne hid]
      exact h id

theorem Patches.load (h : Patches patched origin recorded) {offset : Nat} {image : List UInt8}
    (hfits : offset + image.length ≤ m.memory.size) :
    Patches (fun id => patched id ∪ {a | m.memory.ImageCovers offset image a}) origin
      (fun id => overSeen m.memory offset image (recorded id)) :=
  fun id => (h id).trans (sameOff_overSeen hfits)

/-- **A session that images are loaded into is sound.** -/
theorem Reloads.sound (x₀ : ∀ origin, Sound origin s₀) (h : Reloads s₀ origin patched s) :
    ∃ recorded, SoundBy origin (some recorded) s ∧ Patches patched origin recorded := by
  induction h with
  | start => exact ⟨_, x₀ _, fun _ => .refl _ _⟩
  | happens _ next ih =>
    obtain ⟨recorded, x, hpatches⟩ := ih
    exact ⟨_, (x.happens next).1, hpatches.after _ _⟩
  | outside _ stores ih =>
    obtain ⟨recorded, x, hpatches⟩ := ih
    exact ⟨recorded, Keeps.stores x _ stores, hpatches⟩
  | @load origin patched s core offset image _ fits ih =>
    obtain ⟨recorded, x, hpatches⟩ := ih
    exact ⟨_, Keeps.overlay x core fits, hpatches.load fits⟩

/-- **No byte of an invalidated range is in a block.** -/
theorem Keeps.not_contains_of_invalidate {seen : Option (Nat → Memory)} (x : SoundBy origin seen s)
    {start length : UInt32} (hact : s.act (.invalidate start length) = .ok s') {id : Nat} {b : Block}
    (hb : s'.recompiler.cache.IsValid id b) {a : UInt32}
    (ha : ChangedRange.Covers ⟨start, length⟩ a) : b.contains a = false := by
  obtain ⟨n, r', hinvalidate, -, -, hno⟩ := Keeps.invalidate (r := s.recompiler) x start length
  obtain ⟨p, hp, rfl⟩ := ok_of_map hact
  cases hinvalidate.symm.trans hp
  refine Bool.eq_false_iff.mpr fun hin => ?_
  have hov := BlockCache.overlaps_of_covers hin ha
  cases (hno id b hb).symm.trans hov

/-- **Where the body of a block begins** its bytes are those that it was compiled from, if no image
overwrote them since. -/
theorem Keeps.unpatched_of_visits {id₀ id : Nat} {b₀ b : Block} {spot : Cursor}
    (x : SoundBy origin (some recorded) s) (hpatches : Patches patched origin recorded)
    (hb₀ : s.recompiler.cache.IsValid id₀ b₀) (hcalm : s.machine.eventPending = false)
    (hspot : s.Visits b₀ s.machine spot) (hb : s.recompiler.cache.IsValid id b)
    (hoffset : spot.offset = b.normalEntry) {a : UInt32} (ha : b.contains a = true)
    (hpatched : a ∉ patched id) : spot.machine.memory.read8 a = (origin id).read8 a := by
  have hunchanged := (x.accounted_of_visits hspot hb).unchanged
    (changed_of_calm (x.calm_of_visits hb₀ x.low hcalm hspot hb hoffset))
  exact (hunchanged a ha).trans ((hpatches id).read a hpatched)

/-! ### What was told of -/

/-- An address is in a block. -/
def InBlock (s : Session) (a : UInt32) : Prop :=
  ∃ id b, s.recompiler.cache.IsValid id b ∧ b.contains a = true

/-- **Other memories may have been seen**, as long as they are the same in blocks. -/
theorem Keeps.seeing (x : SoundBy origin (some recorded) s) {recorded' : Nat → Memory}
    (hwindow : ∀ id, (recorded' id).base = (recorded id).base ∧
      (recorded' id).size = (recorded id).size)
    (hbytes : ∀ id a, s.InBlock a → (recorded' id).read8 a = (recorded id).read8 a) :
    SoundBy origin (some recorded') s := by
  refine ⟨x.consistent, x.stocked, x.low, ?_, x.trusting⟩
  rintro _ ⟨⟩
  refine ⟨x.orderly, fun id b hb => ?_, x.watched.marked, fun id b hb a ha => ?_⟩
  · rw [(hwindow id).1, (hwindow id).2]
    exact x.watched.window id b hb
  · rw [hbytes id a ⟨id, b, hb, ha⟩]
    exact x.watched.fresh id b hb a ha

/-- **A session that was told of images**, but for those at stale addresses: what was seen is
elsewhere what blocks were compiled from. -/
def Told (stale : Set UInt32) (s : Session) : Prop :=
  ∃ origin recorded, SoundBy origin (some recorded) s ∧ Patches (fun _ => stale) origin recorded

variable {stale : Set UInt32}

/-- **Only what is in a block can be stale.** -/
theorem told_of_inBlock {told : Set UInt32} (x : SoundBy origin (some recorded) s)
    (hpatches : Patches (fun _ => stale) origin recorded) (h : ∀ a ∈ stale, s.InBlock a → a ∈ told) :
    s.Told told := by
  refine ⟨origin, fun id => (origin id).mixed {a | s.InBlock a} (recorded id), ?_, fun id => ?_⟩
  · have hsame := fun id => (hpatches id).mixed {a | s.InBlock a}
    refine Keeps.seeing x (fun id => ?_) fun id a ha => (hpatches id).read8_mixed.1 ha
    exact ⟨(hsame id).base.trans (hpatches id).base.symm, (hsame id).size.trans (hpatches id).size.symm⟩
  · exact ((hpatches id).mixed _).mono fun a ha => h a ha.1 ha.2

/-- Runs keep what was told. -/
theorem kept_told (stale : Set UInt32) : Emulator.Kept (Told stale) where
  happens := by
    rintro s s' label ⟨origin, recorded, x, hpatches⟩ hnext
    refine ⟨_, _, (x.happens hnext).1, fun id => (hpatches.after s s' id).mono ?_⟩
    rw [patchesAfter]
    split
    · exact fun a ha => ha
    · rw [Function.update_apply]
      split
      · exact Set.empty_subset _
      · exact fun a ha => ha
  outside := by
    rintro s m ⟨origin, recorded, x, hpatches⟩ hstores
    exact ⟨origin, recorded, Keeps.stores x m hstores, hpatches⟩

/-- **An image makes bytes of blocks stale.** -/
theorem Told.load (h : Told stale ⟨r, m⟩) (core : Core) {offset : Nat} {image : List UInt8}
    (hfits : offset + image.length ≤ m.memory.size) :
    Told (stale ∪ {a | m.memory.ImageCovers offset image a ∧ InBlock ⟨r, m⟩ a})
      ⟨r, ⟨core, m.memory.overlay offset image⟩⟩ := by
  obtain ⟨origin, recorded, x, hpatches⟩ := h
  refine told_of_inBlock (Keeps.overlay x core hfits) (hpatches.load hfits) ?_
  rintro a (hstale | hcovers) hin
  · exact .inl hstale
  · exact .inr ⟨hcovers, hin⟩

/-- **Invalidating a range tells of it.** -/
theorem Told.invalidate (h : s.Told stale) {start length : UInt32}
    (hact : s.act (.invalidate start length) = .ok s') :
    s'.Told (stale \ {a | ChangedRange.Covers ⟨start, length⟩ a}) := by
  obtain ⟨origin, recorded, x, hpatches⟩ := h
  have hquick : Action.invalidate start length ≠ .run := by simp
  obtain ⟨origin', recorded', x', hpatches'⟩ :=
    (kept_told stale).happens ⟨origin, recorded, x, hpatches⟩ (.act hquick hact)
  refine told_of_inBlock x' hpatches' fun a hstale ⟨id, b, hb, ha⟩ => ⟨hstale, fun htold => ?_⟩
  cases ha.symm.trans (x.not_contains_of_invalidate hact hb htold)

/-- **Where nothing is stale** a session is sound. -/
theorem Told.sound (h : s.Told ∅) : ∃ origin, Sound origin s := by
  obtain ⟨origin, recorded, x, hpatches⟩ := h
  refine ⟨origin, Keeps.seeing x (fun id => ?_) fun id a _ => ?_⟩
  · exact ⟨(hpatches id).base.symm, (hpatches id).size.symm⟩
  · exact ((hpatches id).read a (Set.notMem_empty a)).symm

end Session

namespace Emulator

open Session

variable {H : Type} {handler : SyscallHandler H} {s₀ : Session} {e e' : Emulator} {h h' : H}
  {p p₀ : Emulator × H} {stale : Set UInt32} {address entry start length : UInt32}
  {image : List UInt8}

/-- The addresses of an image. -/
def written (address : UInt32) (image : List UInt8) : Set UInt32 :=
  {a | address.toNat ≤ a.toNat ∧ a.toNat < address.toNat + image.length}

/-- **What calls come to** that succeed, with the state of the handler.  Stale are the addresses of
blocks that images overwrote, up to the call that tells of them. -/
inductive Called (handler : SyscallHandler H) (p₀ : Emulator × H) : Set UInt32 → Emulator × H → Prop
  | start : Called handler p₀ ∅ p₀
  | load {stale : Set UInt32} {e e' : Emulator} {h : H} {address : UInt32} {image : List UInt8}
      {entry : UInt32} (before : Called handler p₀ stale (e, h))
      (done : e.loadImage address image entry = .ok (.ok e')) :
      Called handler p₀ (stale ∪ {a | a ∈ written address image ∧ e.Holds (·.InBlock a)}) (e', h)
  | invalidate {stale : Set UInt32} {e e' : Emulator} {h : H} {start length : UInt32}
      (before : Called handler p₀ stale (e, h)) (done : e.invalidate start length = .ok e') :
      Called handler p₀ (stale \ {a | ChangedRange.Covers ⟨start, length⟩ a}) (e', h)
  | runUntil {stale : Set UInt32} {e e' : Emulator} {h h' : H} {target : Nat}
      {result : Except Failure StopReason} (before : Called handler p₀ stale (e, h))
      (done : e.runUntil handler target h = .ok (result, e', h')) : Called handler p₀ stale (e', h')

theorem loadImage_eq (hdone : e.loadImage address image entry = .ok (.ok e')) :
    ∃ offset, address.toNat = e.machine.memory.base.toNat + offset ∧
      offset + image.length ≤ e.machine.memory.size ∧
      e' = ⟨e.engine, ⟨{ e.machine.core with pc := entry }, e.machine.memory.overlay offset image⟩,
        e.cycles, e.sliceCycles⟩ := by
  rw [Emulator.loadImage] at hdone
  obtain ⟨result, hload, hdone⟩ := ok_of_bind hdone
  cases result with
  | error misfit => cases hdone
  | ok memory' =>
    cases hdone
    obtain ⟨offset, hstart, hfits, rfl⟩ := Memory.loadImage_eq hload
    exact ⟨offset, hstart, hfits, rfl⟩

theorem invalidate_eq {r : Recompiler} (hengine : e.engine = .recompiler r)
    (hdone : e.invalidate start length = .ok e') :
    ∃ r', Session.act ⟨r, e.machine⟩ (.invalidate start length) = .ok ⟨r', e.machine⟩ ∧
      e' = ⟨.recompiler r', e.machine, e.cycles, e.sliceCycles⟩ := by
  rw [Emulator.invalidate, hengine] at hdone
  obtain ⟨p, hp, hdone⟩ := ok_of_bind hdone
  cases hdone
  refine ⟨p.2, ?_, rfl⟩
  rw [Session.act, hp]
  rfl

/-! ### The history of an emulator -/

/-- **An emulator whose session has a history.** -/
def Traced (s₀ : Session) : Emulator → Prop :=
  Holds fun s => ∃ origin patched, Reloads s₀ origin patched s

theorem kept_reloads (s₀ : Session) : Kept fun s => ∃ origin patched, Reloads s₀ origin patched s where
  happens := by
    rintro s s' label ⟨origin, patched, htrace⟩ hnext
    exact ⟨_, _, htrace.happens hnext⟩
  outside := by
    rintro s m ⟨origin, patched, htrace⟩ hstores
    exact ⟨_, _, htrace.outside hstores⟩

/-- **Calls lead on in the history of the session.** -/
theorem Called.traced (hhandler : ∀ code h (m : Machine), Memory.Stores m.memory
      (handler code h m).2.memory) (h₀ : p₀.1.Traced s₀) (hcalled : Called handler p₀ stale p) :
    p.1.Traced s₀ := by
  induction hcalled with
  | start => exact h₀
  | load _ done ih =>
    obtain ⟨r, hengine, origin, patched, htrace⟩ := ih
    obtain ⟨offset, -, hfits, rfl⟩ := loadImage_eq done
    exact ⟨r, hengine, _, _, htrace.load hfits⟩
  | @invalidate _ e _ _ start length _ done ih =>
    obtain ⟨r, hengine, origin, patched, htrace⟩ := ih
    obtain ⟨r', hact, rfl⟩ := invalidate_eq hengine done
    have hquick : Action.invalidate start length ≠ .run := by simp
    exact ⟨r', rfl, _, _, htrace.happens (.act hquick hact)⟩
  | runUntil _ done ih => exact (kept_reloads s₀).slices hhandler ih done

/-! ### What an emulator runs next -/

/-- **What the session of an emulator was told of.** -/
theorem Called.told (hhandler : ∀ code h (m : Machine), Memory.Stores m.memory
      (handler code h m).2.memory) (h₀ : p₀.1.Holds (Told ∅)) (hcalled : Called handler p₀ stale p) :
    p.1.Holds (Told stale) := by
  induction hcalled with
  | start => exact h₀
  | @load stale e _ _ address image _ _ done ih =>
    obtain ⟨r, hengine, htold⟩ := ih
    obtain ⟨offset, hstart, hfits, rfl⟩ := loadImage_eq done
    refine ⟨r, hengine, ?_⟩
    have hsame : {a | a ∈ written address image ∧ e.Holds (·.InBlock a)} =
        {a | e.machine.memory.ImageCovers offset image a ∧ InBlock ⟨r, e.machine⟩ a} := by
      ext a
      refine and_congr ?_ ⟨?_, fun hin => ⟨r, hengine, hin⟩⟩
      · show address.toNat ≤ a.toNat ∧ _ ↔ _
        rw [hstart, Memory.ImageCovers]
      · rintro ⟨r', hengine', hin⟩
        cases hengine.symm.trans hengine'
        exact hin
    rw [hsame]
    exact htold.load _ hfits
  | invalidate _ done ih =>
    obtain ⟨r, hengine, htold⟩ := ih
    obtain ⟨r', hact, rfl⟩ := invalidate_eq hengine done
    exact ⟨r', rfl, htold.invalidate hact⟩
  | runUntil _ done ih => exact (kept_told _).slices hhandler ih done

/-- **The machine of an emulator rests** between calls, and its slices stay as long. -/
theorem Called.rests (hhandler : Blind handler) (h₀ : p₀.1.Holds (Told ∅))
    (hrests : p₀.1.machine.Resting) (hcalled : Called handler p₀ stale p) :
    p.1.machine.Resting ∧ p.1.sliceCycles = p₀.1.sliceCycles := by
  have hstores : ∀ code h (m : Machine), Memory.Stores m.memory (handler code h m).2.memory :=
    fun code h m => hhandler.memory code h m ▸ .refl
  induction hcalled with
  | start => exact ⟨hrests, rfl⟩
  | load _ done ih =>
    obtain ⟨offset, -, -, rfl⟩ := loadImage_eq done
    exact ⟨ih.1.imp (·.of_sameSlot ⟨rfl, rfl, rfl⟩) fun h => h, ih.2⟩
  | invalidate before done ih =>
    obtain ⟨r, hengine, -⟩ := before.told hstores h₀
    obtain ⟨r', -, rfl⟩ := invalidate_eq hengine done
    exact ih
  | runUntil before done ih =>
    have hsound := (before.told hstores h₀).imp (Q := SomeSound) fun s htold => by
      obtain ⟨origin, recorded, x, -⟩ := htold
      exact ⟨origin, some recorded, x⟩
    exact ⟨slices_rests hhandler hsound ih.1 done,
      (slices_since (Nat.zero_le _) done).2.1.trans ih.2⟩

end Emulator

open Session Emulator in
/-- **Blocks that images did not overwrite are fresh, and what was told of is executed.**  All that
calls of an emulator come to has a history, turn by turn, with the memory that each block was
compiled from and the addresses that images overwrote since.  When the emulator was told of every
byte of a block that an image overwrote, the next run does to its machine what the reference does to
it, as long as no instruction is overwritten that is fetched later.

In every session with a history each valid block is what lowering made of that memory.  The next
turn enters the code of a block that starts at the program counter; wherever the body of a block
begins in it, the bytes that no image overwrote are those that the block was compiled from.  No
block is left with a byte of a range that is invalidated. -/
theorem compiled_of_calls {options : Options} (hsize : options.Addressable) {r : Recompiler}
    (hr : Recompiler.create options = .ok r) {m₀ : Machine} (hm₀ : m₀.memory.Orderly) {H : Type}
    {handler : SyscallHandler H} (hhandler : ∀ code h (m : Machine), Memory.Stores m.memory
      (handler code h m).2.memory) :
    (∀ cycles slice h stale e h', Called handler (⟨.recompiler r, m₀, cycles, slice⟩, h) stale (e, h') →
      e.Traced ⟨r, m₀⟩ ∧
      (stale = ∅ → Blind handler → m₀.Between → 1 ≤ slice.toInt → Undisturbed handler (h', e.machine) →
        ∀ target result e' h'', e.runUntil handler target h' = .ok (result, e', h'') →
          Repeats handler target h' e result h'' e')) ∧
    ∀ origin patched s, Reloads ⟨r, m₀⟩ origin patched s →
      (∀ p, s.run = .ok p → s.GoesOn p.2) ∧
      (∀ id b, s.recompiler.cache.IsValid id b →
        ∃ setting code compiled space, setting.memory.Alike (origin id) ∧
          lowerBlock setting code = (.ok compiled, space) ∧ compiled.outline = b.outline) ∧
      (s.Runs → s.machine.memory.changed = #[] → ∀ entry s',
        s.entry s.machine.core.pc = .ok (.ok entry, s') →
        ∃ id₀ b₀, s'.recompiler.cache.IsValid id₀ b₀ ∧ b₀.start = s.machine.core.pc ∧
          entry = b₀.normalEntry ∧
          ∀ spot, s'.Visits b₀ s'.machine spot → ∀ id b, s'.recompiler.cache.IsValid id b →
            spot.offset = b.normalEntry → ∀ a, b.contains a = true →
              a ∉ patchesAfter patched s s' id →
              spot.machine.memory.read8 a = (originsAfter origin s s' id).read8 a) ∧
      ∀ start length s', s.act (.invalidate start length) = .ok s' →
        ∀ id b, s'.recompiler.cache.IsValid id b → ∀ a,
          ChangedRange.Covers ⟨start, length⟩ a → b.contains a = false := by
  have x₀ : ∀ origin, Sound origin ⟨r, m₀⟩ := fun origin => (sound_create hr hsize hm₀ origin).1
  refine ⟨fun cycles slice h stale e h' hcalled => ⟨hcalled.traced hhandler ⟨r, rfl, _, _, .start⟩,
    fun hnone hblind hbetween hslice hstays target result e' h'' hrun => ?_⟩,
    fun origin patched s h => ?_⟩
  · have htold : (Emulator.mk (.recompiler r) m₀ cycles slice).Holds (Told ∅) :=
      ⟨r, rfl, fun _ => m₀.memory, _, x₀ _, fun _ => .refl _ _⟩
    obtain ⟨hrests, hsame⟩ := hcalled.rests hblind htold (.inl hbetween)
    have hsound := (hnone ▸ hcalled.told hhandler htold).imp fun s => Told.sound
    exact repeats_of_sound hblind hsound (hsame ▸ hslice) hrests hstays hrun
  obtain ⟨recorded, x, hpatches⟩ := h.sound x₀
  refine ⟨fun p => goesOn_turns, fun id b hb => ?_, fun hruns hempty entry s' hentry => ?_,
    fun start length s' hact id b hb a ha => x.not_contains_of_invalidate hact hb ha⟩
  · obtain ⟨y, hy, hembeds⟩ := x.stocked.compiled id b hb
    obtain ⟨code, -, -, hlower⟩ := hy.lowered
    exact ⟨y.setting, code, y.block, _, hy.source, hlower, hembeds.outline.symm⟩
  · obtain ⟨p, hentry', henters, hsteady, x'⟩ := x.entry s.machine.core.pc
    cases hentry.symm.trans hentry'
    rcases henters with ⟨id₀, b₀, hok, hb₀, hstart⟩ | ⟨e, herror, -⟩
    · cases hok
      have hcalm : s'.machine.eventPending = false := by
        have hcore : s'.machine.core = s.machine.core := hsteady.core
        rw [Machine.eventPending, hcore, hruns.attended, hruns.running, Memory.hasChangedCode,
          hsteady.quiet hempty]
        rfl
      exact ⟨id₀, b₀, hb₀, hstart, rfl, fun spot hspot id b hb hoffset a ha hpatched =>
        Keeps.unpatched_of_visits x' (hpatches.after s s') hb₀ hcalm hspot hb hoffset ha hpatched⟩
    · cases herror

/-- Run for ten cycles, load a breakpoint over the first instruction, and tell the emulator so. -/
def Emulator.reloaded (e : Emulator) : Except Violation (Except Memory.ImageMisfit Emulator) := do
  let (_, e, _) ← e.runUntil ignoreSyscalls 10 ()
  match ← e.loadImage 0x1000 [0x0D, 0x00, 0x00, 0x00] 0x1000 with
  | .error misfit => return .error misfit
  | .ok e => return .ok (← e.invalidate 0x1000 4)

open Emulator in
/-- Nothing is stale then. -/
theorem called_of_reloaded {e e' : Emulator} (h : e.reloaded = .ok (.ok e')) :
    ∃ stale, stale = ∅ ∧ Called ignoreSyscalls (e, ()) stale (e', ()) := by
  obtain ⟨⟨result, e₁, _⟩, hrun, h⟩ := ok_of_bind h
  obtain ⟨loaded, hload, h⟩ := ok_of_bind h
  cases loaded with
  | error misfit => cases h
  | ok e₂ =>
    obtain ⟨e₃, hinvalidate, h⟩ := ok_of_bind h
    cases h
    refine ⟨_, ?_, .invalidate (.load (.runUntil .start hrun) hload) hinvalidate⟩
    rw [Set.empty_union, Set.sdiff_eq_empty]
    rintro a ⟨hwritten, -⟩
    exact hwritten

open Emulator in
/-- A jump to itself is compiled and run for ten cycles, and a breakpoint is loaded over the block.
When the emulator was told of it, the next cycle is that of the breakpoint. -/
theorem compiled_reloaded :
    ∃ e e', (Emulator.mk (.recompiler roomyRecompiler) spinningMachine 0 50).reloaded = .ok (.ok e) ∧
      e.cycles = 10 ∧ e.runUntil ignoreSyscalls 20 () = .ok (.ok (.breakpoint 0x1000), e', ()) ∧
      e'.cycles = 11 ∧
      ∃ g, reference ignoreSyscalls 1 ((), e.machine) = some ((), g) ∧ e'.machine.Agrees g := by
  have hcreate : Recompiler.create roomySpace = .ok roomyRecompiler := rfl
  have horderly : spinningMachine.memory.Orderly := ⟨by unfold Memory.Low; decide, by decide, nofun⟩
  have hhandler : ∀ code h (m : Machine), Memory.Stores m.memory (ignoreSyscalls code h m).2.memory :=
    fun _ _ _ => .refl
  have hruns : ((Emulator.mk (.recompiler roomyRecompiler) spinningMachine 0 50).reloaded.toOption.bind
      Except.toOption).any (fun e => e.cycles == 10 && e.stops? 20 == some (.breakpoint 0x1000, 11) &&
        endsUnchanged ignoreSyscalls ((), e.machine) 3) = true := by decide +kernel
  obtain ⟨e, he, hruns⟩ := (Option.any_eq_true _ _).mp hruns
  obtain ⟨loaded, hloaded, he⟩ := Option.bind_eq_some_iff.mp he
  obtain rfl := ok_of_toOption he
  have hreloaded := ok_of_toOption hloaded
  rw [Bool.and_eq_true, Bool.and_eq_true, beq_iff_eq, beq_iff_eq] at hruns
  obtain ⟨⟨hten, hstops⟩, hends⟩ := hruns
  obtain ⟨e', hrun, heleven⟩ := runUntil_of_stops? hstops
  obtain ⟨stale, hnone, hcalled⟩ := called_of_reloaded hreloaded
  have hcompiled := (compiled_of_calls (by decide) hcreate horderly hhandler).1
  have hrepeats := (hcompiled 0 50 () stale e () hcalled).2 hnone blind_ignoreSyscalls
    ⟨⟨rfl, rfl⟩, rfl⟩ (by decide) (undisturbed_of_endsUnchanged hends) 20 _ e' () hrun
  rcases hrepeats with ⟨k, -, t, g, -, hfault⟩ | ⟨n, g, rfl, hreached, hagrees⟩
  · cases t <;> cases hfault
  · rw [hten, heleven] at hreached
    exact ⟨e, e', hreloaded, hten, hrun, heleven, g, hreached, hagrees⟩

/-- **Old code answers for a new image** that is loaded over a block without invalidating it.  A
jump to itself is run, and a breakpoint is loaded over it: the interpreter stops there, and the
recompiler jumps on. -/
theorem stale_image_runs :
    let stops := fun recompile => do
      let e ← Emulator.loaded? recompile [0x00, 0x04, 0x00, 0x08, 0x00, 0x00, 0x00, 0x00]
      let (_, e, _) ← (e.runUntil ignoreSyscalls 10 ()).toOption
      let e ← (← (e.loadImage 0x1000 [0x0D, 0x00, 0x00, 0x00] 0x1000).toOption).toOption
      let (result, e, _) ← (e.runUntil ignoreSyscalls 20 ()).toOption
      return (result.toOption, e.cycles)
    stops false = some (some (.breakpoint 0x1000), 11) ∧
      stops true = some (some .cycleTarget, 20) := by
  decide +kernel

end Dynarec
