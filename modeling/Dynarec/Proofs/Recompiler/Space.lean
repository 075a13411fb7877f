import Dynarec.Proofs.Cache.Space
import Dynarec.Proofs.Guest.Stores
import Dynarec.Proofs.Lower.Placement
import Dynarec.Proofs.Lower.Reserve

/-!
# The code space of a session

`Spacious n s` says that the code space of a session has room for `n` words when it is empty, and
that no lowering was left unfinished in it.  Every action keeps it (`Spacious.act`).  An address is
lowered into what is left of the code space, and into all of it when that was too little; so a
session with room for the reserve and two words never runs out
(`neverExhausted_of_reserve`).
-/

namespace Dynarec

namespace Recompiler

theorem cache_invalidate {r r' : Recompiler} {start length : UInt32} {n : Nat}
    (hok : r.invalidate start length = .ok (n, r')) :
    r'.options = r.options ∧ r.cache.SameSpace r'.cache := by
  obtain ⟨p, hinvalidate, hok⟩ := ok_of_bind hok
  cases hok
  exact ⟨rfl, BlockCache.sameSpace_invalidate hinvalidate⟩

theorem cache_invalidateAll {r r' : Recompiler} {ranges : List ChangedRange}
    (hok : r.invalidateAll ranges = .ok r') :
    r'.options = r.options ∧ r.cache.SameSpace r'.cache := by
  induction ranges generalizing r with
  | nil =>
    cases hok
    exact ⟨rfl, .refl _⟩
  | cons range rest ih =>
    rw [invalidateAll] at hok
    obtain ⟨p, hone, hok⟩ := ok_of_bind hok
    obtain ⟨hoptions, hspace⟩ := cache_invalidate hone
    obtain ⟨hoptions', hspace'⟩ := ih hok
    exact ⟨hoptions'.trans hoptions, hspace.trans hspace'⟩

theorem cache_split {r r' : Recompiler} {address : UInt32} (hok : r.split address = .ok r') :
    r'.options = r.options ∧ r.cache.SameSpace r'.cache := by
  rw [split] at hok
  split at hok
  · cases hok
    exact ⟨rfl, .refl _⟩
  · obtain ⟨p, hone, hok⟩ := ok_of_bind hok
    cases hok
    exact cache_invalidate hone

theorem cache_insert {r r' : Recompiler} {block : Block} {id : Nat}
    (hok : r.insert block = .ok (id, r')) :
    r'.options = r.options ∧ r.cache.SameSpace r'.cache := by
  rw [insert] at hok
  split at hok
  · cases hok
  · obtain ⟨p, hone, hok⟩ := ok_of_bind hok
    obtain ⟨hoptions, hspace⟩ := cache_invalidate hone
    obtain ⟨q, hinsert, hok⟩ := ok_of_bind hok
    cases hok
    exact ⟨hoptions, hspace.trans (BlockCache.sameSpace_insert hinsert)⟩

end Recompiler

theorem BlockCache.SameSpace.clean {c c' : BlockCache} (x : SameSpace c c') (h : c.code.Clean) :
    c'.code.Clean :=
  ⟨x.overflowed.trans h.fits, x.references.trans h.references, x.labels.trans h.labels⟩

namespace Session

variable {n : Nat} {s s' : Session}

/-- **The code space has room for `n` words when it is empty**, and nothing is unfinished in it. -/
structure Spacious (n : Nat) (s : Session) : Prop where
  clean : s.recompiler.cache.code.Clean
  capacity : s.recompiler.cache.code.capacity = n
  size : s.machine.memory.size < 2 ^ 32

namespace Spacious

/-- What does not matter to the code space may change. -/
theorem of_sameSpace (x : Spacious n s) {r : Recompiler} {m : Machine}
    (hspace : s.recompiler.cache.SameSpace r.cache) (hsize : m.memory.size < 2 ^ 32) :
    Spacious n ⟨r, m⟩ where
  clean := hspace.clean x.clean
  capacity := hspace.capacity.trans x.capacity
  size := hsize

/-- The machine ran. -/
theorem of_stores (x : Spacious n s) {m : Machine} {r : Recompiler}
    (hspace : s.recompiler.cache.SameSpace r.cache)
    (hstores : Memory.Stores s.machine.memory m.memory) : Spacious n ⟨r, m⟩ := by
  refine x.of_sameSpace hspace ?_
  rw [hstores.same.2.1]
  exact x.size

theorem clear (x : Spacious n s) : Spacious n s.clear :=
  ⟨CodeSpace.clean_truncate _ _, x.capacity, x.size⟩

end Spacious

/-! ### Lowering an address -/

/-- One attempt to append the code of the block at an address. -/
def attempt (s : Session) (address : UInt32) (entry : EntryAssumption) :
    Except Failure Block × Session :=
  ((s.recompiler.append s.machine.memory address entry).1,
    ⟨(s.recompiler.append s.machine.memory address entry).2, s.machine⟩)

/-- When the code space ran out, appending is a second attempt in a cleared one. -/
theorem append_of_exhausted {s : Session} {address : UInt32} {entry : EntryAssumption}
    {start : UInt32} (h : (s.attempt address entry).1 = .error (.codeSpaceExhausted start)) :
    s.append address entry = (s.attempt address entry).2.clear.attempt address entry := by
  obtain ⟨r₀, m⟩ := s
  cases hone : r₀.append m.memory address entry with
  | mk result r =>
    have hattempt : Session.attempt ⟨r₀, m⟩ address entry = (result, ⟨r, m⟩) := by
      rw [attempt]
      dsimp only
      rw [hone]
    rw [hattempt] at h
    dsimp only at h
    rw [hattempt, append]
    dsimp only
    rw [hone, h]
    rfl

/-- Else appending is one attempt. -/
theorem append_of_notSpace {s : Session} {address : UInt32} {entry : EntryAssumption}
    (h : ∀ e, (s.attempt address entry).1 = .error e → e.NotSpace) :
    s.append address entry = s.attempt address entry := by
  obtain ⟨r₀, m⟩ := s
  rw [attempt] at h ⊢
  rw [append]
  dsimp only at h ⊢
  cases hone : r₀.append m.memory address entry with
  | mk result r =>
    rw [hone] at h
    cases result with
    | ok block => rfl
    | error e =>
      cases e with
      | codeSpaceExhausted start => exact absurd rfl (h _ rfl start)
      | registersExhausted _ | refused _ _ | badHostCode _ | snapshot _ | codeSpaceSize => rfl

/-- **Appending is one attempt**, or a second one after the code space ran out and was cleared. -/
theorem append_cases (s : Session) (address : UInt32) (entry : EntryAssumption) :
    s.append address entry = s.attempt address entry ∧
        (∀ e, (s.attempt address entry).1 = .error e → e.NotSpace) ∨
      s.append address entry = (s.attempt address entry).2.clear.attempt address entry := by
  by_cases h : ∃ start, (s.attempt address entry).1 = .error (.codeSpaceExhausted start)
  · obtain ⟨start, hstart⟩ := h
    exact .inr (append_of_exhausted hstart)
  · have hspace : ∀ e, (s.attempt address entry).1 = .error e → e.NotSpace := by
      intro e he start heq
      exact h ⟨start, by rw [he, heq]⟩
    exact .inl ⟨append_of_notSpace hspace, hspace⟩

theorem Spacious.attempt (x : Spacious n s) (address : UInt32) (entry : EntryAssumption) :
    Spacious n (s.attempt address entry).2 := by
  have hlower : lowerBlock ⟨s.machine.memory, s.recompiler.options, address, entry,
      s.recompiler.cache.nextStartAfter? address⟩ s.recompiler.cache.code = (_, _) := rfl
  obtain ⟨hclean, hcapacity⟩ := clean_lowerBlock hlower
  exact ⟨hclean, hcapacity.trans x.capacity, x.size⟩

/-- **With the reserve and two words free an attempt does not fail for want of space.** -/
theorem Spacious.notSpace_attempt (x : Spacious n s) {address : UInt32} {entry : EntryAssumption}
    (hfree : Lowering.reserve + 2 ≤ s.recompiler.cache.code.spaceLeft) {e : Failure}
    (herror : (s.attempt address entry).1 = .error e) : e.NotSpace :=
  notSpace_lowerBlock (s := ⟨s.machine.memory, s.recompiler.options, address, entry,
    s.recompiler.cache.nextStartAfter? address⟩) x.size x.clean.fits hfree herror

/-- A failure that was met is not that the code space ran out, if there is room for a block. -/
def Enough (n : Nat) (e : Failure) : Prop := Lowering.reserve + 2 ≤ n → e.NotSpace

/-- What is left of a session with room for `n` words when an action answers. -/
def Answered {α : Type} (n : Nat) (p : Answer α) : Prop :=
  Spacious n p.2 ∧ ∀ e, p.1 = .error e → Enough n e

theorem Spacious.append (x : Spacious n s) (address : UInt32) (entry : EntryAssumption) :
    Answered n (s.append address entry) := by
  have hcleared := (x.attempt address entry).clear
  rcases append_cases s address entry with ⟨heq, hno⟩ | heq
  · rw [heq]
    exact ⟨x.attempt address entry, fun e he _ => hno e he⟩
  · rw [heq]
    refine ⟨hcleared.attempt address entry, fun e he hn => hcleared.notSpace_attempt ?_ he⟩
    show Lowering.reserve + 2 ≤ (s.attempt address entry).2.clear.recompiler.cache.code.capacity -
      (s.attempt address entry).2.clear.recompiler.cache.code.words.size
    have hempty : (s.attempt address entry).2.clear.recompiler.cache.code.words.size = 0 :=
      BlockCache.offset_clear _
    rw [hcleared.capacity, hempty]
    exact hn

theorem Spacious.insert (x : Spacious n s) {block : Block} {id : Nat}
    (hok : s.insert block = .ok (id, s')) : Spacious n s' := by
  obtain ⟨p, hinsert, hok⟩ := ok_of_bind hok
  cases hok
  refine x.of_sameSpace (Recompiler.cache_insert hinsert).2 ?_
  show (Memory.markCode _ _ _).size < 2 ^ 32
  rw [Memory.markCode]
  split <;> exact x.size

theorem Spacious.lowerNew (x : Spacious n s) {address : UInt32} {allowed : Bool} {p : Answer Nat}
    (hok : s.lowerNew address allowed = .ok p) : Answered n p := by
  rw [Session.lowerNew] at hok
  dsimp only at hok
  have hfull : Spacious n (if s.recompiler.cache.stored ≥ s.recompiler.options.maxBlocks then
      s.clear else s) := by
    split
    · exact x.clear
    · exact x
  obtain ⟨r, hsplit, hok⟩ := ok_of_bind hok
  have hleft := hfull.of_sameSpace (Recompiler.cache_split hsplit).2 hfull.size
  obtain ⟨hspace, henough⟩ := hleft.append address
    ((if s.recompiler.cache.stored ≥ s.recompiler.options.maxBlocks then
      s.clear else s).recompiler.entryAssumption address allowed)
  split at hok
  · rename_i e s₁ happend
    rw [happend] at hspace henough
    cases hok
    exact ⟨hspace, fun e he => henough e (by cases he; rfl)⟩
  · rename_i block s₁ happend
    rw [happend] at hspace
    obtain ⟨q, hinsert, hok⟩ := ok_of_bind hok
    cases hok
    exact ⟨hspace.insert hinsert, nofun⟩

/-- **Lowering an address.** -/
theorem Spacious.lower (x : Spacious n s) {address : UInt32} {allowed : Bool} {p : Answer Nat}
    (hok : s.lower address allowed = .ok p) : Answered n p := by
  rw [Session.lower] at hok
  split at hok
  · cases hok
    exact ⟨x, nofun⟩
  · exact x.lowerNew hok

/-! ### Running -/

/-- What is left of a session with room for `n` words behind a turn. -/
def Turned (n : Nat) (p : Turn × Session) : Prop :=
  Spacious n p.2 ∧ ∀ e, p.1 = .failed e → Enough n e

theorem Spacious.dropChanged (x : Spacious n s) (hok : s.dropChanged = .ok s') : Spacious n s' := by
  obtain ⟨r, hdrop, hok⟩ := ok_of_bind hok
  cases hok
  exact x.of_sameSpace (Recompiler.cache_invalidateAll hdrop).2 x.size

theorem Spacious.interpretOne (x : Spacious n s) {p : Turn × Session}
    (hok : s.interpretOne = .ok p) : Turned n p := by
  rw [Session.interpretOne] at hok
  have hsame : s.recompiler.cache.SameSpace (s.recompiler.count fun stats =>
      { stats with interpreted := stats.interpreted + 1 }).cache := .refl _
  split at hok
  · rename_i hrun
    cases hok
    exact ⟨x.of_stores hsame (Machine.stores_runOne hrun), nofun⟩
  · rename_i hrun
    cases hok
    exact ⟨x.of_stores hsame (Machine.stores_runOne hrun), nofun⟩
  · rename_i hrun
    cases hok
    exact ⟨x.of_stores hsame (Machine.stores_runOne hrun), nofun⟩
  · rename_i hrun
    have hstores := Machine.stores_runOne_trap hrun
    cases hok
    exact ⟨x.of_stores hsame hstores, nofun⟩
  · cases hok

theorem Spacious.entry (x : Spacious n s) {pc : UInt32} {p : Answer Nat}
    (hok : s.entry pc = .ok p) : Answered n p := by
  rw [Session.entry] at hok
  split at hok
  · cases hok
    exact ⟨⟨x.clean, x.capacity, x.size⟩, nofun⟩
  · dsimp only at hok
    obtain ⟨q, hlower, hok⟩ := ok_of_bind hok
    have hmiss : Spacious n ⟨s.recompiler.count fun stats =>
      { stats with cacheMisses := stats.cacheMisses + 1 }, s.machine⟩ :=
      ⟨x.clean, x.capacity, x.size⟩
    obtain ⟨hspace, henough⟩ := hmiss.lower hlower
    obtain ⟨result, s₁⟩ := q
    cases result with
    | error e =>
      cases hok
      exact ⟨hspace, fun e he => henough e (by cases he; rfl)⟩
    | ok id =>
      dsimp only at hok
      split at hok
      · cases hok
        exact ⟨hspace, nofun⟩
      · cases hok
        exact ⟨hspace, fun e he _ => by cases he; exact nofun⟩

theorem Spacious.serve (x : Spacious n s) {reason : ExitReason} {p : Turn × Session}
    (hok : s.serve reason = .ok p) : Turned n p := by
  cases reason with
  | interpret => exact x.interpretOne hok
  | dispatch | syscall _ | breakpoint =>
    cases hok
    exact ⟨x, nofun⟩
  | fault t =>
    cases hok
    exact ⟨⟨x.clean, x.capacity, x.size⟩, nofun⟩
  | badCode offset =>
    cases hok
    exact ⟨x, fun e he _ => by cases he; exact nofun⟩
  | modifierMismatch block =>
    obtain ⟨q, hinvalidate, hok⟩ := ok_of_bind hok
    cases hok
    exact ⟨x.of_sameSpace (Recompiler.cache_invalidate hinvalidate).2 x.size, nofun⟩

theorem Spacious.runNative (x : Spacious n s) {entry : Nat} {p : Turn × Session}
    (hok : s.runNative entry = .ok p) : Turned n p := by
  obtain ⟨q, hrun, hok⟩ := ok_of_bind hok
  exact (x.of_stores (.refl _) (Host.stores_run hrun)).serve hok

theorem Spacious.turn (x : Spacious n s) {p : Turn × Session} (hok : s.turn = .ok p) :
    Turned n p := by
  obtain ⟨q, hentry, hok⟩ := ok_of_bind hok
  obtain ⟨hspace, henough⟩ := x.entry hentry
  obtain ⟨result, s₁⟩ := q
  cases result with
  | ok entry => exact hspace.runNative hok
  | error e =>
    dsimp only at hok
    split at hok
    · exact hspace.interpretOne hok
    · cases hok
      exact ⟨hspace, fun e he => henough e (by cases he; rfl)⟩

theorem Spacious.turns {fuel : Nat} (x : Spacious n s) {p : Answer RunExit}
    (hok : turns fuel s = .ok p) : Answered n p := by
  induction fuel generalizing s with
  | zero => cases hok
  | succ fuel ih =>
    rw [Session.turns] at hok
    obtain ⟨s₁, hdrop, hok⟩ := ok_of_bind hok
    have x₁ := x.dropChanged hdrop
    dsimp only at hok
    split at hok
    · cases hok
      exact ⟨x₁, nofun⟩
    · split at hok
      · cases hok
        exact ⟨x₁, nofun⟩
      · obtain ⟨q, hturn, hok⟩ := ok_of_bind hok
        obtain ⟨hspace, henough⟩ := x₁.turn hturn
        obtain ⟨t, s₂⟩ := q
        cases t with
        | again => exact ih hspace hok
        | done exit =>
          cases hok
          exact ⟨hspace, nofun⟩
        | failed e =>
          cases hok
          exact ⟨hspace, fun e he => henough e (by cases he; rfl)⟩

/-- **Running.** -/
theorem Spacious.run (x : Spacious n s) {p : Answer RunExit} (hok : s.run = .ok p) :
    Answered n p := x.turns hok

/-! ### Any number of actions -/

theorem Spacious.write (x : Spacious n s) {f : Memory → Except Violation Memory}
    (hf : ∀ memory, f s.machine.memory = .ok memory → Memory.Stores s.machine.memory memory)
    (hok : s.write f = .ok s') : Spacious n s' := by
  obtain ⟨memory, hmemory, rfl⟩ := ok_of_map hok
  exact x.of_stores (.refl _) (hf memory hmemory)

/-- **Every action keeps the room.** -/
theorem Spacious.act (x : Spacious n s) {action : Action} (hok : s.act action = .ok s') :
    Spacious n s' := by
  cases action with
  | run =>
    obtain ⟨p, hrun, rfl⟩ := ok_of_map hok
    exact (x.run hrun).1
  | lower address allowed =>
    obtain ⟨p, hlower, rfl⟩ := ok_of_map hok
    exact (x.lower hlower).1
  | invalidate start length =>
    obtain ⟨p, hinvalidate, rfl⟩ := ok_of_map hok
    exact x.of_sameSpace (Recompiler.cache_invalidate hinvalidate).2 x.size
  | clear =>
    cases hok
    exact x.clear
  | load text =>
    cases hok
    rw [load]
    split
    · exact x
    · exact ⟨x.clear.clean, x.capacity, x.size⟩
  | store width address value =>
    exact x.write (f := fun memory => width.store memory address value)
      (fun _ => Memory.stores_width) hok
  | storeWords address words =>
    exact x.write (f := fun memory => memory.writeWords address words)
      (fun _ => Memory.stores_writeWords) hok
  | setCore core =>
    cases hok
    exact ⟨x.clean, x.capacity, x.size⟩

theorem Spacious.becomes (x : Spacious n s) (h : Becomes s s') : Spacious n s' := by
  induction h with
  | refl => exact x
  | tail _ hstep ih =>
    obtain ⟨action, hok⟩ := hstep
    exact ih.act hok

/-- **A new session.** -/
theorem spacious_create {options : Options} {r : Recompiler} (hr : Recompiler.create options = .ok r)
    {m : Machine} (hsize : m.memory.size < 2 ^ 32) :
    Spacious (options.codeSpaceSize / HostWord.byteSize) ⟨r, m⟩ := by
  rw [Recompiler.create] at hr
  split at hr
  · cases hr
  · rename_i code hcode
    cases hr
    rw [CodeSpace.create?] at hcode
    split at hcode
    · cases hcode
    · cases hcode
      exact ⟨⟨rfl, rfl, rfl⟩, rfl, hsize⟩

end Session

open Lowering Session in
/-- **The reserve is enough.**  A block that starts with the reserve and two words free fits.  With
the reserve free in front of an instruction, the instruction fits, and so does what closes the block
behind it.  A session whose code space holds the reserve and two words never runs out of it. -/
theorem neverExhausted_of_reserve :
    (∀ (s : Setting) (code : CodeSpace), s.memory.size < 2 ^ 32 → code.overflowed = false →
      reserve + 2 ≤ code.spaceLeft →
      ∀ start, (lowerBlock s code).1 ≠ .error (.codeSpaceExhausted start)) ∧
    (∀ (s : Setting) (b : Builder) (i : Instr) (pc : UInt32), b.code.overflowed = false →
      reserve ≤ b.code.spaceLeft →
      Safe (lastInstruction i pc s b) ∧
        ∀ next, Safe ((bodyInstruction i pc >>= fun _ => endBlock next) s b)) ∧
    (∀ (options : Options) (r : Recompiler) (m : Machine) (s : Session),
      784 ≤ options.codeSpaceSize → Recompiler.create options = .ok r → m.memory.size < 2 ^ 32 →
      Becomes ⟨r, m⟩ s →
      (∀ address allowed p start, s.lower address allowed = .ok p →
        p.1 ≠ .error (.codeSpaceExhausted start)) ∧
      ∀ p start, s.run = .ok p → p.1 ≠ .error (.codeSpaceExhausted start)) := by
  refine ⟨fun s code hsize hfits hfree start herror => ?_, fun s b i pc hfits hfree => ?_,
    fun options r m s hoptions hr hsize hbecomes => ?_⟩
  · exact notSpace_lowerBlock hsize hfits hfree herror start rfl
  · have hroom := hasRoom_of_reserve hfits hfree
    refine ⟨safe_of_spends (spends_lastInstruction i pc) hroom, fun next => ?_⟩
    exact safe_of_spends (spends_bind (spends_bodyInstruction i pc) (by decide)
      fun _ => spends_endBlock next) (hroom.mono (by decide) : b.HasRoom 45)
  · have hn : reserve + 2 ≤ options.codeSpaceSize / HostWord.byteSize := by
      simp only [reserve, HostWord.byteSize]
      omega
    have x := (spacious_create hr hsize).becomes hbecomes
    exact ⟨fun address allowed p start hok herror => (x.lower hok).2 _ herror hn start rfl,
      fun p start hok herror => (x.run hok).2 _ herror hn start rfl⟩

/-- Options with a code space of the least size. -/
def leastSpace : Options := { codeSpaceSize := 784 }

/-- A recompiler with that space, before any block. -/
def leastRecompiler : Recompiler where
  options := leastSpace
  cache := BlockCache.empty true
    { words := #[], capacity := 98, overflowed := false, labels := #[], references := [] }
  assumesDefault := true
  distrusted := []
  stats := {}

/-- A machine with two instructions of memory. -/
def leastMachine : Machine := ⟨Core.start 0x1000, Memory.create 0x1000 8⟩

/-- A session of both with two cycles left. -/
def leastSession : Session :=
  ⟨leastRecompiler, ⟨{ leastMachine.core with downcount := 2 }, leastMachine.memory⟩⟩

/-- Options with room for more than one instruction. -/
def roomySpace : Options := { codeSpaceSize := 8192 }

/-- A recompiler with them, before any block. -/
def roomyRecompiler : Recompiler :=
  { leastRecompiler with
    options := roomySpace
    cache := BlockCache.empty true { leastRecompiler.cache.code with capacity := 1024 } }

/-- The first instruction of that machine. -/
def leastSetting : Setting := ⟨leastMachine.memory, leastSpace, 0x1000, .noModifiers, none⟩

open Lowering Session in
/-- The least code space that is enough, with a memory of two instructions, and after clearing it. -/
theorem neverExhausted_least :
    (lowerBlock leastSetting leastRecompiler.cache.code).1 ≠ .error (.codeSpaceExhausted 0x1000) ∧
    Safe (lastInstruction ⟨0x08000400⟩ 0x1000 leastSetting
      (Builder.start leastRecompiler.cache.code leastSetting)) ∧
    (Recompiler.create leastSpace = .ok leastRecompiler ∧
      (Session.mk leastRecompiler leastMachine).act .clear =
        .ok (Session.mk leastRecompiler leastMachine).clear ∧
      ∀ p, (Session.mk leastRecompiler leastMachine).clear.run = .ok p →
        p.1 ≠ .error (.codeSpaceExhausted 0x1000)) := by
  have hsize : leastMachine.memory.size < 2 ^ 32 := by decide
  exact ⟨neverExhausted_of_reserve.1 _ _ hsize rfl (by decide) 0x1000,
    (neverExhausted_of_reserve.2.1 _ _ _ _ rfl (by decide)).1, rfl, rfl,
    fun p => (neverExhausted_of_reserve.2.2 leastSpace leastRecompiler leastMachine _ (by decide) rfl
      hsize (.single ⟨.clear, rfl⟩)).2 p 0x1000⟩

end Dynarec
