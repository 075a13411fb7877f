import Mathlib.Data.List.Sort
import Dynarec.Proofs.Json.RoundTrip
import Dynarec.Proofs.Recompiler.Turns

/-!
# Saved states are loaded again

What a recompiler has learned is a set of addresses, kept in increasing order by everything that is
done with it (`Recompiler.Used.ordered`), so that equal sets are saved as equal texts.  A saved text
is read back (`Snapshot.ofText_toText`).  Loading it takes over what was learned and drops
everything else; a text that is refused changes nothing (`restored_of_used`).
-/

namespace Dynarec

/-! ### The text of a saved state -/

namespace Snapshot

theorem word?_ofNat (w : UInt32) : (JsonValue.ofNat w.toNat).word? = some w := by
  have hall : (Decimal.digits w.toNat).all Decimal.isDigit = true :=
    List.all_eq_true.mpr (Decimal.all_isDigit_digits w.toNat)
  rw [JsonValue.word?, JsonValue.ofNat, JsonValue.natural?, Decimal.text, String.toList_ofList, hall,
    if_pos rfl, Decimal.value_digits]
  simp [guard, show w.toNat < 4294967296 from w.toNat_lt]

theorem mapM_word? (addresses : List UInt32) :
    (addresses.map fun address => JsonValue.ofNat address.toNat).mapM (·.word?) = some addresses := by
  induction addresses with
  | nil => rfl
  | cons address rest ih =>
    rw [List.map_cons, List.mapM_cons, word?_ofNat, ih]
    rfl

/-- The value of a saved state has each field once. -/
theorem ofJson?_toJson (s : Snapshot) : ofJson? s.toJson = some s := by
  have hfields : ofJson? s.toJson = ofValues? (.ofNat s.version.toNat) (.bool s.assumesDefault)
      (.array (s.distrusted.map fun address => .ofNat address.toNat)) := rfl
  simp only [hfields, ofValues?, word?_ofNat, JsonValue.bool?, JsonValue.items?,
    Option.bind_eq_bind, Option.bind_some, mapM_word?]
  rfl

theorem plain_ofNat (n : Nat) : (JsonValue.ofNat n).Plain := ⟨n, rfl⟩

theorem allPlain_addresses (addresses : List UInt32) :
    JsonValue.AllPlain (addresses.map fun address => JsonValue.ofNat address.toNat) := by
  induction addresses with
  | nil => trivial
  | cons address rest ih => exact ⟨plain_ofNat _, ih⟩

theorem plain_toJson (s : Snapshot) : s.toJson.Plain :=
  ⟨rfl, plain_ofNat _, rfl, trivial, rfl, allPlain_addresses s.distrusted, trivial⟩

/-- **The text of a saved state is read back**, if it has the version that is read. -/
theorem ofText_toText {s : Snapshot} (hversion : s.version = currentVersion) :
    ofText s.toText = .ok s := by
  rw [ofText, toText, JsonValue.ofText?_compact s.plain_toJson, Option.bind_some, ofJson?_toJson]
  exact if_pos hversion

end Snapshot

/-! ### Sets of addresses -/

namespace Recompiler

/-- **The set of distrusted addresses** is listed in increasing order. -/
def Ordered (r : Recompiler) : Prop := r.distrusted.Pairwise (· < ·)

theorem pairwise_insertAddress {address : UInt32} {l : List UInt32} (hl : l.Pairwise (· < ·)) :
    (insertAddress address l).Pairwise (· < ·) := by
  induction l with
  | nil => exact List.pairwise_singleton _ _
  | cons a rest ih =>
    obtain ⟨hfirst, hrest⟩ := List.pairwise_cons.mp hl
    rw [insertAddress]
    split
    · rename_i hlt
      refine List.pairwise_cons.mpr ⟨fun b hb => ?_, hl⟩
      rcases List.mem_cons.mp hb with rfl | hb
      · exact hlt
      · exact UInt32.lt_trans hlt (hfirst b hb)
    · rename_i hge
      split
      · exact hl
      · rename_i hne
        refine List.pairwise_cons.mpr ⟨fun b hb => ?_, ih hrest⟩
        rcases mem_insertAddress_iff.mp hb with rfl | hb
        · exact UInt32.lt_of_le_of_ne (UInt32.not_lt.mp hge) fun heq => hne (beq_iff_eq.mpr heq.symm)
        · exact hfirst b hb

/-- Addresses that are put in one after the other. -/
def insertAddresses (addresses : List UInt32) (l : List UInt32) : List UInt32 :=
  addresses.foldl (fun l address => insertAddress address l) l

theorem pairwise_insertAddresses {addresses l : List UInt32} (hl : l.Pairwise (· < ·)) :
    (insertAddresses addresses l).Pairwise (· < ·) := by
  induction addresses generalizing l with
  | nil => exact hl
  | cons address rest ih => exact ih (pairwise_insertAddress hl)

theorem mem_insertAddresses_iff {addresses l : List UInt32} {b : UInt32} :
    b ∈ insertAddresses addresses l ↔ b ∈ addresses ∨ b ∈ l := by
  induction addresses generalizing l with
  | nil => exact ⟨.inr, fun h => h.resolve_left nofun⟩
  | cons address rest ih =>
    rw [insertAddresses, List.foldl_cons, ← insertAddresses, ih, mem_insertAddress_iff, List.mem_cons]
    tauto

/-- **A set has one list in increasing order.** -/
theorem eq_of_pairwise {l l' : List UInt32} (hl : l.Pairwise (· < ·)) (hl' : l'.Pairwise (· < ·))
    (hmem : ∀ a, a ∈ l ↔ a ∈ l') : l = l' := by
  have hperm : l.Perm l' := (List.perm_ext_iff_of_nodup (hl.imp UInt32.ne_of_lt)
    (hl'.imp UInt32.ne_of_lt)).mpr hmem
  refine hperm.eq_of_pairwise (fun a b _ _ hab hba => ?_) hl hl'
  exact absurd (UInt32.lt_trans hab hba) (UInt32.lt_irrefl a)

theorem restore_snapshot {r r' : Recompiler} (hr : r.Ordered) :
    (r'.restore r.snapshot).distrusted = r.distrusted := by
  have hsorted : (insertAddresses r.distrusted []).Pairwise (· < ·) :=
    pairwise_insertAddresses List.Pairwise.nil
  exact eq_of_pairwise hsorted hr fun a =>
    mem_insertAddresses_iff.trans ⟨fun h => h.resolve_right nofun, .inl⟩

theorem distrusted_distrustAll (l : List UInt32) (r : Recompiler) :
    (l.foldl distrust r).distrusted = insertAddresses l r.distrusted := by
  induction l generalizing r with
  | nil => rfl
  | cons address rest ih => exact ih (r.distrust address)

theorem assumesDefault_distrustAll (l : List UInt32) (r : Recompiler) :
    (l.foldl distrust r).assumesDefault = r.assumesDefault := by
  induction l generalizing r with
  | nil => rfl
  | cons address rest ih => exact ih (r.distrust address)

/-! ### What was learned changes at guards and by loading -/

variable {r r' : Recompiler}

theorem distrusted_invalidate {start length : UInt32} {p : Nat × Recompiler}
    (hok : r.invalidate start length = .ok p) : p.2.distrusted = r.distrusted := by
  obtain ⟨_, _, hok⟩ := ok_of_bind hok
  cases hok
  rfl

theorem distrusted_invalidateAll {ranges : List ChangedRange} (hok : r.invalidateAll ranges = .ok r') :
    r'.distrusted = r.distrusted := by
  induction ranges generalizing r with
  | nil =>
    cases hok
    rfl
  | cons range rest ih =>
    obtain ⟨p, hone, hok⟩ := ok_of_bind hok
    exact (ih hok).trans (distrusted_invalidate hone)

theorem distrusted_split {address : UInt32} (hok : r.split address = .ok r') :
    r'.distrusted = r.distrusted := by
  rw [split] at hok
  split at hok
  · cases hok
    rfl
  · obtain ⟨p, hone, hok⟩ := ok_of_bind hok
    cases hok
    exact distrusted_invalidate hone

theorem distrusted_insert {block : Block} {p : Nat × Recompiler} (hok : r.insert block = .ok p) :
    p.2.distrusted = r.distrusted := by
  rw [insert] at hok
  split at hok
  · cases hok
  · obtain ⟨q, hone, hok⟩ := ok_of_bind hok
    have hsame := distrusted_invalidate hone
    obtain ⟨_, _, hok⟩ := ok_of_bind hok
    cases hok
    exact hsame

end Recompiler

namespace Session

variable {s s' : Session}

/-- What was learned is the same. -/
abbrev SameLearned (s s' : Session) : Prop := s'.recompiler.distrusted = s.recompiler.distrusted

theorem sameLearned_append (s : Session) (address : UInt32) (entry : EntryAssumption) :
    SameLearned s (s.append address entry).2 := by
  rcases append_cases s address entry with ⟨heq, -⟩ | heq <;> rw [heq] <;> rfl

theorem sameLearned_lowerNew {address : UInt32} {allowed : Bool} {p : Answer Nat}
    (hok : s.lowerNew address allowed = .ok p) : SameLearned s p.2 := by
  rw [Session.lowerNew] at hok
  dsimp only at hok
  obtain ⟨r, hsplit, hok⟩ := ok_of_bind hok
  have hfull : SameLearned s (if s.recompiler.cache.stored ≥ s.recompiler.options.maxBlocks then
      s.clear else s) := by
    split <;> rfl
  have happended := sameLearned_append ⟨r, (if s.recompiler.cache.stored ≥
    s.recompiler.options.maxBlocks then s.clear else s).machine⟩ address
    ((if s.recompiler.cache.stored ≥ s.recompiler.options.maxBlocks then
      s.clear else s).recompiler.entryAssumption address allowed)
  have hall := (happended.trans (Recompiler.distrusted_split hsplit)).trans hfull
  split at hok
  · rename_i e s₁ happend
    rw [happend] at hall
    cases hok
    exact hall
  · rename_i block s₁ happend
    rw [happend] at hall
    obtain ⟨q, hinsert, hok⟩ := ok_of_bind hok
    obtain ⟨_, hstore, heq⟩ := ok_of_bind hinsert
    have hsame := Recompiler.distrusted_insert hstore
    cases heq
    cases hok
    exact hsame.trans hall

theorem sameLearned_lower {address : UInt32} {allowed : Bool} {p : Answer Nat}
    (hok : s.lower address allowed = .ok p) : SameLearned s p.2 := by
  rw [Session.lower] at hok
  split at hok
  · cases hok
    rfl
  · exact sameLearned_lowerNew hok

theorem sameLearned_interpretOne {p : Turn × Session} (hok : s.interpretOne = .ok p) :
    SameLearned s p.2 := by
  rw [Session.interpretOne] at hok
  split at hok <;> cases hok <;> rfl

theorem sameLearned_entry {pc : UInt32} {p : Answer Nat} (hok : s.entry pc = .ok p) :
    SameLearned s p.2 := by
  rw [Session.entry] at hok
  split at hok
  · cases hok
    rfl
  · obtain ⟨⟨result, s₁⟩, hlower, hok⟩ := ok_of_bind hok
    have hsame := sameLearned_lower hlower
    cases result with
    | error e =>
      cases hok
      exact hsame
    | ok id =>
      dsimp only at hok
      split at hok <;> cases hok <;> exact hsame

/-- **A guard that fails adds one address** in its place. -/
theorem ordered_serve (hs : s.recompiler.Ordered) {reason : ExitReason} {p : Turn × Session}
    (hok : s.serve reason = .ok p) : p.2.recompiler.Ordered := by
  cases reason with
  | interpret =>
    rw [Recompiler.Ordered, sameLearned_interpretOne hok]
    exact hs
  | dispatch | syscall _ | breakpoint | fault _ | badCode _ =>
    cases hok
    exact hs
  | modifierMismatch block =>
    obtain ⟨q, hinvalidate, hok⟩ := ok_of_bind hok
    cases hok
    refine Recompiler.pairwise_insertAddress ?_
    rw [Recompiler.distrusted_invalidate hinvalidate]
    exact hs

theorem ordered_turn (hs : s.recompiler.Ordered) {p : Turn × Session} (hok : s.turn = .ok p) :
    p.2.recompiler.Ordered := by
  obtain ⟨⟨result, s₁⟩, hentry, hok⟩ := ok_of_bind hok
  have hs₁ : s₁.recompiler.Ordered := by
    rw [Recompiler.Ordered, sameLearned_entry hentry]
    exact hs
  cases result with
  | ok entry =>
    obtain ⟨q, -, hok⟩ := ok_of_bind hok
    exact ordered_serve (s := ⟨s₁.recompiler, q.2⟩) hs₁ hok
  | error e =>
    dsimp only at hok
    split at hok
    · rw [Recompiler.Ordered, sameLearned_interpretOne hok]
      exact hs₁
    · cases hok
      exact hs₁

theorem ordered_turns (hs : s.recompiler.Ordered) {fuel : Nat} {p : Answer RunExit}
    (hok : turns fuel s = .ok p) : p.2.recompiler.Ordered := by
  induction fuel generalizing s with
  | zero => cases hok
  | succ fuel ih =>
    rw [Session.turns] at hok
    obtain ⟨s₁, hdrop, hok⟩ := ok_of_bind hok
    have hs₁ : s₁.recompiler.Ordered := by
      obtain ⟨r, hranges, heq⟩ := ok_of_bind hdrop
      have hsame := Recompiler.distrusted_invalidateAll hranges
      cases heq
      rw [Recompiler.Ordered, hsame]
      exact hs
    dsimp only at hok
    split at hok
    · cases hok
      exact hs₁
    · split at hok
      · cases hok
        exact hs₁
      · obtain ⟨⟨t, s₂⟩, hturn, hok⟩ := ok_of_bind hok
        have hs₂ := ordered_turn hs₁ hturn
        cases t with
        | again => exact ih hs₂ hok
        | done exit =>
          cases hok
          exact hs₂
        | failed e =>
          cases hok
          exact hs₂

/-- **Every action keeps the order.** -/
theorem ordered_act (hs : s.recompiler.Ordered) {action : Action} (hok : s.act action = .ok s') :
    s'.recompiler.Ordered := by
  cases action with
  | run =>
    obtain ⟨p, hrun, rfl⟩ := ok_of_map hok
    exact ordered_turns hs hrun
  | lower address allowed =>
    obtain ⟨p, hlower, rfl⟩ := ok_of_map hok
    rw [Recompiler.Ordered, sameLearned_lower hlower]
    exact hs
  | invalidate start length =>
    obtain ⟨p, hinvalidate, rfl⟩ := ok_of_map hok
    rw [Recompiler.Ordered, Recompiler.distrusted_invalidate hinvalidate]
    exact hs
  | load text =>
    cases hok
    rw [Session.load]
    split
    · exact hs
    · exact Recompiler.pairwise_insertAddresses List.Pairwise.nil
  | store width address value =>
    obtain ⟨memory, -, rfl⟩ := ok_of_map hok
    exact hs
  | storeWords address words =>
    obtain ⟨memory, -, rfl⟩ := ok_of_map hok
    exact hs
  | clear | setCore core =>
    cases hok
    exact hs

end Session

/-- **A recompiler that was used**: it was created, and things were done with it, each with the
machine that was at hand. -/
inductive Recompiler.Used (options : Options) : Recompiler → Prop
  | create {r : Recompiler} (made : Recompiler.create options = .ok r) : Used options r
  | act {r : Recompiler} {m : Machine} {action : Session.Action} {s : Session}
      (before : Used options r) (done : Session.act ⟨r, m⟩ action = .ok s) : Used options s.recompiler

theorem Recompiler.Used.ordered {options : Options} {r : Recompiler} (h : r.Used options) :
    r.Ordered := by
  induction h with
  | @create r made =>
    rw [Recompiler.create] at made
    split at made
    · cases made
    · cases made
      exact List.Pairwise.nil
  | act _ done ih => exact Session.ordered_act ih done

/-- **A session starts anew with what `r` has learned**: nothing is compiled, nothing is marked or
queued, and all else is what it was. -/
structure Session.Restarted (r : Recompiler) (s s' : Session) : Prop where
  assumesDefault : s'.recompiler.assumesDefault = r.assumesDefault
  distrusted : s'.recompiler.distrusted = r.distrusted
  blocks : s'.recompiler.cache.stored = 0 ∧ s'.recompiler.cache.index = [] ∧
    s'.recompiler.cache.pending = []
  code : s'.recompiler.cache.code.offset = 0
  marks : ∀ page, s'.machine.memory.isCodePage page = false
  queue : s'.machine.memory.hasChangedCode = false
  options : s'.recompiler.options = s.recompiler.options
  core : s'.machine.core = s.machine.core
  bytes : s'.machine.memory.base = s.machine.memory.base ∧
    s'.machine.memory.bytes = s.machine.memory.bytes

theorem Session.restarted_restore {r : Recompiler} (hr : r.Ordered) (s : Session) :
    s.Restarted r ⟨s.clear.recompiler.restore r.snapshot, s.clear.machine⟩ where
  assumesDefault := rfl
  distrusted := Recompiler.restore_snapshot hr
  blocks := ⟨rfl, rfl, rfl⟩
  code := BlockCache.offset_clear _
  marks page := by
    show (s.machine.memory.codePages.map fun _ => false).getD page false = false
    rw [Array.getD_eq_getD_getElem?, Array.getElem?_map]
    cases s.machine.memory.codePages[page]? <;> rfl
  queue := rfl
  options := rfl
  core := rfl
  bytes := ⟨rfl, rfl⟩

/-- **Saved states round-trip.**  What a used recompiler has learned is saved as a text that depends
on the set of addresses alone.  Any session that loads it starts anew with what was learned.  A
session that refuses a text is left as it is. -/
theorem restored_of_used {options : Options} {r : Recompiler} (hr : r.Used options) :
    (∀ s : Session, ∃ s', s.load r.snapshot.toText = (.ok (), s') ∧ s.Restarted r s') ∧
    (∀ (options' : Options) (r' : Recompiler), r'.Used options' →
      r'.assumesDefault = r.assumesDefault →
      ((∀ a, a ∈ r'.distrusted ↔ a ∈ r.distrusted) ↔ r'.snapshot.toText = r.snapshot.toText)) ∧
    (∀ l l' : List UInt32, (∀ a, a ∈ l ↔ a ∈ l') →
      (l.foldl Recompiler.distrust r).snapshot.toText =
        (l'.foldl Recompiler.distrust r).snapshot.toText) ∧
    ∀ (s s' : Session) (text : String) (e : Failure), s.load text = (.error e, s') →
      s' = s ∧ ∃ cause, e = .snapshot cause := by
  refine ⟨fun s => ⟨_, ?_, s.restarted_restore hr.ordered⟩, fun options' r' hr' hassumes => ?_,
    fun l l' hmem => ?_, fun s s' text e hload => ?_⟩
  · rw [Session.load, Snapshot.ofText_toText rfl]
  · refine ⟨fun hmem => ?_, fun htext => ?_⟩
    · rw [Recompiler.snapshot, hassumes, Recompiler.eq_of_pairwise hr'.ordered hr.ordered hmem]
      rfl
    · have hsame := Snapshot.ofText_toText (s := r'.snapshot) rfl
      rw [htext, Snapshot.ofText_toText rfl] at hsame
      have hlist := congrArg Snapshot.distrusted (Except.ok.inj hsame)
      exact fun a => by
        rw [show r.distrusted = r'.distrusted from hlist]
  · rw [Recompiler.snapshot, Recompiler.snapshot, Recompiler.assumesDefault_distrustAll,
      Recompiler.assumesDefault_distrustAll, Recompiler.distrusted_distrustAll,
      Recompiler.distrusted_distrustAll,
      Recompiler.eq_of_pairwise (Recompiler.pairwise_insertAddresses hr.ordered)
        (Recompiler.pairwise_insertAddresses hr.ordered) fun a =>
          Recompiler.mem_insertAddresses_iff.trans
            ((or_congr_left (hmem a)).trans Recompiler.mem_insertAddresses_iff.symm)]
  · rw [Session.load] at hload
    split at hload
    · cases hload
      exact ⟨rfl, _, rfl⟩
    · cases hload

/-- Two addresses that were loaded in falling order are saved in rising order, as they are when they
are met in either order, and another session loads them again.  A number that is no word is refused. -/
theorem restored_least :
    ∃ s, (Session.mk leastRecompiler leastMachine).act (.load "[1, false, [8192, 4096]]") = .ok s ∧
      s.recompiler.snapshot.toText =
        "\x7b\"version\":1,\"start_default_prefix\":false,\"assume_unknown\":[4096,8192]\x7d" ∧
      (∃ s', leastSession.load s.recompiler.snapshot.toText = (.ok (), s') ∧
        leastSession.Restarted s.recompiler s') ∧
      ((∀ a, a ∈ s.recompiler.distrusted ↔ a ∈ s.recompiler.distrusted) ↔
        s.recompiler.snapshot.toText = s.recompiler.snapshot.toText) ∧
      ([1, 2].foldl Recompiler.distrust s.recompiler).snapshot.toText =
        ([2, 1].foldl Recompiler.distrust s.recompiler).snapshot.toText ∧
      ∃ e s', leastSession.load "[1, false, [4294967296]]" = (.error e, s') ∧
        s' = leastSession ∧ ∃ cause, e = .snapshot cause := by
  have hused : leastRecompiler.Used leastSpace := .create rfl
  have hloaded : (Snapshot.ofText "[1, false, [8192, 4096]]").toOption =
      some ⟨1, false, [8192, 4096]⟩ := by decide +kernel
  have hrefused : (Snapshot.ofText "[1, false, [4294967296]]").toOption = none := by decide +kernel
  obtain ⟨snapshot, htext, rfl⟩ : ∃ x, Snapshot.ofText "[1, false, [8192, 4096]]" = .ok x ∧
      x = ⟨1, false, [8192, 4096]⟩ := by
    cases h : Snapshot.ofText "[1, false, [8192, 4096]]" with
    | error e =>
      rw [h] at hloaded
      cases hloaded
    | ok x =>
      rw [h] at hloaded
      exact ⟨x, rfl, Option.some.inj hloaded⟩
  refine ⟨_, rfl, ?_, ?_⟩
  · rw [Session.load, htext]
    decide +kernel
  · have hact : (Session.mk leastRecompiler leastMachine).act (.load "[1, false, [8192, 4096]]") =
        .ok ((Session.mk leastRecompiler leastMachine).load "[1, false, [8192, 4096]]").2 := rfl
    have hused' := Recompiler.Used.act hused hact
    obtain ⟨hload, hequal, horder, hfail⟩ := restored_of_used hused'
    refine ⟨hload leastSession, hequal leastSpace _ hused' rfl,
      horder [1, 2] [2, 1] (by simp [or_comm]), ?_⟩
    cases h : Snapshot.ofText "[1, false, [4294967296]]" with
    | error e =>
      have hfailed : leastSession.load "[1, false, [4294967296]]" =
          (.error (.snapshot e), leastSession) := by rw [Session.load, h]
      exact ⟨_, _, hfailed, hfail _ _ _ _ hfailed⟩
    | ok x =>
      rw [h] at hrefused
      cases hrefused

end Dynarec
