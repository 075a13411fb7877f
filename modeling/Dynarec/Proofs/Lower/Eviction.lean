import Dynarec.Proofs.Lower.Slots
import Mathlib.Data.List.Induction

/-!
# Eviction

Slots are used by requests (`SlotArena.Request`), in any order.  Which slot a new binding ought to
take is said by the history of the requests, without the clock: `LastUse history i k` says that the
request at position `k` is the last that uses slot `i`, and `Takes history a i` is the policy.

The clock and the dates of the slots stand for the history.  Every request keeps `Dated`: a bound
slot was used, no date is ahead of the clock, and a slot that was used last before another one has
the earlier date.  Dates of slots that were freed, locked or used again meanwhile do no harm, since
only the last use of a slot counts.  `selection_exact` puts the two together.
-/

namespace Dynarec

namespace SlotArena

variable {n : Nat} {G : Type}

/-- When a slot was last used, by the clock. -/
def lastUsed (a : SlotArena n G) (i : Fin n) : Nat := (a.slot i).lastUsed

/-! ### Requests -/

/-- An operation on the slots. -/
inductive Request (n : Nat) (G : Type) where
  | assign (i : Fin n) (g : G)
  | touch (i : Fin n)
  | lock (i : Fin n)
  | releaseLocks
  | setDirty (i : Fin n) (dirty : Bool)
  | clear (i : Fin n)
  | clearAll
deriving DecidableEq, Repr

/-- The slot that a request uses.  The others do not count as a use. -/
def Request.used? : Request n G → Option (Fin n)
  | assign i _ | touch i => some i
  | _ => none

/-- What a request does. -/
def apply (a : SlotArena n G) : Request n G → SlotArena n G
  | .assign i g => a.assign i g
  | .touch i => a.touch i
  | .lock i => a.lock i
  | .releaseLocks => a.releaseLocks
  | .setDirty i dirty => a.setDirty i dirty
  | .clear i => a.clear i
  | .clearAll => a.clearAll

/-- **The slots after a history of requests.** -/
def applyAll (history : List (Request n G)) : SlotArena n G := history.foldl apply empty

theorem applyAll_append_singleton (history : List (Request n G)) (q : Request n G) :
    applyAll (history ++ [q]) = (applyAll history).apply q := by
  rw [applyAll, List.foldl_append]
  rfl

/-! ### The last use of a slot -/

/-- The slot that is used at a position of a history. -/
def usedAt? (history : List (Request n G)) (k : Nat) : Option (Fin n) :=
  (history[k]?).bind Request.used?

/-- **The last use of a slot** is at a position of the history. -/
def LastUse (history : List (Request n G)) (i : Fin n) (k : Nat) : Prop :=
  usedAt? history k = some i ∧ ∀ k' > k, usedAt? history k' ≠ some i

/-- Slot `i` was used for the last time before slot `j` was. -/
def UsedBefore (history : List (Request n G)) (i j : Fin n) : Prop :=
  ∃ k k', LastUse history i k ∧ LastUse history j k' ∧ k < k'

variable {history : List (Request n G)} {q : Request n G} {i j : Fin n} {k k' : Nat}

theorem usedAt?_append_singleton (history : List (Request n G)) (q : Request n G) (k : Nat) :
    usedAt? (history ++ [q]) k = if k = history.length then q.used? else usedAt? history k := by
  rw [usedAt?, usedAt?]
  rcases Nat.lt_trichotomy k history.length with hlt | heq | hgt
  · rw [if_neg (Nat.ne_of_lt hlt), List.getElem?_append_left hlt]
  · rw [if_pos heq, heq, List.getElem?_concat_length]
    rfl
  · rw [if_neg (Nat.ne_of_gt hgt), List.getElem?_eq_none (Nat.le_of_lt hgt),
      List.getElem?_eq_none (by rw [List.length_append]; exact hgt)]

theorem LastUse.lt_length (x : LastUse history i k) : k < history.length := by
  by_contra hle
  have hnone := x.1
  rw [usedAt?, List.getElem?_eq_none (Nat.le_of_not_lt hle)] at hnone
  cases hnone

theorem LastUse.unique (x : LastUse history i k) (y : LastUse history i k') : k = k' := by
  rcases Nat.lt_trichotomy k k' with hlt | heq | hgt
  · exact absurd y.1 (x.2 k' hlt)
  · exact heq
  · exact absurd x.1 (y.2 k hgt)

/-- Two slots are not used at one position. -/
theorem LastUse.slot_unique (x : LastUse history i k) (y : LastUse history j k) : i = j :=
  Option.some.inj (x.1.symm.trans y.1)

theorem UsedBefore.asymm (x : UsedBefore history i j) : ¬ UsedBefore history j i := by
  rintro ⟨l', l, hl', hl, hlt'⟩
  obtain ⟨k, k', hk, hk', hlt⟩ := x
  rw [hk.unique hl, hk'.unique hl'] at hlt
  exact Nat.lt_asymm hlt hlt'

/-- A request that uses the slot is its last use from then on. -/
theorem lastUse_append_of_used (hq : q.used? = some i) :
    LastUse (history ++ [q]) i k ↔ k = history.length := by
  constructor
  · intro x
    have hle : k ≤ history.length := Nat.le_of_lt_succ (by simpa using x.lt_length)
    by_contra hne
    have hlast := x.2 history.length (Nat.lt_of_le_of_ne hle hne)
    rw [usedAt?_append_singleton, if_pos rfl] at hlast
    exact hlast hq
  · rintro rfl
    refine ⟨by rw [usedAt?_append_singleton, if_pos rfl, hq], fun k' hk' => ?_⟩
    rw [usedAt?_append_singleton, if_neg (Nat.ne_of_gt hk'), usedAt?,
      List.getElem?_eq_none (Nat.le_of_lt hk')]
    nofun

/-- A request that does not use the slot changes nothing. -/
theorem lastUse_append_of_not_used (hq : q.used? ≠ some i) :
    LastUse (history ++ [q]) i k ↔ LastUse history i k := by
  have hat : ∀ l, usedAt? (history ++ [q]) l = some i ↔ usedAt? history l = some i := by
    intro l
    rw [usedAt?_append_singleton]
    by_cases hl : l = history.length
    · rw [if_pos hl, usedAt?, hl, List.getElem?_eq_none (Nat.le_refl _)]
      exact iff_of_false hq nofun
    · rw [if_neg hl]
  rw [LastUse, LastUse, hat]
  simp only [ne_eq, hat]

/-! ### One request -/

theorem lastUsed_touch (a : SlotArena n G) (i j : Fin n) :
    (a.touch i).lastUsed j = if some i = some j then a.clock + 1 else a.lastUsed j := by
  rw [lastUsed, slot_touch]
  simp only [Option.some.injEq]
  split <;> rfl

/-- **A use dates its slot, and nothing else dates one.** -/
theorem lastUsed_apply (a : SlotArena n G) (q : Request n G) (j : Fin n) :
    (a.apply q).lastUsed j = if q.used? = some j then a.clock + 1 else a.lastUsed j := by
  cases q with
  | assign i g =>
    have hbound : (a.update i fun s =>
        { s with guest := some g, dirty := false, locked := true }).lastUsed j = a.lastUsed j :=
      a.part_update Slot.lastUsed i j fun _ => rfl
    refine (lastUsed_touch _ i j).trans ?_
    rw [hbound]
    rfl
  | touch i => exact lastUsed_touch a i j
  | lock i => exact a.part_update Slot.lastUsed i j fun _ => rfl
  | releaseLocks => exact a.part_updateAll Slot.lastUsed j fun _ => rfl
  | setDirty i d => exact a.part_update Slot.lastUsed i j fun _ => rfl
  | clear i => exact a.part_update Slot.lastUsed i j fun _ => rfl
  | clearAll => exact a.part_updateAll Slot.lastUsed j fun _ => rfl

theorem clock_apply (a : SlotArena n G) (q : Request n G) :
    (a.apply q).clock = if q.used?.isSome then a.clock + 1 else a.clock := by
  cases q <;> rfl

/-- Only a use binds a slot. -/
theorem guest_of_guest_apply {a : SlotArena n G} (hq : q.used? ≠ some j)
    (hj : (a.apply q).guest j ≠ none) : a.guest j ≠ none := by
  cases q with
  | assign i g =>
    have hij : i ≠ j := fun heq => hq (congrArg some heq)
    have hguest : (a.assign i g).guest j = a.guest j := by rw [guest_assign, if_neg hij]
    rwa [← hguest]
  | touch i => rwa [← guest_touch a i]
  | lock i => rwa [← guest_lock a i]
  | releaseLocks => rwa [← guest_releaseLocks a]
  | setDirty i d => rwa [← guest_setDirty a i j d]
  | clear i =>
    intro hnone
    refine hj ?_
    show (a.clear i).guest j = none
    rw [guest_clear, hnone, ite_self]
  | clearAll => exact absurd (guest_clearAll a j) hj

/-! ### Dates and the history -/

/-- **The dates of the slots stand for a history.** -/
structure Dated (history : List (Request n G)) (a : SlotArena n G) : Prop where
  /-- A bound slot was used. -/
  bound : ∀ i, a.guest i ≠ none → ∃ k, LastUse history i k
  le_clock : ∀ i, a.lastUsed i ≤ a.clock
  /-- Later uses have later dates. -/
  lt_of_lt : ∀ {i j k k'}, LastUse history i k → LastUse history j k' → k < k' →
    a.lastUsed i < a.lastUsed j

theorem dated_empty : Dated [] (empty : SlotArena n G) where
  bound i hi := absurd (guest_empty i) hi
  le_clock i := Nat.le_of_eq (congrArg Slot.lastUsed (slot_empty i))
  lt_of_lt x := absurd x.lt_length (Nat.not_lt_zero _)

variable {a : SlotArena n G}

/-- **A request keeps the dates in the order of the history.** -/
theorem Dated.apply (x : Dated history a) (q : Request n G) :
    Dated (history ++ [q]) (a.apply q) where
  bound i hi := by
    by_cases hq : q.used? = some i
    · exact ⟨history.length, (lastUse_append_of_used hq).mpr rfl⟩
    · obtain ⟨k, hk⟩ := x.bound i (guest_of_guest_apply hq hi)
      exact ⟨k, (lastUse_append_of_not_used hq).mpr hk⟩
  le_clock i := by
    rw [lastUsed_apply, clock_apply]
    have hle := x.le_clock i
    by_cases hq : q.used? = some i
    · have hsome : q.used?.isSome = true := Option.isSome_iff_exists.mpr ⟨i, hq⟩
      exact Nat.le_of_eq ((if_pos hq).trans (if_pos hsome).symm)
    · rw [if_neg hq]
      split <;> omega
  lt_of_lt := by
    intro i j k k' hi hj hlt
    have hj' := hj.lt_length
    rw [List.length_append, List.length_singleton] at hj'
    -- The earlier use is not that of the new request, which is at the end.
    have hqi : q.used? ≠ some i := fun hq => by
      have hk := (lastUse_append_of_used hq).mp hi
      omega
    rw [lastUsed_apply, lastUsed_apply, if_neg hqi]
    rw [lastUse_append_of_not_used hqi] at hi
    by_cases hqj : q.used? = some j
    · rw [if_pos hqj]
      exact Nat.lt_succ_of_le (x.le_clock i)
    · rw [if_neg hqj]
      exact x.lt_of_lt hi ((lastUse_append_of_not_used hqj).mp hj) hlt

/-- **After any history the dates stand for it.** -/
theorem dated_applyAll (history : List (Request n G)) : Dated history (applyAll history) := by
  induction history using List.reverseRecOn with
  | nil => exact dated_empty
  | append_singleton history q ih =>
    rw [applyAll_append_singleton]
    exact ih.apply q

/-- The clock counts at most the requests; a word of 64 bits is enough for it. -/
theorem clock_applyAll_le (history : List (Request n G)) :
    (applyAll history).clock ≤ history.length := by
  induction history using List.reverseRecOn with
  | nil => exact Nat.le_refl 0
  | append_singleton history q ih =>
    rw [applyAll_append_singleton, clock_apply, List.length_append, List.length_singleton]
    split <;> omega

/-- Of two bound slots, the one with the earlier date was used before. -/
theorem Dated.usedBefore (x : Dated history a) (hi : a.guest i ≠ none) (hj : a.guest j ≠ none)
    (hne : j ≠ i) (hle : a.lastUsed i ≤ a.lastUsed j) : UsedBefore history i j := by
  obtain ⟨k, hk⟩ := x.bound i hi
  obtain ⟨k', hk'⟩ := x.bound j hj
  refine ⟨k, k', hk, hk', ?_⟩
  rcases Nat.lt_trichotomy k k' with hlt | heq | hgt
  · exact hlt
  · rw [heq] at hk
    exact absurd (hk'.slot_unique hk) hne
  · exact absurd (x.lt_of_lt hk' hk hgt) (Nat.not_lt_of_le hle)

/-! ### The slot that is offered -/

/-- No unlocked slot is free. -/
def Full (a : SlotArena n G) : Prop := ∀ j, a.locked j = false → a.guest j ≠ none

/-- **The slot that a new binding ought to take** after a history: the first that is free, else the
one used least recently among those that are clean, else the one used least recently; a locked slot
never. -/
inductive Takes (history : List (Request n G)) (a : SlotArena n G) (i : Fin n) : Prop
  | free (hopen : a.locked i = false) (hfree : a.guest i = none)
      (hfirst : ∀ j < i, a.locked j = false → a.guest j ≠ none)
  | clean (hfull : a.Full) (hopen : a.locked i = false) (hclean : a.isDirty i = false)
      (holdest : ∀ j ≠ i, a.locked j = false → a.isDirty j = false → UsedBefore history i j)
  | dirty (hfull : a.Full) (hopen : a.locked i = false)
      (hdirty : ∀ j, a.locked j = false → a.isDirty j = true)
      (holdest : ∀ j ≠ i, a.locked j = false → UsedBefore history i j)

/-- At most one slot ought to be taken. -/
theorem Takes.unique (x : Takes history a i) (y : Takes history a j) : i = j := by
  -- Two slots of different kinds exclude each other; of one kind, each would be used before the other.
  cases x with
  | free hopen hfree hfirst =>
    cases y with
    | free hopen' hfree' hfirst' =>
      rcases Nat.lt_trichotomy i j with hlt | heq | hgt
      · exact absurd hfree (hfirst' i hlt hopen)
      · exact Fin.ext heq
      · exact absurd hfree' (hfirst j hgt hopen')
    | clean hfull => exact absurd hfree (hfull i hopen)
    | dirty hfull => exact absurd hfree (hfull i hopen)
  | clean hfull hopen hclean holdest =>
    cases y with
    | free hopen' hfree' => exact absurd hfree' (hfull j hopen')
    | clean _ hopen' hclean' holdest' =>
      by_contra hne
      exact (holdest j (Ne.symm hne) hopen' hclean').asymm (holdest' i hne hopen hclean)
    | dirty _ _ hdirty =>
      rw [hdirty i hopen] at hclean
      cases hclean
  | dirty hfull hopen hdirty holdest =>
    cases y with
    | free hopen' hfree' => exact absurd hfree' (hfull j hopen')
    | clean _ hopen' hclean' =>
      rw [hdirty j hopen'] at hclean'
      cases hclean'
    | dirty _ hopen' _ holdest' =>
      by_contra hne
      exact (holdest j (Ne.symm hne) hopen').asymm (holdest' i hne hopen)

/-- The slot that is kept of two was used after neither. -/
theorem older_le (a : SlotArena n G) (best : Option (Fin n)) (i : Fin n) :
    ∃ j, a.older best i = some j ∧ a.lastUsed j ≤ a.lastUsed i ∧
      ∀ l, best = some l → a.lastUsed j ≤ a.lastUsed l := by
  cases best with
  | none => exact ⟨i, rfl, Nat.le_refl _, nofun⟩
  | some l =>
    by_cases hlt : a.lastUsed i < a.lastUsed l
    · refine ⟨i, if_pos hlt, Nat.le_refl _, fun l' hl => ?_⟩
      rw [← Option.some.inj hl]
      exact Nat.le_of_lt hlt
    · exact ⟨l, if_neg hlt, Nat.le_of_not_lt hlt, fun l' hl =>
        Nat.le_of_eq (congrArg a.lastUsed (Option.some.inj hl))⟩

theorem foldl_older_eq_none_iff {l : List (Fin n)} {best : Option (Fin n)} :
    l.foldl a.older best = none ↔ best = none ∧ l = [] := by
  induction l generalizing best with
  | nil => simp
  | cons i rest ih =>
    obtain ⟨j, hj, -⟩ := a.older_le best i
    rw [List.foldl_cons, ih, hj]
    simp

theorem lastUsed_le_of_foldl_older {l : List (Fin n)} {best : Option (Fin n)}
    (h : l.foldl a.older best = some i) (hj : j ∈ l ∨ best = some j) :
    a.lastUsed i ≤ a.lastUsed j := by
  induction l generalizing best j with
  | nil =>
    rw [hj.resolve_left List.not_mem_nil] at h
    cases h
    exact Nat.le_refl _
  | cons x rest ih =>
    obtain ⟨y, hy, hle, hbest⟩ := a.older_le best x
    have hfirst := ih h (.inr hy)
    rcases hj with hmem | hj
    · rcases List.mem_cons.mp hmem with rfl | hrest
      · exact Nat.le_trans hfirst hle
      · exact ih h (.inl hrest)
    · exact Nat.le_trans hfirst (hbest j hj)

theorem mem_candidates {d : Bool} :
    i ∈ (List.finRange n).filter (fun i => !(a.slot i).locked && (a.slot i).dirty == d) ↔
      a.locked i = false ∧ a.isDirty i = d := by
  rw [List.mem_filter, Bool.and_eq_true, Bool.not_eq_true', beq_iff_eq]
  exact and_iff_right (List.mem_finRange i)

theorem leastRecent?_eq_none_iff {d : Bool} :
    a.leastRecent? d = none ↔ ∀ i, a.locked i = false → a.isDirty i ≠ d := by
  rw [leastRecent?, foldl_older_eq_none_iff, and_iff_right rfl, List.eq_nil_iff_forall_not_mem]
  simp only [mem_candidates, not_and, ne_eq]

theorem of_leastRecent? {d : Bool} (h : a.leastRecent? d = some i) :
    a.locked i = false ∧ a.isDirty i = d ∧
      ∀ j, a.locked j = false → a.isDirty j = d → a.lastUsed i ≤ a.lastUsed j := by
  have hi := mem_candidates.mp ((mem_of_foldl_older h).resolve_right nofun)
  exact ⟨hi.1, hi.2, fun j hj hd =>
    lastUsed_le_of_foldl_older h (.inl (mem_candidates.mpr ⟨hj, hd⟩))⟩

/-- A slot is offered because it is the first that is free, or because none is. -/
theorem select?_cases (a : SlotArena n G) :
    (∃ i, a.select? = some i ∧ a.locked i = false ∧ a.guest i = none ∧
      ∀ j < i, a.locked j = false → a.guest j ≠ none) ∨
    a.Full ∧ a.select? = (a.leastRecent? false).or (a.leastRecent? true) := by
  rw [select?]
  cases hfind : (List.finRange n).find? fun i => (a.slot i).guest.isNone && !(a.slot i).locked with
  | some i =>
    obtain ⟨hi, k, hk, hget, hfirst⟩ := List.find?_eq_some_iff_getElem.mp hfind
    rw [List.getElem_finRange] at hget
    rw [Bool.and_eq_true, Option.isNone_iff_eq_none, Bool.not_eq_true'] at hi
    refine .inl ⟨i, rfl, hi.2, hi.1, fun j hj hopen hfree => ?_⟩
    have hlt : j.val < k := by
      rw [← hget] at hj
      exact hj
    have hnot := hfirst j.val hlt
    rw [List.getElem_finRange] at hnot
    rw [Bool.not_eq_true', Bool.and_eq_false_iff] at hnot
    rcases hnot with hbound | hlocked
    · exact absurd (show (a.slot j).guest = none from hfree)
        (by rw [← Option.isNone_iff_eq_none]; exact Bool.eq_false_iff.mp hbound)
    · rw [Bool.not_eq_false'] at hlocked
      exact absurd (hlocked.symm.trans hopen) (by decide)
  | none =>
    refine .inr ⟨fun j hopen hfree => ?_, rfl⟩
    have hnot := List.find?_eq_none.mp hfind j (List.mem_finRange j)
    rw [Bool.and_eq_true, Option.isNone_iff_eq_none, Bool.not_eq_true'] at hnot
    exact hnot ⟨hfree, hopen⟩

theorem select?_eq_none_iff : a.select? = none ↔ ∀ i, a.locked i = true := by
  constructor
  · intro hnone i
    rcases a.select?_cases with ⟨j, hj, -⟩ | ⟨-, hor⟩
    · rw [hnone] at hj
      cases hj
    · rw [hor, Option.or_eq_none_iff, leastRecent?_eq_none_iff, leastRecent?_eq_none_iff] at hnone
      by_contra hopen
      rw [Bool.not_eq_true] at hopen
      cases hd : a.isDirty i with
      | false => exact hnone.1 i hopen hd
      | true => exact hnone.2 i hopen hd
  · intro hall
    cases hsel : a.select? with
    | none => rfl
    | some i =>
      have hopen := not_locked_of_select? hsel
      rw [hall i] at hopen
      cases hopen

/-- **The slot that is offered ought to be taken.** -/
theorem Dated.takes_of_select? (x : Dated history a) (hsel : a.select? = some i) :
    Takes history a i := by
  rcases a.select?_cases with ⟨j, hj, hopen, hfree, hfirst⟩ | ⟨hfull, hor⟩
  · rw [hsel] at hj
    cases hj
    exact .free hopen hfree hfirst
  · rw [hsel] at hor
    cases hclean : a.leastRecent? false with
    | some j =>
      rw [hclean, Option.some_or] at hor
      cases hor
      obtain ⟨hopen, hd, hmin⟩ := of_leastRecent? hclean
      exact .clean hfull hopen hd fun j hne hj hdj =>
        x.usedBefore (hfull i hopen) (hfull j hj) hne (hmin j hj hdj)
    | none =>
      rw [hclean, Option.none_or] at hor
      have hdirty : ∀ j, a.locked j = false → a.isDirty j = true := fun j hj =>
        (Bool.not_eq_false _).mp (leastRecent?_eq_none_iff.mp hclean j hj)
      obtain ⟨hopen, -, hmin⟩ := of_leastRecent? hor.symm
      exact .dirty hfull hopen hdirty fun j hne hj =>
        x.usedBefore (hfull i hopen) (hfull j hj) hne (hmin j hj (hdirty j hj))

/-- **Eviction is least recent use, clean slots first.**  After any history of requests no slot is
offered if and only if every slot is locked, and a slot is offered if and only if it is the one that
ought to be taken by the history: the first unlocked slot that is free; if there is none, of the
unlocked clean slots the one whose last use lies furthest back; and if there is none of these, of
all unlocked slots that one. -/
theorem selection_exact (history : List (Request n G)) :
    ((applyAll history).select? = none ↔ ∀ i, (applyAll history).locked i = true) ∧
    ∀ i, (applyAll history).select? = some i ↔ Takes history (applyAll history) i := by
  have hdated := dated_applyAll history
  refine ⟨select?_eq_none_iff, fun i => ⟨hdated.takes_of_select?, fun htakes => ?_⟩⟩
  have hopen : (applyAll history).locked i = false := by cases htakes <;> assumption
  cases hsel : (applyAll history).select? with
  | none =>
    rw [select?_eq_none_iff.mp hsel i] at hopen
    cases hopen
  | some j => rw [htakes.unique (hdated.takes_of_select? hsel)]

/-- Slot 1 is the clean slot that was used least recently; slot 0, used before it, is dirty. -/
example : (applyAll [.assign 0 4, .assign 1 5, .assign 2 6, .releaseLocks, .setDirty 0 true,
    .touch 2] : SlotArena 3 Nat).select? = some 1 := by decide +kernel

end SlotArena

end Dynarec
