import Dynarec.Proofs.Recompiler.Mirror

/-!
# Runs in lockstep

A run with links does what a run without them does, turn by turn of the latter.  A link leads to the
checked entry of a block, which tests what the dispatcher tests: so a run that goes on there takes
the turns that the dispatcher would take (`Session.Mirrors.turns_of_run`), with the same blocks,
since the dispatcher finds them in the cache and makes none.
-/

namespace Dynarec

open Host

/-! ### Turns, one after the other -/

namespace Session

/-- **Why the dispatcher takes no turn.** -/
def rest? (s : Session) : Option RunExit :=
  if !s.machine.core.isRunning || s.machine.core.exitRequested then some .stopped
  else if s.machine.core.downcount ≤ 0 then some .budget
  else none

/-- **What follows a turn.** -/
def after (fuel : Nat) : Turn × Session → Except Violation (Answer RunExit)
  | (.again, s) => turns fuel s
  | (.done exit, s) => .ok (.ok exit, s)
  | (.failed e, s) => .ok (.error e, s)

theorem turns_succ (fuel : Nat) (s : Session) :
    turns (fuel + 1) s = s.dropChanged >>= fun s =>
      s.rest?.elim (s.turn >>= after fuel) fun exit => .ok (.ok exit, s) := by
  rw [turns]
  congr
  funext s
  rw [rest?]
  dsimp only
  split
  · rfl
  · split
    · rfl
    · show _ = s.turn >>= after fuel
      cases s.turn with
      | error v => rfl
      | ok p =>
        obtain ⟨turn, s⟩ := p
        cases turn <;> rfl

/-- More turns than are taken change nothing. -/
theorem turns_mono {fuel fuel' : Nat} (hle : fuel ≤ fuel') {s : Session} {p : Answer RunExit}
    (hok : turns fuel s = .ok p) : turns fuel' s = .ok p := by
  induction fuel generalizing fuel' s with
  | zero => cases hok
  | succ fuel ih =>
    obtain ⟨fuel', rfl⟩ : ∃ n, fuel' = n + 1 := ⟨fuel' - 1, by omega⟩
    rw [turns_succ] at hok ⊢
    obtain ⟨s₁, hdrop, hok⟩ := ok_of_bind hok
    rw [hdrop]
    show s₁.rest?.elim (s₁.turn >>= after fuel') _ = .ok p
    cases hrest : s₁.rest? with
    | some exit =>
      rw [hrest] at hok
      exact hok
    | none =>
      rw [hrest] at hok
      obtain ⟨⟨turn, s₂⟩, hturn, hok⟩ := ok_of_bind hok
      show s₁.turn >>= after fuel' = .ok p
      rw [hturn]
      cases turn with
      | again => exact ih (by omega) hok
      | done exit => exact hok
      | failed e => exact hok

/-- With an empty queue nothing is dropped. -/
theorem dropChanged_eq {s : Session} (hnone : s.machine.memory.hasChangedCode = false) :
    s.dropChanged = .ok s := by
  obtain ⟨r, ⟨core, memory⟩⟩ := s
  have hempty : memory.changed = #[] := by
    rw [Memory.hasChangedCode, Bool.not_eq_false', Array.isEmpty_iff] at hnone
    exact hnone
  obtain ⟨⟩ := memory
  obtain rfl := hempty
  rfl

/-- **The dispatcher takes a turn** where a checked entry lets a run pass. -/
theorem rest?_eq_none {s : Session} (hd : ¬ s.machine.core.downcount ≤ 0)
    (hnone : s.machine.eventPending = false) : s.rest? = none := by
  rw [Machine.eventPending, Bool.or_eq_false_iff, Bool.or_eq_false_iff] at hnone
  rw [rest?, hnone.1.1, hnone.2, Bool.or_false, if_neg (Bool.false_ne_true), if_neg hd]

theorem cyclesLeft_of_rest? {s : Session} (hrest : s.rest? = none) : 0 < s.cyclesLeft := by
  rw [rest?] at hrest
  split at hrest
  · cases hrest
  · split at hrest
    · cases hrest
    · rename_i hd
      exact Int32.lt_iff_toInt_lt.mp (Int32.not_le.mp hd)

end Session

/-! ### The code of stored blocks -/

namespace BlockCache

variable {c : BlockCache} {options : Options} {origin : Nat → Memory} {free id : Nat} {b : Block}
  {x : Piece}

/-- **Where links lead.** -/
def entries (c : BlockCache) : Set (UInt32 × Nat) :=
  {p | ∃ id b, c.IsValid id b ∧ p = (b.start, b.checkedEntry)}

theorem Consistent.woven (hc : c.Consistent) (hb : c.IsValid id b) (hneat : x.sketch.Neat ∅)
    (hembeds : c.Embeds b x) : x.Woven c.code.words c.entries := by
  intro i op hop
  rcases hc.word_of_embeds hb hneat hembeds hop with hword | ⟨-, id', b', hb', rfl, hword⟩
  · exact .inl hword
  · exact .inr ⟨_, ⟨id', b', hb', rfl⟩, rfl, hword⟩

/-- Without links every exit of a block stands in the code. -/
theorem Consistent.woven_of_not_linking (hc : c.Consistent) (hlinking : c.linking = false)
    (hb : c.IsValid id b) (hneat : x.sketch.Neat ∅) (hembeds : c.Embeds b x) :
    x.Woven c.code.words ∅ := by
  intro i op hop
  rcases hc.word_of_embeds hb hneat hembeds hop with hword | ⟨htrue, -⟩
  · exact .inl hword
  · rw [hlinking] at htrue
    cases htrue

/-- The offset of an entry fits into a jump. -/
theorem Stocked.toNat_of_entries (h : Stocked options origin free c) (hc : c.Consistent)
    {p : UInt32 × Nat} (hp : p ∈ c.entries) : (UInt32.ofNat p.2).toNat = p.2 := by
  obtain ⟨id, b, hb, rfl⟩ := hp
  obtain ⟨y, hy, -, hbase, -⟩ := h.exists_piece hb
  have htoNat := (h.fabric hc).toNat_base hy
  rw [hbase] at htoNat
  exact htoNat

/-- **The test at the entry of a valid block.** -/
theorem Stocked.check (h : Stocked options origin free c) (hc : c.Consistent) (hb : c.IsValid id b) :
    operationAt? c.code.words b.checkedEntry =
      some (.checkEntry options.downcountInRegister b.start) ∧ b.normalEntry = b.checkedEntry + 1 := by
  obtain ⟨y, hy, hstart, hbase, hentry⟩ := h.exists_piece hb
  refine ⟨?_, by omega⟩
  rcases (h.fabric hc).word y hy 0 _ y.ops_zero with hword | ⟨z, -, heq, -⟩
  · rw [(h.fabric hc).register y hy, hstart] at hword
    rw [← hbase]
    exact hword
  · cases heq

end BlockCache

namespace Session

variable {free : Nat} {s t : Session} {r u : Recompiler} {m : Machine}

namespace Mirrors

/-! ### Serving -/

/-- Hits of the cache do not count. -/
theorem hit (x : Mirrors free ⟨r, m⟩ ⟨u, m⟩) :
    Mirrors free ⟨r, m⟩
      ⟨u.count fun stats => { stats with cacheHits := stats.cacheHits + 1 }, m⟩ where
  sound := x.sound
  plain := x.plain.imp fun _ ht => ht.count _
  machine := rfl
  options := x.options
  assumes := x.assumes
  distrusted := x.distrusted
  stats := by
    obtain ⟨hits, hstats⟩ := x.stats
    refine ⟨hits + 1, ?_⟩
    have hstats : u.stats = { r.stats with cacheHits := hits } := hstats
    show ({ u.stats with cacheHits := u.stats.cacheHits + 1 } : Statistics) = _
    rw [hstats]
  cache := x.cache

/-- **An address is distrusted on both sides.** -/
theorem distrust (x : Mirrors free ⟨r, m⟩ ⟨u, m⟩) {a length : UInt32}
    (hno : ∀ id b, r.cache.IsValid id b → b.overlaps a (BlockCache.rangeEnd a length) = false)
    (hno' : ∀ id b, u.cache.IsValid id b → b.overlaps a (BlockCache.rangeEnd a length) = false) :
    Mirrors free ⟨r.distrust a, m⟩ ⟨u.distrust a, m⟩ where
  sound := x.sound.imp fun _ hs => hs.distrust hno
  plain := x.plain.imp fun _ ht => ht.distrust hno'
  machine := rfl
  options := x.options
  assumes := x.assumes
  distrusted := congrArg (Recompiler.insertAddress a) x.distrusted
  stats := x.stats
  cache := x.cache

/-- **One instruction is interpreted on both sides.** -/
theorem interpretOne (x : MirroredBy ⟨r, m⟩ ⟨u, m⟩) {turn : Turn} {s' : Session}
    (hok : Session.interpretOne ⟨r, m⟩ = .ok (turn, s')) :
    ∃ t', Session.interpretOne ⟨u, m⟩ = .ok (turn, t') ∧ MirroredBy s' t' := by
  have hlow : m.memory.Low := x.low
  have x₁ : MirroredBy
      ⟨r.count fun stats => { stats with interpreted := stats.interpreted + 1 }, m⟩
      ⟨u.count fun stats => { stats with interpreted := stats.interpreted + 1 }, m⟩ :=
    Mirrors.count x fun stats hits => ⟨hits, rfl⟩
  rw [Session.interpretOne] at hok ⊢
  cases hrun : Machine.runOne m with
  | ok event m' =>
    have hlow' : m'.memory.Low := hlow.of_stores (Machine.stores_runOne hrun)
    rw [hrun] at hok
    cases event <;> cases hok <;> exact ⟨_, rfl, x₁.withMachine hlow'⟩
  | error stop m' =>
    rw [hrun] at hok
    cases stop with
    | trap trap =>
      have hlow' : m'.memory.Low := hlow.of_stores (Machine.stores_runOne_trap hrun)
      have hfault : (m'.fault trap).memory.Low := hlow'
      cases hok
      exact ⟨_, rfl, x₁.withMachine hfault⟩
    | violation v => cases hok

/-- **What native code returned for is done on both sides.** -/
theorem serve (x : MirroredBy ⟨r, m⟩ ⟨u, m⟩) {reason : ExitReason} {turn : Turn} {s' : Session}
    (hok : Session.serve ⟨r, m⟩ reason = .ok (turn, s')) :
    ∃ t', Session.serve ⟨u, m⟩ reason = .ok (turn, t') ∧ MirroredBy s' t' := by
  cases reason with
  | interpret => exact x.interpretOne hok
  | fault trap =>
    cases hok
    exact ⟨_, rfl, x.withMachine x.low⟩
  | modifierMismatch a =>
    have x₁ : MirroredBy
        ⟨r.count fun stats => { stats with modifierMismatches := stats.modifierMismatches + 1 }, m⟩
        ⟨u.count fun stats => { stats with modifierMismatches := stats.modifierMismatches + 1 }, m⟩ :=
      Mirrors.count x fun stats hits => ⟨hits, rfl⟩
    obtain ⟨n, r', u', hr, hu, x', htrims, -, hno, hno'⟩ := Mirrors.invalidate x₁ a 4
    rw [Session.serve] at hok ⊢
    dsimp only at hok ⊢
    rw [hr] at hok
    rw [hu]
    cases hok
    refine ⟨_, rfl, ?_⟩
    have x' : MirroredBy ⟨r', m⟩ ⟨u', m⟩ := by
      rw [MirroredBy, htrims.space.offset]
      exact x'
    exact x'.distrust hno hno'
  | dispatch =>
    cases hok
    exact ⟨_, rfl, x⟩
  | syscall code =>
    cases hok
    exact ⟨_, rfl, x⟩
  | breakpoint =>
    cases hok
    exact ⟨_, rfl, x⟩
  | badCode offset =>
    cases hok
    exact ⟨_, rfl, x⟩

/-! ### Native code -/

/-- **A visit of a run with links** is a run of the other side, whose code has no links. -/
theorem visit {id : Nat} {b : Block} {m₀ : Machine} {h : HostState} {fuel : Nat}
    {result : ExitReason × HostState × Machine} (x : MirroredBy ⟨r, m₀⟩ ⟨u, m₀⟩)
    (hd : 0 < m₀.core.downcount.toInt) (hb : r.cache.IsValid id b)
    (hm : Matches r.options.downcountInRegister ∅ HostState.start m₀ h m)
    (hrun : runCursor r.cache.code.words fuel ⟨b.normalEntry, h, m⟩ = .ok result) :
    ∃ reason m₁, Session.runNative ⟨u, m₀⟩ b.normalEntry = Session.serve ⟨u, m₁⟩ reason ∧
      MirroredBy ⟨r, m₁⟩ ⟨u, m₁⟩ ∧
      LeavesAs r.options.downcountInRegister r.cache.code.words r.cache.entries fuel result m₁
        reason := by
  obtain ⟨origin, hs⟩ := x.sound
  obtain ⟨origin', ht⟩ := x.plain
  have hlow : m₀.memory.Low := x.low
  have hoptions : u.options = r.options.plain := x.options
  obtain ⟨b', hb', ho⟩ := x.cache.alike.isValid hb
  obtain ⟨y, memory, hy, hy', hembeds, hembeds'⟩ := x.cache.pieces id b b' hb hb'
  have hentry : b.normalEntry = y.base + 1 := congrArg Block.normalEntry hembeds.outline
  -- on the other side the run hands back where the visit leaves
  have hlinking : u.cache.linking = false := by
    have hlinking : u.cache.linking = u.options.linkBlocks := ht.stocked.linking
    rw [hlinking, hoptions]
    rfl
  have hregister : u.options.downcountInRegister = false := by
    rw [hoptions]
    rfl
  obtain ⟨reason, m₁, hhost⟩ : ∃ reason m₁, Host.run false u.cache.code.words
      (Session.nativeFuel ⟨u, m₀⟩) (y.base + 1) m₀ = .ok (reason, m₁) := by
    have fabric := ht.stocked.fabric ht.consistent
    obtain ⟨z, hz, -, -, hzentry⟩ := ht.stocked.exists_piece hb'
    have hfuel : (m₀.core.downcount.toInt.toNat + 2) * (u.cache.code.words.size + 2) ≤
        Session.nativeFuel ⟨u, m₀⟩ := le_rfl
    obtain ⟨reason, m₁, hhost, -⟩ := fabric.run_of_pos hz hlow hd hfuel
    have hsame : z.base + 1 = y.base + 1 :=
      hzentry.trans ((Block.normalEntry_eq_of_outline ho).trans hentry)
    rw [hregister, hsame] at hhost
    exact ⟨reason, m₁, hhost⟩
  have hlow₁ : m₁.memory.Low := hlow.of_stores (Host.stores_run hhost)
  have hcursor := hhost
  rw [run_eq] at hcursor
  obtain ⟨result', hrun', heq⟩ := ok_of_map hcursor
  have hwoven' := ht.consistent.woven_of_not_linking hlinking hb' hy'.neat hembeds'
  have hplain := Piece.visit_of_run hwoven' (fun p hp => absurd hp (Set.notMem_empty p))
    (ht.stocked.fabric ht.consistent).small hy'.neat (congrArg Options.downcountInRegister hy'.choice)
    (Matches.start false HostState.start m₀) hrun'
  -- on this side the run leaves as the visit does
  rw [hentry] at hrun
  have hleft := Piece.visit_of_run (hs.consistent.woven hb hy.neat hembeds)
    (fun p hp => hs.stocked.toNat_of_entries hs.consistent hp)
    (hs.stocked.fabric hs.consistent).small hy.neat (congrArg Options.downcountInRegister hy.choice)
    hm hrun
  rw [Piece.visit_plain] at hplain
  cases hvisit : y.visit m₀ with
  | exit reason' h₁ m₂ =>
    rw [hvisit] at hplain hleft
    have hboth : reason' = reason ∧ m₂ = m₁ := by
      cases heq
      cases hplain with
      | back same => exact ⟨rfl, same.symm⟩
      | onward less mem => exact absurd mem (Set.notMem_empty _)
    obtain ⟨rfl, rfl⟩ := hboth
    refine ⟨reason', m₂, ?_, x.withMachine hlow₁, hleft⟩
    rw [Session.runNative]
    dsimp only
    rw [hregister, hentry, hhost]
    rfl
  | next h₁ m₂ =>
    rw [hvisit] at hleft
    exact hleft.elim
  | jump target h₁ m₂ =>
    rw [hvisit] at hleft
    exact hleft.elim
  | broken v =>
    rw [hvisit] at hleft
    exact hleft.elim

/-- **The dispatcher finds a valid block** at the program counter. -/
theorem turn_eq {id : Nat} {b : Block} (x : MirroredBy ⟨r, m⟩ ⟨u, m⟩) (hb : r.cache.IsValid id b)
    (hstart : b.start = m.core.pc) :
    Session.turn ⟨u, m⟩ = Session.runNative
      ⟨u.count fun stats => { stats with cacheHits := stats.cacheHits + 1 }, m⟩ b.normalEntry := by
  obtain ⟨origin, ht⟩ := x.plain
  obtain ⟨b', hb', ho⟩ := x.cache.alike.isValid hb
  have hfind : u.cache.find? m.core.pc = some id :=
    ht.consistent.index.find?_eq_some_iff.mpr
      ⟨b', hb', (Block.start_eq_of_outline ho).trans hstart⟩
  have hblock : u.cache.blockAt id = b' := BlockCache.blockAt_of_getElem? hb'.1
  rw [Session.turn, Session.entry]
  dsimp only
  rw [BlockCache.lookup?, hfind, Option.map_some, hblock]
  show Session.runNative
    ⟨u.count fun stats => { stats with cacheHits := stats.cacheHits + 1 }, m⟩ b'.normalEntry = _
  rw [Block.normalEntry_eq_of_outline ho]

/-- **A run of native code takes the turns that the dispatcher would take** without links. -/
theorem turns_of_run {id : Nat} {b : Block} {m₀ : Machine} {h : HostState} {fuel : Nat}
    {result : ExitReason × HostState × Machine} (x : MirroredBy ⟨r, m₀⟩ ⟨u, m₀⟩)
    (hd : 0 < m₀.core.downcount.toInt) (hb : r.cache.IsValid id b)
    (hm : Matches r.options.downcountInRegister ∅ HostState.start m₀ h m)
    (hrun : runCursor r.cache.code.words fuel ⟨b.normalEntry, h, m⟩ = .ok result) :
    ∃ n u' m₁, m₁ = putBack r.options.downcountInRegister result.2.1 result.2.2 ∧
      MirroredBy ⟨r, m₁⟩ ⟨u', m₁⟩ ∧
      ∀ k, (Session.runNative ⟨u, m₀⟩ b.normalEntry >>= after (k + n)) =
        Session.serve ⟨u', m₁⟩ result.1 >>= after k := by
  induction fuel using Nat.strong_induction_on generalizing u id b m₀ m h with
  | _ fuel ih =>
    obtain ⟨reason, m₁, hnative, x₁, hleaves⟩ := x.visit hd hb hm hrun
    cases hleaves with
    | back same =>
      refine ⟨0, u, m₁, same.symm, x₁, fun k => ?_⟩
      rw [hnative]
      rfl
    | @onward fuel₁ base h₁ m₂ less mem same run =>
      obtain ⟨id', b', hb', heq⟩ := mem
      obtain ⟨hpc, rfl⟩ := Prod.mk.inj heq
      obtain ⟨origin, hs⟩ := x.sound
      obtain ⟨hcheck, hentry⟩ := hs.stocked.check hs.consistent hb'
      obtain ⟨fuel₂, hless, hfollows⟩ := follows_of_operationAt? hcheck run
      have hperform := Operation.perform_checkEntry r.options.downcountInRegister b'.start h₁ m₂
      rw [same.clock, same.eventPending_eq] at hperform
      by_cases hstop : (decide (m₁.core.downcount ≤ 0) || m₁.eventPending) = true
      · -- the test at the entry hands back to the dispatcher
        rw [if_pos hstop] at hperform
        have hresult : Follows r.cache.code.words fuel₂ (b'.checkedEntry + 1) result
            ((Operation.checkEntry r.options.downcountInRegister b'.start).perform h₁ m₂) := hfollows
        rw [hperform] at hresult
        obtain rfl : result = _ := hresult
        refine ⟨0, u, m₁, Eq.symm ?_, x₁, fun k => ?_⟩
        · refine putBack_eq ⟨?_, fun _ => hpc.symm⟩ same.clock
          show Machine.mk { m₂.core with pc := b'.start } m₂.memory = _
          rw [same.core_eq, same.memory_eq]
          rfl
        · rw [hnative]
          rfl
      · -- the dispatcher would go on with the same block
        rw [if_neg hstop] at hperform
        have hnext : Follows r.cache.code.words fuel₂ (b'.checkedEntry + 1) result
            ((Operation.checkEntry r.options.downcountInRegister b'.start).perform h₁ m₂) := hfollows
        rw [hperform] at hnext
        have hrun₂ : runCursor r.cache.code.words fuel₂ ⟨b'.checkedEntry + 1, h₁, m₂⟩ = .ok result :=
          hnext
        rw [← hentry] at hrun₂
        rw [Bool.or_eq_true, not_or, decide_eq_true_eq, Bool.not_eq_true] at hstop
        have hd₁ : 0 < m₁.core.downcount.toInt := Int32.lt_iff_toInt_lt.mp (Int32.not_le.mp hstop.1)
        obtain ⟨n, u', m', hm', x', hrest⟩ :=
          ih fuel₂ (Nat.lt_trans hless less) (Mirrors.hit x₁) hd₁ hb' same hrun₂
        refine ⟨n + 1, u', m', hm', x', fun k => ?_⟩
        have hqueue : m₁.memory.hasChangedCode = false := by
          have hnone := hstop.2
          rw [Machine.eventPending, Bool.or_eq_false_iff, Bool.or_eq_false_iff] at hnone
          exact hnone.1.2
        rw [← hrest k, hnative]
        show turns (k + n + 1) ⟨u, m₁⟩ = _
        rw [turns_succ, dropChanged_eq hqueue]
        show (Session.rest? ⟨u, m₁⟩).elim _ _ = _
        rw [rest?_eq_none (s := ⟨u, m₁⟩) hstop.1 hstop.2, ← Mirrors.turn_eq x₁ hb' hpc.symm]
        rfl

/-! ### Whole runs -/

/-- **A turn on both sides.**  The other side may need more turns for it. -/
theorem turn (x : MirroredBy s t) (hd : 0 < s.cyclesLeft) {turn : Turn} {s' : Session}
    (hok : s.turn = .ok (turn, s')) :
    ∃ n t', MirroredBy s' t' ∧ ∀ k, (t.turn >>= after (k + n)) = after k (turn, t') := by
  obtain ⟨result, s₁, t₁, hs, ht, x₁, henters, hsteady⟩ := x.entry s.machine.core.pc
  have hpc : t.machine.core.pc = s.machine.core.pc := by rw [x.machine]
  rw [Session.turn, hs] at hok
  rw [Session.turn, hpc, ht]
  obtain ⟨r, m⟩ := s₁
  obtain ⟨u, m'⟩ := t₁
  obtain rfl : m' = m := x₁.machine
  have hcore : m'.core = s.machine.core := hsteady.core
  have hd₁ : 0 < m'.core.downcount.toInt := by
    rw [hcore]
    exact hd
  rcases henters with ⟨id, b, heq, hb, hstart⟩ | ⟨e, heq, -⟩
  · obtain rfl : result = .ok b.normalEntry := heq
    have hnative : Session.runNative ⟨r, m'⟩ b.normalEntry = .ok (turn, s') := hok
    obtain ⟨⟨reason, m₁⟩, hhost, hserve⟩ := ok_of_bind hnative
    rw [run_eq] at hhost
    obtain ⟨result, hrun, heq⟩ := ok_of_map hhost
    cases heq
    obtain ⟨n, u', m₁, rfl, x', hrest⟩ := x₁.turns_of_run hd₁ hb
      (Matches.start r.options.downcountInRegister HostState.start m') hrun
    obtain ⟨t', hserve', x''⟩ := x'.serve hserve
    refine ⟨n, t', x'', fun k => ?_⟩
    show Session.runNative ⟨u, m'⟩ b.normalEntry >>= after (k + n) = _
    rw [hrest k, hserve']
    rfl
  · obtain rfl : result = .error e := heq
    have hok : (if e.isLocal = true then Session.interpretOne ⟨r, m'⟩
      else .ok (.failed e, ⟨r, m'⟩)) = .ok (turn, s') := hok
    suffices hother : ∃ t', MirroredBy s' t' ∧ (if e.isLocal = true then
        Session.interpretOne ⟨u, m'⟩ else .ok (.failed e, ⟨u, m'⟩)) = .ok (turn, t') by
      obtain ⟨t', x', hother⟩ := hother
      refine ⟨0, t', x', fun k => ?_⟩
      show (if e.isLocal = true then Session.interpretOne ⟨u, m'⟩
        else .ok (.failed e, ⟨u, m'⟩)) >>= after k = _
      rw [hother]
      rfl
    by_cases hlocal : e.isLocal = true
    · rw [if_pos hlocal] at hok ⊢
      obtain ⟨t', hone, x'⟩ := x₁.interpretOne hok
      exact ⟨t', x', hone⟩
    · rw [if_neg hlocal] at hok
      cases hok
      exact ⟨_, x₁, if_neg hlocal⟩

/-- **Turns on both sides.** -/
theorem turns {fuel : Nat} (x : MirroredBy s t) {result : Except Failure RunExit} {s' : Session}
    (hok : Session.turns fuel s = .ok (result, s')) :
    ∃ fuel' t', Session.turns fuel' t = .ok (result, t') ∧ MirroredBy s' t' := by
  induction fuel generalizing s t with
  | zero => cases hok
  | succ fuel ih =>
    obtain ⟨s₁, t₁, hs, ht, x₁, -⟩ := x.dropChanged
    have hok : s₁.rest?.elim (s₁.turn >>= after fuel) (fun exit => .ok (.ok exit, s₁)) =
        .ok (result, s') := by
      rw [turns_succ, hs] at hok
      exact hok
    have hother : ∀ n, Session.turns (n + 1) t =
        s₁.rest?.elim (t₁.turn >>= after n) (fun exit => .ok (.ok exit, t₁)) := by
      intro n
      have hrest : t₁.rest? = s₁.rest? := by rw [rest?, rest?, x₁.machine]
      rw [turns_succ, ht, ← hrest]
      rfl
    cases hrest : s₁.rest? with
    | some exit =>
      rw [hrest] at hok hother
      cases hok
      exact ⟨1, t₁, hother 0, x₁⟩
    | none =>
      rw [hrest] at hok hother
      obtain ⟨⟨turn, s₂⟩, hturn, hok⟩ := ok_of_bind hok
      obtain ⟨n, t₂, x₂, hsame⟩ := x₁.turn (cyclesLeft_of_rest? hrest) hturn
      have hother : ∀ k, Session.turns (k + n + 1) t = after k (turn, t₂) := by
        intro k
        exact (hother (k + n)).trans (hsame k)
      cases turn with
      | again =>
        obtain ⟨fuel', t', hrest', x'⟩ := ih x₂ hok
        exact ⟨fuel' + n + 1, t', (hother fuel').trans hrest', x'⟩
      | done exit =>
        cases hok
        exact ⟨0 + n + 1, t₂, hother 0, x₂⟩
      | failed e =>
        cases hok
        exact ⟨0 + n + 1, t₂, hother 0, x₂⟩

/-- **A run comes to the same on both sides.** -/
theorem run (x : MirroredBy s t) :
    ∃ result s' t', s.run = .ok (result, s') ∧ t.run = .ok (result, t') ∧ MirroredBy s' t' := by
  obtain ⟨origin, hs⟩ := x.sound
  obtain ⟨origin', ht⟩ := x.plain
  obtain ⟨⟨result, s'⟩, hrun, -⟩ := Keeps.finishes hs
  have ht : SoundBy origin' none t := by
    rw [SoundBy, x.cache.offset]
    exact ht
  obtain ⟨p, hrun', -⟩ := Keeps.finishes ht
  obtain ⟨fuel, t', hturns, x'⟩ := x.turns hrun
  -- with as many turns as both need there is one result
  have hleft := turns_mono (Nat.le_max_left fuel t.turnFuel) hturns
  have hright := turns_mono (Nat.le_max_right fuel t.turnFuel) hrun'
  cases hleft.symm.trans hright
  exact ⟨result, s', t', hrun, hrun', x'⟩

end Mirrors

end Session

end Dynarec
