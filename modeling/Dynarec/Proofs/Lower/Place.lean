import Dynarec.Proofs.Lower.Shape

/-!
# What stands where in a block

`Sketch.Place` lists what can stand at a place of the code of a block: an entry, straight code, the
forward jump, a charge, or an operation that leaves.  From each of them but the last the code goes
on inside the block (`place_of_getElem?`), so native code never runs off the end of a block.
-/

namespace Dynarec

variable {s : Setting} {base : Nat} {k : Sketch}

namespace Operation

theorem not_final_of_inline {op : Operation} (hop : op.Inline) : ¬ op.Final := by
  cases op <;> first | exact hop.elim | exact id

theorem not_final_charge {inRegister : Bool} {amount : UInt32} :
    ¬ (charge inRegister amount).Final := by
  cases inRegister <;> exact id

end Operation

/-- **What stands at a place of the code of a block.** -/
inductive Sketch.Place (s : Setting) (base : Nat) (k : Sketch) (i : Nat) : Operation → Prop
  /-- The checked entry. -/
  | check (first : i = 0) : Place s base k i (.checkEntry s.options.downcountInRegister s.start)
  /-- The guard behind it. -/
  | guard (second : i = 1) (assumes : s.entry = .noModifiers) :
      Place s base k i (.guardModifiers s.start)
  /-- Straight code that leaves the downcount alone. -/
  | straight {op : Operation} (behind : 0 < i) (inline : op.Inline) (quiet : op.Quiet) :
      Place s base k i op
  /-- The forward jump, to the charge of a way out. -/
  | jump {condition : Condition} {n : Nat} {way : Leave} (behind : 0 < i) (mem : way ∈ k.tail.ways)
      (forward : i < n)
      (there : (s.code base k)[n]? = some (.charge s.options.downcountInRegister way.amount)) :
      Place s base k i (.jumpIf condition (UInt32.ofNat (base + n)))
  /-- The charge of a way out, in front of its operation. -/
  | charge {way : Leave} (behind : 0 < i) (mem : way ∈ k.tail.ways)
      (next : (s.code base k)[i + 1]? = some way.op) :
      Place s base k i (.charge s.options.downcountInRegister way.amount)
  /-- The operation of a way out, behind its charge. -/
  | leave {way : Leave} {j : Nat} (behind : i = j + 1) (mem : way ∈ k.tail.ways)
      (charged : (s.code base k)[j]? =
        some (.charge s.options.downcountInRegister way.amount)) :
      Place s base k i way.op

namespace Setting

theorem entries_length_pos (s : Setting) : 0 < s.entries.length := Nat.succ_pos _

/-- The code of a block, part by part. -/
theorem getElem?_code_front {i : Nat} (hlt : i < k.front.length) :
    (s.code base k)[s.entries.length + i]? = k.front[i]? := by
  rw [code, Sketch.ops, List.getElem?_append_right (Nat.le_add_right _ _), Nat.add_sub_cancel_left,
    List.getElem?_append_left hlt]

theorem getElem?_code_tail (i : Nat) :
    (s.code base k)[s.entries.length + k.front.length + i]? =
      (k.tail.ops s.options.downcountInRegister (base + s.entries.length + k.front.length))[i]? := by
  rw [code, Sketch.ops, Nat.add_assoc s.entries.length,
    List.getElem?_append_right (Nat.le_add_right _ _), Nat.add_sub_cancel_left,
    List.getElem?_append_right (Nat.le_add_right _ _), Nat.add_sub_cancel_left]

theorem length_code (s : Setting) (base : Nat) (k : Sketch) :
    (s.code base k).length = s.entries.length + k.size := by
  rw [code, List.length_append, Sketch.length_ops]

end Setting

namespace Sketch

theorem place_of_entries {i : Nat} {op : Operation} (hop : s.entries[i]? = some op) :
    Place s base k i op := by
  rw [Setting.entries] at hop
  cases i with
  | zero =>
    cases hop
    exact .check rfl
  | succ i =>
    rw [List.getElem?_cons_succ] at hop
    split at hop
    · rename_i hentry
      cases i with
      | zero =>
        cases hop
        exact .guard rfl hentry
      | succ i => simp at hop
    · simp at hop

/-- The two words of a way out. -/
theorem place_of_way {way : Leave} (hmem : way ∈ k.tail.ways) {i n : Nat} {op : Operation}
    (hn : 0 < n) (hat : ∀ j, j < 2 →
      (s.code base k)[n + j]? = (way.ops s.options.downcountInRegister)[j]?)
    (hop : (way.ops s.options.downcountInRegister)[i]? = some op) :
    Place s base k (n + i) op := by
  match i with
  | 0 =>
    cases hop
    exact .charge (by omega) hmem (hat 1 (by decide))
  | 1 =>
    cases hop
    exact .leave rfl hmem (hat 0 (by decide))
  | i + 2 => simp [Leave.ops] at hop

/-- **What stands at each place of the code of a block.** -/
theorem place_of_getElem? {G : Set HostCell} (hneat : k.Neat G) {i : Nat} {op : Operation}
    (hop : (s.code base k)[i]? = some op) : Place s base k i op := by
  have hpos := s.entries_length_pos
  by_cases hentries : i < s.entries.length
  · rw [Setting.code, List.getElem?_append_left hentries] at hop
    exact place_of_entries hop
  obtain ⟨i, rfl⟩ := Nat.exists_eq_add_of_le (Nat.le_of_not_lt hentries)
  by_cases hfront : i < k.front.length
  · rw [Setting.getElem?_code_front hfront] at hop
    have hmem := List.mem_of_getElem? hop
    exact .straight (by omega) (hneat.inline op hmem) (hneat.quiet op hmem)
  obtain ⟨i, rfl⟩ := Nat.exists_eq_add_of_le (Nat.le_of_not_lt hfront)
  rw [← Nat.add_assoc] at hop ⊢
  have htail : ∀ j, (s.code base k)[s.entries.length + k.front.length + j]? =
      (k.tail.ops s.options.downcountInRegister (base + s.entries.length + k.front.length))[j]? :=
    Setting.getElem?_code_tail
  rw [htail] at hop
  have htailNeat := hneat.tail
  cases ht : k.tail with
  | leave way =>
    rw [ht] at hop htail
    have hmem : way ∈ k.tail.ways := by rw [ht]; exact List.mem_singleton_self way
    exact place_of_way hmem (by omega) (fun j _ => htail j) hop
  | fork condition slot passed taken =>
    rw [ht] at hop htail htailNeat
    obtain ⟨-, hinline, hquiet, -, -, -⟩ := htailNeat
    have hpassed : passed ∈ k.tail.ways := by rw [ht]; exact List.mem_cons_self
    have htaken : taken ∈ k.tail.ways := by rw [ht]; exact List.mem_cons_of_mem _ List.mem_cons_self
    have hbehind : ∀ j, (s.code base k)[s.entries.length + k.front.length + (slot.length + 1) + j]? =
        (passed.ops s.options.downcountInRegister ++ taken.ops s.options.downcountInRegister)[j]? :=
      fun j => by
        rw [Nat.add_assoc (s.entries.length + _), htail, Tail.ops,
          show slot.length + 1 + j = slot.length + j + 1 by omega, List.getElem?_cons_succ,
          List.append_assoc, List.getElem?_append_right (Nat.le_add_right _ _),
          Nat.add_sub_cancel_left]
    have hways : ∀ {way : Leave} (n : Nat), way ∈ k.tail.ways →
        (∀ j, j < 2 → (passed.ops s.options.downcountInRegister ++
          taken.ops s.options.downcountInRegister)[n + j]? =
            (way.ops s.options.downcountInRegister)[j]?) →
        ∀ j op, (way.ops s.options.downcountInRegister)[j]? = some op →
          Place s base k (s.entries.length + k.front.length + (slot.length + 1) + n + j) op :=
      fun {way} n hmem hat j op hop => place_of_way hmem (by omega)
        (fun j hj => by rw [Nat.add_assoc _ n, hbehind]; exact hat j hj) hop
    cases i with
    | zero =>
      cases hop
      have htarget : base + s.entries.length + k.front.length + slot.length + 3 =
          base + (s.entries.length + k.front.length + (slot.length + 1) + 2) := by omega
      rw [htarget]
      exact Place.jump (by omega) htaken (by omega) (hbehind 2)
    | succ i =>
      rw [Tail.ops, List.getElem?_cons_succ, List.append_assoc] at hop
      by_cases hslot : i < slot.length
      · rw [List.getElem?_append_left hslot] at hop
        have hmem := List.mem_of_getElem? hop
        exact .straight (by omega) (hinline op hmem) (hquiet op hmem)
      obtain ⟨i, rfl⟩ := Nat.exists_eq_add_of_le (Nat.le_of_not_lt hslot)
      rw [List.getElem?_append_right (Nat.le_add_right _ _), Nat.add_sub_cancel_left] at hop
      by_cases hfirst : i < 2
      · rw [List.getElem?_append_left hfirst] at hop
        have hplace := hways 0 hpassed (fun j hj => by
          rw [Nat.zero_add, List.getElem?_append_left hj]) i op hop
        rwa [show s.entries.length + k.front.length + (slot.length + i + 1) =
          s.entries.length + k.front.length + (slot.length + 1) + 0 + i by omega]
      · obtain ⟨i, rfl⟩ := Nat.exists_eq_add_of_le (Nat.le_of_not_lt hfirst)
        have hskip : ∀ j, (passed.ops s.options.downcountInRegister ++
            taken.ops s.options.downcountInRegister)[2 + j]? =
              (taken.ops s.options.downcountInRegister)[j]? := fun j => by
          rw [Nat.add_comm]
          rfl
        have hplace := hways 2 htaken (fun j _ => hskip j) i op ((hskip i).symm.trans hop)
        rwa [show s.entries.length + k.front.length + (slot.length + (2 + i) + 1) =
          s.entries.length + k.front.length + (slot.length + 1) + 2 + i by omega]

/-- The operation of every way out leaves. -/
theorem Neat.final {G : Set HostCell} (hneat : k.Neat G) {way : Leave} (hway : way ∈ k.tail.ways) :
    way.op.Final := by
  have htail := hneat.tail
  cases ht : k.tail with
  | leave way' =>
    rw [ht] at hway htail
    rw [List.mem_singleton.mp hway]
    exact Leave.Neat.final htail
  | fork condition slot passed taken =>
    rw [ht] at hway htail
    obtain ⟨-, -, -, -, hpassed, htaken⟩ := htail
    rcases List.mem_cons.mp hway with rfl | hway
    · exact hpassed.final
    · rw [List.mem_singleton.mp hway]
      exact htaken.final

/-- The code of a block ends with an operation that leaves. -/
theorem last_code (s : Setting) (base : Nat) (k : Sketch) : ∃ n, ∃ way ∈ k.tail.ways,
    (s.code base k).length = n + 1 ∧ (s.code base k)[n]? = some way.op := by
  cases ht : k.tail with
  | leave way =>
    refine ⟨s.entries.length + k.front.length + 1, way, List.mem_singleton_self way, ?_, ?_⟩
    · rw [Setting.length_code, Sketch.size, ht, Tail.size]
      omega
    · rw [Setting.getElem?_code_tail, ht]
      rfl
  | fork condition slot passed taken =>
    refine ⟨s.entries.length + k.front.length + (slot.length + 4), taken,
      List.mem_cons_of_mem _ List.mem_cons_self, ?_, ?_⟩
    · rw [Setting.length_code, Sketch.size, ht, Tail.size]
      omega
    · rw [Setting.getElem?_code_tail, ht, Tail.ops, List.getElem?_cons_succ,
        List.getElem?_append_right (by simp), List.length_append, Leave.length_ops]
      simp [Leave.ops]

/-- **Behind an operation that does not leave comes another**, one that leaves only behind a
charge. -/
theorem next_of_not_final {G : Set HostCell} (hneat : k.Neat G) {i : Nat} {op : Operation}
    (hop : (s.code base k)[i]? = some op) (hfinal : ¬ op.Final) :
    ∃ next, (s.code base k)[i + 1]? = some next ∧
      (next.Final → ∃ way ∈ k.tail.ways, next = way.op ∧
        op = .charge s.options.downcountInRegister way.amount) := by
  obtain ⟨n, way, hway, hlength, hlast⟩ := last_code s base k
  have hlt : i < n + 1 := hlength ▸ (List.getElem?_eq_some_iff.mp hop).1
  have hne : i ≠ n := by
    rintro rfl
    rw [hop, Option.some_inj] at hlast
    exact hfinal (hlast ▸ hneat.final hway)
  have hnext : (s.code base k)[i + 1]? = some (s.code base k)[i + 1] :=
    List.getElem?_eq_getElem (by omega)
  refine ⟨_, hnext, fun hleaves => ?_⟩
  generalize (s.code base k)[i + 1] = next at hnext hleaves
  cases place_of_getElem? hneat hnext with
  | check => exact hleaves.elim
  | guard => exact hleaves.elim
  | straight _ hinline => exact (Operation.not_final_of_inline hinline hleaves).elim
  | jump => exact hleaves.elim
  | charge => exact (Operation.not_final_charge hleaves).elim
  | @leave way j hbehind hmem hcharged =>
    cases hbehind
    rw [hop, Option.some_inj] at hcharged
    exact ⟨way, hmem, rfl, hcharged⟩

end Sketch

/-! ### Exits -/

/-- The exits among operations that start at an offset. -/
def exitsAt : (offset : Nat) → List Operation → List Exit
  | _, [] => []
  | offset, .exitDispatch target :: rest =>
    { target := target, stub := offset } :: exitsAt (offset + 1) rest
  | offset, _ :: rest => exitsAt (offset + 1) rest

theorem exitsAt_cons_of_ne {op : Operation} (hop : ∀ t, op ≠ .exitDispatch t) (offset : Nat)
    (rest : List Operation) : exitsAt offset (op :: rest) = exitsAt (offset + 1) rest := by
  cases op
  case exitDispatch t => exact absurd rfl (hop t)
  all_goals rfl

/-- **The exits are the operations that leave for a known address.** -/
theorem mem_exitsAt_iff {e : Exit} {offset : Nat} {ops : List Operation} :
    e ∈ exitsAt offset ops ↔ e.linked = false ∧
      ∃ i, ops[i]? = some (.exitDispatch e.target) ∧ e.stub = offset + i := by
  induction ops generalizing offset with
  | nil => simp [exitsAt]
  | cons op rest ih =>
    have hrest : e ∈ exitsAt (offset + 1) rest ↔ e.linked = false ∧
        ∃ i, (op :: rest)[i + 1]? = some (.exitDispatch e.target) ∧ e.stub = offset + (i + 1) := by
      rw [ih]
      refine and_congr_right fun _ => exists_congr fun i => ?_
      rw [List.getElem?_cons_succ, Nat.add_assoc, Nat.add_comm 1]
    by_cases hop : ∃ t, op = .exitDispatch t
    · obtain ⟨t, rfl⟩ := hop
      rw [exitsAt, List.mem_cons, hrest]
      constructor
      · rintro (rfl | ⟨hlinked, i, hi⟩)
        · exact ⟨rfl, 0, rfl, rfl⟩
        · exact ⟨hlinked, i + 1, hi⟩
      · rintro ⟨hlinked, i, hi, hstub⟩
        cases i with
        | zero =>
          obtain ⟨target, stub, linked⟩ := e
          cases hi
          cases hlinked
          cases hstub
          exact .inl rfl
        | succ i => exact .inr ⟨hlinked, i, hi, hstub⟩
    · have hne : ∀ t, op ≠ .exitDispatch t := fun t ht => hop ⟨t, ht⟩
      rw [exitsAt_cons_of_ne hne, hrest]
      refine and_congr_right fun _ => ⟨fun ⟨i, hi⟩ => ⟨i + 1, hi⟩, fun ⟨i, hi, hstub⟩ => ?_⟩
      cases i with
      | zero => exact absurd (Option.some.inj hi) (hne _)
      | succ i => exact ⟨i, hi, hstub⟩

/-- Every exit has a word of its own. -/
theorem pairwise_exitsAt (offset : Nat) (ops : List Operation) :
    (exitsAt offset ops).Pairwise fun e e' => e.stub < e'.stub := by
  induction ops generalizing offset with
  | nil => exact .nil
  | cons op rest ih =>
    by_cases hop : ∃ t, op = .exitDispatch t
    · obtain ⟨t, rfl⟩ := hop
      refine .cons (fun e he => ?_) (ih (offset + 1))
      obtain ⟨-, i, -, hstub⟩ := mem_exitsAt_iff.mp he
      show offset < e.stub
      omega
    · rw [exitsAt_cons_of_ne fun t ht => hop ⟨t, ht⟩]
      exact ih (offset + 1)

theorem exitsAt_append (offset : Nat) (xs ys : List Operation) :
    exitsAt offset (xs ++ ys) = exitsAt offset xs ++ exitsAt (offset + xs.length) ys := by
  induction xs generalizing offset with
  | nil => rfl
  | cons op rest ih =>
    have hlength : offset + (op :: rest).length = offset + 1 + rest.length := by
      rw [List.length_cons]
      omega
    rw [hlength]
    by_cases hop : ∃ t, op = .exitDispatch t
    · obtain ⟨t, rfl⟩ := hop
      exact congrArg (_ :: ·) (ih (offset + 1))
    · have hne : ∀ t, op ≠ .exitDispatch t := fun t ht => hop ⟨t, ht⟩
      rw [List.cons_append, exitsAt_cons_of_ne hne, exitsAt_cons_of_ne hne, ih]

theorem exitsAt_eq_nil {ops : List Operation} (hops : ∀ op ∈ ops, ∀ t, op ≠ .exitDispatch t)
    (offset : Nat) : exitsAt offset ops = [] := by
  induction ops generalizing offset with
  | nil => rfl
  | cons op rest ih =>
    rw [exitsAt_cons_of_ne (hops op List.mem_cons_self)]
    exact ih (fun o ho => hops o (List.mem_cons_of_mem _ ho)) _

/-- Straight code has no exits. -/
theorem exitsAt_of_inline {ops : List Operation} (hops : AllInline ops) (offset : Nat) :
    exitsAt offset ops = [] :=
  exitsAt_eq_nil (fun op hop t ht => by
    have hinline := hops op hop
    rw [ht] at hinline
    exact hinline) offset

theorem exitsAt_leave (inRegister : Bool) (offset : Nat) (way : Leave) :
    exitsAt offset (way.ops inRegister) = way.exits offset := by
  have hcharge : ∀ t, Operation.charge inRegister way.amount ≠ .exitDispatch t := fun t => by
    cases inRegister <;> exact nofun
  rw [Leave.ops, exitsAt_cons_of_ne hcharge, Leave.exits]
  cases way.op <;> rfl

/-- **The exits of a block** are found in its code. -/
theorem Setting.exitsAt_code {G : Set HostCell} (hneat : k.Neat G) :
    exitsAt base (s.code base k) = k.exits (base + s.entries.length) := by
  have hentries : exitsAt base s.entries = [] := by
    refine exitsAt_eq_nil (fun op hop t ht => ?_) base
    rw [Setting.entries] at hop
    rcases List.mem_cons.mp hop with rfl | hop
    · cases ht
    · split at hop
      · rw [List.mem_singleton.mp hop] at ht
        cases ht
      · cases hop
  rw [code, exitsAt_append, hentries, List.nil_append, Sketch.ops, exitsAt_append,
    exitsAt_of_inline hneat.inline, List.nil_append, Sketch.exits]
  have htail := hneat.tail
  cases ht : k.tail with
  | leave way => exact exitsAt_leave _ _ way
  | fork condition slot passed taken =>
    rw [ht] at htail
    obtain ⟨-, hinline, -⟩ := htail
    rw [Tail.ops, Tail.exits, exitsAt_cons_of_ne (fun t ht => by cases ht), exitsAt_append,
      exitsAt_append,
      exitsAt_of_inline hinline, List.nil_append, exitsAt_leave, exitsAt_leave, List.length_append,
      Leave.length_ops]
    congr 2 <;> omega

/-- Every operation of a block fits its word. -/
theorem Setting.fits_of_getElem?_code {G : Set HostCell} (hneat : k.Neat G) {i : Nat}
    {op : Operation} (hop : (s.code base k)[i]? = some op) : op.Fits := by
  cases Sketch.place_of_getElem? hneat hop with
  | check | guard | jump => trivial
  | straight _ inline => exact inline.fits
  | charge => cases s.options.downcountInRegister <;> trivial
  | @leave way _ _ mem =>
    have hfinal := hneat.final mem
    cases hway : way.op with
    | exitSyscall => rwa [hway] at hfinal
    | _ => trivial

end Dynarec
