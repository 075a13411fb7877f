import Dynarec.Proofs.Guest.Window

/-!
# Watching bytes of code

Once the page of a byte is marked, no store changes the byte without leaving it in a queued range
(`Memory.Stores.queued_of_read8_ne`), since a store of at most four bytes covers no page but those
of its first and its last byte.  `Memory.Orderly` is what this needs: a window away from the end of
the address space, a mark for each of its pages, and queued ranges inside it.
-/

namespace Dynarec

/-- An address lies in a range. -/
def ChangedRange.Covers (r : ChangedRange) (a : UInt32) : Prop :=
  r.start.toNat ≤ a.toNat ∧ a.toNat < r.start.toNat + r.length.toNat

namespace Memory

variable {m m' : Memory} {a : UInt32}

/-- **A byte lies in a queued range.** -/
def Queued (m : Memory) (a : UInt32) : Prop := ∃ r ∈ m.changed, r.Covers a

/-- The page of a byte is marked. -/
def Marked (m : Memory) (a : UInt32) : Prop := m.isCodePage (m.page a) = true

/-- **An orderly memory**: its window is low, each page has a mark, and queued ranges lie inside. -/
structure Orderly (m : Memory) : Prop where
  low : m.Low
  pages : m.codePages.size = (m.size + (pageSize - 1)) / pageSize
  queue : ∀ r ∈ m.changed, m.base.toNat ≤ r.start.toNat ∧
    r.start.toNat + r.length.toNat ≤ m.base.toNat + m.size

/-! ### The bytes after a store -/

/-- The byte at a window offset, if it is one. -/
def byte? (bytes : ByteArray) (i : Nat) : Option UInt8 := bytes.data[i]?

theorem byteAt_eq (m : Memory) (i : Nat) :
    m.byteAt i = ((byte? m.bytes i).map UInt8.toUInt32).getD 0 := by
  rw [byteAt, byte?]
  split
  · rename_i h
    have hsome : m.bytes.data[i]? = some m.bytes[i] := Array.getElem?_eq_getElem h
    rw [hsome]
    rfl
  · rename_i h
    have hnone : m.bytes.data[i]? = none := Array.getElem?_eq_none (Nat.le_of_not_lt h)
    rw [hnone]
    rfl

theorem byte?_set (bytes : ByteArray) (i j : Nat) (b : UInt8) (hne : j ≠ i) :
    byte? (bytes.set! j b) i = byte? bytes i := Array.getElem?_setIfInBounds_ne hne

/-- A store changes no byte outside its range. -/
theorem byte?_putBytes {bytes : ByteArray} {offset i : Nat} {data : List UInt8}
    (hout : i < offset ∨ offset + data.length ≤ i) :
    byte? (putBytes bytes offset data) i = byte? bytes i := by
  induction data generalizing bytes offset with
  | nil => rfl
  | cons b rest ih =>
    rw [List.length_cons] at hout
    rw [putBytes, ih (by omega), byte?_set _ _ _ _ (by omega)]

theorem read8_eq (m : Memory) (a : UInt32) :
    m.read8 a = if m.base.toNat ≤ a.toNat ∧ a.toNat < m.base.toNat + m.size then
      m.byteAt (a.toNat - m.base.toNat) else 0 := by
  rw [read8, read]
  cases hoffset : m.offset? a 1 with
  | none =>
    rw [if_neg]
    intro hin
    have hsome : m.offset? a 1 = some (a.toNat - m.base.toNat) :=
      offset?_eq_some_iff.mpr ⟨by omega, by omega⟩
    rw [hoffset] at hsome
    cases hsome
  | some offset =>
    obtain ⟨heq, hlen⟩ := offset?_eq_some_iff.mp hoffset
    rw [if_pos ⟨by omega, by omega⟩, show a.toNat - m.base.toNat = offset by omega]
    have hzero : (0 : UInt32) <<< 8 = 0 := by decide
    show m.byteAt offset ||| (0 : UInt32) <<< 8 = _
    rw [hzero, UInt32.or_zero]

/-! ### The queue -/

/-- **One more range in the queue**: behind the others, or as an extension of the newest one if it
starts where that ends. -/
inductive Enqueued (r : ChangedRange) : Array ChangedRange → Array ChangedRange → Prop
  | append (queue : Array ChangedRange) : Enqueued r queue (queue.push r)
  | extend (rest : Array ChangedRange) {last grown : ChangedRange}
      (hadjacent : last.start.toNat + last.length.toNat = r.start.toNat)
      (hstart : grown.start = last.start)
      (hlength : grown.length.toNat = last.length.toNat + r.length.toNat) :
      Enqueued r (rest.push last) (rest.push grown)

section Enqueued

variable {r : ChangedRange} {queue queue' : Array ChangedRange}

/-- **A byte is queued if it was, or if it lies in the new range.** -/
theorem Enqueued.covers_iff (x : Enqueued r queue queue') :
    (∃ s ∈ queue', s.Covers a) ↔ (∃ s ∈ queue, s.Covers a) ∨ r.Covers a := by
  cases x with
  | append =>
    simp only [Array.mem_push, or_and_right, exists_or, exists_eq_left]
  | @extend rest last grown hadjacent hstart hlength =>
    have hgrown : grown.Covers a ↔ last.Covers a ∨ r.Covers a := by
      simp only [ChangedRange.Covers, hstart, hlength]
      omega
    simp only [Array.mem_push, or_and_right, exists_or, exists_eq_left, hgrown, or_assoc]

/-- Ranges in the window stay there. -/
theorem Enqueued.inside {base limit : Nat} (x : Enqueued r queue queue')
    (hqueue : ∀ s ∈ queue, base ≤ s.start.toNat ∧ s.start.toNat + s.length.toNat ≤ limit)
    (hnew : base ≤ r.start.toNat ∧ r.start.toNat + r.length.toNat ≤ limit) :
    ∀ s ∈ queue', base ≤ s.start.toNat ∧ s.start.toNat + s.length.toNat ≤ limit := by
  intro s hs
  cases x with
  | append =>
    rcases Array.mem_push.mp hs with hs | rfl
    · exact hqueue s hs
    · exact hnew
  | @extend rest last grown hadjacent hstart hlength =>
    rcases Array.mem_push.mp hs with hs | rfl
    · exact hqueue s (Array.mem_push_of_mem _ hs)
    · have hlast := hqueue last Array.mem_push_self
      rw [hstart, hlength]
      omega

/-- **A change is enqueued**, if the ranges end below the end of the address space. -/
theorem enqueued_noteChange {address length : UInt32} (limit : Nat) (hlimit : limit < 2 ^ 32)
    (hqueue : ∀ s ∈ queue, s.start.toNat + s.length.toNat ≤ limit)
    (hnew : address.toNat + length.toNat ≤ limit) :
    Enqueued ⟨address, length⟩ queue (noteChange queue address length) := by
  rw [noteChange]
  split
  · exact .append queue
  · rename_i last hback
    split
    · rename_i heq
      obtain ⟨rest, rfl⟩ := Array.back?_eq_some_iff.mp hback
      rw [Array.pop_push]
      have hlast := hqueue last Array.mem_push_self
      have hend : last.start.toNat + last.length.toNat = address.toNat := by
        rw [← eq_of_beq heq, UInt32.toNat_add, Nat.mod_eq_of_lt (by omega)]
      refine .extend rest hend rfl ?_
      show (last.length + length).toNat = _
      rw [UInt32.toNat_add, Nat.mod_eq_of_lt (by omega)]
    · exact .append queue

end Enqueued

/-! ### Stores -/

/-- The page of an address in the window. -/
theorem page_eq {m : Memory} {a : UInt32} {i : Nat} (ha : a.toNat = m.base.toNat + i) :
    m.page a = i / pageSize := by
  have hle : m.base ≤ a := UInt32.le_iff_toNat_le.mpr (by omega)
  rw [page, UInt32.toNat_sub_of_le _ _ hle, ha, Nat.add_sub_cancel_left]

/-- **One store keeps the memory orderly** and queued what was queued, and queues the bytes of
marked pages that it changes. -/
theorem Stored.watch (h : m.Orderly) (x : Stored m m') :
    m'.Orderly ∧ (∀ a, m.Queued a → m'.Queued a) ∧
      ∀ a, m'.read8 a ≠ m.read8 a → m.Marked a → m'.Queued a := by
  obtain ⟨address, data, hne, hlen, hok⟩ := x
  rcases store_cases hok with ⟨-, rfl⟩ | ⟨offset, hoffset, hend, rfl⟩
  · exact ⟨h, fun _ => id, fun a ha => absurd rfl ha⟩
  obtain ⟨haddress, hin⟩ := offset?_eq_some_iff.mp hoffset
  have hlow : m.base.toNat + m.size + 8 ≤ 2 ^ 32 := h.low
  have hpos : 0 < data.length := List.length_pos_iff.mpr hne
  have hlength : (UInt32.ofNat data.length).toNat = data.length :=
    UInt32.toNat_ofNat_of_lt' (by show _ < 4294967296; omega)
  have hsize : (putBytes m.bytes offset data).size = m.size := size_putBytes _ _ _
  have hnote := enqueued_noteChange (m.base.toNat + m.size) (by omega)
    (fun r hr => (h.queue r hr).2) (show address.toNat + (UInt32.ofNat data.length).toNat ≤ _ by omega)
  refine ⟨⟨?_, ?_, ?_⟩, fun a ha => ?_, fun a hchange hmarked => ?_⟩
  · show m.base.toNat + (putBytes m.bytes offset data).size + 8 ≤ 2 ^ 32
    rw [hsize]
    exact hlow
  · show m.codePages.size = ((putBytes m.bytes offset data).size + _) / _
    rw [hsize]
    exact h.pages
  · rw [size, hsize]
    dsimp only
    split
    · exact hnote.inside h.queue ⟨by show _ ≤ address.toNat; omega,
        by show address.toNat + (UInt32.ofNat data.length).toNat ≤ _; omega⟩
    · exact h.queue
  · rw [Queued]
    dsimp only
    split
    · exact hnote.covers_iff.mpr (.inl ha)
    · exact ha
  · -- the byte lies in the range of the store, so its page is that of the first or of the last byte
    obtain ⟨i, hi, hrange⟩ : ∃ i, a.toNat = m.base.toNat + i ∧ offset ≤ i ∧
        i < offset + data.length := by
      by_contra hout
      refine hchange ?_
      rw [read8_eq, read8_eq]
      show (if m.base.toNat ≤ a.toNat ∧ a.toNat < m.base.toNat + (putBytes m.bytes offset data).size
        then byteAt { m with bytes := putBytes m.bytes offset data, changed := _ }
          (a.toNat - m.base.toNat) else 0) = _
      rw [hsize]
      split
      · rw [byteAt_eq, byteAt_eq, byte?_putBytes]
        by_contra hin'
        exact hout ⟨a.toNat - m.base.toNat, by omega, by omega, by omega⟩
      · rfl
    have hlast : (address + UInt32.ofNat data.length - 1).toNat =
        m.base.toNat + (offset + data.length - 1) := by
      have hsum : (address + UInt32.ofNat data.length).toNat = address.toNat + data.length := by
        rw [UInt32.toNat_add, hlength, Nat.mod_eq_of_lt hend]
      rw [UInt32.toNat_sub_of_le, hsum]
      · show _ - 1 = _
        omega
      · rw [UInt32.le_iff_toNat_le, hsum]
        show 1 ≤ _
        omega
    have hpage : m.page a = m.page address ∨
        m.page a = m.page (address + UInt32.ofNat data.length - 1) := by
      rw [page_eq hi, page_eq haddress, page_eq hlast, pageSize]
      omega
    have hcode : (m.isCodePage (m.page address) ||
        m.isCodePage (m.page (address + UInt32.ofNat data.length - 1))) = true := by
      rw [Bool.or_eq_true]
      rw [Marked] at hmarked
      exact hpage.imp (fun heq => by rwa [heq] at hmarked) fun heq => by rwa [heq] at hmarked
    rw [Queued]
    dsimp only
    rw [if_pos hcode]
    refine hnote.covers_iff.mpr (.inr ?_)
    show address.toNat ≤ a.toNat ∧ a.toNat < address.toNat + (UInt32.ofNat data.length).toNat
    omega

theorem Stores.marked (x : Stores m m') : m'.Marked a ↔ m.Marked a := by
  obtain ⟨hbase, -, hpages⟩ := x.same
  rw [Marked, Marked, isCodePage, isCodePage, page, page, hbase, hpages]

theorem Stores.orderly (h : m.Orderly) (x : Stores m m') : m'.Orderly := by
  induction x with
  | refl => exact h
  | tail _ hstep ih => exact (hstep.watch ih).1

theorem Stores.queued (h : m.Orderly) (x : Stores m m') (ha : m.Queued a) : m'.Queued a := by
  induction x with
  | refl => exact ha
  | tail hstores hstep ih => exact (hstep.watch (Stores.orderly h hstores)).2.1 a ih

/-- **A byte of a marked page is changed by stores only if it is queued after them.** -/
theorem Stores.queued_of_read8_ne (h : m.Orderly) (x : Stores m m') (hmarked : m.Marked a)
    (hne : m'.read8 a ≠ m.read8 a) : m'.Queued a := by
  induction x with
  | refl => exact absurd rfl hne
  | @tail m₁ m₂ hstores hstep ih =>
    obtain ⟨-, hkeeps, hqueues⟩ := hstep.watch (Stores.orderly h hstores)
    by_cases hsame : m₁.read8 a = m.read8 a
    · exact hqueues a (by rw [hsame]; exact hne) ((Stores.marked hstores).mpr hmarked)
    · exact hkeeps a (ih hsame)

/-! ### Marks -/

theorem size_markPages (pages : Array Bool) (first count : Nat) :
    (markPages pages first count).size = pages.size := by
  induction count generalizing pages first with
  | zero => rfl
  | succ count ih => exact (ih _ _).trans Array.size_setIfInBounds

theorem getElem?_setIfInBounds_true {pages : Array Bool} {i j : Nat}
    (hi : pages[i]? = some true) : (pages.setIfInBounds j true)[i]? = some true := by
  rw [Array.getElem?_setIfInBounds]
  obtain ⟨hlt, -⟩ := Array.getElem?_eq_some_iff.mp hi
  split
  · rename_i hji
    rw [if_pos (hji ▸ hlt)]
  · exact hi

/-- A marked page stays marked. -/
theorem getElem?_markPages_of_true {pages : Array Bool} {first count i : Nat}
    (hi : pages[i]? = some true) : (markPages pages first count)[i]? = some true := by
  induction count generalizing pages first with
  | zero => exact hi
  | succ count ih => exact ih (getElem?_setIfInBounds_true hi)

/-- The pages of a range are marked. -/
theorem getElem?_markPages {pages : Array Bool} {first count i : Nat} (hfirst : first ≤ i)
    (hcount : i < first + count) (hi : i < pages.size) :
    (markPages pages first count)[i]? = some true := by
  induction count generalizing pages first with
  | zero => omega
  | succ count ih =>
    rw [markPages]
    by_cases heq : first = i
    · refine getElem?_markPages_of_true ?_
      rw [Array.getElem?_setIfInBounds, if_pos heq, if_pos (heq ▸ hi)]
    · exact ih (by omega) (by omega) (by rw [Array.size_setIfInBounds]; exact hi)

theorem isCodePage_iff {m : Memory} {page : Nat} :
    m.isCodePage page = true ↔ m.codePages[page]? = some true := by
  rw [isCodePage, Array.getD_eq_getD_getElem?]
  cases m.codePages[page]? with
  | none => simp
  | some b => simp

/-- **Marking code** changes nothing but marks. -/
theorem markCode_same (m : Memory) (start stop : UInt32) :
    (m.markCode start stop).base = m.base ∧ (m.markCode start stop).bytes = m.bytes ∧
      (m.markCode start stop).changed = m.changed ∧
      (m.markCode start stop).codePages.size = m.codePages.size := by
  rw [markCode]
  split
  · exact ⟨rfl, rfl, rfl, rfl⟩
  · exact ⟨rfl, rfl, rfl, size_markPages _ _ _⟩

theorem Marked.markCode (h : m.Marked a) (start stop : UInt32) : (m.markCode start stop).Marked a := by
  obtain ⟨hbase, -⟩ := m.markCode_same start stop
  rw [Marked, isCodePage_iff, page] at h ⊢
  rw [hbase]
  rw [Memory.markCode]
  split
  · exact h
  · exact getElem?_markPages_of_true h

/-- **The bytes of code are marked**, as far as they lie in the window. -/
theorem marked_markCode (h : m.Orderly) {start stop : UInt32} (hstart : m.base.toNat ≤ start.toNat)
    (hlow : start.toNat ≤ a.toNat) (hhigh : a.toNat < stop.toNat)
    (hin : a.toNat < m.base.toNat + m.size) : (m.markCode start stop).Marked a := by
  have hwindow : m.contains start 1 = true := by
    have hoffset : m.offset? start 1 = some (start.toNat - m.base.toNat) :=
      offset?_eq_some_iff.mpr ⟨by omega, by omega⟩
    rw [contains, hoffset]
    rfl
  obtain ⟨hbase, -⟩ := m.markCode_same start stop
  rw [Marked, isCodePage_iff, page, hbase]
  show (m.markCode start stop).codePages[m.page a]? = some true
  have hne : ¬ (stop ≤ start ∨ (!m.contains start 1) = true) := by
    rw [hwindow, UInt32.le_iff_toNat_le]
    simp
    omega
  rw [Memory.markCode, if_neg hne]
  have hsize := m.base.toNat_lt
  have hstop : (stop - 1).toNat = stop.toNat - 1 := by
    rw [UInt32.toNat_sub_of_le]
    · rfl
    · rw [UInt32.le_iff_toNat_le]
      show 1 ≤ _
      omega
  have hfirst : m.page start = (start.toNat - m.base.toNat) / pageSize := page_eq (by omega)
  have hlast : m.page (stop - 1) = (stop.toNat - 1 - m.base.toNat) / pageSize :=
    page_eq (by omega)
  have hpage : m.page a = (a.toNat - m.base.toNat) / pageSize := page_eq (by omega)
  have hpages := h.pages
  refine getElem?_markPages ?_ ?_ ?_
  · rw [hfirst, hpage]
    exact Nat.div_le_div_right (by omega)
  · have hle : m.page a ≤ m.page (stop - 1) := by
      rw [hlast, hpage]
      exact Nat.div_le_div_right (by omega)
    have hlt : m.page a ≤ m.codePages.size - 1 := by
      rw [hpages, hpage, pageSize]
      omega
    have hmin : m.page a ≤ Nat.min (m.page (stop - 1)) (m.codePages.size - 1) :=
      Nat.le_min.mpr ⟨hle, hlt⟩
    omega
  · rw [hpages, hpage, pageSize]
    omega

theorem Orderly.markCode (h : m.Orderly) (start stop : UInt32) : (m.markCode start stop).Orderly := by
  obtain ⟨hbase, hbytes, hchanged, hpages⟩ := m.markCode_same start stop
  refine ⟨?_, ?_, ?_⟩
  · rw [Low, size, hbase, hbytes]
    exact h.low
  · rw [hpages, size, hbytes]
    exact h.pages
  · rw [hchanged, size, hbase, hbytes]
    exact h.queue

theorem Orderly.clearCodeMarks (h : m.Orderly) : m.clearCodeMarks.Orderly :=
  ⟨h.low, Array.size_map.trans h.pages, fun r hr => absurd hr (Array.not_mem_empty r)⟩

theorem Orderly.takeChangedCode (h : m.Orderly) : m.takeChangedCode.2.Orderly :=
  ⟨h.low, h.pages, fun r hr => absurd hr (Array.not_mem_empty r)⟩

/-! ### New memories -/

theorem size_appendZeros (bytes : ByteArray) (count : Nat) :
    (appendZeros bytes count).size = bytes.size + count := by
  induction count generalizing bytes with
  | zero => rfl
  | succ count ih =>
    rw [appendZeros, ih, ByteArray.size_push]
    omega

@[simp] theorem size_create (base size : UInt32) : (create base size).size = size.toNat :=
  (size_appendZeros _ _).trans (Nat.zero_add _)

/-- **A new memory is orderly.** -/
theorem orderly_create {base size : UInt32} (hlow : base.toNat + size.toNat + 8 ≤ 2 ^ 32) :
    (create base size).Orderly := by
  refine ⟨?_, ?_, fun r hr => absurd hr (Array.not_mem_empty r)⟩
  · rw [Low, size_create]
    exact hlow
  · rw [size_create]
    exact Array.size_replicate

/-- **Loading an image keeps a memory orderly.** -/
theorem Orderly.loadImage (h : m.Orderly) {address : UInt32} {image : List UInt8}
    (hok : m.loadImage address image = .ok (.ok m')) : m'.Orderly := by
  rw [Memory.loadImage] at hok
  split at hok
  · cases hok
  · rename_i offset _
    split at hok
    · cases hok
      have hsize : (putBytes m.bytes offset image).size = m.size := size_putBytes _ _ _
      refine ⟨?_, ?_, ?_⟩
      · show m.base.toNat + (putBytes m.bytes offset image).size + 8 ≤ 2 ^ 32
        rw [hsize]
        exact h.low
      · show m.codePages.size = ((putBytes m.bytes offset image).size + _) / _
        rw [hsize]
        exact h.pages
      · show ∀ r ∈ m.changed, _ ∧ _ ≤ m.base.toNat + (putBytes m.bytes offset image).size
        rw [hsize]
        exact h.queue
    · cases hok

end Memory

end Dynarec
