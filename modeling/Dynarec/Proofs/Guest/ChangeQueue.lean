import Dynarec.Proofs.Guest.Images
import Dynarec.Proofs.Past

/-!
# What the queue of changed code holds

A memory is used by marking code, forgetting all marks, taking the queue and storing.
`Memory.Recorded` says of such a history which bytes ought to be queued after it: those of the
stores since the queue was last emptied that lay in the window and had their first or last byte in a
page marked at the time.  `Memory.Follows` relates a memory to its history; every use keeps it
(`Memory.Follows.step`), so the queue holds the bytes that it ought to hold and no others
(`Memory.queue_exact`).

The window ends below the end of the address space, or a store of its last byte would meet a broken
promise; nothing is assumed of its base, its size or the ranges that are marked.
-/

namespace Dynarec

/-- The bytes of a value that a store of this width writes, lowest first. -/
def Width.bytes (w : Width) (value : UInt32) : List UInt8 :=
  match w with
  | .byte | .byteUnsigned => [value.toUInt8]
  | .half | .halfUnsigned => [value.toUInt8, (value >>> 8).toUInt8]
  | .word => Encode.wordBytes value

theorem Width.store_eq (w : Width) (m : Memory) (address value : UInt32) :
    w.store m address value = m.store address (w.bytes value) := by
  cases w <;> rfl

theorem Width.length_bytes (w : Width) (value : UInt32) :
    0 < (w.bytes value).length ∧ (w.bytes value).length ≤ 4 := by
  cases w with
  | byte | byteUnsigned | half | halfUnsigned => simp [bytes]
  | word => simp [bytes, Memory.length_wordBytes]

namespace Memory

variable {m m' : Memory} {a address start stop : UInt32} {data : List UInt8} {p : Nat}
  {history : List Use}

/-- **A tracked memory**: its window ends below the end of the address space, each page has a mark,
and queued ranges lie inside. -/
structure Tracked (m : Memory) : Prop where
  fits : m.base.toNat + m.size < 2 ^ 32
  pages : m.codePages.size = (m.size + (pageSize - 1)) / pageSize
  queue : ∀ r ∈ m.changed, m.base.toNat ≤ r.start.toNat ∧
    r.start.toNat + r.length.toNat ≤ m.base.toNat + m.size

/-- A new memory is tracked. -/
theorem tracked_create {base size : UInt32} (hfits : base.toNat + size.toNat < 2 ^ 32) :
    (create base size).Tracked := by
  refine ⟨by rw [size_create]; exact hfits, ?_, fun r hr => absurd hr (Array.not_mem_empty r)⟩
  rw [size_create]
  exact Array.size_replicate

/-- A memory with an image loaded into it is tracked. -/
theorem Tracked.loadImage (h : m.Tracked) {image : List UInt8}
    (hok : m.loadImage address image = .ok (.ok m')) : m'.Tracked := by
  obtain ⟨offset, -, -, rfl⟩ := loadImage_eq hok
  exact ⟨by rw [size_overlay]; exact h.fits, by rw [size_overlay]; exact h.pages,
    by rw [size_overlay]; exact h.queue⟩

/-! ### Uses -/

/-- **A use of a memory.** -/
inductive Use where
  | mark (start stop : UInt32)
  | clear
  | take
  | store (w : Width) (address value : UInt32)
deriving DecidableEq, Repr

/-- The memory after a use. -/
def Use.apply (m : Memory) : Use → Except Violation Memory
  | .mark start stop => .ok (m.markCode start stop)
  | .clear => .ok m.clearCodeMarks
  | .take => .ok m.takeChangedCode.2
  | .store w address value => w.store m address value

/-- The memory after a history of uses. -/
def after (m : Memory) (history : List Use) : Except Violation Memory :=
  history.foldlM Use.apply m

/-! ### What a history asks for -/

/-- Code in `[start, stop)` starts in the window and overlaps a page. -/
def Overlaps (m : Memory) (start stop : UInt32) (p : Nat) : Prop :=
  m.contains start 1 = true ∧ ∃ a, start ≤ a ∧ a < stop ∧ m.page a = p

/-- **A page holds code after a history**: it did so before, or code in it was marked, and the marks
have not been forgotten since. -/
def HoldsCode (m : Memory) (history : List Use) (p : Nat) : Prop :=
  Since (m.isCodePage p = true)
    (fun _ x => ∃ start stop, x = .mark start stop ∧ m.Overlaps start stop p)
    (· = .clear) history

/-- A store in the window whose first or last byte lies in a page with code. -/
def Hits (m : Memory) (before : List Use) (address : UInt32) (data : List UInt8) : Prop :=
  m.contains address data.length = true ∧
    (m.HoldsCode before (m.page address) ∨
      m.HoldsCode before (m.page (address + UInt32.ofNat data.length - 1)))

/-- **A byte ought to be queued after a history**: it was queued before, or it lay in the range of a
store that hit code, and the queue has not been emptied since. -/
def Recorded (m : Memory) (history : List Use) (a : UInt32) : Prop :=
  Since (m.Queued a)
    (fun before x => ∃ w address value, x = .store w address value ∧
      m.Hits before address (w.bytes value) ∧
      ChangedRange.Covers ⟨address, UInt32.ofNat (w.bytes value).length⟩ a)
    (fun x => x = .take ∨ x = .clear) history

theorem holdsCode_mark : m.HoldsCode (history ++ [.mark start stop]) p ↔
    m.Overlaps start stop p ∨ m.HoldsCode history p := by
  rw [HoldsCode, HoldsCode, since_concat, and_iff_left (by simp)]
  refine or_congr_left ⟨?_, fun hover => ⟨start, stop, rfl, hover⟩⟩
  rintro ⟨start, stop, heq, hover⟩
  cases heq
  exact hover

theorem not_holdsCode_clear : ¬ m.HoldsCode (history ++ [.clear]) p :=
  not_since_concat (by rintro ⟨_, _, heq, -⟩; cases heq) rfl

theorem holdsCode_take : m.HoldsCode (history ++ [.take]) p ↔ m.HoldsCode history p :=
  since_concat_of_not (by rintro ⟨_, _, heq, -⟩; cases heq) (by simp)

theorem holdsCode_store {w : Width} {value : UInt32} :
    m.HoldsCode (history ++ [.store w address value]) p ↔ m.HoldsCode history p :=
  since_concat_of_not (by rintro ⟨_, _, heq, -⟩; cases heq) (by simp)

theorem recorded_mark : m.Recorded (history ++ [.mark start stop]) a ↔ m.Recorded history a :=
  since_concat_of_not (by rintro ⟨_, _, _, heq, -⟩; cases heq) (by simp)

theorem not_recorded_clear : ¬ m.Recorded (history ++ [.clear]) a :=
  not_since_concat (by rintro ⟨_, _, _, heq, -⟩; cases heq) (.inr rfl)

theorem not_recorded_take : ¬ m.Recorded (history ++ [.take]) a :=
  not_since_concat (by rintro ⟨_, _, _, heq, -⟩; cases heq) (.inl rfl)

theorem recorded_store {w : Width} {value : UInt32} :
    m.Recorded (history ++ [.store w address value]) a ↔
      m.Hits history address (w.bytes value) ∧
          ChangedRange.Covers ⟨address, UInt32.ofNat (w.bytes value).length⟩ a ∨
        m.Recorded history a := by
  rw [Recorded, Recorded, since_concat, and_iff_left (by simp)]
  refine or_congr_left ⟨?_, fun hhits => ⟨w, address, value, rfl, hhits⟩⟩
  rintro ⟨w, address, value, heq, hhits⟩
  cases heq
  exact hhits

/-! ### Marking -/

theorem getElem?_markPages_iff {pages : Array Bool} {first count i : Nat} (hi : i < pages.size) :
    (markPages pages first count)[i]? = some true ↔
      pages[i]? = some true ∨ first ≤ i ∧ i < first + count := by
  constructor
  · intro hmarked
    induction count generalizing pages first with
    | zero => exact .inl hmarked
    | succ count ih =>
      rcases ih (by rwa [Array.size_setIfInBounds]) hmarked with hold | hrange
      · by_cases hfirst : first = i
        · exact .inr (by omega)
        · rw [Array.getElem?_setIfInBounds, if_neg hfirst] at hold
          exact .inl hold
      · exact .inr (by omega)
  · rintro (hold | ⟨hfirst, hlast⟩)
    · exact getElem?_markPages_of_true hold
    · exact getElem?_markPages hfirst hlast hi

/-- The pages that code overlaps are those from the page of its first byte to that of its last. -/
theorem overlaps_iff (hin : m.contains start 1 = true) (hne : start < stop) :
    m.Overlaps start stop p ↔ m.page start ≤ p ∧ p ≤ m.page (stop - 1) := by
  have hbase := (contains_iff.mp hin).1
  have hlt := UInt32.lt_iff_toNat_lt.mp hne
  have hstop : (stop - 1).toNat = stop.toNat - 1 := by
    rw [UInt32.toNat_sub_of_le]
    · rfl
    · rw [UInt32.le_iff_toNat_le]
      show 1 ≤ _
      omega
  have hfirst : m.page start = (start.toNat - m.base.toNat) / pageSize := page_eq (by omega)
  have hlast : m.page (stop - 1) = (stop.toNat - 1 - m.base.toNat) / pageSize :=
    page_eq (by omega)
  constructor
  · rintro ⟨-, a, hstart, hend, rfl⟩
    rw [UInt32.le_iff_toNat_le] at hstart
    rw [UInt32.lt_iff_toNat_lt] at hend
    have hpage : m.page a = (a.toNat - m.base.toNat) / pageSize := page_eq (by omega)
    rw [hfirst, hlast, hpage]
    exact ⟨Nat.div_le_div_right (by omega), Nat.div_le_div_right (by omega)⟩
  · rintro ⟨hge, hle⟩
    rw [hfirst, pageSize] at hge
    rw [hlast, pageSize] at hle
    -- the first byte of the page, or of the code if the code starts behind that
    have hwitness : max start.toNat (m.base.toNat + p * 4096) < stop.toNat := by omega
    have hnat : (UInt32.ofNat (max start.toNat (m.base.toNat + p * 4096))).toNat =
        max start.toNat (m.base.toNat + p * 4096) :=
      UInt32.toNat_ofNat_of_lt' (hwitness.trans stop.toNat_lt)
    refine ⟨hin, UInt32.ofNat (max start.toNat (m.base.toNat + p * 4096)), ?_, ?_, ?_⟩
    · rw [UInt32.le_iff_toNat_le, hnat]
      omega
    · rw [UInt32.lt_iff_toNat_lt, hnat]
      exact hwitness
    · rw [page_eq (i := max start.toNat (m.base.toNat + p * 4096) - m.base.toNat) (by omega),
        pageSize]
      omega

/-- **Marking code** marks the pages that it overlaps. -/
theorem isCodePage_markCode (hp : p < m.codePages.size) :
    (m.markCode start stop).isCodePage p = true ↔
      m.isCodePage p = true ∨ m.Overlaps start stop p := by
  rw [markCode]
  split
  · rename_i hnone
    refine (or_iff_left ?_).symm
    rintro ⟨hin, a, hstart, hend, -⟩
    rcases hnone with hle | hout
    · rw [UInt32.le_iff_toNat_le] at hle hstart
      rw [UInt32.lt_iff_toNat_lt] at hend
      omega
    · rw [hin] at hout
      cases hout
  · rename_i hsome
    obtain ⟨hne, hin⟩ := not_or.mp hsome
    rw [Bool.not_eq_true, Bool.not_eq_false'] at hin
    rw [overlaps_iff hin (UInt32.not_le.mp hne), isCodePage_iff, isCodePage_iff,
      getElem?_markPages_iff hp]
    have hmin : Nat.min (m.page (stop - 1)) (m.codePages.size - 1) =
        min (m.page (stop - 1)) (m.codePages.size - 1) := rfl
    refine or_congr_right (and_congr_right fun hfirst => ?_)
    rw [hmin]
    omega

/-- The page of a byte in the window has a mark. -/
theorem Tracked.page_lt (h : m.Tracked) (hlow : m.base.toNat ≤ a.toNat)
    (hhigh : a.toNat < m.base.toNat + m.size) : m.page a < m.codePages.size := by
  rw [h.pages, page_eq (i := a.toNat - m.base.toNat) (by omega), pageSize]
  omega

/-- The last byte of a range in the window. -/
theorem Tracked.toNat_last (h : m.Tracked) {n : Nat} (hpos : 0 < n)
    (hin : m.contains address n = true) :
    (address + UInt32.ofNat n - 1).toNat = address.toNat + n - 1 := by
  have hrange := contains_iff.mp hin
  have hfits := h.fits
  have hlen : (UInt32.ofNat n).toNat = n := UInt32.toNat_ofNat_of_lt' (by show _ < 4294967296; omega)
  have hsum : (address + UInt32.ofNat n).toNat = address.toNat + n := by
    rw [UInt32.toNat_add, hlen, Nat.mod_eq_of_lt (by omega)]
  rw [UInt32.toNat_sub_of_le, hsum]
  · rfl
  · rw [UInt32.le_iff_toNat_le, hsum]
    show 1 ≤ _
    omega

/-! ### Storing -/

/-- **What a store does to a memory in its window**: the bytes of its range are its data, the others
are what they were, and if one of its ends is in a page with code its range is one more in the queue. -/
structure Wrote (m m' : Memory) (address : UInt32) (data : List UInt8) : Prop where
  base : m'.base = m.base
  size : m'.size = m.size
  codePages : m'.codePages = m.codePages
  byte : ∀ a i, a.toNat = address.toNat + i → ∀ hi : i < data.length, m'.read8 a = data[i].toUInt32
  other : ∀ a, a.toNat < address.toNat ∨ address.toNat + data.length ≤ a.toNat →
    m'.read8 a = m.read8 a
  changed : if m.isCodePage (m.page address) = true ∨
      m.isCodePage (m.page (address + UInt32.ofNat data.length - 1)) = true
    then Enqueued ⟨address, UInt32.ofNat data.length⟩ m.changed m'.changed
    else m'.changed = m.changed

theorem Tracked.wrote (h : m.Tracked) (hin : m.contains address data.length = true)
    (hok : m.store address data = .ok m') : Wrote m m' address data := by
  have hfits := h.fits
  rcases store_cases hok with ⟨hnone, -⟩ | ⟨offset, hoffset, hend, heq⟩
  · rw [contains, hnone] at hin
    cases hin
  obtain ⟨haddress, hlast⟩ := offset?_eq_some_iff.mp hoffset
  have hlength : (UInt32.ofNat data.length).toNat = data.length :=
    UInt32.toNat_ofNat_of_lt' (by show _ < 4294967296; omega)
  have hsame : Alike (m.overlay offset data) m' := ⟨by rw [heq]; rfl, by rw [heq]; rfl⟩
  have hread : ∀ a, m'.read8 a = (m.overlay offset data).read8 a := fun a => hsame.read a 1
  refine ⟨hsame.base, hsame.size.trans size_overlay, by rw [heq], fun a i ha hi => ?_,
    fun a ha => ?_, ?_⟩
  · rw [hread]
    rcases read8_overlay (a := a) hlast with ⟨-, hbyte⟩ | ⟨hout, -⟩
    · rw [hbyte, show a.toNat - m.base.toNat - offset = i by omega, List.getElem?_eq_getElem hi]
      rfl
    · exact absurd (show ImageCovers m offset data a from ⟨by omega, by omega⟩) hout
  · rw [hread]
    rcases read8_overlay (a := a) hlast with ⟨hcovers, -⟩ | ⟨-, hbyte⟩
    · rw [ImageCovers] at hcovers
      omega
    · exact hbyte
  · rw [heq]
    simp only [Bool.or_eq_true]
    split
    · exact enqueued_noteChange _ hfits (fun r hr => (h.queue r hr).2)
        (show address.toNat + (UInt32.ofNat data.length).toNat ≤ _ by omega)
    · rfl

theorem eq_of_store_outside (hout : m.contains address data.length = false)
    (hok : m.store address data = .ok m') : m' = m := by
  rcases store_cases hok with ⟨-, rfl⟩ | ⟨offset, hoffset, -⟩
  · rfl
  · rw [contains, hoffset] at hout
    cases hout

/-- A store keeps a memory tracked. -/
theorem Wrote.tracked (h : m.Tracked) (hin : m.contains address data.length = true)
    (x : Wrote m m' address data) : m'.Tracked := by
  have hrange := contains_iff.mp hin
  have hfits := h.fits
  have hlength : (UInt32.ofNat data.length).toNat = data.length :=
    UInt32.toNat_ofNat_of_lt' (by show _ < 4294967296; omega)
  refine ⟨by rw [x.base, x.size]; exact hfits, by rw [x.codePages, x.size]; exact h.pages, ?_⟩
  have hchanged := x.changed
  rw [x.base, x.size]
  split at hchanged
  · exact hchanged.inside h.queue ⟨hrange.1, show address.toNat + (UInt32.ofNat _).toNat ≤ _ by omega⟩
  · rw [hchanged]
    exact h.queue

/-! ### Histories -/

/-- **What a use does**: a store writes its bytes if all of them lie in the window and does nothing
otherwise, and the others change no byte. -/
def Use.Effect (m m' : Memory) : Use → Prop
  | .store w address value =>
    (m.contains address (w.bytes value).length = true → Wrote m m' address (w.bytes value)) ∧
      (m.contains address (w.bytes value).length = false → m' = m)
  | _ => Alike m m'

/-- **A memory follows its history**: it has the window it had, its marks are those that the history
asks for, and its queue holds the bytes that the history asks for. -/
structure Follows (m : Memory) (history : List Use) (m' : Memory) : Prop where
  base : m'.base = m.base
  size : m'.size = m.size
  tracked : m'.Tracked
  marks : ∀ p < m.codePages.size, m'.isCodePage p = true ↔ m.HoldsCode history p
  queue : ∀ a, m'.Queued a ↔ m.Recorded history a

theorem Follows.refl (h : m.Tracked) : m.Follows [] m :=
  ⟨rfl, rfl, h, fun _ _ => since_nil.symm, fun _ => since_nil.symm⟩

namespace Follows

theorem contains (x : m.Follows history m') (address : UInt32) (length : Nat) :
    m'.contains address length = m.contains address length := by
  rw [Memory.contains, Memory.contains, offset?, offset?, x.base, x.size]

theorem page (x : m.Follows history m') (address : UInt32) : m'.page address = m.page address := by
  rw [Memory.page, Memory.page, x.base]

theorem size_codePages (h : m.Tracked) (x : m.Follows history m') :
    m'.codePages.size = m.codePages.size := by
  rw [x.tracked.pages, h.pages, x.size]

/-- Marking code. -/
theorem mark (h : m.Tracked) (x : m.Follows history m') (start stop : UInt32) :
    m.Follows (history ++ [.mark start stop]) (m'.markCode start stop) := by
  obtain ⟨hbase, hbytes, hchanged, hpages⟩ := m'.markCode_same start stop
  have hsize : (m'.markCode start stop).size = m'.size := congrArg ByteArray.size hbytes
  refine ⟨hbase.trans x.base, hsize.trans x.size,
    ⟨by rw [hbase, hsize]; exact x.tracked.fits, by rw [hpages, hsize]; exact x.tracked.pages,
      by rw [hchanged, hbase, hsize]; exact x.tracked.queue⟩, fun p hp => ?_, fun a => ?_⟩
  · have hsame : m'.Overlaps start stop p ↔ m.Overlaps start stop p := by
      simp only [Overlaps, x.contains, x.page]
    rw [isCodePage_markCode (by rwa [x.size_codePages h]), x.marks p hp, hsame, holdsCode_mark, or_comm]
  · rw [Queued, hchanged, recorded_mark]
    exact x.queue a

/-- Forgetting all marks. -/
theorem clear (x : m.Follows history m') : m.Follows (history ++ [.clear]) m'.clearCodeMarks := by
  refine ⟨x.base, x.size, ⟨x.tracked.fits, Array.size_map.trans x.tracked.pages,
    fun r hr => absurd hr (Array.not_mem_empty r)⟩, fun p _ => ?_, fun a => ?_⟩
  · refine iff_of_false ?_ not_holdsCode_clear
    rw [isCodePage_iff, clearCodeMarks]
    simp
  · exact iff_of_false (by rintro ⟨r, hr, -⟩; exact Array.not_mem_empty r hr) not_recorded_clear

/-- Taking the queue. -/
theorem take (x : m.Follows history m') : m.Follows (history ++ [.take]) m'.takeChangedCode.2 := by
  refine ⟨x.base, x.size, ⟨x.tracked.fits, x.tracked.pages,
    fun r hr => absurd hr (Array.not_mem_empty r)⟩, fun p hp => ?_, fun a => ?_⟩
  · rw [holdsCode_take]
    exact x.marks p hp
  · exact iff_of_false (by rintro ⟨r, hr, -⟩; exact Array.not_mem_empty r hr) not_recorded_take

/-- A store in the window. -/
theorem wrote (h : m.Tracked) (x : m.Follows history m') {m'' : Memory} {w : Width} {value : UInt32}
    (hin : m.contains address (w.bytes value).length = true)
    (hwrote : Wrote m' m'' address (w.bytes value)) :
    m.Follows (history ++ [.store w address value]) m'' := by
  have hpos := (w.length_bytes value).1
  have hrange := contains_iff.mp hin
  have hlast := h.toNat_last hpos hin
  refine ⟨hwrote.base.trans x.base, hwrote.size.trans x.size,
    hwrote.tracked x.tracked (by rw [x.contains]; exact hin), fun p hp => ?_, fun a => ?_⟩
  · rw [holdsCode_store, isCodePage, hwrote.codePages]
    exact x.marks p hp
  · have hhits : m'.isCodePage (m'.page address) = true ∨
        m'.isCodePage (m'.page (address + UInt32.ofNat (w.bytes value).length - 1)) = true ↔
        m.Hits history address (w.bytes value) := by
      rw [Hits, and_iff_right hin, x.page, x.page,
        x.marks _ (h.page_lt (by omega) (by omega)), x.marks _ (h.page_lt (by omega) (by omega))]
    have hchanged := hwrote.changed
    rw [recorded_store, ← x.queue]
    split at hchanged
    · rename_i hcode
      rw [Queued, hchanged.covers_iff, and_iff_right (hhits.mp hcode), or_comm]
      exact Iff.rfl
    · rename_i hcode
      rw [Queued, hchanged, or_iff_right fun hhit => hcode (hhits.mpr hhit.1)]
      exact Iff.rfl

/-- **One more use**: it has a result and its effect, and the memory follows the longer history. -/
theorem step (h : m.Tracked) (x : m.Follows history m') (use : Use) :
    ∃ m'', use.apply m' = .ok m'' ∧ use.Effect m' m'' ∧ m.Follows (history ++ [use]) m'' := by
  cases use with
  | mark start stop =>
    obtain ⟨hbase, hbytes, -⟩ := m'.markCode_same start stop
    exact ⟨_, rfl, ⟨hbase, hbytes⟩, x.mark h start stop⟩
  | clear => exact ⟨_, rfl, ⟨rfl, rfl⟩, x.clear⟩
  | take => exact ⟨_, rfl, ⟨rfl, rfl⟩, x.take⟩
  | store w address value =>
    obtain ⟨m'', hok⟩ := store_ok_iff.mpr
      (m'.not_breaks x.tracked.fits (address, (w.bytes value).length))
    refine ⟨m'', (w.store_eq m' address value).trans hok,
      ⟨fun hin => x.tracked.wrote hin hok, fun hout => eq_of_store_outside hout hok⟩, ?_⟩
    cases hcontains : m'.contains address (w.bytes value).length with
    | true => exact x.wrote h (by rw [← x.contains]; exact hcontains) (x.tracked.wrote hcontains hok)
    | false =>
      rw [eq_of_store_outside hcontains hok]
      refine ⟨x.base, x.size, x.tracked, fun p hp => by rw [holdsCode_store]; exact x.marks p hp,
        fun a => ?_⟩
      rw [recorded_store, or_iff_right]
      · exact x.queue a
      · rintro ⟨⟨hin, -⟩, -⟩
        rw [← x.contains, hcontains] at hin
        cases hin

end Follows

theorem after_concat {m'' : Memory} {x : Use} (hok : m.after history = .ok m')
    (hstep : x.apply m' = .ok m'') : m.after (history ++ [x]) = .ok m'' := by
  rw [after, List.foldlM_append, ← after, hok]
  show [x].foldlM Use.apply m' = _
  rw [List.foldlM_cons, hstep]
  rfl

/-- **Every history has a memory that follows it.** -/
theorem Tracked.after (h : m.Tracked) (history : List Use) :
    ∃ m', m.after history = .ok m' ∧ m.Follows history m' := by
  induction history using List.reverseRecOn with
  | nil => exact ⟨m, rfl, .refl h⟩
  | append_singleton history x ih =>
    obtain ⟨m₁, hok, hfollows⟩ := ih
    obtain ⟨m₂, hstep, -, hnext⟩ := hfollows.step h x
    exact ⟨m₂, after_concat hok hstep, hnext⟩

/-- **The queue is exact.**  After every history of uses the queue holds the bytes that the history
asks for and no others, and whatever is done next has its effect: a store writes all its bytes or
none, and its range is one more in the queue, by itself or as an extension of the range that ends
where it starts. -/
theorem queue_exact (h : m.Tracked) (history : List Use) :
    ∃ m', m.after history = .ok m' ∧ m'.base = m.base ∧ m'.size = m.size ∧
      (∀ a, m'.Queued a ↔ m.Recorded history a) ∧
      ∀ x : Use, ∃ m'', m.after (history ++ [x]) = .ok m'' ∧ x.Effect m' m'' := by
  obtain ⟨m', hok, hfollows⟩ := h.after history
  refine ⟨m', hok, hfollows.base, hfollows.size, hfollows.queue, fun x => ?_⟩
  obtain ⟨m'', hstep, heffect, -⟩ := hfollows.step h x
  exact ⟨m'', after_concat hok hstep, heffect⟩

/-- A store across the end of a page with code, in a window that does not start at a page. -/
theorem queue_exact_straddling :
    ∃ m', (create 0x1004 0x2000).after [.mark 0x1800 0x1801, .store .word 0x2002 7] = .ok m' ∧
      m'.Queued 0x2005 ∧ ¬ m'.Queued 0x2006 := by
  obtain ⟨m', hok, -, -, hqueue, -⟩ := queue_exact (m := create 0x1004 0x2000)
    (tracked_create (by decide)) (([] ++ [.mark 0x1800 0x1801]) ++ [.store .word 0x2002 7])
  have hhits : Hits (create 0x1004 0x2000) ([] ++ [.mark 0x1800 0x1801]) 0x2002
    (Width.word.bytes 7) := by
    refine ⟨contains_iff.mpr ?_, .inl (holdsCode_mark.mpr (.inl ⟨contains_iff.mpr ?_, 0x1800,
      by decide, by decide, by decide⟩))⟩
    · rw [size_create]
      decide
    · rw [size_create]
      decide
  refine ⟨m', hok, ?_, ?_⟩
  · rw [hqueue, recorded_store]
    exact .inl ⟨hhits, by decide, by decide⟩
  · rw [hqueue, recorded_store]
    rintro (⟨-, -, hend⟩ | hrecorded)
    · exact absurd hend (by decide)
    · obtain ⟨r, hr, -⟩ := since_nil.mp (recorded_mark.mp hrecorded)
      exact Array.not_mem_empty r hr

end Memory

end Dynarec
