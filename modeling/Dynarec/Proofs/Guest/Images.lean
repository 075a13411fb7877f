import Dynarec.Proofs.Guest.Watch

/-!
# Images in memory

Loading an image overwrites its bytes and nothing else, neither marks nor the queue
(`Memory.loadImage_eq`).  So a byte in the range of the image is that of the image in whatever
memory it was loaded into, and a byte outside is what it was (`Memory.read8_overlay`).

An image is loaded as a whole exactly if it fits the window, and refused exactly if its length
modulo 2^32 does not (`Memory.loadImage_outcomes`).  The two conditions differ for images of 2^32
bytes and more only: such an image meets a broken promise if what is left of its length fits.
-/

namespace Dynarec

namespace Memory

variable {m m' : Memory} {a : UInt32} {offset : Nat} {image : List UInt8}

/-- The memory with an image laid over it, from a window offset on. -/
def overlay (m : Memory) (offset : Nat) (image : List UInt8) : Memory :=
  { m with bytes := putBytes m.bytes offset image }

/-- The image covers the byte at an address. -/
def ImageCovers (m : Memory) (offset : Nat) (image : List UInt8) (a : UInt32) : Prop :=
  m.base.toNat + offset ≤ a.toNat ∧ a.toNat < m.base.toNat + offset + image.length

/-- **Loading an image lays it over the memory**, in the window. -/
theorem loadImage_eq {address : UInt32} (h : m.loadImage address image = .ok (.ok m')) :
    ∃ offset, address.toNat = m.base.toNat + offset ∧ offset + image.length ≤ m.size ∧
      m' = m.overlay offset image := by
  rw [loadImage] at h
  split at h
  · cases h
  · rename_i offset hoffset
    split at h
    · rename_i hfits
      cases h
      exact ⟨offset, (offset?_eq_some_iff.mp hoffset).1, hfits, rfl⟩
    · cases h

@[simp] theorem size_overlay : (m.overlay offset image).size = m.size := size_putBytes _ _ _

theorem byte?_set_self (bytes : ByteArray) (i : Nat) (b : UInt8) (hi : i < bytes.size) :
    byte? (bytes.set! i b) i = some b := Array.getElem?_setIfInBounds_self_of_lt hi

/-- A store leaves its data. -/
theorem byte?_putBytes_mem {bytes : ByteArray} {i : Nat} {data : List UInt8} (hlow : offset ≤ i)
    (hhigh : i < offset + data.length) (hfits : offset + data.length ≤ bytes.size) :
    byte? (putBytes bytes offset data) i = data[i - offset]? := by
  induction data generalizing bytes offset with
  | nil =>
    rw [List.length_nil] at hhigh
    omega
  | cons b rest ih =>
    rw [List.length_cons] at hhigh hfits
    rw [putBytes]
    have hsize : (bytes.set! offset b).size = bytes.size := size_putBytes bytes offset [b]
    by_cases hi : i = offset
    · subst hi
      rw [byte?_putBytes (.inl (Nat.lt_succ_self i)), byte?_set_self _ _ _ (by omega), Nat.sub_self]
      rfl
    · rw [ih (by omega) (by omega) (by omega), show i - offset = i - (offset + 1) + 1 by omega]
      rfl

/-- **A byte of a memory with an image laid over it**: that of the image where the image covers it,
and what it was elsewhere. -/
theorem read8_overlay (hfits : offset + image.length ≤ m.size) :
    (m.ImageCovers offset image a ∧ (m.overlay offset image).read8 a =
        ((image[a.toNat - m.base.toNat - offset]?).map UInt8.toUInt32).getD 0) ∨
      ¬ m.ImageCovers offset image a ∧ (m.overlay offset image).read8 a = m.read8 a := by
  have hbase : (m.overlay offset image).base = m.base := rfl
  rw [read8_eq, read8_eq, hbase, size_overlay]
  by_cases hin : m.base.toNat ≤ a.toNat ∧ a.toNat < m.base.toNat + m.size
  · rw [if_pos hin, if_pos hin, byteAt_eq, byteAt_eq]
    by_cases hcovers : m.ImageCovers offset image a
    · have hcovers' := hcovers
      rw [ImageCovers] at hcovers'
      refine .inl ⟨hcovers, ?_⟩
      show ((byte? (putBytes m.bytes offset image) _).map _).getD 0 = _
      rw [byte?_putBytes_mem (by omega) (by omega) hfits]
    · have hout := hcovers
      rw [ImageCovers] at hout
      refine .inr ⟨hcovers, ?_⟩
      show ((byte? (putBytes m.bytes offset image) _).map _).getD 0 = _
      rw [byte?_putBytes (by omega)]
  · refine .inr ⟨fun hcovers => ?_, by rw [if_neg hin, if_neg hin]⟩
    rw [ImageCovers] at hcovers
    omega

/-- **An image laid over two memories** leaves equal what was equal. -/
theorem read8_overlay_congr (hbase : m'.base = m.base) (hsize : m'.size = m.size)
    (hfits : offset + image.length ≤ m.size) (h : m.read8 a = m'.read8 a) :
    (m.overlay offset image).read8 a = (m'.overlay offset image).read8 a := by
  have hsame : m'.ImageCovers offset image a ↔ m.ImageCovers offset image a := by
    rw [ImageCovers, ImageCovers, hbase]
  rcases read8_overlay (a := a) hfits with ⟨hin, heq⟩ | ⟨hout, heq⟩ <;>
    rcases read8_overlay (m := m') (a := a) (hsize ▸ hfits) with ⟨hin', heq'⟩ | ⟨hout', heq'⟩
  · rw [heq, heq', hbase]
  · exact absurd (hsame.mpr hin) hout'
  · exact absurd (hsame.mp hin') hout
  · rw [heq, heq', h]

/-! ### Memories that differ at some addresses -/

/-- **The same byte in the same window** is read alike. -/
theorem read8_congr (hbase : m'.base = m.base) (hsize : m'.size = m.size)
    (hbyte : m.base.toNat ≤ a.toNat → a.toNat < m.base.toNat + m.size →
      byte? m'.bytes (a.toNat - m.base.toNat) = byte? m.bytes (a.toNat - m.base.toNat)) :
    m'.read8 a = m.read8 a := by
  rw [read8_eq, read8_eq, hbase, hsize]
  split
  · rename_i hin
    rw [byteAt_eq, byteAt_eq, hbyte hin.1 hin.2]
  · rfl

/-- **The same window**, with the same bytes off a set of addresses. -/
structure SameOff (T : Set UInt32) (m m' : Memory) : Prop where
  base : m'.base = m.base
  size : m'.size = m.size
  read : ∀ a, a ∉ T → m'.read8 a = m.read8 a

variable {S T : Set UInt32}

theorem SameOff.refl (T : Set UInt32) (m : Memory) : SameOff T m m := ⟨rfl, rfl, fun _ _ => rfl⟩

theorem SameOff.mono (x : SameOff T m m') (h : T ⊆ S) : SameOff S m m' :=
  ⟨x.base, x.size, fun a ha => x.read a fun hT => ha (h hT)⟩

theorem SameOff.trans {m'' : Memory} (x : SameOff T m m') (y : SameOff S m' m'') :
    SameOff (T ∪ S) m m'' :=
  ⟨y.base.trans x.base, y.size.trans x.size, fun a ha =>
    (y.read a fun hS => ha (.inr hS)).trans (x.read a fun hT => ha (.inl hT))⟩

/-- An image changes what it covers. -/
theorem sameOff_overlay (hfits : offset + image.length ≤ m.size) :
    SameOff {a | m.ImageCovers offset image a} m (m.overlay offset image) :=
  ⟨rfl, size_overlay, fun _ ha => ((read8_overlay hfits).resolve_left fun hin => ha hin.1).2⟩

open Classical in
/-- **Two memories mixed**: the bytes of `m'` at the addresses of a set, and those of `m` elsewhere. -/
noncomputable def mixed (S : Set UInt32) (m m' : Memory) : Memory :=
  { m with
    bytes := ⟨Array.ofFn fun i : Fin m.size =>
      (byte? (if m.base + UInt32.ofNat i ∈ S then m' else m).bytes i).getD 0⟩ }

theorem size_mixed : (mixed S m m').size = m.size := Array.size_ofFn

open Classical in
theorem SameOff.byte?_mixed (x : SameOff T m m') (hlow : m.base.toNat ≤ a.toNat)
    (hhigh : a.toNat < m.base.toNat + m.size) :
    byte? (mixed S m m').bytes (a.toNat - m.base.toNat) =
      byte? (if a ∈ S then m' else m).bytes (a.toNat - m.base.toNat) := by
  have hi : a.toNat - m.base.toNat < m.size := by omega
  have haddress : m.base + UInt32.ofNat (a.toNat - m.base.toNat) = a := by
    have hsmall := a.toNat_lt
    refine UInt32.toNat_inj.mp ?_
    rw [UInt32.toNat_add, UInt32.toNat_ofNat']
    omega
  -- in the window every byte is there
  have hsome : ∃ b, byte? (if a ∈ S then m' else m).bytes (a.toNat - m.base.toNat) = some b := by
    have hi' : a.toNat - m.base.toNat < m'.size := x.size ▸ hi
    split
    · exact ⟨_, Array.getElem?_eq_getElem hi'⟩
    · exact ⟨_, Array.getElem?_eq_getElem hi⟩
  obtain ⟨b, hb⟩ := hsome
  show (Array.ofFn _)[_]? = _
  rw [Array.getElem?_ofFn, dif_pos hi, haddress, hb, Option.getD_some]

/-- **A mixed memory** is read at the addresses of the set as the one, and elsewhere as the other. -/
theorem SameOff.read8_mixed (x : SameOff T m m') :
    (a ∈ S → (mixed S m m').read8 a = m'.read8 a) ∧
      (a ∉ S → (mixed S m m').read8 a = m.read8 a) := by
  refine ⟨fun ha => ?_, fun ha => ?_⟩
  · refine read8_congr x.base.symm (size_mixed.trans x.size.symm) fun hlow hhigh => ?_
    rw [x.base] at hlow ⊢
    rw [x.base, x.size] at hhigh
    rw [x.byte?_mixed hlow hhigh, if_pos ha]
  · refine read8_congr rfl size_mixed fun hlow hhigh => ?_
    rw [x.byte?_mixed hlow hhigh, if_neg ha]

theorem SameOff.mixed (x : SameOff T m m') (S : Set UInt32) : SameOff (T ∩ S) m (mixed S m m') := by
  refine ⟨rfl, size_mixed, fun a ha => ?_⟩
  by_cases hS : a ∈ S
  · exact (x.read8_mixed.1 hS).trans (x.read a fun hT => ha ⟨hT, hS⟩)
  · exact x.read8_mixed.2 hS

/-! ### What becomes of an image -/

/-- **So many bytes fit the window**: their address is not below its base, and they end within its
size. -/
def Fits (m : Memory) (address : UInt32) (length : Nat) : Prop :=
  m.base.toNat ≤ address.toNat ∧ address.toNat - m.base.toNat + length ≤ m.size

theorem Fits.offset? {address : UInt32} {length : Nat} (h : m.Fits address length) :
    m.offset? address length = some (address.toNat - m.base.toNat) := by
  obtain ⟨hlow, hhigh⟩ := h
  exact offset?_eq_some_iff.mpr ⟨by omega, hhigh⟩

theorem offset?_of_not_fits {address : UInt32} {length : Nat} (h : ¬ m.Fits address length) :
    m.offset? address length = none := by
  cases hoffset : m.offset? address length with
  | none => rfl
  | some offset =>
    obtain ⟨hstart, hfits⟩ := offset?_eq_some_iff.mp hoffset
    exact absurd ⟨by omega, by omega⟩ h

/-- **An image was loaded**: its bytes are in the window from the address on, and all else is as it
was, the marks and the queue included. -/
structure Loaded (m m' : Memory) (address : UInt32) (image : List UInt8) : Prop where
  base : m'.base = m.base
  size : m'.size = m.size
  codePages : m'.codePages = m.codePages
  changed : m'.changed = m.changed
  inside : ∀ k, k < image.length →
    byte? m'.bytes (address.toNat - m.base.toNat + k) = image[k]?
  outside : ∀ i, i < address.toNat - m.base.toNat ∨
    address.toNat - m.base.toNat + image.length ≤ i → byte? m'.bytes i = byte? m.bytes i

theorem Fits.loaded {address : UInt32} (h : m.Fits address image.length) :
    m.Loaded (m.overlay (address.toNat - m.base.toNat) image) address image where
  base := rfl
  size := size_overlay
  codePages := rfl
  changed := rfl
  inside k hk := by
    refine (byte?_putBytes_mem (by omega) (by omega) h.2).trans ?_
    rw [Nat.add_sub_cancel_left]
  outside i hi := byte?_putBytes (by omega)

/-- A byte that the guest reads after an image was loaded: that of the image at the addresses from
the first on, and what it was elsewhere. -/
theorem Loaded.read8 {address : UInt32} (h : m.Loaded m' address image)
    (hfits : m.Fits address image.length) :
    (∀ k, k < image.length → a.toNat = address.toNat + k →
        m'.read8 a = ((image[k]?).map UInt8.toUInt32).getD 0) ∧
      (a.toNat < address.toNat ∨ address.toNat + image.length ≤ a.toNat →
        m'.read8 a = m.read8 a) := by
  obtain ⟨hlow, hhigh⟩ := hfits
  refine ⟨fun k hk ha => ?_, fun hout => ?_⟩
  · rw [read8_eq, h.base, h.size, if_pos (by omega), byteAt_eq, ← h.inside k hk,
      show a.toNat - m.base.toNat = address.toNat - m.base.toNat + k by omega]
  · rw [read8_eq, read8_eq, h.base, h.size]
    by_cases hin : m.base.toNat ≤ a.toNat ∧ a.toNat < m.base.toNat + m.size
    · rw [if_pos hin, if_pos hin, byteAt_eq, byteAt_eq, h.outside _ (by omega)]
    · rw [if_neg hin, if_neg hin]

/-- A length is no shorter than what is left of it. -/
theorem Fits.mod {address : UInt32} {length : Nat} (h : m.Fits address length) :
    m.Fits address (length % 2 ^ 32) :=
  ⟨h.1, (Nat.add_le_add_left (Nat.mod_le _ _) _).trans h.2⟩

theorem Fits.loadImage {address : UInt32} (h : m.Fits address image.length) :
    m.loadImage address image =
      .ok (.ok (m.overlay (address.toNat - m.base.toNat) image)) := by
  rw [Memory.loadImage, h.mod.offset?]
  exact if_pos h.2

theorem loadImage_of_not_fits_mod {address : UInt32}
    (h : ¬ m.Fits address (image.length % 2 ^ 32)) :
    m.loadImage address image = .ok (.error ⟨image.length, address⟩) := by
  rw [Memory.loadImage, offset?_of_not_fits h]

theorem loadImage_of_fits_mod {address : UInt32} (hmod : m.Fits address (image.length % 2 ^ 32))
    (h : ¬ m.Fits address image.length) :
    m.loadImage address image = .error (.imageLength image.length) := by
  rw [Memory.loadImage, hmod.offset?]
  exact if_neg fun hfits => h ⟨hmod.1, hfits⟩

/-- **All of an image or nothing of it.**  It is loaded exactly if it fits the window, and then its
bytes are there and nothing else has changed.  It is refused, with its length and address, exactly
if what is left of its length modulo 2^32 does not fit.  A shorter image is therefore refused
whenever it does not fit; one of 2^32 bytes or more meets a broken promise instead if what is left
of its length fits. -/
theorem loadImage_outcomes (m : Memory) (address : UInt32) (image : List UInt8) :
    ((∃ m', m.loadImage address image = .ok (.ok m')) ↔ m.Fits address image.length) ∧
      (∀ m', m.loadImage address image = .ok (.ok m') → m.Loaded m' address image ∧
        ∀ a : UInt32,
          (∀ k, k < image.length → a.toNat = address.toNat + k →
            m'.read8 a = ((image[k]?).map UInt8.toUInt32).getD 0) ∧
          (a.toNat < address.toNat ∨ address.toNat + image.length ≤ a.toNat →
            m'.read8 a = m.read8 a)) ∧
      (m.loadImage address image = .ok (.error ⟨image.length, address⟩) ↔
        ¬ m.Fits address (image.length % 2 ^ 32)) ∧
      (m.loadImage address image = .error (.imageLength image.length) ↔
        2 ^ 32 ≤ image.length ∧ ¬ m.Fits address image.length ∧
          m.Fits address (image.length % 2 ^ 32)) ∧
      (image.length < 2 ^ 32 → ¬ m.Fits address image.length →
        m.loadImage address image = .ok (.error ⟨image.length, address⟩)) := by
  by_cases hfits : m.Fits address image.length
  · rw [hfits.loadImage]
    refine ⟨iff_of_true ⟨_, rfl⟩ hfits, fun m' heq => ?_, iff_of_false nofun (not_not_intro hfits.mod),
      iff_of_false nofun fun hlong => hlong.2.1 hfits, fun _ hnot => absurd hfits hnot⟩
    cases heq
    exact ⟨hfits.loaded, fun _ => hfits.loaded.read8 hfits⟩
  · by_cases hmod : m.Fits address (image.length % 2 ^ 32)
    · have hlong : 2 ^ 32 ≤ image.length := by
        by_contra hshort
        rw [Nat.mod_eq_of_lt (by omega)] at hmod
        exact hfits hmod
      rw [loadImage_of_fits_mod hmod hfits]
      exact ⟨iff_of_false nofun hfits, nofun, iff_of_false nofun (not_not_intro hmod),
        iff_of_true rfl ⟨hlong, hfits, hmod⟩, fun hshort => absurd hlong (Nat.not_le_of_lt hshort)⟩
    · rw [loadImage_of_not_fits_mod hmod]
      exact ⟨iff_of_false nofun hfits, nofun, iff_of_true rfl hmod,
        iff_of_false nofun fun hlong => hmod hlong.2.2, fun _ _ => rfl⟩

/-- An image of 2^32 bytes breaks a promise in a window of sixteen bytes, where it ought to be
refused; and of seventeen bytes that are loaded sixteen bytes below the end of the address space the
last one is at no address. -/
theorem image_misplaced :
    (create 0x08800000 16).loadImage 0x08800000 (List.replicate (2 ^ 32) 0) =
        .error (.imageLength (2 ^ 32)) ∧
      ∃ m', (create 0xFFFFFFF0 32).loadImage 0xFFFFFFF0 (List.replicate 17 1) = .ok (.ok m') ∧
        m'.read8 (0xFFFFFFF0 + 16) = 0 := by
  have hfits : (create 0xFFFFFFF0 32).Fits 0xFFFFFFF0 (List.replicate 17 (1 : UInt8)).length := by
    refine ⟨by decide, ?_⟩
    rw [size_create]
    decide
  refine ⟨?_, _, hfits.loadImage, ?_⟩
  · have hlength : (List.replicate (2 ^ 32) (0 : UInt8)).length = 2 ^ 32 := List.length_replicate
    have hmod : (create 0x08800000 16).Fits 0x08800000
        ((List.replicate (2 ^ 32) (0 : UInt8)).length % 2 ^ 32) := by
      rw [hlength, Nat.mod_self]
      exact ⟨Nat.le_refl _, by rw [size_create]; decide⟩
    have hlong : ¬ (create 0x08800000 16).Fits 0x08800000
        (List.replicate (2 ^ 32) (0 : UInt8)).length := by
      rw [hlength]
      rintro ⟨-, hhigh⟩
      rw [size_create] at hhigh
      exact absurd hhigh (by decide)
    have heq := loadImage_of_fits_mod hmod hlong
    rwa [hlength] at heq
  · rw [read8_eq, if_neg]
    rintro ⟨hlow, -⟩
    exact absurd hlow (by decide)

end Memory

end Dynarec
