/-
# The memory a user program sees

A program addresses the bytes of main memory through the page table. When distinct pages
are mapped to distinct frames, a byte written at one address is read back there and no
other address changes. The kernel reaches the memory of a program the same way, one byte at
a time.
-/

import Nachos.Machine.Translate

namespace Nachos

open Base

namespace Machine

/-- The byte at a virtual address can be read, and written if `writing`. -/
structure Maps (m : Machine) (virtAddr : BitVec 32) (writing : Bool) : Prop where
  inTable : virtAddr.toNat / PageSize < m.pageTableSize
  valid : (m.pageTable (virtAddr.toNat / PageSize)).valid = true
  writable : writing = true → (m.pageTable (virtAddr.toNat / PageSize)).readOnly = false
  inMemory : m.pageFrame (virtAddr.toNat / PageSize) < NumPhysPages

instance (m : Machine) (virtAddr : BitVec 32) (writing : Bool) :
    Decidable (m.Maps virtAddr writing) :=
  decidable_of_iff
    (virtAddr.toNat / PageSize < m.pageTableSize ∧
      (m.pageTable (virtAddr.toNat / PageSize)).valid = true ∧
      (writing = true → (m.pageTable (virtAddr.toNat / PageSize)).readOnly = false) ∧
      m.pageFrame (virtAddr.toNat / PageSize) < NumPhysPages)
    ⟨fun ⟨h₁, h₂, h₃, h₄⟩ => ⟨h₁, h₂, h₃, h₄⟩, fun ⟨h₁, h₂, h₃, h₄⟩ => ⟨h₁, h₂, h₃, h₄⟩⟩

/-- Distinct pages of the table are mapped to distinct frames. -/
def FramesDistinct (m : Machine) : Prop :=
  ∀ i < m.pageTableSize, ∀ j < m.pageTableSize, (m.pageTable i).valid = true →
    (m.pageTable j).valid = true → m.pageFrame i = m.pageFrame j → i = j

/-- The byte of a program at a virtual address, if it has one there. -/
def userByte (m : Machine) (virtAddr : BitVec 32) : Option UInt8 :=
  if m.Maps virtAddr false then some (m.mainMemory (m.physAddr virtAddr)) else none

/-- Two machines whose page tables differ in the use and dirty bits only. -/
structure SameMapping (m m' : Machine) : Prop where
  pageTableSize : m'.pageTableSize = m.pageTableSize
  valid : ∀ i, (m'.pageTable i).valid = (m.pageTable i).valid
  readOnly : ∀ i, (m'.pageTable i).readOnly = (m.pageTable i).readOnly
  pageFrame : ∀ i, m'.pageFrame i = m.pageFrame i

variable {m m' m'' : Machine} {a b : BitVec 32} {writing : Bool}

theorem Maps.of_writing (h : m.Maps a true) : m.Maps a false :=
  ⟨h.inTable, h.valid, nofun, h.inMemory⟩

namespace SameMapping

theorem refl (m : Machine) : m.SameMapping m := ⟨rfl, fun _ => rfl, fun _ => rfl, fun _ => rfl⟩

theorem trans (h : m.SameMapping m') (h' : m'.SameMapping m'') : m.SameMapping m'' :=
  ⟨h'.pageTableSize.trans h.pageTableSize, fun i => (h'.valid i).trans (h.valid i),
    fun i => (h'.readOnly i).trans (h.readOnly i), fun i => (h'.pageFrame i).trans (h.pageFrame i)⟩

theorem maps_iff (h : m.SameMapping m') : m'.Maps a writing ↔ m.Maps a writing := by
  constructor
  · intro hmaps
    exact ⟨h.pageTableSize ▸ hmaps.inTable, h.valid _ ▸ hmaps.valid,
      fun hw => h.readOnly _ ▸ hmaps.writable hw, h.pageFrame _ ▸ hmaps.inMemory⟩
  · intro hmaps
    exact ⟨h.pageTableSize.symm ▸ hmaps.inTable, (h.valid _).symm ▸ hmaps.valid,
      fun hw => (h.readOnly _).symm ▸ hmaps.writable hw, (h.pageFrame _).symm ▸ hmaps.inMemory⟩

theorem physAddr (h : m.SameMapping m') (a : BitVec 32) : m'.physAddr a = m.physAddr a := by
  rw [Machine.physAddr, Machine.physAddr, h.pageFrame]

theorem framesDistinct (h : m.SameMapping m') (hdist : m.FramesDistinct) :
    m'.FramesDistinct := by
  intro i hi j hj hvi hvj heq
  rw [h.pageTableSize] at hi hj
  rw [h.valid] at hvi hvj
  rw [h.pageFrame, h.pageFrame] at heq
  exact hdist i hi j hj hvi hvj heq

end SameMapping

/-- Touching an entry leaves the mapping. -/
theorem touch_sameMapping (m : Machine) (vpn : ℕ) : m.SameMapping (m.touch vpn writing) := by
  constructor
  · rfl
  all_goals
    intro i
    by_cases hi : i = vpn
    · subst hi
      simp [touch, pageFrame]
    · simp [touch, pageFrame, hi]

/-- Distinct addresses of mapped bytes have distinct places in main memory. -/
theorem physAddr_injective (hdist : m.FramesDistinct) (ha : m.Maps a false)
    (hb : m.Maps b false) (heq : m.physAddr a = m.physAddr b) : a = b := by
  simp only [physAddr, PageSize, SectorSize] at heq
  have hframe : m.pageFrame (a.toNat / 128) = m.pageFrame (b.toNat / 128) := by omega
  have hpage := hdist _ ha.inTable _ hb.inTable ha.valid hb.valid hframe
  simp only [PageSize, SectorSize] at hpage
  apply BitVec.eq_of_toNat_eq
  omega

/-- A byte of a mapped page lies in main memory; the last assertion of `Translate`. -/
theorem Maps.physAddr_lt (h : m.Maps a writing) : m.physAddr a < NumPhysPages * PageSize := by
  have hframe := h.inMemory
  simp only [physAddr, NumPhysPages, PageSize, SectorSize] at hframe ⊢
  omega

theorem translate_of_maps (h : m.Maps a writing) :
    m.translate a .byte writing =
      .ok (m.physAddr a, m.touch (a.toNat / PageSize) writing) := by
  have hro : ¬ ((m.pageTable (a.toNat / PageSize)).readOnly && writing) = true := by
    cases writing with
    | false => simp
    | true => simp [h.writable rfl]
  have hvalid : ¬ (!(m.pageTable (a.toNat / PageSize)).valid) = true := by simp [h.valid]
  rw [translate, if_neg (by simp [Width.bytes, Nat.mod_one]), if_neg (by have := h.inTable; omega),
    if_neg hvalid, if_neg hro, if_neg (by have := h.inMemory; omega)]

/-- What a translation that succeeds has found. -/
theorem translate_eq_ok {size : Width} {physicalAddress : ℕ}
    (h : m.translate a size writing = .ok (physicalAddress, m')) :
    (a.toNat % size.bytes = 0 ∧ m.Maps a writing ∧ physicalAddress = m.physAddr a) ∧
      m' = m.touch (a.toNat / PageSize) writing := by
  simp only [translate] at h
  split_ifs at h with h₁ h₂ h₃ h₄ h₅
  simp only [Except.ok.injEq, Prod.mk.injEq] at h
  refine ⟨⟨not_not.mp h₁, ⟨by omega, by simpa using h₃, fun hw => ?_, by omega⟩, h.1.symm⟩,
    h.2.symm⟩
  simpa [hw] using h₄

/-- Machines with the same mapping and the same memory have the same user memory. -/
theorem SameMapping.userByte (h : m.SameMapping m') (hmem : m'.mainMemory = m.mainMemory)
    (a : BitVec 32) : m'.userByte a = m.userByte a := by
  rw [Machine.userByte, Machine.userByte, h.physAddr, hmem]
  simp only [h.maps_iff]

/-- A byte of the program is left when main memory has changed only in the places of other
addresses. -/
theorem SameMapping.userByte_of_others {A : BitVec 32 → Prop} {b : BitVec 32}
    (h : m.SameMapping m') (hdist : m.FramesDistinct) (hmaps : ∀ c, A c → m.Maps c false)
    (hothers : ∀ k, (∀ c, A c → k ≠ m.physAddr c) → m'.mainMemory k = m.mainMemory k)
    (hb : ¬ A b) : m'.userByte b = m.userByte b := by
  rw [Machine.userByte, Machine.userByte, h.physAddr]
  simp only [h.maps_iff]
  split
  · rename_i hmapsb
    rw [hothers _ fun c hc heq => hb ?_]
    rwa [physAddr_injective hdist hmapsb (hmaps c hc) heq]
  · rfl

/-- **A byte is read.** -/
theorem readMem_byte {byte : UInt8} (h : m.userByte a = some byte) :
    ∃ m', m.readMem a .byte = .ok (some (byte.toBitVec.signExtend 32), m') ∧
      ∀ b, m'.userByte b = m.userByte b := by
  rw [userByte] at h
  split at h
  · next hmaps =>
      obtain rfl := Option.some.inj h
      refine ⟨m.touch (a.toNat / PageSize) false, ?_, (touch_sameMapping m _).userByte rfl⟩
      rw [readMem, translate_of_maps hmaps]
      rfl
  · cases h

/-- What a write of a byte does to main memory. -/
theorem writeMem_of_maps (h : m.Maps a true) (value : BitVec 32) :
    ∃ m', m.writeMem a .byte value = .ok (true, m') ∧ m.SameMapping m' ∧
      m'.registers = m.registers ∧
      m'.mainMemory = m.mainMemory.setByte (m.physAddr a) (UInt8.ofNat value.toNat) := by
  have htouch : m.SameMapping (m.touch (a.toNat / PageSize) true) := touch_sameMapping m _
  have hwrite : m.writeMem a .byte value =
      .ok (true, { m.touch (a.toNat / PageSize) true with
        mainMemory := m.mainMemory.setByte (m.physAddr a) (UInt8.ofNat value.toNat) }) := by
    rw [writeMem, translate_of_maps h]
    rfl
  exact ⟨_, hwrite, ⟨htouch.pageTableSize, htouch.valid, htouch.readOnly, htouch.pageFrame⟩, rfl,
    rfl⟩

/-! ## Runs of bytes -/

/-- A `char` widened to an `int` and stored as a byte is the same byte. -/
theorem ofNat_toNat_signExtend (b : UInt8) :
    UInt8.ofNat (b.toBitVec.signExtend 32).toNat = b := by
  apply UInt8.toBitVec_inj.mp
  change BitVec.ofNat 8 (b.toBitVec.signExtend 32).toNat = b.toBitVec
  rw [BitVec.ofNat_toNat]
  ext i hi
  rw [BitVec.getElem_setWidth, BitVec.getLsbD_signExtend]
  simp [hi, show i < 32 by omega, BitVec.getLsbD_eq_getElem]

/-- Different offsets below `2 ^ 32` give different addresses. -/
theorem add_ofNat_ne (dst : BitVec 32) {i j : ℕ} (hi : i < 2 ^ 32) (hj : j < 2 ^ 32)
    (hne : i ≠ j) : dst + BitVec.ofNat 32 i ≠ dst + BitVec.ofNat 32 j := by
  intro heq
  have := congrArg BitVec.toNat heq
  simp only [BitVec.toNat_add, BitVec.toNat_ofNat] at this
  have := dst.isLt
  omega

/-- The `n` bytes at `a` can be written, and have different places in main memory. -/
structure WritableRange (m : Machine) (a : BitVec 32) (n : ℕ) : Prop where
  maps : ∀ j < n, m.Maps (a + BitVec.ofNat 32 j) true
  injective : ∀ i < n, ∀ j < n,
    m.physAddr (a + BitVec.ofNat 32 i) = m.physAddr (a + BitVec.ofNat 32 j) → i = j

namespace WritableRange

variable {n : ℕ}

theorem of_framesDistinct (hdist : m.FramesDistinct) (hn : n ≤ 2 ^ 32)
    (hmaps : ∀ j < n, m.Maps (a + BitVec.ofNat 32 j) true) : m.WritableRange a n := by
  refine ⟨hmaps, fun i hi j hj heq => ?_⟩
  by_contra hne
  exact add_ofNat_ne a (by omega) (by omega) hne
    (physAddr_injective hdist (hmaps i hi).of_writing (hmaps j hj).of_writing heq)

theorem of_sameMapping (h : m.WritableRange a n) (hsame : m.SameMapping m') :
    m'.WritableRange a n := by
  refine ⟨fun j hj => hsame.maps_iff.mpr (h.maps j hj), fun i hi j hj heq => ?_⟩
  rw [hsame.physAddr, hsame.physAddr] at heq
  exact h.injective i hi j hj heq

/-- What is read at a byte of the range. -/
theorem userByte (h : m.WritableRange a n) {j : ℕ} (hj : j < n) :
    m.userByte (a + BitVec.ofNat 32 j) =
      some (m.mainMemory (m.physAddr (a + BitVec.ofNat 32 j))) :=
  if_pos (h.maps j hj).of_writing

end WritableRange

/-- Bytes of a buffer of the kernel written from `addr` on: `n` of them, from index `i` on. -/
def writeBytes (m : Machine) (buf : Mem) (addr : BitVec 32) (i : ℕ) : ℕ → Except Fault Machine
  | 0 => .ok m
  | n + 1 => do
      let (_, m) ← m.writeMem (addr + BitVec.ofNat 32 i) .byte ((buf i).toBitVec.signExtend 32)
      writeBytes m buf addr (i + 1) n

/-- The bytes of the loop from index `i` on. -/
private theorem writeBytes_loop (buf : Mem) {i n size : ℕ} (h : m.WritableRange a size)
    (hsize : i + n ≤ size) :
    ∃ m', m.writeBytes buf a i n = .ok m' ∧ m.SameMapping m' ∧ m'.registers = m.registers ∧
      (∀ j, i ≤ j → j < i + n → m'.mainMemory (m.physAddr (a + BitVec.ofNat 32 j)) = buf j) ∧
      ∀ k, (∀ j, i ≤ j → j < i + n → k ≠ m.physAddr (a + BitVec.ofNat 32 j)) →
        m'.mainMemory k = m.mainMemory k := by
  induction n generalizing m i with
  | zero => exact ⟨m, rfl, .refl m, rfl, fun j hij hj => by omega, fun _ _ => rfl⟩
  | succ n ih =>
      obtain ⟨m₁, hwrite, hsame₁, hregs₁, hmemory⟩ :=
        writeMem_of_maps (h.maps i (by omega)) ((buf i).toBitVec.signExtend 32)
      obtain ⟨m', hloop, hsame, hregs, hbytes, hothers⟩ := ih (i := i + 1)
        (h.of_sameMapping hsame₁) (by omega)
      simp only [hsame₁.physAddr] at hbytes hothers
      refine ⟨m', ?_, hsame₁.trans hsame, hregs.trans hregs₁, fun j hij hj => ?_, fun k hk => ?_⟩
      · rw [writeBytes, hwrite]
        exact hloop
      · by_cases heq : j = i
        · -- The later bytes have other places.
          subst heq
          have hkept : ∀ l, j + 1 ≤ l → l < j + 1 + n →
              m.physAddr (a + BitVec.ofNat 32 j) ≠ m.physAddr (a + BitVec.ofNat 32 l) := by
            intro l hl hln hplace
            have := h.injective j (by omega) l (by omega) hplace
            omega
          rw [hothers _ hkept, hmemory, Mem.setByte_self, ofNat_toNat_signExtend]
        · exact hbytes j (by omega) (by omega)
      · rw [hothers k fun j hij hj => hk j (by omega) (by omega), hmemory,
          Mem.setByte_of_ne _ _ (hk i le_rfl (by omega))]

/-- **A run of bytes is written** into memory that can be written, and nothing else changes. -/
theorem writeBytes_eq (buf : Mem) {n size : ℕ} (h : m.WritableRange a size) (hn : n ≤ size) :
    ∃ m', m.writeBytes buf a 0 n = .ok m' ∧ m.SameMapping m' ∧ m'.registers = m.registers ∧
      (∀ j < n, m'.mainMemory (m.physAddr (a + BitVec.ofNat 32 j)) = buf j) ∧
      ∀ k, (∀ j < n, k ≠ m.physAddr (a + BitVec.ofNat 32 j)) →
        m'.mainMemory k = m.mainMemory k := by
  obtain ⟨m', hwrite, hsame, hregs, hbytes, hothers⟩ :=
    writeBytes_loop buf (i := 0) h ((Nat.zero_add n).le.trans hn)
  rw [Nat.zero_add] at hbytes hothers
  exact ⟨m', hwrite, hsame, hregs, fun j hj => hbytes j j.zero_le hj,
    fun k hk => hothers k fun j _ hj => hk j hj⟩

end Machine

end Nachos
