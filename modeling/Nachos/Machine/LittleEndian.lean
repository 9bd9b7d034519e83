/-
# Virtual memory as bytes

A program reads and writes bytes, half words and words at virtual addresses. An aligned
access does not leave its page, so when distinct pages have distinct frames the three
widths are views of one memory of bytes, the first byte being the lowest: what was written
is read back, and what lies elsewhere is as before.
-/

import Nachos.Machine.Isolation
import Nachos.Machine.Unstoppable

namespace Nachos

open Base

namespace Width

/-- What is read of a value that was written: the low bytes, of which a single one is taken
as signed. -/
def reduce : Width → BitVec 32 → BitVec 32
  | .byte, v => (v.setWidth 8).signExtend 32
  | .half, v => (v.setWidth 16).setWidth 32
  | .word, v => v

end Width

namespace Machine

variable {m m' : Machine} {a b : BitVec 32} {size size' : Width} {writing : Bool}

/-! ## The bytes of an access -/

/-- The addresses of an aligned access. -/
theorem toNat_add_of_aligned (halign : a.toNat % size.bytes = 0) {i : ℕ} (hi : i < size.bytes) :
    (a + BitVec.ofNat 32 i).toNat = a.toNat + i := by
  have ha := a.isLt
  rw [BitVec.toNat_add, BitVec.toNat_ofNat]
  cases size <;>
    simp only [Width.bytes] at hi halign <;>
    omega

/-- They are in one page. -/
theorem page_add_of_aligned (halign : a.toNat % size.bytes = 0) {i : ℕ} (hi : i < size.bytes) :
    (a + BitVec.ofNat 32 i).toNat / PageSize = a.toNat / PageSize ∧
      (a + BitVec.ofNat 32 i).toNat % PageSize = a.toNat % PageSize + i := by
  rw [toNat_add_of_aligned halign hi, PageSize, SectorSize]
  cases size <;>
    simp only [Width.bytes] at hi halign <;>
    omega

theorem maps_add_of_aligned (halign : a.toNat % size.bytes = 0) {i : ℕ} (hi : i < size.bytes)
    (h : m.Maps a writing) : m.Maps (a + BitVec.ofNat 32 i) writing := by
  obtain ⟨hpage, -⟩ := page_add_of_aligned halign hi
  exact ⟨hpage ▸ h.inTable, hpage ▸ h.valid, fun hw => hpage ▸ h.writable hw, hpage ▸ h.inMemory⟩

theorem physAddr_add_of_aligned (m : Machine) (halign : a.toNat % size.bytes = 0) {i : ℕ}
    (hi : i < size.bytes) : m.physAddr (a + BitVec.ofNat 32 i) = m.physAddr a + i := by
  obtain ⟨hpage, hoffset⟩ := page_add_of_aligned halign hi
  rw [physAddr, hpage, hoffset, physAddr, Nat.add_assoc]

/-! ## Reading and writing -/

/-- A translation succeeds exactly for an aligned address of a page that is mapped. -/
theorem translate_of_aligned (halign : a.toNat % size.bytes = 0) (h : m.Maps a writing) :
    m.translate a size writing = .ok (m.physAddr a, m.touch (a.toNat / PageSize) writing) := by
  have hbyte := translate_of_maps h
  simp only [translate, Width.bytes, Nat.mod_one] at hbyte
  rw [translate, if_neg (not_not.mpr halign)]
  simpa using hbyte

/-- When `ReadMem` succeeds, and what it reads. -/
theorem readMem_eq_some {w : BitVec 32} :
    (∃ m', m.readMem a size = .ok (some w, m')) ↔
      a.toNat % size.bytes = 0 ∧ m.Maps a false ∧ w = load m.mainMemory (m.physAddr a) size := by
  constructor
  · rintro ⟨m', h⟩
    rw [readMem] at h
    split at h
    · obtain ⟨_, -, hresult⟩ := Except.bind_eq_ok.mp h
      cases hresult
    · rename_i pa m₁ htranslate
      obtain ⟨⟨halign, hmaps, rfl⟩, rfl⟩ := translate_eq_ok htranslate
      cases h
      exact ⟨halign, hmaps, rfl⟩
  · rintro ⟨halign, hmaps, rfl⟩
    refine ⟨m.touch (a.toNat / PageSize) false, ?_⟩
    rw [readMem, translate_of_aligned halign hmaps]
    rfl

/-- When `WriteMem` succeeds, and what it writes. -/
theorem writeMem_eq_true {v : BitVec 32} (h : m.writeMem a size v = .ok (true, m')) :
    a.toNat % size.bytes = 0 ∧ m.Maps a true ∧ m.SameMapping m' ∧
      m'.mainMemory = store m.mainMemory (m.physAddr a) v size := by
  rw [writeMem] at h
  split at h
  · obtain ⟨_, -, hresult⟩ := Except.bind_eq_ok.mp h
    cases hresult
  · rename_i pa m₁ htranslate
    obtain ⟨⟨halign, hmaps, rfl⟩, rfl⟩ := translate_eq_ok htranslate
    cases h
    have htouch : m.SameMapping (m.touch (a.toNat / PageSize) true) := touch_sameMapping m _
    exact ⟨halign, hmaps,
      ⟨htouch.pageTableSize, htouch.valid, htouch.readOnly, htouch.pageFrame⟩, rfl⟩

theorem load_store_self (mem : Mem) (pa : ℕ) (v : BitVec 32) (size : Width) :
    load (store mem pa v size) pa size = size.reduce v := by
  cases size with
  | byte =>
      rw [load, store, Mem.setByte_self, Width.reduce]
      congr 1
  | half =>
      apply BitVec.eq_of_toNat_eq
      rw [load, store, Mem.setByte_self, Mem.setByte_of_ne _ _ (by omega), Mem.setByte_self,
        Width.reduce]
      simp only [BitVec.toNat_ofNat, UInt8.toNat_ofNat', BitVec.toNat_setWidth]
      omega
  | word => exact Mem.word_setWord_self mem pa v

/-- **Reading back.** -/
theorem readMem_writeMem_self {v : BitVec 32} (h : m.writeMem a size v = .ok (true, m')) :
    ∃ m'', m'.readMem a size = .ok (some (size.reduce v), m'') := by
  obtain ⟨halign, hmaps, hsame, hmemory⟩ := writeMem_eq_true h
  rw [readMem_eq_some]
  refine ⟨halign, hsame.maps_iff.mpr hmaps.of_writing, ?_⟩
  rw [hsame.physAddr, hmemory, load_store_self]

/-- Bytes of two accesses that have different addresses have different places. -/
theorem physAddr_add_ne (hdist : m.FramesDistinct) (ha : a.toNat % size.bytes = 0)
    (hb : b.toNat % size'.bytes = 0) (hmapsa : m.Maps a false) (hmapsb : m.Maps b false)
    {i j : ℕ} (hi : i < size.bytes) (hj : j < size'.bytes) (hne : a.toNat + i ≠ b.toNat + j) :
    m.physAddr a + i ≠ m.physAddr b + j := by
  intro heq
  rw [← physAddr_add_of_aligned m ha hi, ← physAddr_add_of_aligned m hb hj] at heq
  have hsame := physAddr_injective hdist (maps_add_of_aligned ha hi hmapsa)
    (maps_add_of_aligned hb hj hmapsb) heq
  rw [← toNat_add_of_aligned ha hi, ← toNat_add_of_aligned hb hj, hsame] at hne
  exact hne rfl

/-- **Reading elsewhere.** -/
theorem readMem_writeMem_of_disjoint (hdist : m.FramesDistinct) {v : BitVec 32}
    (h : m.writeMem a size v = .ok (true, m'))
    (hdisjoint : b.toNat + size'.bytes ≤ a.toNat ∨ a.toNat + size.bytes ≤ b.toNat)
    (w : BitVec 32) :
    (∃ m₁, m.readMem b size' = .ok (some w, m₁)) ↔ ∃ m₂, m'.readMem b size' = .ok (some w, m₂) := by
  obtain ⟨halign, hmaps, hsame, hmemory⟩ := writeMem_eq_true h
  rw [readMem_eq_some, readMem_eq_some, hsame.maps_iff, hsame.physAddr, hmemory]
  refine and_congr_right fun halign' => and_congr_right fun hmaps' => ?_
  have hload : load (store m.mainMemory (m.physAddr a) v size) (m.physAddr b) size' =
      load m.mainMemory (m.physAddr b) size' := by
    refine load_congr fun j hj => store_of_not_mem _ _ _ fun i hi => ?_
    exact physAddr_add_ne hdist halign' halign hmaps' hmaps.of_writing hj hi (by omega)
  rw [hload]

/-- **A word is its four bytes**, the lowest one first. -/
theorem readMem_word_eq {w : BitVec 32} (h : m.readMem a .word = .ok (some w, m')) :
    ∃ bytes : ℕ → BitVec 32,
      (∀ i < 4, ∃ m₁, m.readMem (a + BitVec.ofNat 32 i) .byte = .ok (some (bytes i), m₁)) ∧
      w.toNat = (bytes 0).toNat % 256 + (bytes 1).toNat % 256 * 256 +
        (bytes 2).toNat % 256 * 256 ^ 2 + (bytes 3).toNat % 256 * 256 ^ 3 := by
  obtain ⟨halign, hmaps, rfl⟩ := readMem_eq_some.mp ⟨m', h⟩
  have hlow : ∀ byte : UInt8, (byte.toBitVec.signExtend 32).toNat % 256 = byte.toNat := by
    intro byte
    have hlt := byte.toNat_lt
    rw [BitVec.toNat_signExtend, BitVec.toNat_setWidth, UInt8.toNat_toBitVec]
    split <;> omega
  refine ⟨fun i => (m.mainMemory (m.physAddr a + i)).toBitVec.signExtend 32, fun i hi => ?_, ?_⟩
  · rw [readMem_eq_some]
    refine ⟨Nat.mod_one _, maps_add_of_aligned halign hi hmaps, ?_⟩
    rw [physAddr_add_of_aligned m halign hi, load]
  · simp only [hlow, load, Mem.word, BitVec.toNat_ofNat, Nat.add_zero]
    have hbyte : ∀ k, (m.mainMemory k).toNat < 256 := fun k => UInt8.toNat_lt _
    have h₀ := hbyte (m.physAddr a)
    have h₁ := hbyte (m.physAddr a + 1)
    have h₂ := hbyte (m.physAddr a + 2)
    have h₃ := hbyte (m.physAddr a + 3)
    omega

/-- An exception touches neither the memory nor the page table. -/
theorem raiseException_frame (h : m.raiseException a = .ok m') :
    m'.mainMemory = m.mainMemory ∧ m'.pageTable = m.pageTable ∧
      m'.pageTableSize = m.pageTableSize := by
  obtain ⟨m₁, hload, hresult⟩ := Except.bind_eq_ok.mp h
  cases hresult
  rw [delayedLoad] at hload
  split at hload
  · cases hload
    exact ⟨rfl, rfl, rfl⟩
  · cases hload

/-- A write that fails leaves the memory as it was. -/
theorem writeMem_eq_false {v : BitVec 32} (h : m.writeMem a size v = .ok (false, m')) :
    m'.mainMemory = m.mainMemory ∧ m.SameMapping m' := by
  rw [writeMem] at h
  split at h
  · obtain ⟨m₁, hraise, hresult⟩ := Except.bind_eq_ok.mp h
    cases hresult
    obtain ⟨hmemory, htable, hsize⟩ := raiseException_frame hraise
    refine ⟨hmemory, hsize, fun i => ?_, fun i => ?_, fun i => ?_⟩
    · rw [htable]
    · rw [htable]
    · rw [pageFrame, pageFrame, htable]
  · cases h

/-- **The frame of a write**, whether it succeeds or not. -/
theorem writeMem_frame {v : BitVec 32} {result : Bool}
    (h : m.writeMem a size v = .ok (result, m')) :
    m.SameMapping m' ∧
      ∀ k, (∀ i < size.bytes, k ≠ m.physAddr a + i) → m'.mainMemory k = m.mainMemory k := by
  cases result with
  | false =>
      obtain ⟨hmemory, hsame⟩ := writeMem_eq_false h
      exact ⟨hsame, fun k _ => by rw [hmemory]⟩
  | true =>
      obtain ⟨-, -, hsame, hmemory⟩ := writeMem_eq_true h
      exact ⟨hsame, fun k hk => by rw [hmemory, store_of_not_mem _ _ _ hk]⟩

/-- **Virtual memory behaves as a memory of bytes**, with the lowest byte of a value first. -/
theorem littleEndian (hdist : m.FramesDistinct) (a b : BitVec 32) (size size' : Width)
    (v : BitVec 32) :
    (∀ m', m.writeMem a size v = .ok (true, m') →
      (∃ m₁, m'.readMem a size = .ok (some (size.reduce v), m₁)) ∧
      ((b.toNat + size'.bytes ≤ a.toNat ∨ a.toNat + size.bytes ≤ b.toNat) →
        ∀ w, (∃ m₁, m.readMem b size' = .ok (some w, m₁)) ↔
          ∃ m₁, m'.readMem b size' = .ok (some w, m₁))) ∧
      (∀ w m', m.readMem a .word = .ok (some w, m') →
        ∃ bytes : ℕ → BitVec 32,
          (∀ i < 4, ∃ m₁, m.readMem (a + BitVec.ofNat 32 i) .byte = .ok (some (bytes i), m₁)) ∧
          w.toNat = (bytes 0).toNat % 256 + (bytes 1).toNat % 256 * 256 +
            (bytes 2).toNat % 256 * 256 ^ 2 + (bytes 3).toNat % 256 * 256 ^ 3) ∧
      (∀ m', m.writeMem a size v = .ok (false, m') → m'.mainMemory = m.mainMemory) ∧
      ∀ writing, m.assertedTranslate a size writing ≠ .error .assertion := by
  refine ⟨fun m' h => ⟨readMem_writeMem_self h, fun hdisjoint w => ?_⟩,
    fun w m' h => readMem_word_eq h, fun m' h => (writeMem_eq_false h).1, fun writing => ?_⟩
  · exact readMem_writeMem_of_disjoint hdist h hdisjoint w
  · rw [assertedTranslate_eq]
    exact nofun

/-- Two pages in frames 7 and 3. -/
def twoPages : Machine where
  registers := fun _ => 0
  mainMemory := fun _ => 0
  pageTable := fun i => ⟨i, if i = 0 then 7 else 3, true, false, false, false⟩
  pageTableSize := 2

theorem twoPages_framesDistinct : twoPages.FramesDistinct := by
  simp only [FramesDistinct]
  decide

/-- A half word is written to the second page: it is read back, and a word of the first page
reads as before. -/
theorem littleEndian_two_pages : twoPages.FramesDistinct ∧
    ∃ m', twoPages.writeMem 130 .half 0x18081 = .ok (true, m') ∧
      (∃ m₁, m'.readMem 130 .half = .ok (some 0x8081, m₁)) ∧
      ∃ m₁, m'.readMem 4 .word = .ok (some 0, m₁) := by
  have hlaw := littleEndian twoPages_framesDistinct 130 4 .half .word 0x18081
  obtain ⟨hself, helsewhere⟩ := hlaw.1 _ rfl
  exact ⟨twoPages_framesDistinct, _, rfl, hself, (helsewhere (by decide) 0).mp ⟨_, rfl⟩⟩

end Machine

end Nachos
