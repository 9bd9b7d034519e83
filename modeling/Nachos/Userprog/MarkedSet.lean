/-
# Bit maps as finite sets

The free sectors of the disk and the free frames of the memory are taken from bit maps. Whatever
is marked, cleared and found from the construction on, a bit map is the set of its marked
indices: the bits of the last word that no index belongs to, and what the memory held before,
play no part. The set survives a way through a file.
-/

import Mathlib.Data.Finset.Max
import Nachos.Filesys.FileAccess

namespace Nachos.BitMap

open Base

/-- A call that changes a bit map. -/
inductive Call
  | mark (which : ℤ)
  | clear (which : ℤ)
  | find
deriving DecidableEq

/-- The index lies in a map of `n` bits. -/
def Call.InRange (n : ℕ) : Call → Prop
  | .mark which => 0 ≤ which ∧ which < n
  | .clear which => 0 ≤ which ∧ which < n
  | .find => True

instance (n : ℕ) (c : Call) : Decidable (c.InRange n) := by
  cases c <;> unfold Call.InRange <;> infer_instance

/-- The bit map after a call. -/
def perform (b : BitMap) : Call → Except Fault BitMap
  | .mark which => b.mark which
  | .clear which => b.clear which
  | .find => .ok b.find.2

/-- The subset of the first `n` numbers after a call. -/
def after (n : ℕ) (s : Finset ℕ) : Call → Finset ℕ
  | .mark which => insert which.toNat s
  | .clear which => s.erase which.toNat
  | .find =>
      if free : (Finset.range n \ s).Nonempty then insert ((Finset.range n \ s).min' free) s else s

/-- A file with room for the words of `b`, in distinct sectors of the disk. -/
structure WordFile (h : FileHeader) (b : BitMap) : Prop where
  length : h.numBytes ≤ MaxFileSize
  sectors : h.InRange h.sectorCount
  distinct : (h.sectorList h.sectorCount).Nodup
  room : b.numWords * 4 ≤ h.numBytes

/-- `b'` has the bits of `b`, but for `value` at the index `i`. -/
def Differs (b b' : BitMap) (n i : ℕ) (value : Bool) : Prop :=
  b'.numBits = n ∧ ∀ j < n, b'.test j = if j = i then .ok value else b.test j

/-- The bit map is the set `s` of numbers below `n`. -/
structure IsFiniteSet (b : BitMap) (n : ℕ) (s : Finset ℕ) : Prop where
  subset : s ⊆ Finset.range n
  test (i : ℕ) : i < n → b.test i = .ok (decide (i ∈ s))
  mark (i : ℕ) : i < n → ∃ b', b.mark i = .ok b' ∧ b.Differs b' n i true
  clear (i : ℕ) : i < n → ∃ b', b.clear i = .ok b' ∧ b.Differs b' n i false
  /-- `Find` takes the least number that is not in the set. -/
  find (i : ℕ) : i < n → i ∉ s → (∀ j < i, j ∈ s) →
    ∃ b', b.find = ((i : ℤ), b') ∧ b.Differs b' n i true
  find_full : b.find.1 = -1 ↔ s = Finset.range n
  find_unchanged : b.find.1 = -1 → b.find.2 = b
  numClear : b.numClear = n - s.card
  roundTrip (file : OpenFile) (uninit : Mem) (disk : Disk) (other : BitMap) :
    other.numBits = n → WordFile file.hdr b →
    ∃ disk' c, b.writeBack uninit disk file = .ok disk' ∧ other.fetchFrom disk' file = .ok c ∧
      c.numBits = n ∧ ∀ i < n, c.test i = b.test i

/-- The marked bits of `b` are the members of `s`. -/
structure Represents (b : BitMap) (n : ℕ) (s : Finset ℕ) : Prop where
  numBits : b.numBits = n
  subset : s ⊆ Finset.range n
  testBit (i : ℕ) : i < n → b.testBit i = decide (i ∈ s)

variable {b b' c : BitMap} {n i : ℕ} {s : Finset ℕ}

/-! ## The calls -/

theorem test_of_lt (b : BitMap) (h : i < b.numBits) : b.test i = .ok (b.testBit i) := by
  rw [test, checkIndex_of_lt b (by omega), Except.ok_bind, Int.toNat_natCast]
  rfl

theorem clear_of_lt (b : BitMap) (h : i < b.numBits) : b.clear i = .ok (b.clearBit i) := by
  rw [clear, checkIndex_of_lt b (by omega), Except.ok_bind, Int.toNat_natCast]
  rfl

theorem differs_of_testBit {value : Bool} (hb : b.numBits = n) (hb' : b'.numBits = n)
    (h : ∀ j < n, b'.testBit j = if j = i then value else b.testBit j) : b.Differs b' n i value := by
  refine ⟨hb', fun j hj => ?_⟩
  rw [b'.test_of_lt (hb' ▸ hj), b.test_of_lt (hb ▸ hj), h j hj]
  exact apply_ite Except.ok _ _ _

theorem differs_markBit (hb : b.numBits = n) : b.Differs (b.markBit i) n i true :=
  differs_of_testBit hb hb fun j _ => by
    by_cases hequal : j = i <;> simp [hequal]

theorem differs_clearBit (hb : b.numBits = n) : b.Differs (b.clearBit i) n i false :=
  differs_of_testBit hb hb fun j _ => by
    by_cases hequal : j = i <;> simp [hequal]

/-- A new bit map is the empty set. -/
theorem represents_new (uninit : Mem) (n : ℕ) : (new uninit n).Represents n ∅ where
  numBits := numBits_new uninit n
  subset := Finset.empty_subset _
  testBit i hi := by simpa using testBit_new uninit hi

namespace Represents

theorem markBit (hb : b.Represents n s) (hi : i < n) : (b.markBit i).Represents n (insert i s) where
  numBits := hb.numBits
  subset := Finset.insert_subset (Finset.mem_range.mpr hi) hb.subset
  testBit j hj := by
    rw [testBit_markBit, hb.testBit j hj, ← Bool.decide_or]
    simp

theorem clearBit (hb : b.Represents n s) : (b.clearBit i).Represents n (s.erase i) where
  numBits := hb.numBits
  subset := (Finset.erase_subset i s).trans hb.subset
  testBit j hj := by
    rw [testBit_clearBit, hb.testBit j hj, ← Bool.decide_and]
    simp

theorem testBit_eq_false (hb : b.Represents n s) (hi : i < n) : b.testBit i = false ↔ i ∉ s := by
  rw [hb.testBit i hi, decide_eq_false_iff_not]

theorem testBit_eq_true (hb : b.Represents n s) (hi : i < n) : b.testBit i = true ↔ i ∈ s := by
  rw [hb.testBit i hi, decide_eq_true_iff]

/-- `Find` on a map with a number outside the set: the least one is marked. -/
theorem find_of_not_mem (hb : b.Represents n s) (hi : i < n) (hclear : i ∉ s)
    (hleast : ∀ j < i, j ∈ s) : b.find = ((i : ℤ), b.markBit i) :=
  b.find_of_least (hb.numBits ▸ hi) ((hb.testBit_eq_false hi).mpr hclear) fun j hj =>
    (hb.testBit_eq_true (hj.trans hi)).mpr (hleast j hj)

/-- `Find` on a full map. -/
theorem find_of_full (hb : b.Represents n s) (hfull : s = Finset.range n) : b.find = (-1, b) := by
  obtain ⟨k, hk, hclear, -, -⟩ | ⟨-, hfind⟩ := b.find_cases
  · rw [hb.numBits] at hk
    rw [hb.testBit_eq_false hk, hfull, Finset.mem_range] at hclear
    exact absurd hk hclear
  · exact hfind

/-- The least number that is not in the set. -/
theorem min'_spec {n : ℕ} {s : Finset ℕ} (free : (Finset.range n \ s).Nonempty) :
    (Finset.range n \ s).min' free < n ∧ (Finset.range n \ s).min' free ∉ s ∧
      ∀ j < (Finset.range n \ s).min' free, j ∈ s := by
  obtain ⟨hrange, hnot⟩ := Finset.mem_sdiff.mp (Finset.min'_mem _ free)
  have hlt := Finset.mem_range.mp hrange
  refine ⟨hlt, hnot, fun j hj => ?_⟩
  by_contra hout
  have hmem : j ∈ Finset.range n \ s :=
    Finset.mem_sdiff.mpr ⟨Finset.mem_range.mpr (hj.trans hlt), hout⟩
  exact absurd (Finset.min'_le _ j hmem) (by omega)

/-- **One call** does to the bit map what it does to the set. -/
theorem perform {call : Call} (hb : b.Represents n s) (hcall : call.InRange n) :
    ∃ b', b.perform call = .ok b' ∧ b'.Represents n (after n s call) := by
  cases call with
  | mark which =>
      obtain ⟨i, rfl⟩ := Int.eq_ofNat_of_zero_le hcall.1
      have hi : i < n := by exact_mod_cast hcall.2
      exact ⟨b.markBit i, b.mark_of_lt (hb.numBits ▸ hi), hb.markBit hi⟩
  | clear which =>
      obtain ⟨i, rfl⟩ := Int.eq_ofNat_of_zero_le hcall.1
      have hi : i < n := by exact_mod_cast hcall.2
      exact ⟨b.clearBit i, b.clear_of_lt (hb.numBits ▸ hi), hb.clearBit⟩
  | find =>
      refine ⟨b.find.2, rfl, ?_⟩
      rw [after]
      split_ifs with free
      · obtain ⟨hlt, hnot, hleast⟩ := min'_spec free
        rw [hb.find_of_not_mem hlt hnot hleast]
        exact hb.markBit hlt
      · have hfull : Finset.range n ⊆ s :=
          Finset.sdiff_eq_empty_iff_subset.mp (Finset.not_nonempty_iff_eq_empty.mp free)
        rw [hb.find_of_full (hb.subset.antisymm hfull)]
        exact hb

/-- **A sequence of calls** does not fail, and does to the bit map what it does to the set. -/
theorem foldlM {calls : List Call} (hb : b.Represents n s) (hcalls : ∀ c ∈ calls, c.InRange n) :
    ∃ b', calls.foldlM BitMap.perform b = .ok b' ∧ b'.Represents n (calls.foldl (after n) s) := by
  induction calls generalizing b s with
  | nil => exact ⟨b, rfl, hb⟩
  | cons call rest ih =>
      obtain ⟨b₁, hfirst, hb₁⟩ := hb.perform (hcalls call List.mem_cons_self)
      obtain ⟨b', hrest, hb'⟩ := ih hb₁ fun c hc => hcalls c (List.mem_cons_of_mem _ hc)
      refine ⟨b', ?_, hb'⟩
      rw [List.foldlM_cons, hfirst, Except.ok_bind, hrest]

/-- `NumClear` counts the numbers that are not in the set. -/
theorem numClear (hb : b.Represents n s) : b.numClear = n - s.card := by
  have hclear : b.clearSet = Finset.range n \ s := by
    ext i
    rw [mem_clearSet, Finset.mem_sdiff, Finset.mem_range, hb.numBits]
    exact and_congr_right fun hi => hb.testBit_eq_false hi
  rw [numClear_eq_card, hclear, Finset.card_sdiff_of_subset hb.subset, Finset.card_range]

end Represents

/-! ## The way through a file -/

/-- The words that hold the first `n` bits. -/
theorem numWords_eq (b : BitMap) : b.numWords * 4 = ((b.numBits + 31) / 32 * 4 : ℕ) := by
  rw [numWords, divRoundUp, BitsInWord, Int.tdiv_eq_ediv_of_nonneg (by omega),
    Int.tmod_eq_emod_of_nonneg (by omega)]
  split_ifs <;> omega

theorem WordFile.sectorCount {h : FileHeader} (hfile : WordFile h b) :
    h.sectorCount ≤ 30 ∧ (b.numBits + 31) / 32 * 4 ≤ 128 * h.sectorCount := by
  have hlength := hfile.length
  have hroom := hfile.room
  rw [MaxFileSize, NumDirect, SectorSize] at hlength
  rw [numWords_eq] at hroom
  rw [FileHeader.sectorCount]
  omega

/-- `WriteBack` and then `FetchFrom` copy the words. -/
theorem fetchFrom_writeBack {file : OpenFile} (uninit : Mem) (disk : Disk) {other : BitMap}
    (hfile : WordFile file.hdr b) (hbits : other.numBits = b.numBits) :
    ∃ disk' c, b.writeBack uninit disk file = .ok disk' ∧ other.fetchFrom disk' file = .ok c ∧
      c.numBits = b.numBits ∧ ∀ i < b.numBits, c.testBit i = b.testBit i := by
  obtain ⟨hmax, hbytes⟩ := hfile.sectorCount
  have hroom := hfile.room
  rw [numWords_eq] at hroom
  obtain ⟨disk', hwrite, -, hdata⟩ := file.writeAt_zero uninit disk b.map hbytes hmax
    hroom hfile.sectors hfile.distinct
  have hread := file.readAt_zero disk' other.map hbytes hmax hroom hfile.sectors
  have hfetch : other.fetchFrom disk' file = .ok { other with
      map := other.map.copy 0 (OpenFile.fileBytes disk' file.hdr) 0 ((b.numBits + 31) / 32 * 4) } := by
    rw [fetchFrom, numWords_eq, hbits, hread]
    rfl
  refine ⟨disk', _, ?_, hfetch, hbits, fun i hi => testBit_congr (Mem.word_congr fun k hk => ?_)⟩
  · rw [writeBack, numWords_eq]
    exact hwrite
  · refine (Mem.copy_of_mem _ _ (by omega)).trans ?_
    rw [Nat.sub_zero, Nat.add_zero]
    exact hdata _ (by omega)

/-- A bit map with the marked bits of a set is that set. -/
theorem Represents.isFiniteSet (hb : b.Represents n s) : b.IsFiniteSet n s where
  subset := hb.subset
  test i hi := by rw [b.test_of_lt (hb.numBits ▸ hi), hb.testBit i hi]
  mark i hi := ⟨b.markBit i, b.mark_of_lt (hb.numBits ▸ hi), differs_markBit hb.numBits⟩
  clear i hi := ⟨b.clearBit i, b.clear_of_lt (hb.numBits ▸ hi), differs_clearBit hb.numBits⟩
  find i hi hclear hleast :=
    ⟨b.markBit i, hb.find_of_not_mem hi hclear hleast, differs_markBit hb.numBits⟩
  find_full := by
    refine ⟨fun hfind => ?_, fun hfull => by rw [hb.find_of_full hfull]⟩
    obtain ⟨k, -, -, -, htaken⟩ | ⟨hfull, -⟩ := b.find_cases
    · rw [htaken] at hfind
      exact absurd hfind (by omega)
    · refine hb.subset.antisymm fun i hi => ?_
      rw [Finset.mem_range] at hi
      exact (hb.testBit_eq_true hi).mp (hfull i (hb.numBits ▸ hi))
  find_unchanged := by
    intro hfind
    obtain ⟨k, -, -, -, htaken⟩ | ⟨-, hfull⟩ := b.find_cases
    · rw [htaken] at hfind
      exact absurd hfind (by omega)
    · rw [hfull]
  numClear := hb.numClear
  roundTrip file uninit disk other hother hfile := by
    obtain ⟨disk', c, hwrite, hfetch, hc, hbit⟩ :=
      fetchFrom_writeBack uninit disk hfile (hother.trans hb.numBits.symm)
    refine ⟨disk', c, hwrite, hfetch, hc.trans hb.numBits, fun i hi => ?_⟩
    rw [← hb.numBits] at hi
    rw [c.test_of_lt (hc ▸ hi), b.test_of_lt hi, hbit i hi]

/-- **Bit maps are finite sets.** Calls with indices in range never fail, and what they leave is
the set that they describe. -/
theorem isFiniteSet_of_calls (uninit : Mem) (n : ℕ) (calls : List Call)
    (hcalls : ∀ c ∈ calls, c.InRange n) :
    ∃ b, calls.foldlM perform (new uninit n) = .ok b ∧
      b.IsFiniteSet n (calls.foldl (after n) ∅) := by
  obtain ⟨b, hrun, hb⟩ := (represents_new uninit n).foldlM hcalls
  exact ⟨b, hrun, hb.isFiniteSet⟩

/-- The sign bit of the first word and both bits of the second, in memory full of ones. -/
theorem isFiniteSet_two_words :
    ∃ b, [Call.mark 31, .mark 33, .find, .clear 33, .find].foldlM perform
        (new (fun _ => 255) 34) = .ok b ∧
      b.IsFiniteSet 34 ([Call.mark 31, .mark 33, .find, .clear 33, .find].foldl (after 34) ∅) :=
  isFiniteSet_of_calls _ 34 _ (by decide)

end Nachos.BitMap
