/-
# C strings in byte memory

The two bounded string functions the directory code rests on. A string ends at
its first zero byte, so `strncmp` looks at a byte only while no earlier byte is
zero, and `strncpy` writes zeros from the end of the string on. `strcpy` has no
bound, and the sizes of its two arrays are part of the model.
-/

import Mathlib.Data.List.GetD
import Nachos.Base.Fault
import Nachos.Base.Mem

namespace Nachos.Base

namespace Mem

/-- The memory of a string literal: its characters, then zeros. -/
def ofString (s : List UInt8) : Mem := fun k => s.getD k 0

/-- `strncmp(s, t, n) == 0`. -/
def strnEqual (s t : Mem) : ℕ → Bool
  | 0 => true
  | n + 1 => s 0 == t 0 && (s 0 == 0 || strnEqual (s.shift 1) (t.shift 1) n)

/-- `strcmp(s, literal) == 0`. It goes no further than to the end of the literal. -/
def strEqual (s : Mem) (literal : List UInt8) : Bool :=
  strnEqual s (ofString literal) (literal.length + 1)

/-- `strncpy(&m[a], s, n)`. -/
def strncpy (m : Mem) (a : ℕ) (s : Mem) (n : ℕ) : Mem :=
  fun k =>
    if a ≤ k ∧ k < a + n then
      if (List.range (k - a)).all fun j => s j != 0 then s (k - a) else 0
    else m k

/-- `strnlen(s, n)`. -/
def strnlen (s : Mem) : ℕ → ℕ
  | 0 => 0
  | n + 1 => if s 0 = 0 then 0 else strnlen (s.shift 1) n + 1

/-- The characters of the string that starts at offset `a`, at most `n` of them. -/
def cString (s : Mem) (a : ℕ) : ℕ → List UInt8
  | 0 => []
  | n + 1 => if s a = 0 then [] else s a :: cString s (a + 1) n

theorem strnlen_le (s : Mem) (n : ℕ) : s.strnlen n ≤ n := by
  induction n generalizing s with
  | zero => exact le_rfl
  | succ n ih =>
      rw [strnlen]
      split
      · omega
      · have := ih (s.shift 1)
        omega

theorem ne_zero_of_lt_strnlen {s : Mem} {n k : ℕ} (hk : k < s.strnlen n) : s k ≠ 0 := by
  induction n generalizing s k with
  | zero => cases hk
  | succ n ih =>
      rw [strnlen] at hk
      split at hk
      · cases hk
      · next hzero =>
          cases k with
          | zero => exact hzero
          | succ k =>
              have := ih (s := s.shift 1) (k := k) (by omega)
              rwa [shift_apply, Nat.add_comm] at this

theorem strnlen_eq_zero {s : Mem} {n : ℕ} (h : s.strnlen n < n) : s (s.strnlen n) = 0 := by
  induction n generalizing s with
  | zero => cases h
  | succ n ih =>
      rw [strnlen] at h ⊢
      split at h
      · next hzero => rw [if_pos hzero, hzero]
      · next hzero =>
          have := ih (s := s.shift 1) (by omega)
          rw [if_neg hzero]
          rwa [shift_apply, Nat.add_comm] at this

/-- `strnlen` is where the first zero byte is, or the bound. -/
theorem strnlen_eq {s : Mem} {n k : ℕ} (hk : k ≤ n) (hne : ∀ j < k, s j ≠ 0)
    (hend : k < n → s k = 0) : s.strnlen n = k := by
  rcases Nat.lt_trichotomy (s.strnlen n) k with hlt | heq | hgt
  · exact absurd (strnlen_eq_zero (by omega)) (hne _ hlt)
  · exact heq
  · have hle := s.strnlen_le n
    exact absurd (hend (by omega)) (ne_zero_of_lt_strnlen hgt)

/-- The string that a terminated list of characters is. -/
theorem cString_eq {s : Mem} {path : List UInt8} {a n : ℕ} (hzero : (0 : UInt8) ∉ path)
    (hn : path.length < n) (hchars : ∀ j, ∀ hj : j < path.length, s (a + j) = path[j])
    (hend : s (a + path.length) = 0) : s.cString a n = path := by
  induction path generalizing a n with
  | nil =>
      cases n with
      | zero => rfl
      | succ n => simpa [cString] using hend
  | cons c rest ih =>
      obtain ⟨n, rfl⟩ : ∃ k, n = k + 1 := ⟨n - 1, by simp only [List.length_cons] at hn; omega⟩
      have hhead : s a = c := hchars 0 (Nat.succ_pos _)
      have hc : s a ≠ 0 := by
        rw [hhead]
        rintro rfl
        exact hzero (by simp)
      rw [cString, if_neg hc, hhead]
      congr 1
      refine ih (fun hmem => hzero (by simp [hmem])) ?_ (fun j hj => ?_) ?_
      · simp only [List.length_cons] at hn
        omega
      · have := hchars (j + 1) (by simp only [List.length_cons]; omega)
        rw [List.getElem_cons_succ] at this
        rw [← this]
        congr 1
        omega
      · rw [← hend, List.length_cons]
        congr 1
        omega

/-- Equality of the strings: each byte agrees as long as no earlier one is zero. -/
theorem strnEqual_iff {s t : Mem} {n : ℕ} :
    strnEqual s t n = true ↔ ∀ k < n, (∀ j < k, s j ≠ 0) → s k = t k := by
  induction n generalizing s t with
  | zero => simp [strnEqual]
  | succ n ih =>
      simp only [strnEqual, Bool.and_eq_true, beq_iff_eq, Bool.or_eq_true, ih, shift_apply]
      constructor
      · rintro ⟨hhead, hrest⟩ k hk hearlier
        cases k with
        | zero => exact hhead
        | succ k =>
            rcases hrest with hzero | hrest
            · exact absurd hzero (hearlier 0 (by omega))
            · have := hrest k (by omega) fun j hj => hearlier (1 + j) (by omega)
              rwa [Nat.add_comm 1 k] at this
      · intro h
        refine ⟨h 0 (by omega) (by omega), ?_⟩
        by_cases hzero : s 0 = 0
        · exact Or.inl hzero
        · refine Or.inr fun k hk hearlier => ?_
          have := h (1 + k) (by omega) fun j hj => by
            cases j with
            | zero => exact hzero
            | succ j =>
                have := hearlier j (by omega)
                rwa [Nat.add_comm 1 j] at this
          exact this

theorem strnEqual_refl (s : Mem) (n : ℕ) : strnEqual s s n = true :=
  strnEqual_iff.mpr fun _ _ _ => rfl

/-- Strings that agree have no zero byte before the same places. -/
private theorem ne_zero_of_strnEqual {s t : Mem} {n k : ℕ} (h : strnEqual s t n = true)
    (hk : k ≤ n) (ht : ∀ j < k, t j ≠ 0) : ∀ j < k, s j ≠ 0 := by
  intro j
  induction j using Nat.strong_induction_on with
  | _ j ih =>
      intro hj
      rw [strnEqual_iff.mp h j (by omega) fun i hi => ih i hi (by omega)]
      exact ht j hj

theorem strnEqual_symm {s t : Mem} {n : ℕ} (h : strnEqual s t n = true) :
    strnEqual t s n = true :=
  strnEqual_iff.mpr fun k hk ht =>
    (strnEqual_iff.mp h k hk (ne_zero_of_strnEqual h (by omega) ht)).symm

theorem strnEqual_trans {s t u : Mem} {n : ℕ} (hst : strnEqual s t n = true)
    (htu : strnEqual t u n = true) : strnEqual s u n = true := by
  refine strnEqual_iff.mpr fun k hk hs => ?_
  have ht := ne_zero_of_strnEqual (strnEqual_symm hst) (by omega) hs
  rw [strnEqual_iff.mp hst k hk hs, strnEqual_iff.mp htu k hk ht]

/-- Equal strings compare alike with every third string. -/
theorem strnEqual_congr_left {s t : Mem} {n : ℕ} (h : strnEqual s t n = true) (u : Mem) :
    strnEqual s u n = strnEqual t u n := by
  cases hs : strnEqual s u n with
  | true => exact (strnEqual_trans (strnEqual_symm h) hs).symm
  | false =>
      cases ht : strnEqual t u n with
      | false => rfl
      | true =>
          rw [strnEqual_trans h ht] at hs
          cases hs

theorem strncpy_of_not_mem (m : Mem) {a n k : ℕ} (s : Mem) (h : k < a ∨ a + n ≤ k) :
    m.strncpy a s n k = m k := if_neg (by omega)

/-- The copy is the string, as far as the bound goes. -/
theorem strnEqual_strncpy (m : Mem) (a : ℕ) (s : Mem) (n : ℕ) :
    strnEqual s ((m.strncpy a s n).shift a) n = true := by
  refine strnEqual_iff.mpr fun k hk hearlier => ?_
  have hall : ((List.range (a + k - a)).all fun j => s j != 0) = true := by
    rw [List.all_eq_true]
    intro j hj
    have := hearlier j (by have := List.mem_range.mp hj; omega)
    simpa using this
  rw [shift_apply, strncpy, if_pos (by omega), if_pos hall, Nat.add_sub_cancel_left]

/-- Two strings that fit the bound compare equal only if they are equal. -/
theorem eq_of_strnEqual {s t : List UInt8} {n : ℕ} (hs : (0 : UInt8) ∉ s) (ht : (0 : UInt8) ∉ t)
    (hsLength : s.length < n) (htLength : t.length < n)
    (h : strnEqual (ofString s) (ofString t) n = true) : s = t := by
  have hne {l : List UInt8} (hl : (0 : UInt8) ∉ l) {k : ℕ} (hk : k < l.length) :
      ofString l k ≠ 0 := by
    rw [ofString, List.getD_eq_getElem _ _ hk]
    exact fun hzero => hl (hzero ▸ List.getElem_mem hk)
  have hend (l : List UInt8) : ofString l l.length = 0 := by
    rw [ofString, List.getD_eq_default _ _ le_rfl]
  have hagree {a b : List UInt8} (ha : (0 : UInt8) ∉ a)
      (hab : strnEqual (ofString a) (ofString b) n = true) (haLength : a.length < n) {k : ℕ}
      (hk : k ≤ a.length) : ofString a k = ofString b k :=
    strnEqual_iff.mp hab k (by omega) fun j hj => hne ha (by omega)
  -- The terminating zero of each string is where the other one ends.
  have hlength {a b : List UInt8} (ha : (0 : UInt8) ∉ a) (hb : (0 : UInt8) ∉ b)
      (hab : strnEqual (ofString a) (ofString b) n = true) (haLength : a.length < n) :
      b.length ≤ a.length := by
    by_contra hlt
    have hzero := hagree ha hab haLength le_rfl
    rw [hend] at hzero
    exact hne hb (by omega) hzero.symm
  have hequal : s.length = t.length :=
    le_antisymm (hlength ht hs (strnEqual_symm h) htLength) (hlength hs ht h hsLength)
  refine List.ext_getElem hequal fun k hk hk' => ?_
  have := hagree hs h hsLength hk.le
  rwa [ofString, ofString, List.getD_eq_getElem _ _ hk, List.getD_eq_getElem _ _ hk'] at this

/-! ## Copies without a bound -/

/-- `strcpy(dst, src)` from character `k` on: the destination has `size` bytes, and `n` more bytes
of the source may be read. -/
def strcpy (dst : Mem) (size : ℕ) (src : Mem) (k : ℕ) : ℕ → Except Fault Mem
  | 0 => .error .bounds
  | n + 1 => do
      inBounds (k < size)
      let dst := dst.setByte k (src k)
      if src k = 0 then return dst else strcpy dst size src (k + 1) n

/-- The first bytes of the memory. -/
def Starts (m : Mem) (bytes : List UInt8) : Prop :=
  ∀ k, ∀ hk : k < bytes.length, m k = bytes[k]

section Starts

variable {m : Mem} {s t bytes : List UInt8} {c : UInt8}

theorem starts_ofString (s : List UInt8) : (ofString s).Starts (s ++ [0]) := by
  intro k hk
  rw [List.length_append, List.length_singleton] at hk
  rw [ofString, List.getElem_append]
  split
  next hlt => exact List.getD_eq_getElem _ _ hlt
  next hge =>
    rw [List.getD_eq_default _ _ (not_lt.mp hge), List.getElem_singleton]

theorem Starts.left (h : m.Starts (s ++ t)) : m.Starts s := fun k hk => by
  rw [h k (by rw [List.length_append]; omega), List.getElem_append_left hk]

/-- The bytes behind the first ones. -/
theorem Starts.shift (h : m.Starts (s ++ t)) : (m.shift s.length).Starts t := fun k hk => by
  rw [shift_apply, h _ (by rw [List.length_append]; omega), List.getElem_append_right (by omega)]
  simp only [Nat.add_sub_cancel_left]

/-- The bytes behind one more. -/
theorem Starts.shift_succ (h : m.Starts (s ++ c :: t)) : (m.shift (s.length + 1)).Starts t := by
  rw [List.append_cons] at h
  have hshift := h.shift
  rwa [List.length_append, List.length_singleton] at hshift

/-- The byte behind the first ones. -/
theorem Starts.getByte (h : m.Starts (s ++ c :: t)) : m s.length = c := by
  rw [h s.length (by simp), List.getElem_append_right le_rfl]
  simp

/-- A byte is replaced. -/
theorem Starts.setByte (h : m.Starts (s ++ c :: t)) (b : UInt8) :
    (m.setByte s.length b).Starts (s ++ b :: t) := by
  intro k hk
  rw [List.length_append, List.length_cons] at hk
  by_cases hequal : k = s.length
  · subst hequal
    rw [setByte_self, List.getElem_append_right le_rfl]
    simp
  · rw [setByte_of_ne m b hequal, h k (by rw [List.length_append, List.length_cons]; omega),
      List.getElem_append, List.getElem_append]
    split
    next => rfl
    next hge =>
      obtain ⟨j, hj⟩ : ∃ j, k - s.length = j + 1 := ⟨k - s.length - 1, by omega⟩
      simp only [hj, List.getElem_cons_succ]

/-- The first byte is replaced. -/
theorem Starts.setByte_zero (h : m.Starts bytes) (hne : bytes ≠ []) (b : UInt8) :
    ∃ t, (m.setByte 0 b).Starts ([] ++ b :: t) := by
  cases bytes with
  | nil => exact absurd rfl hne
  | cons c t => exact ⟨t, Starts.setByte (s := []) h b⟩

/-- A byte is added. -/
theorem Starts.push (h : m.Starts s) (b : UInt8) : (m.setByte s.length b).Starts (s ++ [b]) := by
  intro k hk
  rw [List.length_append, List.length_singleton] at hk
  rw [List.getElem_append]
  split
  next hlt => rw [setByte_of_ne m b hlt.ne, h k hlt]
  next hge =>
    obtain rfl : k = s.length := by omega
    simp [setByte_self]

/-- Memory that starts with a string and its terminating zero. -/
theorem Starts.cString_eq (h : m.Starts (s ++ 0 :: t)) (hzero : (0 : UInt8) ∉ s) {n : ℕ}
    (hn : s.length < n) : m.cString 0 n = s := by
  refine Mem.cString_eq hzero hn (fun j hj => ?_) ?_
  · rw [Nat.zero_add]
    exact h.left j hj
  · rw [Nat.zero_add]
    exact h.getByte

/-- **`strcpy`** copies the string, or leaves the destination. -/
theorem strcpy_eq {src : Mem} (h : src.Starts (s ++ 0 :: t)) (hzero : (0 : UInt8) ∉ s)
    (dst : Mem) (size : ℕ) {n : ℕ} (hn : s.length < n) :
    if s.length < size then
      ∃ dst', strcpy dst size src 0 n = .ok dst' ∧ dst'.Starts (s ++ [0])
    else strcpy dst size src 0 n = .error .bounds := by
  -- The first characters are copied already.
  suffices hrest : ∀ (rest done : List UInt8) (dst : Mem) (n : ℕ), s = done ++ rest →
      done.length ≤ size → rest.length < n → dst.Starts done →
      if s.length < size then
        ∃ dst', strcpy dst size src done.length n = .ok dst' ∧ dst'.Starts (s ++ [0])
      else strcpy dst size src done.length n = .error .bounds from
    hrest s [] dst n rfl (Nat.zero_le _) hn fun k hk => absurd hk (Nat.not_lt_zero k)
  intro rest
  induction rest with
  | nil =>
      rintro done dst n rfl hsize hn hdst
      obtain ⟨n, rfl⟩ : ∃ k, n = k + 1 := ⟨n - 1, by rw [List.length_nil] at hn; omega⟩
      rw [List.append_nil] at h ⊢
      rw [strcpy, h.getByte]
      split
      next hlt =>
        rw [inBounds_of hlt]
        exact ⟨_, rfl, hdst.push 0⟩
      next hge =>
        rw [inBounds, if_neg hge]
        rfl
  | cons c rest ih =>
      rintro done dst n rfl hsize hn hdst
      obtain ⟨n, rfl⟩ : ∃ k, n = k + 1 := ⟨n - 1, by rw [List.length_cons] at hn; omega⟩
      have hc : c ≠ 0 := by
        rintro rfl
        exact hzero (by simp)
      have hbyte : src done.length = c := by
        rw [List.append_assoc] at h
        exact h.getByte
      rw [strcpy, hbyte]
      by_cases hlt : done.length < size
      · have hsplit : done ++ c :: rest = (done ++ [c]) ++ rest := by simp
        rw [inBounds_of hlt, Except.ok_bind, if_neg hc]
        have hnext := ih (done ++ [c]) (dst.setByte done.length c) n hsplit
          (by rw [List.length_append, List.length_singleton]; omega)
          (by rw [List.length_cons] at hn; omega) (hdst.push c)
        rwa [show (done ++ [c]).length = done.length + 1 from List.length_append] at hnext
      · rw [if_neg (by rw [List.length_append]; omega), inBounds, if_neg hlt]
        rfl

end Starts

end Mem

end Nachos.Base
