/-
# Strings from the console

`SynchConsole::SynchGetString` and the case `SC_GetString` of `ExceptionHandler`. The loop
reads up to `n` characters and puts the terminating zero behind them, while `fgets` leaves
room for the zero by reading `n - 1`; the copy to the program then has room for `n - 1` of
the `n` characters. A line end among the first `n - 1` characters hides both.

The console is seen through the results of the successive calls of `SynchGetChar`: a
character, or nothing where it returns `EOF`, which `SynchGetString` stores as a character.
-/

import Mathlib.Data.List.Basic
import Nachos.Base.Trace
import Nachos.Userprog.ConsoleInput
import Nachos.Userprog.StringRoundTrip

namespace Nachos

open Base
open Synch (EOF)

/-- The results of the calls of `SynchGetChar`, from the first one on. -/
abbrev CharStream := ℕ → Option UInt8

namespace CharStream

variable (input : CharStream)

/-- The result of the call at `pos`, as a `char`. -/
def charAt (pos : ℕ) : UInt8 := (input pos).getD EOF

/-- The characters after which `SynchGetString` reads no other. -/
def Stops (c : UInt8) : Prop := c = EOF ∨ c = 10 ∨ c = 0

instance (c : UInt8) : Decidable (Stops c) := inferInstanceAs (Decidable (_ ∨ _ ∨ _))

/-- The loop of `SynchGetString` at the index `i`, with `rounds` rounds left before the bound
on `i` ends it. Results in the index, the string and what is read next. -/
def getStringLoop (s : Mem) (pos i : ℕ) : ℕ → ℕ × Mem × ℕ
  | 0 => (i, s, pos)
  | rounds + 1 =>
      if Stops (s i) then (i, s, pos)
      else getStringLoop (s.setByte (i + 1) (input.charAt pos)) (pos + 1) (i + 1) rounds

/-- `SynchConsole::SynchGetString`. -/
def synchGetString (pos : ℕ) (s : Mem) (n : ℤ) : Mem × ℕ :=
  if n = 0 then (s, pos)
  else if n = 1 then (s.setByte 0 0, pos)
  else
    let (i, s, pos) := input.getStringLoop (s.setByte 0 (input.charAt pos)) (pos + 1) 0 (n - 1).toNat
    (s.setByte (i + 1) 0, pos)

/-- `case SC_GetString`; `string` is what the array on the kernel stack holds, which is taken to
have room for it. -/
def getStringCase (string : Mem) (m : Machine) (pos : ℕ) : Except Fault (Machine × ℕ) := do
  let to_ := m.readRegister (reg 4)
  let size := m.readRegister (reg 5)
  let (string, pos) := input.synchGetString pos string size.toInt
  let m ← m.copyStringToMachine string to_ size
  return (m, pos)

/-- The number of characters read, at most `n`. -/
def charsRead (pos : ℕ) : ℕ → ℕ
  | 0 => 0
  | n + 1 => if Stops (input.charAt pos) then 1 else charsRead (pos + 1) n + 1

/-- Reading stops at one of the next `n` characters. -/
def StopsWithin (pos n : ℕ) : Prop := ∃ j < n, Stops (input.charAt (pos + j))

theorem charsRead_le (pos n : ℕ) : input.charsRead pos n ≤ n := by
  induction n generalizing pos with
  | zero => exact le_rfl
  | succ n ih =>
      rw [charsRead]
      split
      · omega
      · exact Nat.succ_le_succ (ih _)

theorem charsRead_pos (pos : ℕ) {n : ℕ} (hn : 0 < n) : 0 < input.charsRead pos n := by
  cases n with
  | zero => omega
  | succ n =>
      rw [charsRead]
      split <;> omega

/-- Nothing stops before the last character that is read, and if there are fewer than `n`,
that one does. -/
theorem charsRead_spec (pos n : ℕ) :
    (∀ j, j + 1 < input.charsRead pos n → ¬ Stops (input.charAt (pos + j))) ∧
      (input.charsRead pos n < n → Stops (input.charAt (pos + (input.charsRead pos n - 1)))) := by
  induction n generalizing pos with
  | zero =>
      refine ⟨fun j hj => ?_, fun h => ?_⟩
      · rw [charsRead] at hj
        omega
      · omega
  | succ n ih =>
      rw [charsRead]
      by_cases hstop : Stops (input.charAt pos)
      · rw [if_pos hstop]
        exact ⟨fun j hj => by omega, fun _ => hstop⟩
      · rw [if_neg hstop]
        obtain ⟨hbefore, hlast⟩ := ih (pos + 1)
        refine ⟨fun j hj => ?_, fun h => ?_⟩
        · cases j with
          | zero => exact hstop
          | succ j =>
              rw [Nat.add_comm j 1, ← Nat.add_assoc]
              exact hbefore j (by omega)
        · have hpos := input.charsRead_pos (pos + 1) (n := n) (by omega)
          have hplace : pos + (input.charsRead (pos + 1) n + 1 - 1) =
              pos + 1 + (input.charsRead (pos + 1) n - 1) := by omega
          rw [hplace]
          exact hlast (by omega)

/-- There is room for the zero exactly if reading stops before the bound is reached. -/
theorem charsRead_lt_iff {pos n : ℕ} (hn : 0 < n) :
    input.charsRead pos n < n ↔ input.StopsWithin pos (n - 1) := by
  obtain ⟨hbefore, hlast⟩ := input.charsRead_spec pos n
  constructor
  · intro hlt
    have hpos := input.charsRead_pos pos hn
    exact ⟨_, by omega, hlast hlt⟩
  · rintro ⟨j, hj, hstop⟩
    by_contra hlt
    exact hbefore j (by omega) hstop

/-- **The loop** puts the characters one after the other. -/
theorem getStringLoop_eq {s : Mem} {pos i : ℕ} (rounds : ℕ) (hs : s i = input.charAt pos) :
    ∃ s', input.getStringLoop s (pos + 1) i rounds =
        (i + (input.charsRead pos (rounds + 1) - 1), s',
          pos + input.charsRead pos (rounds + 1)) ∧
      (∀ j < input.charsRead pos (rounds + 1), s' (i + j) = input.charAt (pos + j)) ∧
      ∀ k, k < i ∨ i + input.charsRead pos (rounds + 1) ≤ k → s' k = s k := by
  induction rounds generalizing s pos i with
  | zero =>
      have hone : input.charsRead pos 1 = 1 := by
        rw [charsRead, charsRead]
        split <;> rfl
      rw [hone]
      refine ⟨s, rfl, fun j hj => ?_, fun _ _ => rfl⟩
      obtain rfl : j = 0 := by omega
      exact hs
  | succ rounds ih =>
      rw [getStringLoop, charsRead, hs]
      by_cases hstop : Stops (input.charAt pos)
      · rw [if_pos hstop, if_pos hstop]
        refine ⟨s, rfl, fun j hj => ?_, fun _ _ => rfl⟩
        obtain rfl : j = 0 := by omega
        exact hs
      · rw [if_neg hstop, if_neg hstop]
        obtain ⟨s', hloop, hchars, hframe⟩ := ih
          (Mem.setByte_self s (i + 1) (input.charAt (pos + 1)))
        have hpos := input.charsRead_pos (pos + 1) (n := rounds + 1) (by omega)
        refine ⟨s', ?_, fun j hj => ?_, fun k hk => ?_⟩
        · have hindex : i + 1 + (input.charsRead (pos + 1) (rounds + 1) - 1) =
              i + (input.charsRead (pos + 1) (rounds + 1) + 1 - 1) := by omega
          rw [hloop, hindex, Nat.add_assoc pos, Nat.add_comm 1]
        · cases j with
          | zero =>
              rw [Nat.add_zero, hframe i (by omega), Mem.setByte_of_ne _ _ (by omega)]
              exact hs
          | succ j =>
              rw [Nat.add_comm j 1, ← Nat.add_assoc, ← Nat.add_assoc]
              exact hchars j (by omega)
        · rw [hframe k (by omega)]
          exact Mem.setByte_of_ne _ _ (by omega)

/-- **`SynchGetString`** with room for two bytes or more: the characters, and a zero behind
them. -/
theorem synchGetString_eq (pos : ℕ) (s : Mem) {n : ℕ} (hn : 2 ≤ n) :
    ∃ s', input.synchGetString pos s n = (s', pos + input.charsRead pos n) ∧
      (∀ j < input.charsRead pos n, s' j = input.charAt (pos + j)) ∧
      s' (input.charsRead pos n) = 0 ∧
      ∀ k, input.charsRead pos n < k → s' k = s k := by
  obtain ⟨s', hloop, hchars, hframe⟩ := input.getStringLoop_eq (n - 1)
    (Mem.setByte_self s 0 (input.charAt pos))
  have hpos := input.charsRead_pos pos (n := n) (by omega)
  rw [show n - 1 + 1 = n by omega] at hloop hchars hframe
  simp only [Nat.zero_add] at hloop hchars hframe
  have hindex : input.charsRead pos n - 1 + 1 = input.charsRead pos n := by omega
  refine ⟨s'.setByte (input.charsRead pos n) 0, ?_, fun j hj => ?_, Mem.setByte_self _ _ _,
    fun k hk => ?_⟩
  · rw [synchGetString, if_neg (by omega), if_neg (by omega),
      show ((n : ℤ) - 1).toNat = n - 1 by omega, hloop]
    dsimp only
    rw [hindex]
  · rw [Mem.setByte_of_ne _ _ (by omega)]
    exact hchars j hj
  · rw [Mem.setByte_of_ne _ _ (by omega), hframe k (by omega)]
    exact Mem.setByte_of_ne _ _ (by omega)

/-! ## Bounds -/

/-- What is asked of one call: `SynchGetString` writes within its buffer and leaves a zero
there, and the handler writes within the buffer of the program. -/
structure Bounded (input : CharStream) (pos : ℕ) (size : BitVec 32) : Prop where
  buffer : ∀ s k, size.toNat ≤ k → (input.synchGetString pos s size.toInt).1 k = s k
  terminated : 1 ≤ size.toNat →
    ∀ s, ∃ k < size.toNat, (input.synchGetString pos s size.toInt).1 k = 0
  program : ∀ string m m' pos', m.registers (reg 5) = size →
    input.getStringCase string m pos = .ok (m', pos') →
      ∀ k, (∀ j < size.toNat, k ≠ m.physAddr (m.registers (reg 4) + BitVec.ofNat 32 j)) →
        m'.mainMemory k = m.mainMemory k

theorem toInt_eq_toNat {size : BitVec 32} (hsize : size.toNat < 2 ^ 31) :
    size.toInt = size.toNat := BitVec.toInt_eq_toNat_of_lt (by omega)

variable {input}

/-- A call of `SC_GetString`. -/
theorem getStringCase_eq_ok {string : Mem} {m m' : Machine} {pos pos' : ℕ}
    (h : input.getStringCase string m pos = .ok (m', pos')) :
    m.copyStringToMachine
        (input.synchGetString pos string (m.registers (reg 5)).toInt).1
        (m.registers (reg 4)) (m.registers (reg 5)) = .ok m' ∧
      pos' = (input.synchGetString pos string (m.registers (reg 5)).toInt).2 := by
  obtain ⟨m₁, hcopy, hresult⟩ := Except.bind_eq_ok.mp h
  cases hresult
  exact ⟨hcopy, rfl⟩

/-- The handler keeps to a buffer that is not empty. -/
theorem program_of_pos {string : Mem} {m m' : Machine} {pos pos' : ℕ}
    (hsize : 0 < (m.registers (reg 5)).toNat)
    (h : input.getStringCase string m pos = .ok (m', pos')) {k : ℕ}
    (hk : ∀ j < (m.registers (reg 5)).toNat,
      k ≠ m.physAddr (m.registers (reg 4) + BitVec.ofNat 32 j)) :
    m'.mainMemory k = m.mainMemory k :=
  Machine.copyStringToMachine_frame hsize (getStringCase_eq_ok h).1 k hk

/-- A machine with one page, full of ones. -/
def onePage : Machine where
  registers := fun _ => 0
  mainMemory := fun _ => 1
  pageTable := fun i => ⟨i, 0, true, false, false, false⟩
  pageTableSize := 1

/-- With an empty buffer a zero is written to the program all the same. -/
theorem not_program_of_zero (input : CharStream) (pos : ℕ) :
    ∃ m' pos', input.getStringCase (fun _ => 0) onePage pos = .ok (m', pos') ∧
      m'.mainMemory 0 ≠ onePage.mainMemory 0 := by
  refine ⟨_, _, rfl, ?_⟩
  decide

/-- A call that finds room for the zero. -/
theorem synchGetString_within {pos n : ℕ} (s : Mem)
    (h : n = 1 ∨ 2 ≤ n ∧ input.StopsWithin pos (n - 1)) :
    (∃ k < n, (input.synchGetString pos s n).1 k = 0) ∧
      ∀ k, n ≤ k → (input.synchGetString pos s n).1 k = s k := by
  obtain rfl | ⟨htwo, hstops⟩ := h
  · have hget : input.synchGetString pos s (1 : ℕ) = (s.setByte 0 0, pos) := rfl
    rw [hget]
    exact ⟨⟨0, Nat.one_pos, Mem.setByte_self s 0 0⟩, fun k hk => Mem.setByte_of_ne s 0 (by omega)⟩
  · rw [← input.charsRead_lt_iff (by omega)] at hstops
    obtain ⟨s', hget, -, hzero, hframe⟩ := input.synchGetString_eq pos s htwo
    rw [hget]
    exact ⟨⟨_, by omega, hzero⟩, fun k hk => hframe k (by omega)⟩

/-- **When a call keeps its bounds.** -/
theorem bounded_iff (input : CharStream) (pos : ℕ) {size : BitVec 32}
    (hsize : size.toNat < 2 ^ 31) :
    input.Bounded pos size ↔
      size.toNat = 1 ∨ 2 ≤ size.toNat ∧ input.StopsWithin pos (size.toNat - 1) := by
  have hint := toInt_eq_toNat hsize
  constructor
  · rintro ⟨hbuffer, -, hprogram⟩
    rw [hint] at hbuffer
    obtain hzero | hone | htwo : size.toNat = 0 ∨ size.toNat = 1 ∨ 2 ≤ size.toNat := by omega
    · exfalso
      obtain ⟨m', pos', hcase, hne⟩ := not_program_of_zero input pos
      have hsize0 : size = 0 := BitVec.eq_of_toNat_eq hzero
      exact hne (hprogram _ onePage m' pos' hsize0.symm hcase 0 fun j hj => by omega)
    · exact Or.inl hone
    · refine Or.inr ⟨htwo, ?_⟩
      rw [← input.charsRead_lt_iff (by omega)]
      -- Otherwise a zero is put behind the buffer.
      by_contra hfull
      have hle := input.charsRead_le pos size.toNat
      obtain ⟨s', hget, -, hzero, -⟩ := input.synchGetString_eq pos (fun _ => 1) htwo
      have hkept := hbuffer (fun _ => 1) (input.charsRead pos size.toNat) (by omega)
      rw [hget] at hkept
      cases hzero.symm.trans hkept
  · intro h
    have hpos : 0 < size.toNat := by omega
    refine ⟨fun s k hk => ?_, fun _ s => ?_, fun string m m' pos' hreg hcase k hk => ?_⟩
    · rw [hint]
      exact (synchGetString_within s h).2 k hk
    · rw [hint]
      exact (synchGetString_within s h).1
    · subst hreg
      exact program_of_pos hpos hcase hk

/-! ## Characters that are delivered -/

/-- No character of the stream is a zero or looks like `EOF`. -/
def Clean (input : CharStream) : Prop := ∀ pos c, input pos = some c → c ≠ 0 ∧ c ≠ EOF

/-- The characters that were consumed from `p` on before `q`. -/
def consumed (input : CharStream) (p q : ℕ) : List UInt8 :=
  (List.range' p (q - p)).filterMap input

/-- What was read from `p` on before `q`, with the ends of the file. -/
def chars (input : CharStream) (p q : ℕ) : List UInt8 := (List.range' p (q - p)).map input.charAt

/-- The string in the memory of the program. -/
def deliveredString (m : Machine) (to_ : BitVec 32) (n : ℕ) : List UInt8 :=
  Mem.cString (fun j => (m.userByte (to_ + BitVec.ofNat 32 j)).getD 0) 0 n

theorem charAt_ne_zero (hclean : input.Clean) (pos : ℕ) : input.charAt pos ≠ 0 := by
  rw [charAt]
  cases hpos : input pos with
  | none => decide
  | some c => exact (hclean pos c hpos).1

/-- **One call delivers the characters it has read**, if reading stopped in time. -/
theorem deliveredString_eq (hclean : input.Clean) {string : Mem} {m m' : Machine} {pos pos' : ℕ}
    (hsize : 2 ≤ (m.registers (reg 5)).toNat) (hint : (m.registers (reg 5)).toNat < 2 ^ 31)
    (hrange : m.WritableRange (m.registers (reg 4)) (m.registers (reg 5)).toNat)
    (hstops : input.StopsWithin pos ((m.registers (reg 5)).toNat - 1))
    (h : input.getStringCase string m pos = .ok (m', pos')) :
    pos' = pos + input.charsRead pos (m.registers (reg 5)).toNat ∧
      deliveredString m' (m.registers (reg 4)) (m.registers (reg 5)).toNat =
        input.chars pos pos' := by
  obtain ⟨hcopy, hpos'⟩ := getStringCase_eq_ok h
  rw [toInt_eq_toNat hint] at hcopy hpos'
  set to_ := m.registers (reg 4) with hto
  set size := m.registers (reg 5) with hsizeEq
  obtain ⟨s', hget, hchars, hzero, -⟩ := input.synchGetString_eq pos string hsize
  rw [hget] at hcopy hpos'
  dsimp only at hcopy hpos'
  rw [← input.charsRead_lt_iff (by omega)] at hstops
  have hlen : s'.strnlen (size.toNat - 1) = input.charsRead pos size.toNat := by
    refine Mem.strnlen_eq (by omega) (fun j hj => ?_) fun _ => hzero
    rw [hchars j hj]
    exact charAt_ne_zero hclean _
  obtain ⟨m₁, hcopy₁, hsame, -, hbytes, hterm, -⟩ :=
    Machine.copyStringToMachine_of_range s' to_ size (by omega) hrange
  obtain rfl := Except.ok.inj (hcopy.symm.trans hcopy₁)
  rw [hlen] at hbytes hterm
  refine ⟨hpos', ?_⟩
  have hlength : (input.chars pos pos').length = input.charsRead pos size.toNat := by
    rw [chars, List.length_map, List.length_range', hpos']
    omega
  have hfound : ∀ j < size.toNat, m'.userByte (to_ + BitVec.ofNat 32 j) =
      some (m'.mainMemory (m.physAddr (to_ + BitVec.ofNat 32 j))) := by
    intro j hj
    rw [(hrange.of_sameMapping hsame).userByte hj, hsame.physAddr]
  refine Mem.cString_eq ?_ (by omega) (fun j hj => ?_) ?_
  · rw [chars, List.mem_map]
    rintro ⟨k, -, hk⟩
    exact charAt_ne_zero hclean k hk
  · rw [hlength] at hj
    rw [Nat.zero_add, hfound j (by omega), Option.getD_some, hbytes j hj, hchars j hj]
    simp [chars]
  · rw [Nat.zero_add, hlength, hfound _ (by omega), Option.getD_some, hterm]

/-! ## Sequences of calls -/

/-- A call of `SC_GetString`, with the machine before and after it. -/
structure GetCall where
  before : Machine
  /-- What the array on the stack holds. -/
  string : Mem
  after : Machine

namespace GetCall

/-- The address of the buffer. -/
def to_ (call : GetCall) : BitVec 32 := call.before.registers (reg 4)

/-- The size of the buffer. -/
def size (call : GetCall) : BitVec 32 := call.before.registers (reg 5)

/-- The string that the program gets. -/
def delivered (call : GetCall) : List UInt8 :=
  deliveredString call.after call.to_ call.size.toNat

/-- The program has a buffer of two bytes or more. -/
def HasBuffer (call : GetCall) : Prop :=
  2 ≤ call.size.toNat ∧ call.before.WritableRange call.to_ call.size.toNat

end GetCall

/-- A call that returns. Between the calls the program does what it likes. -/
def Step (input : CharStream) (pos : ℕ) (call : GetCall) (pos' : ℕ) : Prop :=
  input.getStringCase call.string call.before pos = .ok (call.after, pos')

/-- The call finds the end of the file before it stops for another reason. -/
def MeetsEnd (input : CharStream) (pos : ℕ) (size : BitVec 32) : Prop :=
  ∃ j < size.toNat - 1, input (pos + j) = none ∧ ∀ i < j, ¬ Stops (input.charAt (pos + i))

/-- What a call reads goes on where the one before has stopped. -/
theorem chars_append (input : CharStream) {p t q : ℕ} (hpt : p ≤ t) (htq : t ≤ q) :
    input.chars p q = input.chars p t ++ input.chars t q := by
  have h := List.range'_append_1 (s := p) (m := t - p) (n := q - t)
  rw [show p + (t - p) = t by omega, show t - p + (q - t) = q - p by omega] at h
  rw [chars, ← h, List.map_append]
  rfl

/-- **The calls deliver what they have read.** -/
theorem delivered_of_run (hclean : input.Clean) {p q : ℕ} {steps : List (Base.Step ℕ GetCall)}
    (hrun : Trace input.Step p steps q) (hint : ∀ x ∈ steps, x.label.size.toNat < 2 ^ 31)
    (hbuffer : ∀ x ∈ steps, x.label.HasBuffer)
    (hstops : ∀ x ∈ steps, input.StopsWithin x.before (x.label.size.toNat - 1)) :
    p ≤ q ∧ steps.flatMap (fun x => x.label.delivered) = input.chars p q ∧
      ∀ x ∈ steps, p ≤ x.before ∧ x.after ≤ q ∧
        x.after = x.before + input.charsRead x.before x.label.size.toNat := by
  induction hrun with
  | nil => exact ⟨le_rfl, by simp [chars], nofun⟩
  | @snoc t u steps call prior hstep ih =>
      obtain ⟨hle, hprior, hplaces⟩ := ih (fun x hx => hint x (List.mem_append_left _ hx))
        (fun x hx => hbuffer x (List.mem_append_left _ hx))
        (fun x hx => hstops x (List.mem_append_left _ hx))
      have hlast : (⟨t, call, u⟩ : Base.Step ℕ GetCall) ∈ steps ++ [⟨t, call, u⟩] := by simp
      obtain ⟨hpos, hdelivered⟩ := deliveredString_eq hclean (hbuffer _ hlast).1 (hint _ hlast)
        (hbuffer _ hlast).2 (hstops _ hlast) hstep
      have hle' : t ≤ u := hpos ▸ Nat.le_add_right _ _
      refine ⟨hle.trans hle', ?_, fun x hx => ?_⟩
      · rw [List.flatMap_append, hprior, List.flatMap_singleton, input.chars_append hle hle']
        exact congrArg _ hdelivered
      · rcases List.mem_append.mp hx with hx | hx
        · obtain ⟨hlow, hhigh, hafter⟩ := hplaces x hx
          exact ⟨hlow, hhigh.trans hle', hafter⟩
        · rw [List.mem_singleton.mp hx]
          exact ⟨hle, le_rfl, hpos⟩

/-- What was read is what was consumed, unless the file ended. -/
theorem chars_eq_consumed_iff {p q : ℕ} :
    input.chars p q = input.consumed p q ↔ ∀ pos, p ≤ pos → pos < q → input pos ≠ none := by
  have hmem : ∀ pos, pos ∈ List.range' p (q - p) ↔ p ≤ pos ∧ pos < q := by
    intro pos
    rw [List.mem_range'_1]
    omega
  constructor
  · intro heq pos hlow hhigh hnone
    have hlength := congrArg List.length heq
    rw [chars, consumed, List.length_map] at hlength
    have hsome := List.filterMap_length_eq_length.mp hlength.symm pos ((hmem pos).mpr ⟨hlow, hhigh⟩)
    rw [hnone] at hsome
    cases hsome
  · intro hsome
    rw [chars, consumed, ← List.filterMap_eq_map]
    apply List.filterMap_congr
    intro pos hpos
    obtain ⟨hlow, hhigh⟩ := (hmem pos).mp hpos
    obtain ⟨c, hc⟩ := Option.ne_none_iff_exists'.mp (hsome pos hlow hhigh)
    rw [Function.comp_apply, charAt, hc]
    rfl

/-- A call that stops in time consumes the end of the file only as the last thing. -/
theorem meetsEnd_iff {pos : ℕ} {size : BitVec 32} (hsize : 2 ≤ size.toNat)
    (hstops : input.StopsWithin pos (size.toNat - 1)) :
    input.MeetsEnd pos size ↔
      ∃ j < input.charsRead pos size.toNat, input (pos + j) = none := by
  obtain ⟨hbefore, hlast⟩ := input.charsRead_spec pos size.toNat
  have hpos := input.charsRead_pos pos (n := size.toNat) (by omega)
  constructor
  · rintro ⟨j, hj, hnone, hgoes⟩
    refine ⟨j, ?_, hnone⟩
    by_contra hle
    exact hgoes _ (by omega) (hlast (by omega))
  · rintro ⟨j, hj, hnone⟩
    rw [← input.charsRead_lt_iff (by omega)] at hstops
    have hend : Stops (input.charAt (pos + j)) := by
      rw [charAt, hnone]
      exact Or.inl rfl
    have hj' : j + 1 = input.charsRead pos size.toNat := by
      by_contra hne
      exact hbefore j (by omega) hend
    exact ⟨j, by omega, hnone, fun i hi => hbefore i (by omega)⟩

/-- What lies between the ends of a run lies in one of its steps. -/
theorem exists_step_of_mem {R : ℕ → GetCall → ℕ → Prop} {p q : ℕ}
    {steps : List (Base.Step ℕ GetCall)} (hrun : Trace R p steps q) {pos : ℕ} (hlow : p ≤ pos)
    (hhigh : pos < q) : ∃ x ∈ steps, x.before ≤ pos ∧ pos < x.after := by
  induction hrun with
  | nil => omega
  | @snoc t u steps call prior hstep ih =>
      by_cases hlt : pos < t
      · obtain ⟨x, hx, hplace⟩ := ih hlt
        exact ⟨x, List.mem_append_left _ hx, hplace⟩
      · exact ⟨⟨t, call, u⟩, by simp, not_lt.mp hlt, hhigh⟩

/-- **When `GetString` behaves like `fgets`.** -/
theorem likeFgets_iff {p q : ℕ} {steps : List (Base.Step ℕ GetCall)}
    (hrun : Trace input.Step p steps q) (hint : ∀ x ∈ steps, x.label.size.toNat < 2 ^ 31) :
    ((∀ x ∈ steps, input.Bounded x.before x.label.size) ∧
        (input.Clean → (∀ x ∈ steps, x.label.HasBuffer) →
          steps.flatMap (fun x => x.label.delivered) = input.consumed p q)) ↔
      (∀ x ∈ steps, x.label.size.toNat = 1 ∨
          2 ≤ x.label.size.toNat ∧ input.StopsWithin x.before (x.label.size.toNat - 1)) ∧
        (input.Clean → (∀ x ∈ steps, x.label.HasBuffer) →
          ∀ x ∈ steps, ¬ input.MeetsEnd x.before x.label.size) := by
  have hbounded : (∀ x ∈ steps, input.Bounded x.before x.label.size) ↔
      ∀ x ∈ steps, x.label.size.toNat = 1 ∨
        2 ≤ x.label.size.toNat ∧ input.StopsWithin x.before (x.label.size.toNat - 1) :=
    forall₂_congr fun x hx => bounded_iff input x.before (hint x hx)
  rw [hbounded]
  refine and_congr_right fun hstops => forall₂_congr fun hclean hbuffer => ?_
  have hwithin : ∀ x ∈ steps, input.StopsWithin x.before (x.label.size.toNat - 1) := by
    intro x hx
    have htwo := (hbuffer x hx).1
    exact ((hstops x hx).resolve_left (by omega)).2
  obtain ⟨hle, hdelivered, hplaces⟩ := delivered_of_run hclean hrun hint hbuffer hwithin
  rw [hdelivered, chars_eq_consumed_iff]
  constructor
  · intro hsome x hx hend
    obtain ⟨hlow, hhigh, hafter⟩ := hplaces x hx
    obtain ⟨j, hj, hnone⟩ := (meetsEnd_iff (hbuffer x hx).1 (hwithin x hx)).mp hend
    exact hsome (x.before + j) (by omega) (by omega) hnone
  · intro hends pos hlow hhigh hnone
    obtain ⟨x, hx, hbefore, hlt⟩ := exists_step_of_mem hrun hlow hhigh
    obtain ⟨-, -, hafter⟩ := hplaces x hx
    refine hends x hx ((meetsEnd_iff (hbuffer x hx).1 (hwithin x hx)).mpr ⟨pos - x.before, ?_, ?_⟩)
    · omega
    · rwa [show x.before + (pos - x.before) = pos by omega]

/-- The characters of a file, and then its end. -/
def ofText (text : List UInt8) : CharStream := fun pos => text[pos]?

/-- One page, and a buffer at its beginning. -/
def withBuffer (size : BitVec 32) : Machine :=
  { onePage with registers := fun r => if r = reg 5 then size else 0 }

/-- A call with the buffer. -/
def callFor (size : BitVec 32) (after : Machine) : GetCall := ⟨withBuffer size, fun _ => 0, after⟩

theorem hasBuffer_callFor (size : BitVec 32) (htwo : 2 ≤ size.toNat) (hsmall : size.toNat ≤ 128)
    (after : Machine) : (callFor size after).HasBuffer := by
  have hdist : (withBuffer size).FramesDistinct := by
    intro i hi j hj _ _ _
    have hi' : i < 1 := hi
    have hj' : j < 1 := hj
    omega
  refine ⟨htwo, .of_framesDistinct hdist (by omega) fun j hj => ?_⟩
  have hj' : j < size.toNat := hj
  have haddress : ((callFor size after).to_ + BitVec.ofNat 32 j).toNat = j := by
    show ((0 : BitVec 32) + BitVec.ofNat 32 j).toNat = j
    simp only [BitVec.ofNat_eq_ofNat, BitVec.zero_add, BitVec.toNat_ofNat]
    omega
  have hpage : ((callFor size after).to_ + BitVec.ofNat 32 j).toNat / PageSize = 0 := by
    rw [haddress, PageSize, SectorSize]
    omega
  refine ⟨?_, rfl, fun _ => rfl, ?_⟩
  · rw [hpage]
    exact Nat.one_pos
  · rw [hpage]
    exact (by decide : ((0 : ℤ) % 2 ^ 32).toNat < NumPhysPages)

/-- A line of two characters. -/
def line : CharStream := ofText [97, 98, 10]

theorem clean_line : line.Clean := by
  intro pos c hc
  have hmem := List.mem_of_getElem? hc
  simp only [List.mem_cons, List.not_mem_nil, or_false] at hmem
  rcases hmem with rfl | rfl | rfl <;> decide

/-- The line is read into a buffer of four bytes. -/
theorem likeFgets_four : ∃ after, line.Step 0 (callFor 4 after) 3 ∧
    line.Bounded 0 4 ∧ (callFor 4 after).delivered = [97, 98, 10] := by
  obtain ⟨after, hstep⟩ : ∃ after,
      line.getStringCase (fun _ => 0) (withBuffer 4) 0 = .ok (after, 3) := ⟨_, rfl⟩
  have hrun := (Trace.nil 0).snoc (show line.Step 0 (callFor 4 after) 3 from hstep)
  have hall {C : Base.Step ℕ GetCall → Prop} (h : C ⟨0, callFor 4 after, 3⟩) :
      ∀ x ∈ [] ++ [⟨0, callFor 4 after, 3⟩], C x := by simpa using h
  have hstops : line.StopsWithin 0 3 := ⟨2, by decide, by decide⟩
  have hends : ¬ line.MeetsEnd 0 4 := by
    rintro ⟨j, hj, hnone, -⟩
    have hj' : j < 3 := hj
    obtain rfl | rfl | rfl : j = 0 ∨ j = 1 ∨ j = 2 := by omega
    all_goals cases hnone
  have hbuffer := hasBuffer_callFor 4 (by decide) (by decide) after
  have hint : (callFor 4 after).size.toNat < 2 ^ 31 :=
    (by decide : (4 : BitVec 32).toNat < 2 ^ 31)
  obtain ⟨hbounded, hdelivered⟩ := (likeFgets_iff hrun (hall hint)).mpr
    ⟨hall (Or.inr ⟨hbuffer.1, hstops⟩), fun _ _ => hall hends⟩
  refine ⟨after, hstep, hbounded ⟨0, callFor 4 after, 3⟩ (by simp), ?_⟩
  have hstring := hdelivered clean_line (hall hbuffer)
  rw [List.nil_append, List.flatMap_singleton] at hstring
  exact hstring.trans (by decide)

/-- The same line and a buffer of two bytes: a zero is put behind it, and of the two
characters that are read one is delivered. -/
theorem not_likeFgets_two : ¬ ∀ (input : CharStream) (p q : ℕ) (steps : List (Base.Step ℕ GetCall)),
    Trace input.Step p steps q → (∀ x ∈ steps, x.label.size.toNat < 2 ^ 31) →
      (∀ x ∈ steps, input.Bounded x.before x.label.size) ∧
        (input.Clean → (∀ x ∈ steps, x.label.HasBuffer) →
          steps.flatMap (fun x => x.label.delivered) = input.consumed p q) := by
  intro hclaim
  obtain ⟨after, hstep, hstring⟩ : ∃ after,
      line.getStringCase (fun _ => 0) (withBuffer 2) 0 = .ok (after, 2) ∧
        (callFor 2 after).delivered = [97] := ⟨_, rfl, by decide⟩
  have hrun := (Trace.nil 0).snoc (show line.Step 0 (callFor 2 after) 2 from hstep)
  have hbuffer := hasBuffer_callFor 2 (by decide) (by decide) after
  have hall {C : Base.Step ℕ GetCall → Prop} (h : C ⟨0, callFor 2 after, 2⟩) :
      ∀ x ∈ [] ++ [⟨0, callFor 2 after, 2⟩], C x := by simpa using h
  have hint : (callFor 2 after).size.toNat < 2 ^ 31 :=
    (by decide : (2 : BitVec 32).toNat < 2 ^ 31)
  have hdelivered := (hclaim line 0 2 _ hrun (hall hint)).2 clean_line (hall hbuffer)
  rw [List.nil_append, List.flatMap_singleton, hstring] at hdelivered
  exact absurd hdelivered (by decide)

end CharStream

end Nachos
