/-
# Console input

The input side of `Console` (`machine/console.cc`) and of `SynchConsole`
(`userprog/synchconsole.cc`). A poll interrupt puts the next character of the keyboard file into
`incoming` and gives the semaphore `readAvail` a unit; `SynchGetChar` takes the unit, then the
character. `incoming` is a `char` and `EOF` says that it is empty, so a unit stands for a full
buffer as long as no character looks like `EOF`. The character `0xFF` does: the buffer that
holds it counts as empty, so it is overwritten, and who reads it is told that the file has ended.

Interrupts come only where the simulated clock moves, so a call of `CheckCharAvail` or `GetChar`
is one step. The keyboard is a file or a terminal: `PollFile` may say at any time that there is
nothing to read yet.
-/

import Nachos.Threads.Lock

namespace Nachos.Synch

open Base

/-- `EOF`, as a `char`. -/
def EOF : UInt8 := 0xff

/-- `class Console`, the part that reads, with what is left of the keyboard file. -/
structure InputDevice where
  input : List UInt8
  incoming : UInt8
  eof : Bool
  deriving DecidableEq, Repr

namespace InputDevice

/-- `Console::Console`. -/
def new (stream : List UInt8) : InputDevice := ⟨stream, EOF, false⟩

/-- `Console::CheckCharAvail`, where `polled` is the result of `PollFile`. Without a result the
handler is not called. -/
def checkCharAvail (console : InputDevice) (polled : Bool) : Option InputDevice :=
  if console.incoming ≠ EOF ∨ polled = false then none
  else
    match console.input with
    | [] => some { console with incoming := EOF }
    | c :: input => some { console with input := input, incoming := c }

/-- `Console::GetChar`. -/
def getChar (console : InputDevice) : UInt8 × InputDevice :=
  (console.incoming,
    { console with incoming := EOF, eof := console.eof || decide (console.incoming = EOF) })

end InputDevice

/-- Where a thread is in `SynchGetChar`; `inString` says that `SynchGetString` has called it. -/
inductive ReaderPc
  | away
  /-- At the call of `threadRead->Acquire()`. -/
  | acquire (inString : Bool)
  /-- In `threadRead->Acquire()`. -/
  | acquiring (inString : Bool)
  /-- At `readAvail->P()`. -/
  | wait (inString : Bool)
  /-- At `console->GetChar()`. -/
  | get (inString : Bool)
  /-- With a character. -/
  | got (inString : Bool)
  /-- In `threadRead->Release()`. -/
  | releasing
  deriving DecidableEq, Repr

/-- A thread as a reader of the console. -/
structure ReaderThread where
  lock : LockThread
  pc : ReaderPc
  deriving DecidableEq, Repr

/-- The thread has taken a unit of `readAvail` and not yet the character. -/
def ReaderThread.atGet (t : ReaderThread) : Bool :=
  match t.pc with
  | .get _ => true
  | _ => false

/-- The console and the threads that read from it. -/
structure InputRun (ι : Type) where
  console : InputDevice
  /-- The lock `threadRead`. -/
  lock : Lock
  readAvail : ℕ
  threads : ι → ReaderThread
  /-- The results of `GetChar`, with the threads that got them. -/
  delivered : List (ι × UInt8)

/-- What happens next: a poll interrupt, the call of a function, or the next step of a thread.
`again` matters in the loop of `SynchGetString`: whether another character is read. -/
inductive InputAct (ι : Type)
  | poll (polled : Bool)
  | call (i : ι) (inString : Bool)
  | step (i : ι) (again : Bool)
  deriving DecidableEq, Repr

namespace InputRun

variable {ι : Type}

/-- A new console, with the given bytes on the keyboard file. -/
def start (stream : List UInt8) : InputRun ι :=
  ⟨.new stream, Lock.new, 0, fun _ => ⟨LockThread.new, .away⟩, []⟩

/-- The poll interrupt: with a result the handler calls `readAvail->V()`. -/
def poll (st : InputRun ι) (polled : Bool) : InputRun ι :=
  match st.console.checkCharAvail polled with
  | none => st
  | some console => { st with console := console, readAvail := Units.V st.readAvail }

variable [DecidableEq ι]

/-- Thread `i` goes on to `pc` without a step in the lock. -/
def goto (st : InputRun ι) (i : ι) (pc : ReaderPc) : InputRun ι :=
  { st with threads := Function.update st.threads i ⟨(st.threads i).lock, pc⟩ }

/-- A step of thread `i` in the lock; it comes to `next`. -/
def lockStep (tid : ι → ℤ) (st : InputRun ι) (i : ι) (act : LockAct)
    (next : LockThread → ReaderPc) : Option (InputRun ι) :=
  ((st.threads i).lock.exec (tid i) st.lock act).map fun (l, t) =>
    { st with lock := l, threads := Function.update st.threads i ⟨t, next t⟩ }

/-- `console->GetChar()` of thread `i`. -/
def get (st : InputRun ι) (i : ι) (inString : Bool) : InputRun ι :=
  { st.goto i (.got inString) with
    console := st.console.getChar.2
    delivered := st.delivered ++ [(i, st.console.getChar.1)] }

/-- One step. -/
def exec (tid : ι → ℤ) (st : InputRun ι) : InputAct ι → Option (InputRun ι)
  | .poll polled => some (st.poll polled)
  | .call i inString =>
      match (st.threads i).pc with
      | .away => some (st.goto i (.acquire inString))
      | _ => none
  | .step i again =>
      match (st.threads i).pc with
      | .away => none
      | .acquire inString => st.lockStep tid i .acquire fun _ => .acquiring inString
      | .acquiring inString =>
          st.lockStep tid i .step fun t =>
            if t.pc = .away then .wait inString else .acquiring inString
      | .wait inString =>
          (Units.P st.readAvail).map fun units =>
            { st.goto i (.get inString) with readAvail := units }
      | .get inString => some (st.get i inString)
      | .got inString =>
          if inString && again then some (st.goto i (.wait true))
          else st.lockStep tid i .release fun _ => .releasing
      | .releasing =>
          st.lockStep tid i .step fun t => if t.pc = .away then .away else .releasing

/-- The runs of any threads that read from the console. -/
def Run (tid : ι → ℤ) (st : InputRun ι) (steps : List (Step (InputRun ι) (InputAct ι)))
    (st' : InputRun ι) : Prop :=
  Trace (fun s act t => exec tid s act = some t) st steps st'

/-- Everything a step can do to the console and to who may read from it. -/
inductive Move (st : InputRun ι) : InputRun ι → Prop
  | poll (polled : Bool) : Move st (st.poll polled)
  | other {i : ι} {l : Lock} {t : ReaderThread} : (st.threads i).atGet = false → t.atGet = false →
      Move st { st with lock := l, threads := Function.update st.threads i t }
  | pass {i : ι} (inString : Bool) : 0 < st.readAvail →
      Move st { st.goto i (.get inString) with readAvail := st.readAvail - 1 }
  | get {i : ι} (inString : Bool) : (st.threads i).atGet = true → Move st (st.get i inString)

variable {tid : ι → ℤ} {st st' : InputRun ι} {i : ι}

theorem move_of_lockStep {act : LockAct} {next : LockThread → ReaderPc}
    (hpc : (st.threads i).atGet = false) (hnext : ∀ t, (⟨t, next t⟩ : ReaderThread).atGet = false)
    (h : st.lockStep tid i act next = some st') : Move st st' := by
  obtain ⟨⟨l, t⟩, -, rfl⟩ := Option.map_eq_some_iff.mp h
  exact .other hpc (hnext t)

theorem move_of_exec {act : InputAct ι} (h : st.exec tid act = some st') : Move st st' := by
  cases act with
  | poll polled =>
      cases h
      exact .poll polled
  | call i inString =>
      simp only [exec] at h
      split at h
      next hpc =>
        cases h
        exact .other (l := st.lock) (by rw [ReaderThread.atGet, hpc]) rfl
      next => cases h
  | step i again =>
      simp only [exec] at h
      split at h
      next => cases h
      next hpc => exact move_of_lockStep (by rw [ReaderThread.atGet, hpc]) (fun _ => rfl) h
      next hpc =>
        refine move_of_lockStep (by rw [ReaderThread.atGet, hpc]) (fun t => ?_) h
        by_cases haway : t.pc = .away
        · rw [if_pos haway]
          rfl
        · rw [if_neg haway]
          rfl
      next inString hpc =>
        obtain ⟨units, hunits, rfl⟩ := Option.map_eq_some_iff.mp h
        obtain ⟨hpos, rfl⟩ := Units.P_eq_some.mp hunits
        exact .pass inString hpos
      next inString hpc =>
        cases h
        exact .get inString (by rw [ReaderThread.atGet, hpc])
      next inString hpc =>
        split at h
        · cases h
          exact .other (l := st.lock) (by rw [ReaderThread.atGet, hpc]) rfl
        · exact move_of_lockStep (by rw [ReaderThread.atGet, hpc]) (fun _ => rfl) h
      next hpc =>
        refine move_of_lockStep (by rw [ReaderThread.atGet, hpc]) (fun t => ?_) h
        by_cases haway : t.pc = .away
        · rw [if_pos haway]
          rfl
        · rw [if_neg haway]
          rfl

/-! ## What the readers get -/

/-- The characters that were returned, in order. -/
def characters (st : InputRun ι) : List UInt8 := st.delivered.map Prod.snd

/-- The input is delivered as it is on the keyboard file. -/
structure Faithful (stream : List UInt8) (st : InputRun ι) : Prop where
  /-- The bytes of the stream in order, and `EOF` behind them. -/
  inOrder : st.characters <+: stream ∨ ∃ k, st.characters = stream ++ List.replicate k EOF
  /-- `Feof` is true only after a read for which no byte was left. -/
  feof : st.console.eof = true → stream.length < st.characters.length

/-- As long as the file has not ended, a unit of `readAvail` or a thread that has taken one stands
for a full buffer. -/
inductive Inv (stream : List UInt8) (st : InputRun ι) : Prop
  | empty : st.console.eof = false → st.console.incoming = EOF → st.readAvail = 0 →
      (∀ i, (st.threads i).atGet = false) → st.characters ++ st.console.input = stream → Inv stream st
  | full : st.console.eof = false → st.console.incoming ≠ EOF →
      HeldOnce ReaderThread.atGet st.threads st.readAvail →
      st.characters ++ st.console.incoming :: st.console.input = stream → Inv stream st
  | ended (k : ℕ) : st.console.input = [] → st.console.incoming = EOF →
      st.characters = stream ++ List.replicate k EOF → (st.console.eof = true → 0 < k) →
      Inv stream st

variable {stream : List UInt8}

omit [DecidableEq ι] in
theorem Inv.faithful (h : Inv stream st) : st.Faithful stream := by
  cases h with
  | empty heof _ _ _ hstream =>
      refine ⟨.inl ⟨_, hstream⟩, fun htrue => ?_⟩
      rw [heof] at htrue
      cases htrue
  | full heof _ _ hstream =>
      refine ⟨.inl ⟨_, hstream⟩, fun htrue => ?_⟩
      rw [heof] at htrue
      cases htrue
  | ended k _ _ hchars hpos =>
      refine ⟨.inr ⟨k, hchars⟩, fun htrue => ?_⟩
      have hk := hpos htrue
      rw [hchars, List.length_append, List.length_replicate]
      omega

omit [DecidableEq ι] in
theorem Inv.start (stream : List UInt8) : Inv stream (start stream : InputRun ι) :=
  .empty rfl rfl rfl (fun _ => rfl) rfl

omit [DecidableEq ι] in
/-- A poll reads at most one character, and only into an empty buffer. -/
theorem Inv.poll (hstream : EOF ∉ stream) (h : Inv stream st) (polled : Bool) :
    Inv stream (st.poll polled) := by
  rw [InputRun.poll, InputDevice.checkCharAvail]
  split
  · exact h
  rename_i console hsome
  obtain ⟨hcond, hsome⟩ := Option.ite_none_left_eq_some.mp hsome
  have hempty : st.console.incoming = EOF := not_not.mp fun hne => hcond (.inl hne)
  cases h with
  | full _ hfull _ _ => exact absurd hempty hfull
  | empty heof _ hunits hnone hchars =>
      split at hsome
      · rename_i hinput
        cases hsome
        rw [hinput, List.append_nil] at hchars
        refine .ended 0 hinput rfl (by rw [List.replicate_zero, List.append_nil]; exact hchars) ?_
        intro htrue
        rw [show st.console.eof = true from htrue] at heof
        cases heof
      · rename_i c input hinput
        cases hsome
        rw [hinput] at hchars
        have hc : c ≠ EOF := fun heq => hstream (by rw [← hchars, heq]; simp)
        exact .full heof hc (.inl ⟨by rw [hunits]; rfl, hnone⟩) hchars
  | ended k hinput _ hchars hpos =>
      rw [hinput] at hsome
      cases hsome
      exact .ended k rfl rfl hchars hpos

theorem Inv.move (hstream : EOF ∉ stream) (h : Inv stream st) (hmove : Move st st') :
    Inv stream st' := by
  cases hmove with
  | poll polled => exact h.poll hstream polled
  | @other i l t hold hnew =>
      cases h with
      | empty heof hempty hunits hnone hchars =>
          refine .empty heof hempty hunits (fun j => ?_) hchars
          by_cases hj : j = i
          · rw [hj]
            exact (congrArg ReaderThread.atGet (Function.update_self ..)).trans hnew
          · exact (congrArg ReaderThread.atGet (Function.update_of_ne hj ..)).trans (hnone j)
      | full heof hfull hheld hchars =>
          exact .full heof hfull (hheld.keep (by rw [hold, hnew])) hchars
      | ended k hinput hempty hchars hpos => exact .ended k hinput hempty hchars hpos
  | @pass i inString hpos =>
      cases h with
      | empty _ _ hunits _ _ => omega
      | full heof hfull hheld hchars => exact .full heof hfull (hheld.take hpos rfl) hchars
      | ended k hinput hempty hchars hpos => exact .ended k hinput hempty hchars hpos
  | @get i inString hget =>
      have hchars' : (st.get i inString).characters = st.characters ++ [st.console.incoming] := by
        rw [characters, characters]
        exact List.map_append
      cases h with
      | empty _ _ _ hnone _ =>
          rw [hnone i] at hget
          cases hget
      | full heof hfull hheld hchars =>
          have hgone := hheld.give hget (c := ⟨(st.threads i).lock, .got inString⟩) rfl
          refine .empty ?_ rfl (hheld.eq_zero hget) (fun j => hgone.eq_false (by omega) j) ?_
          · show (st.console.eof || decide (st.console.incoming = EOF)) = false
            rw [heof, Bool.false_or, decide_eq_false hfull]
          · rw [hchars', List.append_assoc]
            exact hchars
      | ended k hinput hempty hchars hpos =>
          refine .ended (k + 1) hinput rfl ?_ fun _ => Nat.succ_pos k
          rw [hchars', hchars, hempty, List.append_assoc, ← List.replicate_succ']

/-! ## A reader that keeps up -/

/-- The next steps of thread `i`, outside the loop of `SynchGetString`. -/
def goOn (i : ι) (n : ℕ) : List (InputAct ι) := List.replicate n (.step i false)

/-- One `SynchGetChar` of thread `i`, after a poll. -/
def oneChar (i : ι) : List (InputAct ι) := .poll true :: .call i false :: goOn i 12

/-- A thread gets the lock that is free. -/
theorem execAll_acquire (tid : ι → ℤ) (st : InputRun ι) (hlock : st.lock = Lock.new)
    (hthread : st.threads i = ⟨LockThread.new, .away⟩) :
    execAll (exec tid) st (.call i false :: goOn i 5) = some { st with
      lock := ⟨tid i, 1, 0⟩
      threads := Function.update st.threads i ⟨⟨.away, true⟩, .wait false⟩ } := by
  simp [execAll, goOn, List.replicate, exec, goto, lockStep, hthread, hlock, LockThread.exec,
    LockThread.new, Lock.new, Units.P, Units.V]

/-- A thread that has the lock gets the character that is there. -/
theorem execAll_get (tid : ι → ℤ) (st : InputRun ι) (hunits : st.readAvail = 1)
    (hthread : st.threads i = ⟨⟨.away, true⟩, .wait false⟩) :
    execAll (exec tid) st (goOn i 2) = some { st with
      console := st.console.getChar.2
      readAvail := 0
      threads := Function.update st.threads i ⟨⟨.away, true⟩, .got false⟩
      delivered := st.delivered ++ [(i, st.console.getChar.1)] } := by
  simp [execAll, goOn, List.replicate, exec, goto, get, hthread, hunits, Units.P]

/-- A thread releases the lock. -/
theorem execAll_release (tid : ι → ℤ) (st : InputRun ι) (hlock : st.lock = ⟨tid i, 1, 0⟩)
    (hthread : st.threads i = ⟨⟨.away, true⟩, .got false⟩) :
    execAll (exec tid) st (goOn i 5) = some { st with
      lock := Lock.new
      threads := Function.update st.threads i ⟨LockThread.new, .away⟩ } := by
  simp [execAll, goOn, List.replicate, exec, lockStep, hthread, hlock, LockThread.exec,
    LockThread.new, Lock.new, Units.P, Units.V]

/-- Thread `i` is in no call, and the buffer is empty. -/
structure Resting (i : ι) (st : InputRun ι) : Prop where
  incoming : st.console.incoming = EOF
  lock : st.lock = Lock.new
  readAvail : st.readAvail = 0
  thread : st.threads i = ⟨LockThread.new, .away⟩

/-- A poll and a `SynchGetChar` deliver the next character. -/
theorem execAll_oneChar (tid : ι → ℤ) (h : Resting i st) {c : UInt8} {input : List UInt8}
    (hinput : st.console.input = c :: input) :
    execAll (exec tid) st (oneChar i) = some { st with
      console := ⟨input, EOF, st.console.eof || decide (c = EOF)⟩
      delivered := st.delivered ++ [(i, c)] } := by
  have hpoll : st.exec tid (.poll true) = some { st with
      console := ⟨input, c, st.console.eof⟩
      readAvail := 1 } := by
    simp [exec, poll, InputDevice.checkCharAvail, h.incoming, hinput, h.readAvail, Units.V]
  have hsplit : oneChar i =
      .poll true :: ((.call i false :: goOn i 5) ++ (goOn i 2 ++ goOn i 5)) := rfl
  rw [hsplit, execAll, hpoll, Option.bind_some, execAll_append,
    execAll_acquire tid { st with console := ⟨input, c, st.console.eof⟩, readAvail := 1 }
      h.lock h.thread, Option.bind_some, execAll_append,
    execAll_get tid _ rfl (Function.update_self ..), Option.bind_some,
    execAll_release tid _ rfl (Function.update_self ..)]
  have hthreads (t t' : ReaderThread) : Function.update (Function.update
      (Function.update st.threads i t) i t') i ⟨LockThread.new, .away⟩ = st.threads := by
    rw [Function.update_idem, Function.update_idem, ← h.thread, Function.update_eq_self]
  simp only [hthreads, h.lock, h.readAvail]
  rfl

/-- A reader that keeps up gets the stream up to the first `0xFF`, and is then told that the file
has ended. -/
theorem exists_early_feof (tid : ι → ℤ) (st : InputRun ι) (h : Resting i st)
    (hmem : EOF ∈ st.console.input) :
    ∃ steps st', Run tid st steps st' ∧ st'.console.eof = true ∧
      st'.characters.length ≤ st.characters.length + st.console.input.length := by
  generalize hinput : st.console.input = input at hmem
  induction input generalizing st with
  | nil => cases hmem
  | cons c input ih =>
      have hrun : Run tid st _ _ := trace_of_execAll (execAll_oneChar tid h hinput)
      by_cases hc : c = EOF
      · refine ⟨_, _, hrun, ?_, ?_⟩
        · show (st.console.eof || decide (c = EOF)) = true
          rw [decide_eq_true hc, Bool.or_true]
        · simp only [characters, List.map_append, List.map_singleton, List.length_append,
            List.length_cons, List.length_nil]
          omega
      · have hrest : EOF ∈ input := (List.mem_cons.mp hmem).resolve_left fun heq => hc heq.symm
        obtain ⟨steps, st', hrun', heof, hlength⟩ :=
          ih { st with
            console := ⟨input, EOF, st.console.eof || decide (c = EOF)⟩
            delivered := st.delivered ++ [(i, c)] } ⟨rfl, h.lock, h.readAvail, h.thread⟩ rfl hrest
        refine ⟨_, st', hrun.append hrun', heof, ?_⟩
        simp only [characters, List.map_append, List.map_singleton, List.length_append,
          List.length_cons, List.length_nil] at hlength ⊢
        omega

/-- **Console input is delivered faithfully** in every run, if and only if the byte `0xFF` is not
on the keyboard file. -/
theorem input_faithful_iff (tid : ι → ℤ) (i : ι) (stream : List UInt8) :
    (∀ steps st, Run tid (start stream) steps st → st.Faithful stream) ↔ EOF ∉ stream := by
  refine ⟨fun hall hmem => ?_, fun hstream steps st hrun => ?_⟩
  · obtain ⟨steps, st, hrun, heof, hlength⟩ :=
      exists_early_feof (i := i) tid (start stream) ⟨rfl, rfl, rfl, rfl⟩ hmem
    have hlate := (hall steps st hrun).feof heof
    have hzero : (start stream : InputRun ι).characters.length = 0 := rfl
    have hinput : (start stream : InputRun ι).console.input = stream := rfl
    rw [hzero, hinput] at hlength
    omega
  · have hinv := hrun.invariant_of_forall (I := Inv stream)
      (fun x h hexec => h.move hstream (move_of_exec hexec)) (.start stream)
    exact hinv.1.faithful

/-- Two polls before a read: the second one overwrites the byte `0xFF` with the `A` behind it. -/
theorem not_faithful_overwritten :
    ∃ st : InputRun (Fin 1),
      (∃ steps, Run (fun _ => 1) (start [0xff, 65]) steps st) ∧
        st.characters = [65] ∧ ¬ st.Faithful [0xff, 65] := by
  have hrun : (execAll (exec fun _ => 1) (start [0xff, 65] : InputRun (Fin 1))
      (.poll true :: .poll true :: .call 0 false :: goOn 0 12)).map characters = some [65] := by
    decide
  obtain ⟨st, hst, hchars⟩ := Option.map_eq_some_iff.mp hrun
  refine ⟨st, ⟨_, trace_of_execAll hst⟩, hchars, fun h => ?_⟩
  obtain hprefix | ⟨k, hk⟩ := h.inOrder
  · rw [hchars] at hprefix
    exact absurd hprefix (by decide)
  · rw [hchars] at hk
    cases hk

end InputRun

end Nachos.Synch
