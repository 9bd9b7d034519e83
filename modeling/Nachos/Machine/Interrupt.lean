/-
# Simulated interrupts

`machine/interrupt.{h,cc}` with `SortedInsert` and `SortedRemove` of `threads/list.cc`. Devices
schedule interrupts for later; `OneTick` and `Idle` move the clock and call the handlers of
those that are due. A handler is code that runs for a while: it schedules interrupts of its own
while the loop over `CheckIfDue` waits for it, so the loop is a state of the machine and each
call of `CheckIfDue` a step.

The clock is a `long long`. A sum that does not fit it is undefined, so it is not a step.

The pending list is a calendar whose events are kept in order. Everything that is promised about
interrupts is a promise of the calendar.
-/

import Mathlib
import Nachos.Base.Calendar
import Nachos.Base.Trace

namespace Nachos

open Base

/-! ## Sorted lists -/

/-- `class ListElement`. -/
structure ListElement (α : Type) where
  item : α
  key : ℤ
  deriving DecidableEq, Repr

section SortedList

variable {α : Type}

/-- The loop of `SortedInsert`: `ptr` is in the list and its key is not greater. -/
def insertAfter (element ptr : ListElement α) : List (ListElement α) → List (ListElement α)
  | [] => [ptr, element]
  | next :: rest =>
      if element.key < next.key then ptr :: element :: next :: rest
      else ptr :: insertAfter element next rest

/-- `List::SortedInsert`. -/
def sortedInsert (elements : List (ListElement α)) (item : α) (sortKey : ℤ) :
    List (ListElement α) :=
  match elements with
  | [] => [⟨item, sortKey⟩]
  | first :: rest =>
      if sortKey < first.key then ⟨item, sortKey⟩ :: first :: rest
      else insertAfter ⟨item, sortKey⟩ first rest

/-- `List::SortedRemove`: the item, its key and the other elements. -/
def sortedRemove : List (ListElement α) → Option (α × ℤ × List (ListElement α))
  | [] => none
  | first :: rest => some (first.item, first.key, rest)

/-- The keys are in increasing order. -/
def KeysSorted (elements : List (ListElement α)) : Prop :=
  elements.Pairwise fun x y => x.key ≤ y.key

theorem insertAfter_perm (element ptr : ListElement α) (rest : List (ListElement α)) :
    (insertAfter element ptr rest).Perm (element :: ptr :: rest) := by
  induction rest generalizing ptr with
  | nil => exact .swap ..
  | cons next rest ih =>
      rw [insertAfter]
      split
      · exact .swap ..
      · exact ((ih next).cons ptr).trans (.swap ..)

theorem sortedInsert_perm (elements : List (ListElement α)) (item : α) (sortKey : ℤ) :
    (sortedInsert elements item sortKey).Perm (⟨item, sortKey⟩ :: elements) := by
  cases elements with
  | nil => exact .refl _
  | cons first rest =>
      rw [sortedInsert]
      split
      · exact .refl _
      · exact insertAfter_perm ..

theorem KeysSorted.insertAfter {element ptr : ListElement α} {rest : List (ListElement α)}
    (h : KeysSorted (ptr :: rest)) (hle : ptr.key ≤ element.key) :
    KeysSorted (insertAfter element ptr rest) := by
  induction rest generalizing ptr with
  | nil => exact List.pairwise_pair.mpr hle
  | cons next rest ih =>
      obtain ⟨hptr, hnext⟩ := List.pairwise_cons.mp h
      rw [Nachos.insertAfter]
      split
      · rename_i hlt
        refine .cons (fun x hx => ?_) (.cons (fun x hx => ?_) hnext)
        · rcases List.mem_cons.mp hx with rfl | hx
          · exact hle
          · exact hptr x hx
        · rcases List.mem_cons.mp hx with rfl | hx
          · exact hlt.le
          · exact hlt.le.trans ((List.pairwise_cons.mp hnext).1 x hx)
      · rename_i hge
        refine .cons (fun x hx => ?_) (ih hnext (not_lt.mp hge))
        rcases List.mem_cons.mp ((insertAfter_perm ..).mem_iff.mp hx) with rfl | hx
        · exact hle
        · exact hptr x hx

theorem KeysSorted.sortedInsert {elements : List (ListElement α)} (h : KeysSorted elements)
    (item : α) (sortKey : ℤ) : KeysSorted (sortedInsert elements item sortKey) := by
  cases elements with
  | nil => exact List.pairwise_singleton ..
  | cons first rest =>
      rw [Nachos.sortedInsert]
      split
      · rename_i hlt
        refine .cons (fun x hx => ?_) h
        rcases List.mem_cons.mp hx with rfl | hx
        · exact hlt.le
        · exact hlt.le.trans ((List.pairwise_cons.mp h).1 x hx)
      · rename_i hge
        exact h.insertAfter (not_lt.mp hge)

end SortedList

/-! ## The interrupt simulation -/

/-- `enum IntStatus`. -/
inductive IntStatus
  | IntOff
  | IntOn
  deriving DecidableEq, Repr

/-- `enum MachineStatus`. -/
inductive MachineStatus
  | IdleMode
  | SystemMode
  | UserMode
  deriving DecidableEq, Repr

/-- `enum IntType`. -/
inductive IntType
  | TimerInt
  | DiskInt
  | ConsoleWriteInt
  | ConsoleReadInt
  | NetworkSendInt
  | NetworkRecvInt
  deriving DecidableEq, Repr

/-- `class PendingInterrupt`; `object` tells apart what `new` has returned. -/
structure PendingInterrupt (γ : Type) where
  object : ℕ
  handler : γ
  arg : ℤ
  when : ℤ
  type : IntType
  deriving DecidableEq, Repr

/-- The clocks of `class Statistics`. -/
structure Ticks where
  totalTicks : ℤ
  idleTicks : ℤ
  systemTicks : ℤ
  userTicks : ℤ
  deriving DecidableEq, Repr

/-- Time to execute one user-level instruction. -/
def UserTick : ℤ := 1

/-- Time taken when interrupts are enabled. -/
def SystemTick : ℤ := 10

/-- A result of type `long long`. -/
def longLong (x : ℤ) : Option ℤ := if -2 ^ 63 ≤ x ∧ x < 2 ^ 63 then some x else none

theorem longLong_eq_some {x y : ℤ} (h : longLong x = some y) : y = x := by
  rw [longLong, Option.ite_none_right_eq_some] at h
  exact (Option.some.inj h.2).symm

/-- `class Interrupt`, with the clocks it moves. -/
structure Interrupt (γ : Type) where
  level : IntStatus
  pending : List (ListElement (PendingInterrupt γ))
  inHandler : Bool
  yieldOnReturn : Bool
  status : MachineStatus
  stats : Ticks
  deriving DecidableEq, Repr

namespace Interrupt

variable {γ : Type}

/-- `Interrupt::Interrupt`. -/
def new : Interrupt γ where
  level := .IntOff
  pending := []
  inHandler := false
  yieldOnReturn := false
  status := .SystemMode
  stats := ⟨0, 0, 0, 0⟩

/-- `Interrupt::Schedule`, with the object that is made. -/
def schedule (int : Interrupt γ) (object : ℕ) (handler : γ) (arg fromNow : ℤ)
    (type : IntType) : Option (PendingInterrupt γ × Interrupt γ) := do
  let when ← longLong (int.stats.totalTicks + fromNow)
  let toOccur : PendingInterrupt γ := ⟨object, handler, arg, when, type⟩
  if fromNow > 0 then
    return (toOccur, { int with pending := sortedInsert int.pending toOccur when })
  else none

/-- The clock at the beginning of `Interrupt::OneTick`. -/
def tick (int : Interrupt γ) : Option Ticks := do
  if int.status = .SystemMode then
    let totalTicks ← longLong (int.stats.totalTicks + SystemTick)
    let systemTicks ← longLong (int.stats.systemTicks + SystemTick)
    return { int.stats with totalTicks := totalTicks, systemTicks := systemTicks }
  else
    let totalTicks ← longLong (int.stats.totalTicks + UserTick)
    let userTicks ← longLong (int.stats.userTicks + UserTick)
    return { int.stats with totalTicks := totalTicks, userTicks := userTicks }

/-- The end of `CheckIfDue`, once it is known that `toOccur` is due: the last timer interrupt of
an idle machine is put back, any other handler is called. -/
def fire (int : Interrupt γ) (toOccur : PendingInterrupt γ) (when : ℤ) :
    Interrupt γ × Option (PendingInterrupt γ) :=
  if int.status = .IdleMode ∧ toOccur.type = .TimerInt ∧ int.pending = [] then
    ({ int with pending := sortedInsert int.pending toOccur when }, none)
  else ({ int with inHandler := true, status := .SystemMode }, some toOccur)

/-- `Interrupt::CheckIfDue`, up to the call of the handler; without one the result is `FALSE`. -/
def checkIfDue (int : Interrupt γ) (advanceClock : Bool) :
    Option (Interrupt γ × Option (PendingInterrupt γ)) :=
  if int.level = .IntOff then
    match sortedRemove int.pending with
    | none => some (int, none)
    | some (toOccur, when, rest) =>
        let removed := { int with pending := rest }
        if advanceClock ∧ when > int.stats.totalTicks then do
          let idleTicks ← longLong (int.stats.idleTicks + (when - int.stats.totalTicks))
          let stats := { int.stats with totalTicks := when, idleTicks := idleTicks }
          return { removed with stats := stats }.fire toOccur when
        else if when > int.stats.totalTicks then
          some ({ removed with pending := sortedInsert rest toOccur when }, none)
        else some (removed.fire toOccur when)
  else none

end Interrupt

/-! ## Runs -/

/-- Who waits for `CheckIfDue`. -/
inductive Loop
  /-- `OneTick`, with the status it has saved. -/
  | oneTick (old : MachineStatus)
  /-- `Idle`; its first call may advance the clock. -/
  | idle (advanceClock : Bool)
  deriving DecidableEq, Repr

namespace Loop

/-- The argument of the next `CheckIfDue`. -/
def advanceClock : Loop → Bool
  | .oneTick _ => false
  | .idle advanceClock => advanceClock

/-- The loop after a handler was called. -/
def next : Loop → Loop
  | .oneTick old => .oneTick old
  | .idle _ => .idle false

end Loop

/-- What the processor is doing. -/
inductive Control
  /-- Code of the kernel or of a user program. -/
  | code
  /-- `CheckIfDue` is called next. -/
  | check (loop : Loop)
  /-- A handler runs; `old` is the status that `CheckIfDue` has saved. -/
  | handler (old : MachineStatus) (loop : Loop)
  | halted
  deriving DecidableEq, Repr

/-- The interrupt simulation in a run, with the history of the interrupts. -/
structure InterruptRun (γ : Type) where
  interrupt : Interrupt γ
  control : Control
  /-- The calls of `OneTick` that are in `Yield`, with the status each has saved. -/
  yielding : List MachineStatus
  scheduled : List (PendingInterrupt γ)
  /-- The interrupts whose handlers were called, with the times of the calls. -/
  called : List (PendingInterrupt γ × ℤ)
  deriving DecidableEq, Repr

/-- A step of a run. -/
inductive InterruptAct (γ : Type)
  | schedule (handler : γ) (arg fromNow : ℤ) (type : IntType)
  | setLevel (now : IntStatus)
  | setStatus (status : MachineStatus)
  | yieldOnReturn
  | oneTick
  | idle
  | checkIfDue
  | handlerReturns
  | yieldReturns (k : ℕ)
  deriving DecidableEq, Repr

namespace InterruptRun

variable {γ : Type}

/-- Nothing is pending and all clocks are at zero. -/
def start : InterruptRun γ := ⟨.new, .code, [], [], []⟩

/-- `Schedule`, called by a device from the kernel or from a handler. -/
def schedule (st : InterruptRun γ) (handler : γ) (arg fromNow : ℤ) (type : IntType) :
    Option (InterruptRun γ) := do
  let (toOccur, interrupt) ←
    st.interrupt.schedule st.scheduled.length handler arg fromNow type
  return { st with interrupt := interrupt, scheduled := st.scheduled ++ [toOccur] }

/-- The beginning of `OneTick`, up to its loop. -/
def oneTick (st : InterruptRun γ) : Option (InterruptRun γ) := do
  let stats ← st.interrupt.tick
  return { st with
    interrupt := { st.interrupt with stats := stats, level := .IntOff }
    control := .check (.oneTick st.interrupt.status) }

/-- `SetLevel`. -/
def setLevel (st : InterruptRun γ) (now : IntStatus) : Option (InterruptRun γ) :=
  let old := st.interrupt.level
  let changed := { st with interrupt := { st.interrupt with level := now } }
  if now = .IntOff ∨ st.interrupt.inHandler = false then
    if now = .IntOn ∧ old = .IntOff then changed.oneTick else some changed
  else none

/-- The rest of a loop whose last `CheckIfDue` has returned `FALSE`. -/
def leaveLoop (st : InterruptRun γ) : Loop → InterruptRun γ
  | .oneTick old =>
      if st.interrupt.yieldOnReturn then
        { st with
          interrupt := { st.interrupt with
            level := .IntOn, yieldOnReturn := false, status := .SystemMode }
          control := .code
          yielding := old :: st.yielding }
      else { st with interrupt := { st.interrupt with level := .IntOn }, control := .code }
  | .idle true => { st with control := .halted }
  | .idle false =>
      { st with
        interrupt := { st.interrupt with yieldOnReturn := false, status := .SystemMode }
        control := .code }

/-- A call of `CheckIfDue` in a loop. -/
def checkIfDue (st : InterruptRun γ) (loop : Loop) : Option (InterruptRun γ) := do
  match ← st.interrupt.checkIfDue loop.advanceClock with
  | (interrupt, none) => return { st with interrupt := interrupt }.leaveLoop loop
  | (interrupt, some toOccur) =>
      return { st with
        interrupt := interrupt
        control := .handler st.interrupt.status loop.next
        called := st.called ++ [(toOccur, interrupt.stats.totalTicks)] }

/-- `exec st act`: the step that `act` is in the state `st`, if it can be made there. -/
def exec (st : InterruptRun γ) (act : InterruptAct γ) : Option (InterruptRun γ) :=
  match st.control, act with
  | .code, .schedule handler arg fromNow type => st.schedule handler arg fromNow type
  | .handler _ _, .schedule handler arg fromNow type => st.schedule handler arg fromNow type
  | .code, .setLevel now => st.setLevel now
  | .handler _ _, .setLevel now => st.setLevel now
  | .code, .setStatus status => some { st with interrupt := { st.interrupt with status := status } }
  | .handler _ _, .yieldOnReturn =>
      if st.interrupt.inHandler then
        some { st with interrupt := { st.interrupt with yieldOnReturn := true } }
      else none
  | .code, .oneTick => st.oneTick
  | .code, .idle =>
      some { st with
        interrupt := { st.interrupt with status := .IdleMode }
        control := .check (.idle true) }
  | .check loop, .checkIfDue => st.checkIfDue loop
  | .handler old loop, .handlerReturns =>
      some { st with
        interrupt := { st.interrupt with status := old, inHandler := false }
        control := .check loop }
  | .code, .yieldReturns k => do
      let old ← st.yielding[k]?
      return { st with
        interrupt := { st.interrupt with status := old }
        yielding := st.yielding.eraseIdx k }
  | _, _ => none

end InterruptRun

/-! ## The pending list as a calendar -/

/-- The clocks add up. -/
def Ticks.AddUp (stats : Ticks) : Prop :=
  stats.totalTicks = stats.idleTicks + stats.systemTicks + stats.userTicks

namespace Interrupt

variable {γ : Type} {int interrupt : Interrupt γ}

/-- The interrupts that are pending. -/
def waiting (int : Interrupt γ) : List (PendingInterrupt γ) := int.pending.map ListElement.item

/-- The pending list is sorted by the times the interrupts are due at, and the clocks add up. -/
structure Inv (int : Interrupt γ) : Prop where
  sorted : KeysSorted int.pending
  keyed : ∀ x ∈ int.pending, x.key = x.item.when
  addUp : int.stats.AddUp

/-- Where the list and the clocks are the same, so is the invariant. -/
theorem Inv.congr (h : int.Inv) (hpending : interrupt.pending = int.pending)
    (hstats : interrupt.stats = int.stats) : interrupt.Inv :=
  ⟨hpending ▸ h.sorted, hpending ▸ h.keyed, hstats ▸ h.addUp⟩

theorem Inv.insert (h : int.Inv) (toOccur : PendingInterrupt γ) :
    { int with pending := sortedInsert int.pending toOccur toOccur.when }.Inv := by
  refine ⟨h.sorted.sortedInsert .., fun x hx => ?_, h.addUp⟩
  rcases List.mem_cons.mp ((sortedInsert_perm ..).mem_iff.mp hx) with rfl | hx
  · rfl
  · exact h.keyed x hx

/-- `SortedRemove` takes the interrupt that is due first. -/
theorem Inv.remove (h : int.Inv) {toOccur : PendingInterrupt γ} {when : ℤ}
    {rest : List (ListElement (PendingInterrupt γ))}
    (hremove : sortedRemove int.pending = some (toOccur, when, rest)) :
    when = toOccur.when ∧ int.pending = ⟨toOccur, when⟩ :: rest ∧
      (∀ x ∈ rest, toOccur.when ≤ x.item.when) ∧ { int with pending := rest }.Inv := by
  rw [sortedRemove.eq_def] at hremove
  split at hremove
  · cases hremove
  · rename_i first rest' hpending
    cases hremove
    have hsorted := h.sorted
    rw [hpending] at hsorted
    obtain ⟨hfirst, hrest⟩ := List.pairwise_cons.mp hsorted
    have hkey : first.key = first.item.when := h.keyed first (by rw [hpending]; simp)
    have hkeyed : ∀ x ∈ rest, x.key = x.item.when := fun x hx =>
      h.keyed x (by rw [hpending]; exact List.mem_cons_of_mem _ hx)
    refine ⟨hkey, hpending, fun x hx => ?_, hrest, hkeyed, h.addUp⟩
    rw [← hkey, ← hkeyed x hx]
    exact hfirst x hx

/-- `OneTick` moves the clock on, and one of the three parts of the time with it. -/
theorem tick_eq_some {stats : Ticks} (h : int.tick = some stats) :
    int.stats.totalTicks ≤ stats.totalTicks ∧ (int.stats.AddUp → stats.AddUp) := by
  rw [tick] at h
  split at h
  · obtain ⟨total, htotal, h⟩ := Option.bind_eq_some_iff.mp h
    obtain ⟨part, hpart, h⟩ := Option.bind_eq_some_iff.mp h
    cases h
    rw [longLong_eq_some htotal, longLong_eq_some hpart, SystemTick]
    simp only [Ticks.AddUp]
    omega
  · obtain ⟨total, htotal, h⟩ := Option.bind_eq_some_iff.mp h
    obtain ⟨part, hpart, h⟩ := Option.bind_eq_some_iff.mp h
    cases h
    rw [longLong_eq_some htotal, longLong_eq_some hpart, UserTick]
    simp only [Ticks.AddUp]
    omega

theorem waiting_insert (int : Interrupt γ) (toOccur : PendingInterrupt γ) (when : ℤ) :
    { int with pending := sortedInsert int.pending toOccur when }.waiting.Perm
      (toOccur :: int.waiting) :=
  (sortedInsert_perm ..).map _

/-- What becomes of the interrupt that is due first: it is put back, or its handler is called. -/
theorem Inv.fire (h : int.Inv) {toOccur : PendingInterrupt γ} {r : Option (PendingInterrupt γ)}
    (hfire : int.fire toOccur toOccur.when = (interrupt, r)) :
    interrupt.Inv ∧ interrupt.stats = int.stats ∧
      (r = none ∧ interrupt.waiting.Perm (toOccur :: int.waiting) ∨
        r = some toOccur ∧ interrupt.waiting = int.waiting) := by
  rw [Interrupt.fire] at hfire
  split at hfire
  · cases hfire
    exact ⟨h.insert toOccur, rfl, .inl ⟨rfl, waiting_insert ..⟩⟩
  · cases hfire
    exact ⟨h.congr rfl rfl, rfl, .inr ⟨rfl, rfl⟩⟩

/-- **One call of `CheckIfDue`.** Nothing is called and the same interrupts are pending, or the
first of them is called, and it is due. -/
theorem Inv.checkIfDue (h : int.Inv) {advanceClock : Bool} {r : Option (PendingInterrupt γ)}
    (hcheck : int.checkIfDue advanceClock = some (interrupt, r)) :
    interrupt.Inv ∧ int.stats.totalTicks ≤ interrupt.stats.totalTicks ∧
      (r = none ∧ interrupt.waiting.Perm int.waiting ∨
        ∃ toOccur, r = some toOccur ∧ int.waiting = toOccur :: interrupt.waiting ∧
          (∀ p ∈ interrupt.waiting, toOccur.when ≤ p.when) ∧
          toOccur.when ≤ interrupt.stats.totalTicks) := by
  rw [Interrupt.checkIfDue, Option.ite_none_right_eq_some] at hcheck
  obtain ⟨-, hcheck⟩ := hcheck
  split at hcheck
  · cases hcheck
    exact ⟨h, le_rfl, .inl ⟨rfl, .refl _⟩⟩
  rename_i toOccur when rest hremove
  obtain ⟨rfl, hpending, hmin, hrest⟩ := h.remove hremove
  have hwaiting : int.waiting = toOccur :: { int with pending := rest }.waiting := by
    rw [waiting, hpending]
    rfl
  have hfirst : ∀ p ∈ { int with pending := rest }.waiting, toOccur.when ≤ p.when := by
    intro p hp
    obtain ⟨x, hx, rfl⟩ := List.mem_map.mp hp
    exact hmin x hx
  dsimp only at hcheck
  split at hcheck
  · -- the clock jumps to the interrupt
    rename_i hadvance
    obtain ⟨idle, hidle, hcheck⟩ := Option.bind_eq_some_iff.mp hcheck
    obtain rfl := longLong_eq_some hidle
    have hjump : { int with
        pending := rest
        stats := { int.stats with
          totalTicks := toOccur.when
          idleTicks := int.stats.idleTicks + (toOccur.when - int.stats.totalTicks) } }.Inv := by
      have hadd := h.addUp
      refine ⟨hrest.sorted, hrest.keyed, ?_⟩
      simp only [Ticks.AddUp] at hadd ⊢
      omega
    obtain ⟨hinv, hstats, hr⟩ := hjump.fire (Option.some.inj hcheck)
    rw [hstats]
    refine ⟨hinv, hadvance.2.le, ?_⟩
    rcases hr with ⟨rfl, hperm⟩ | ⟨rfl, heq⟩
    · exact .inl ⟨rfl, hwaiting ▸ hperm⟩
    · exact .inr ⟨toOccur, rfl, heq ▸ hwaiting, heq ▸ hfirst, le_rfl⟩
  split at hcheck
  · -- not time yet
    cases hcheck
    exact ⟨hrest.insert toOccur, le_rfl, .inl ⟨rfl,
      hwaiting ▸ waiting_insert { int with pending := rest } toOccur toOccur.when⟩⟩
  · rename_i hdue
    obtain ⟨hinv, hstats, hr⟩ := hrest.fire (Option.some.inj hcheck)
    rw [hstats]
    refine ⟨hinv, le_rfl, ?_⟩
    rcases hr with ⟨rfl, hperm⟩ | ⟨rfl, heq⟩
    · exact .inl ⟨rfl, hwaiting ▸ hperm⟩
    · exact .inr ⟨toOccur, rfl, heq ▸ hwaiting, heq ▸ hfirst, not_lt.mp hdue⟩

/-- `Schedule` adds an interrupt for later. -/
theorem Inv.schedule (h : int.Inv) {object : ℕ} {handler : γ} {arg fromNow : ℤ} {type : IntType}
    {toOccur : PendingInterrupt γ}
    (hschedule : int.schedule object handler arg fromNow type = some (toOccur, interrupt)) :
    interrupt.Inv ∧ interrupt.stats = int.stats ∧ toOccur.object = object ∧
      int.stats.totalTicks < toOccur.when ∧ interrupt.waiting.Perm (toOccur :: int.waiting) := by
  obtain ⟨when, hwhen, hschedule⟩ := Option.bind_eq_some_iff.mp hschedule
  obtain ⟨hpos, hschedule⟩ := Option.ite_none_right_eq_some.mp hschedule
  obtain rfl := longLong_eq_some hwhen
  cases hschedule
  exact ⟨h.insert _, rfl, rfl, by dsimp only; omega, waiting_insert ..⟩

end Interrupt

namespace InterruptRun

variable {γ : Type} {st st' : InterruptRun γ}

/-- The calendar that the simulation implements. -/
def calendar (st : InterruptRun γ) : Calendar (PendingInterrupt γ) ℤ where
  now := st.interrupt.stats.totalTicks
  pending := st.interrupt.waiting
  added := st.scheduled
  fired := st.called

/-- The objects of the interrupts that were scheduled are numbered. -/
def Numbered (st : InterruptRun γ) : Prop :=
  st.scheduled.map PendingInterrupt.object = List.range st.scheduled.length

/-- What a step does: the invariant is kept, and the calendar makes steps of its own. -/
structure Advances (st st' : InterruptRun γ) : Prop where
  inv : st'.interrupt.Inv
  numbered : st'.Numbered
  steps : Calendar.Steps PendingInterrupt.when st.calendar st'.calendar

theorem Advances.trans {st'' : InterruptRun γ} (h : st.Advances st') (h' : st'.Advances st'') :
    st.Advances st'' :=
  ⟨h'.inv, h'.numbered, h.steps.trans h'.steps⟩

/-- A step that neither the list, nor the clock, nor the history takes part in. -/
theorem Advances.of_same (h : st.interrupt.Inv) (hnumbered : st.Numbered)
    (hpending : st'.interrupt.pending = st.interrupt.pending)
    (hstats : st'.interrupt.stats = st.interrupt.stats)
    (hscheduled : st'.scheduled = st.scheduled) (hcalled : st'.called = st.called) :
    st.Advances st' := by
  have hcalendar : st'.calendar = st.calendar := by
    rw [calendar, calendar, Interrupt.waiting, Interrupt.waiting, hpending, hstats, hscheduled,
      hcalled]
  refine ⟨h.congr hpending hstats, ?_, hcalendar ▸ .refl⟩
  rw [Numbered, hscheduled]
  exact hnumbered

theorem Advances.schedule (h : st.interrupt.Inv) (hnumbered : st.Numbered) {handler : γ}
    {arg fromNow : ℤ} {type : IntType}
    (hstep : st.schedule handler arg fromNow type = some st') : st.Advances st' := by
  obtain ⟨⟨toOccur, interrupt⟩, hschedule, hstep⟩ := Option.bind_eq_some_iff.mp hstep
  cases hstep
  obtain ⟨hinv, hstats, hobject, hlater, hperm⟩ := h.schedule hschedule
  refine ⟨hinv, ?_, ?_⟩
  · rw [Numbered, List.map_append, List.map_singleton, hobject, hnumbered, List.length_append,
      List.length_singleton, List.range_succ]
  · have hwaiting : (interrupt.waiting : Multiset _) = toOccur ::ₘ st.interrupt.waiting :=
      Multiset.coe_eq_coe.mpr hperm
    have hadded : ((st.scheduled ++ [toOccur] : List _) : Multiset _) = toOccur ::ₘ st.scheduled :=
      Multiset.coe_eq_coe.mpr (List.perm_append_singleton ..)
    refine .single ?_
    show Calendar.Step _ _
      ⟨interrupt.stats.totalTicks, interrupt.waiting,
        Multiset.ofList (st.scheduled ++ [toOccur]), _⟩
    rw [hstats, hwaiting, hadded]
    exact .add st.calendar hlater

theorem Advances.oneTick (h : st.interrupt.Inv) (hnumbered : st.Numbered)
    (hstep : st.oneTick = some st') : st.Advances st' := by
  obtain ⟨stats, htick, hstep⟩ := Option.bind_eq_some_iff.mp hstep
  cases hstep
  obtain ⟨hle, hadd⟩ := Interrupt.tick_eq_some htick
  exact ⟨⟨h.sorted, h.keyed, hadd h.addUp⟩, hnumbered, .single (.wait st.calendar hle)⟩

theorem Advances.setLevel (h : st.interrupt.Inv) (hnumbered : st.Numbered) {now : IntStatus}
    (hstep : st.setLevel now = some st') : st.Advances st' := by
  obtain ⟨-, hstep⟩ := Option.ite_none_right_eq_some.mp hstep
  have hlevel : st.Advances { st with interrupt := { st.interrupt with level := now } } :=
    .of_same h hnumbered rfl rfl rfl rfl
  split at hstep
  · exact hlevel.trans (.oneTick hlevel.inv hlevel.numbered hstep)
  · cases hstep
    exact hlevel

theorem leaveLoop_frame (st : InterruptRun γ) (loop : Loop) :
    (st.leaveLoop loop).interrupt.pending = st.interrupt.pending ∧
      (st.leaveLoop loop).interrupt.stats = st.interrupt.stats ∧
      (st.leaveLoop loop).scheduled = st.scheduled ∧ (st.leaveLoop loop).called = st.called := by
  match loop with
  | .oneTick old =>
      rw [leaveLoop]
      split <;> exact ⟨rfl, rfl, rfl, rfl⟩
  | .idle true | .idle false => exact ⟨rfl, rfl, rfl, rfl⟩

theorem Advances.checkIfDue (h : st.interrupt.Inv) (hnumbered : st.Numbered) {loop : Loop}
    (hstep : st.checkIfDue loop = some st') : st.Advances st' := by
  obtain ⟨⟨interrupt, r⟩, hcheck, hstep⟩ := Option.bind_eq_some_iff.mp hstep
  obtain ⟨hinv, hle, ⟨rfl, hperm⟩ | ⟨toOccur, rfl, hwaiting, hmin, hdue⟩⟩ := h.checkIfDue hcheck
  · cases hstep
    have hwait : st.Advances { st with interrupt := interrupt } := by
      have hwaiting : Multiset.ofList interrupt.waiting = Multiset.ofList st.interrupt.waiting :=
        Multiset.coe_eq_coe.mpr hperm
      refine ⟨hinv, hnumbered, .single ?_⟩
      show Calendar.Step _ _
        ⟨interrupt.stats.totalTicks, Multiset.ofList interrupt.waiting, _, _⟩
      rw [hwaiting]
      exact .wait st.calendar hle
    obtain ⟨hpending, hstats, hscheduled, hcalled⟩ :=
      leaveLoop_frame { st with interrupt := interrupt } loop
    exact hwait.trans (.of_same hinv hnumbered hpending hstats hscheduled hcalled)
  · cases hstep
    have hwait : Calendar.Step PendingInterrupt.when st.calendar
        { st.calendar with now := interrupt.stats.totalTicks } := .wait st.calendar hle
    refine ⟨hinv, hnumbered, .tail (.single hwait) (.fire _ ?_ hmin hdue)⟩
    exact congrArg Multiset.ofList hwaiting

theorem exec_advances (h : st.interrupt.Inv) (hnumbered : st.Numbered) {act : InterruptAct γ}
    (hexec : st.exec act = some st') : st.Advances st' := by
  rw [exec.eq_def] at hexec
  split at hexec
  · exact .schedule h hnumbered hexec
  · exact .schedule h hnumbered hexec
  · exact .setLevel h hnumbered hexec
  · exact .setLevel h hnumbered hexec
  · cases hexec
    exact .of_same h hnumbered rfl rfl rfl rfl
  · obtain ⟨-, hexec⟩ := Option.ite_none_right_eq_some.mp hexec
    cases hexec
    exact .of_same h hnumbered rfl rfl rfl rfl
  · exact .oneTick h hnumbered hexec
  · cases hexec
    exact .of_same h hnumbered rfl rfl rfl rfl
  · exact .checkIfDue h hnumbered hexec
  · cases hexec
    exact .of_same h hnumbered rfl rfl rfl rfl
  · obtain ⟨old, -, hexec⟩ := Option.bind_eq_some_iff.mp hexec
    cases hexec
    exact .of_same h hnumbered rfl rfl rfl rfl
  · cases hexec

/-! ## What holds in every run -/

variable [DecidableEq γ]

/-- The promises made about interrupts. -/
structure Faithful (st : InterruptRun γ) : Prop where
  /-- The pending list is sorted by due time. -/
  sorted : st.interrupt.waiting.Pairwise fun p q => p.when ≤ q.when
  /-- Different calls of `Schedule` make different objects. -/
  distinct : st.scheduled.Nodup
  /-- What was scheduled is pending once or was called once. -/
  once : ∀ p ∈ st.scheduled,
    (st.interrupt.waiting.count p = 1 ∧ (st.called.map Prod.fst).count p = 0) ∨
      (st.interrupt.waiting.count p = 0 ∧ (st.called.map Prod.fst).count p = 1)
  /-- Only what was scheduled is pending or was called. -/
  known : ∀ p, p ∈ st.interrupt.waiting ∨ p ∈ st.called.map Prod.fst → p ∈ st.scheduled
  notEarly : ∀ x ∈ st.called, x.1.when ≤ x.2
  inOrder : st.called.Pairwise fun x y => x.1.when ≤ y.1.when
  addUp : st.interrupt.stats.AddUp

theorem faithful_of_inv (h : st.interrupt.Inv) (hnumbered : st.Numbered)
    (hkept : st.calendar.Kept PendingInterrupt.when) : st.Faithful := by
  have hdistinct : st.scheduled.Nodup := by
    refine List.Nodup.of_map PendingInterrupt.object ?_
    rw [hnumbered]
    exact List.nodup_range
  have hperm : (st.interrupt.waiting ++ st.called.map Prod.fst).Perm st.scheduled :=
    Multiset.coe_eq_coe.mp hkept.once
  refine ⟨?_, hdistinct, fun p hp => ?_, fun p hp => ?_, hkept.onTime, hkept.inOrder, h.addUp⟩
  · refine List.pairwise_map.mpr (h.sorted.imp_of_mem fun hx hy hle => ?_)
    rw [← h.keyed _ hx, ← h.keyed _ hy]
    exact hle
  · have hcount : st.interrupt.waiting.count p + (st.called.map Prod.fst).count p = 1 := by
      rw [← List.count_append, hperm.count_eq, List.count_eq_one_of_mem hdistinct hp]
    omega
  · exact hperm.mem_iff.mp (List.mem_append.mpr hp)

/-- **Interrupts are never lost, duplicated, early or out of order**, and time does not go back:
this holds in every state of every run of the simulation. -/
theorem interrupts_faithful {steps : List (Step (InterruptRun γ) (InterruptAct γ))}
    (htrace : Trace (fun s act s' => s.exec act = some s') start steps st) :
    st.Faithful ∧ ∀ x ∈ steps, x.before.Faithful ∧
      x.before.interrupt.stats.totalTicks ≤ x.after.interrupt.stats.totalTicks := by
  let I (s : InterruptRun γ) : Prop :=
    s.interrupt.Inv ∧ s.Numbered ∧ s.calendar.Kept PendingInterrupt.when
  have hstart : I start := ⟨⟨.nil, nofun, rfl⟩, rfl, .start 0⟩
  have hstep (x : Step (InterruptRun γ) (InterruptAct γ)) (h : I x.before)
      (hexec : x.before.exec x.label = some x.after) : I x.after := by
    have hadvance := exec_advances h.1 h.2.1 hexec
    exact ⟨hadvance.inv, hadvance.numbered, h.2.2.steps hadvance.steps⟩
  obtain ⟨hlast, hall⟩ := htrace.invariant_of_forall hstep hstart
  refine ⟨faithful_of_inv hlast.1 hlast.2.1 hlast.2.2, fun x hx => ?_⟩
  obtain ⟨h, -⟩ := hall x hx
  refine ⟨faithful_of_inv h.1 h.2.1 h.2.2, ?_⟩
  exact (exec_advances h.1 h.2.1 (htrace.rel_of_mem x hx)).steps.now_le

/-- A timer and a disk interrupt; the handler of the second schedules a third one, and the
machine goes idle. -/
def sample : List (InterruptAct Unit) :=
  [.schedule () 0 15 .TimerInt, .schedule () 1 5 .DiskInt, .oneTick, .checkIfDue,
    .schedule () 2 100 .NetworkRecvInt, .yieldOnReturn, .handlerReturns, .checkIfDue,
    .yieldReturns 0, .setLevel .IntOff, .idle, .checkIfDue, .handlerReturns, .checkIfDue]

theorem interrupts_faithful_sample :
    ∃ (st : InterruptRun Unit) (steps : _),
      Trace (fun s act s' => exec s act = some s') start steps st ∧
        st.called.map (fun x => (x.1.arg, x.2)) = [(1, 10), (0, 15)] ∧ st.Faithful := by
  have hrun : (execAll exec start sample).map (fun st => st.called.map fun x => (x.1.arg, x.2)) =
      some [(1, 10), (0, 15)] := by decide
  obtain ⟨st, hst, hcalled⟩ := Option.map_eq_some_iff.mp hrun
  have htrace := trace_of_execAll hst
  exact ⟨st, _, htrace, hcalled, (interrupts_faithful htrace).1⟩

end InterruptRun

end Nachos
