/-
# One request at a time

The three devices that are used synchronously: the disk through `SynchDisk`
(`filesys/synchdisk.cc`, `machine/disk.cc`), the display through `SynchConsole`
(`userprog/synchconsole.cc`, `machine/console.cc`) and the network through `PostOffice::Send`.
Each checks, or relies on, that it is idle when a request comes. How long a request takes only
decides when its interrupt comes, and is left open.

The disk does the transfer when it gets the request. A read therefore gives what the last write
before it in the order of the requests has left, and this order is not always that in which the
calls return.
-/

import Nachos.Machine.Disk
import Nachos.Network.PostOffice

namespace Nachos

open Base Synch

/-- `class Disk`, as far as the requests see it. -/
structure DiskDevice where
  active : Bool
  sectors : Disk

/-- The calls of `SynchDisk`. -/
inductive SectorRequest
  | read (sectorNumber : ℤ)
  | write (sectorNumber : ℤ) (data : Mem)

namespace DiskDevice

/-- `Disk::ReadRequest`. -/
def readRequest (disk : DiskDevice) (sectorNumber : ℤ) :
    Except Fault (Option Mem × DiskDevice) := do
  assert (disk.active = false)
  let data ← disk.sectors.readSector sectorNumber
  return (some data, { disk with active := true })

/-- `Disk::WriteRequest`. -/
def writeRequest (disk : DiskDevice) (sectorNumber : ℤ) (data : Mem) :
    Except Fault (Option Mem × DiskDevice) := do
  assert (disk.active = false)
  let sectors ← disk.sectors.writeSector sectorNumber data
  return (none, ⟨true, sectors⟩)

/-- `Disk::HandleInterrupt`, up to the call of the handler. -/
def handleInterrupt (disk : DiskDevice) : DiskDevice := { disk with active := false }

end DiskDevice

/-- `SynchDisk::ReadSector` and `SynchDisk::WriteSector`. -/
def SynchDisk : Driver SectorRequest SectorRequest Unit DiskDevice (Option Mem) where
  prepare call := .ok (some call)
  request _ call disk :=
    match call with
    | .read sectorNumber => disk.readRequest sectorNumber
    | .write sectorNumber data => disk.writeRequest sectorNumber data
  complete disk := disk.handleInterrupt

/-- `class Console`, the part that writes. -/
structure ConsoleDevice where
  putBusy : Bool
  display : List UInt8

/-- The requests to the console. -/
inductive PutRequest
  | char (ch : UInt8)
  | string (s : List UInt8)

namespace ConsoleDevice

/-- `Console::PutChar`. -/
def putChar (console : ConsoleDevice) (ch : UInt8) : Except Fault (Unit × ConsoleDevice) := do
  assert (console.putBusy = false)
  return ((), ⟨true, console.display ++ [ch]⟩)

/-- `Console::PutString`. -/
def putString (console : ConsoleDevice) (s : List UInt8) : Except Fault (Unit × ConsoleDevice) := do
  assert (console.putBusy = false)
  return ((), ⟨true, console.display ++ s⟩)

/-- `Console::WriteDone`, up to the call of the handler. -/
def writeDone (console : ConsoleDevice) : ConsoleDevice := { console with putBusy := false }

end ConsoleDevice

/-- The calls of `SynchConsole` that write; a string is `NULL` or its bytes before the null. -/
inductive PutCall
  | putChar (ch : UInt8)
  | putString (s : Option (List UInt8))

/-- `SynchConsole::SynchPutChar` and `SynchConsole::SynchPutString`, which returns at once if
there is nothing to write. -/
def SynchConsole : Driver PutCall PutRequest Unit ConsoleDevice Unit where
  prepare call :=
    match call with
    | .putChar ch => .ok (some (.char ch))
    | .putString none => .ok none
    | .putString (some []) => .ok none
    | .putString (some s) => .ok (some (.string s))
  request _ r console :=
    match r with
    | .char ch => console.putChar ch
    | .string s => console.putString s
  complete console := console.writeDone

namespace Synch.DeviceRun

variable {ι κ ρ ω δ α : Type}

/-- A thread that is to make its request finds the device idle, at most one request is
outstanding, and a call that has returned has seen the interrupt of its own request. -/
structure OneAtATime (busy : δ → Bool) (st : DeviceRun ι ρ δ α) : Prop where
  notBusy : ∀ i r, (st.threads i).pc = .request r → busy st.device = false ∧ st.pending = []
  one : st.pending.length ≤ 1
  own : ∀ i k, (i, k) ∈ st.returned → k ∈ st.completed ∧ st.Made i k

theorem Inv.oneAtATime {busy : δ → Bool} {tid : ι → ℤ} {st : DeviceRun ι ρ δ α}
    (h : st.Inv busy tid) : st.OneAtATime busy := by
  refine ⟨fun i r hpc => ?_, ?_, h.returned⟩
  · obtain ⟨-, hpending, hbusy⟩ := h.idle_of_request hpc
    exact ⟨hbusy, hpending⟩
  · by_cases hwaits : ∃ i k, (st.threads i).pc = .wait k
    · obtain ⟨i, k, hpc⟩ := hwaits
      rcases h.waiting i k hpc with ⟨-, hpending⟩ | ⟨-, hpending, -⟩
      · rw [hpending]
        rfl
      · rw [hpending]
        exact Nat.zero_le 1
    · rw [(h.idle fun i k hpc => hwaits ⟨i, k, hpc⟩).2]
      exact Nat.zero_le 1

end Synch.DeviceRun

namespace SynchDisk

variable {ι : Type}

/-- The data of the last write to a sector in a list of requests. -/
def lastWrite (s : ℤ) (log : List (ι × SectorRequest × Option Mem)) : Option Mem :=
  log.foldl (fun last entry =>
    match entry.2.1 with
    | .write sectorNumber data => if sectorNumber = s then some data else last
    | .read _ => last) none

/-- What a sector holds after a list of requests. -/
def contents (first : Disk) (s : ℤ) (log : List (ι × SectorRequest × Option Mem)) : Mem :=
  (lastWrite s log).getD (first s.toNat)

/-- Every read in a list of requests gives what the sector held then. -/
def ReadsLast (first : Disk) (log : List (ι × SectorRequest × Option Mem)) : Prop :=
  ∀ k i s data, log[k]? = some (i, .read s, some data) →
    ∀ b < SectorSize, data b = contents first s (log.take k) b

theorem contents_read (first : Disk) (s : ℤ) (log : List (ι × SectorRequest × Option Mem)) (i : ι)
    (n : ℤ) (a : Option Mem) : contents first s (log ++ [(i, .read n, a)]) = contents first s log := by
  rw [contents, contents, lastWrite, lastWrite, List.foldl_append]
  rfl

theorem contents_write (first : Disk) (s : ℤ) (log : List (ι × SectorRequest × Option Mem)) (i : ι)
    (n : ℤ) (data : Mem) (a : Option Mem) : contents first s (log ++ [(i, .write n data, a)]) =
      if n = s then data else contents first s log := by
  rw [contents, contents, lastWrite, lastWrite, List.foldl_append]
  by_cases hn : n = s
  · simp [hn]
  · simp [hn]

/-- The disk holds what its requests have left, and its reads have given what it held. -/
structure Recorded (first : Disk) (st : DeviceRun ι SectorRequest DiskDevice (Option Mem)) :
    Prop where
  sectors : ∀ s : ℤ, 0 ≤ s → ∀ b < SectorSize,
    st.device.sectors s.toNat b = contents first s st.requests b
  reads : ReadsLast first st.requests

theorem ReadsLast.append {first : Disk} {log : List (ι × SectorRequest × Option Mem)}
    (h : ReadsLast first log) {i : ι} {r : SectorRequest} {a : Option Mem}
    (hnew : ∀ s data, r = .read s → a = some data → ∀ b < SectorSize,
      data b = contents first s log b) : ReadsLast first (log ++ [(i, r, a)]) := by
  intro k j s data hk b hb
  rcases Nat.lt_trichotomy k log.length with hlt | rfl | hgt
  · rw [List.getElem?_append_left hlt] at hk
    rw [List.take_append_of_le_length hlt.le]
    exact h k j s data hk b hb
  · rw [List.getElem?_append_right le_rfl, Nat.sub_self, List.getElem?_cons_zero,
      Option.some.injEq, Prod.mk.injEq, Prod.mk.injEq] at hk
    rw [List.take_left]
    exact hnew s data hk.2.1 hk.2.2 b hb
  · rw [List.getElem?_eq_none (by simp; omega)] at hk
    cases hk

variable [DecidableEq ι]

theorem Recorded.exec {first : Disk} {tid : ι → ℤ}
    {st st' : DeviceRun ι SectorRequest DiskDevice (Option Mem)} (h : Recorded first st)
    {act : DeviceAct ι SectorRequest Unit} (hexec : st.exec SynchDisk tid act = some st') :
    Recorded first st' := by
  rcases DeviceRun.requests_of_exec hexec with ⟨hrequests, hdevice⟩ |
    ⟨i, r, oracle, a, -, hrequest, hrequests⟩
  · have hsectors : st'.device.sectors = st.device.sectors := by
      rcases hdevice with hdevice | hdevice
      · rw [hdevice]
      · rw [hdevice]
        rfl
    constructor
    · rw [hsectors, hrequests]
      exact h.sectors
    · rw [hrequests]
      exact h.reads
  · cases r with
    | read n =>
        obtain ⟨-, -, hrequest⟩ := Except.bind_eq_ok.mp hrequest
        obtain ⟨data, hread, heq⟩ := Except.bind_eq_ok.mp hrequest
        obtain ⟨hrange, rfl⟩ := Disk.readSector_eq_ok.mp hread
        obtain ⟨rfl, hdevice⟩ := Prod.mk.inj (Except.ok.inj heq)
        constructor
        · intro s hs b hb
          rw [← hdevice, hrequests, contents_read]
          exact h.sectors s hs b hb
        · rw [hrequests]
          refine h.reads.append fun s data hs hdata b hb => ?_
          cases hs
          cases hdata
          exact h.sectors n hrange.1 b hb
    | write n data =>
        obtain ⟨-, -, hrequest⟩ := Except.bind_eq_ok.mp hrequest
        obtain ⟨sectors, hwrite, heq⟩ := Except.bind_eq_ok.mp hrequest
        obtain ⟨hrange, rfl⟩ := Disk.writeSector_eq_ok.mp hwrite
        obtain ⟨rfl, hdevice⟩ := Prod.mk.inj (Except.ok.inj heq)
        constructor
        · intro s hs b hb
          rw [← hdevice, hrequests, contents_write]
          show st.device.sectors.put n.toNat data s.toNat b = _
          by_cases hn : n = s
          · rw [hn, if_pos rfl, Disk.put_self _ _ _ hb]
          · rw [if_neg hn, Disk.put_of_ne _ _ (by omega)]
            exact h.sectors s hs b hb
        · rw [hrequests]
          exact h.reads.append (by nofun)

/-- The reads of every run. -/
theorem readsLast_of_run {tid : ι → ℤ} {disk : DiskDevice}
    {st : DeviceRun ι SectorRequest DiskDevice (Option Mem)}
    {steps : List (Step (DeviceRun ι SectorRequest DiskDevice (Option Mem))
      (DeviceAct ι SectorRequest Unit))}
    (hrun : DeviceRun.Run SynchDisk tid (DeviceRun.start disk) steps st) :
    ReadsLast disk.sectors st.requests := by
  have hstart : Recorded disk.sectors
      (DeviceRun.start disk : DeviceRun ι SectorRequest DiskDevice (Option Mem)) :=
    ⟨fun _ _ _ _ => rfl, fun k _ _ _ hk => by cases hk⟩
  exact (Trace.invariant_of_forall (I := Recorded disk.sectors)
    (fun _ hbefore hexec => hbefore.exec hexec) hrun hstart).1.reads

end SynchDisk

section Requests

variable {ι : Type} [DecidableEq ι]

/-- **One request at a time.** However the threads and the completion interrupts interleave, a
request to the disk, the display or the network is made when the device is idle and no
interrupt is outstanding, and a call returns after the interrupt of its own request. A read of
a sector gives the data of the last write to it in the order of the requests, each of which is
made between the call and the return. -/
theorem one_request (tid : ι → ℤ) :
    (∀ (disk : DiskDevice) (st : DeviceRun ι SectorRequest DiskDevice (Option Mem)) steps,
      disk.active = false → DeviceRun.Run SynchDisk tid (DeviceRun.start disk) steps st →
      st.OneAtATime DiskDevice.active ∧ DeviceRun.WithinCalls SynchDisk steps st ∧
        SynchDisk.ReadsLast disk.sectors st.requests) ∧
    (∀ (console : ConsoleDevice) (st : DeviceRun ι PutRequest ConsoleDevice Unit) steps,
      console.putBusy = false → DeviceRun.Run SynchConsole tid (DeviceRun.start console) steps st →
      st.OneAtATime ConsoleDevice.putBusy ∧ DeviceRun.WithinCalls SynchConsole steps st) ∧
    ∀ (netAddr : BitVec 32) (numBoxes : ℤ) (net : Network)
      (st : DeviceRun ι Sending Network (Option (BitVec 32 × Mem))) steps,
      net.sendBusy = false →
      DeviceRun.Run (PostOffice.sender netAddr numBoxes) tid (DeviceRun.start net) steps st →
      st.OneAtATime Network.sendBusy ∧
        DeviceRun.WithinCalls (PostOffice.sender netAddr numBoxes) steps st := by
  refine ⟨fun disk st steps hdisk hrun =>
      ⟨?_, DeviceRun.withinCalls_of_run hrun, SynchDisk.readsLast_of_run hrun⟩,
    fun console st steps hconsole hrun => ⟨?_, DeviceRun.withinCalls_of_run hrun⟩,
    fun netAddr numBoxes net st steps hnet hrun => ⟨?_, DeviceRun.withinCalls_of_run hrun⟩⟩
  · exact (DeviceRun.Inv.run (fun _ => rfl) hdisk hrun).oneAtATime
  · exact (DeviceRun.Inv.run (fun _ => rfl) hconsole hrun).oneAtATime
  · exact (DeviceRun.Inv.run (fun _ => rfl) hnet hrun).oneAtATime

end Requests

namespace SynchDisk

/-- A whole call by thread `i`, up to the end of the function; its request has number `k`. -/
def wholeCall (i : Fin 2) (call : SectorRequest) (k : ℕ) :
    List (DeviceAct (Fin 2) SectorRequest Unit) :=
  .call i call :: List.replicate 6 (.step i ()) ++
    .interrupt k :: List.replicate 6 (.step i ())

/-- A disk of zeros. -/
def blank : DiskDevice := ⟨false, fun _ _ => 0⟩

/-- One thread writes a sector and another one reads it. -/
theorem one_request_two : ∃ (st : DeviceRun (Fin 2) SectorRequest DiskDevice (Option Mem)) (steps :
    List (Step (DeviceRun (Fin 2) SectorRequest DiskDevice (Option Mem))
      (DeviceAct (Fin 2) SectorRequest Unit))),
    DeviceRun.Run SynchDisk (fun _ => 1) (DeviceRun.start blank) steps st ∧
      st.returned = [(0, 0), (1, 1)] ∧ st.OneAtATime DiskDevice.active ∧
      DeviceRun.WithinCalls SynchDisk steps st ∧ ReadsLast blank.sectors st.requests := by
  let labels := wholeCall 0 (.write 3 fun _ => 7) 0 ++ [.step 0 ()] ++ wholeCall 1 (.read 3) 1 ++
    [.step 1 ()]
  have hend : (execAll (DeviceRun.exec SynchDisk fun _ => 1) (DeviceRun.start blank) labels).map
      (fun st => st.returned) = some [(0, 0), (1, 1)] := by decide +kernel
  obtain ⟨st, hst, hreturned⟩ := Option.map_eq_some_iff.mp hend
  have hrun := trace_of_execAll hst
  exact ⟨st, _, hrun, hreturned, (one_request fun _ => 1).1 blank st _ rfl hrun⟩

/-- The requests of the calls that have returned, in the order in which they have. -/
def returnedLog {ι : Type} (st : DeviceRun ι SectorRequest DiskDevice (Option Mem)) :
    List (ι × SectorRequest × Option Mem) :=
  st.returned.filterMap fun entry => st.requests[entry.2]?

/-- The first byte of the read at `k`, and that of the last write before it. -/
def firstBytes {ι : Type} (first : Disk) (log : List (ι × SectorRequest × Option Mem)) (k : ℕ) :
    Option (UInt8 × UInt8) :=
  match log[k]? with
  | some (_, .read s, some data) => some (data 0, contents first s (log.take k) 0)
  | _ => none

theorem ReadsLast.firstBytes_eq {ι : Type} {first : Disk}
    {log : List (ι × SectorRequest × Option Mem)} (h : ReadsLast first log) {k : ℕ}
    {x y : UInt8} (hbytes : firstBytes first log k = some (x, y)) : x = y := by
  unfold firstBytes at hbytes
  split at hbytes
  next i s data hentry =>
    obtain ⟨rfl, rfl⟩ := Prod.mk.inj (Option.some.inj hbytes)
    exact h k i s data hentry 0 (by decide)
  next => cases hbytes

/-- The first of two writes is the last to return. A read that is called when both have
returned gives the data of the other one. -/
theorem not_readsLast_returned : ¬ ∀ (tid : Fin 2 → ℤ) (disk : DiskDevice)
    (st : DeviceRun (Fin 2) SectorRequest DiskDevice (Option Mem)) steps, disk.active = false →
    DeviceRun.Run SynchDisk tid (DeviceRun.start disk) steps st →
    ReadsLast disk.sectors (returnedLog st) := by
  intro hclaim
  let labels := wholeCall 0 (.write 3 fun _ => 7) 0 ++ wholeCall 1 (.write 3 fun _ => 8) 1 ++
    [.step 1 (), .step 0 ()] ++ wholeCall 1 (.read 3) 2 ++ [.step 1 ()]
  have hend : (execAll (DeviceRun.exec SynchDisk fun _ => 1) (DeviceRun.start blank) labels).map
      (fun st => firstBytes blank.sectors (returnedLog st) 2) = some (some (8, 7)) := by
    decide +kernel
  obtain ⟨st, hst, hbytes⟩ := Option.map_eq_some_iff.mp hend
  have hequal := (hclaim _ blank st _ rfl (trace_of_execAll hst)).firstBytes_eq hbytes
  exact absurd hequal (by decide)

end SynchDisk

end Nachos
