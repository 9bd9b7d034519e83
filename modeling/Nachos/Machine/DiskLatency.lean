/-
# How long a disk request takes

`Disk::ComputeLatency`. The head moves to the track of the sector, waits for the next
sector boundary, and from there until the sector comes round. Where the disk stands is
told from the clock: the sector under the head is the number of sector times that have
gone by.

The clock has 64 bits. `TimeToSeek` finds the boundary with all of them, but
`ComputeLatency` keeps the time of the boundary in an `int` and divides what is left of
it, so the disk appears turned by the sectors that were cut off.
-/

import Mathlib.Tactic.NormNum
import Nachos.Machine.Disk
import Nachos.Machine.Interrupt

namespace Nachos

open Base

/-- Time disk takes to rotate one sector. -/
def RotationTime : ℤ := 500

/-- Time disk takes to seek past one track. -/
def SeekTime : ℤ := 500

/-- What `class Disk` remembers of the requests before. -/
structure DiskHead where
  /-- The previous disk request. -/
  lastSector : ℤ
  /-- When the track buffer started being loaded. -/
  bufferInit : ℤ
  deriving DecidableEq, Repr

/-- `Disk::ModuloDiff`. -/
def moduloDiff (to_ from_ : ℤ) : ℤ :=
  let toOffset := to_.tmod SectorsPerTrack
  let fromOffset := from_.tmod SectorsPerTrack
  ((toOffset - fromOffset) + SectorsPerTrack).tmod SectorsPerTrack

namespace DiskHead

variable (head : DiskHead) (totalTicks newSector : ℤ)

/-- `Disk::TimeToSeek`: the time of the seek, and that until the next sector boundary. -/
def timeToSeek : Option (ℤ × ℤ) := do
  let newTrack := newSector.tdiv SectorsPerTrack
  let oldTrack := head.lastSector.tdiv SectorsPerTrack
  let seek := wrap32 ((newTrack - oldTrack).natAbs * SeekTime)
  let over_ := (← longLong (totalTicks + seek)).tmod RotationTime
  return (seek, if over_ > 0 then RotationTime - over_ else 0)

/-- The test for the track buffer. -/
def inBuffer (writing : Bool) (seek timeAfter : ℤ) : Prop :=
  writing = false ∧ seek = 0 ∧
    (wrap32 (timeAfter - head.bufferInit)).tdiv RotationTime >
      moduloDiff newSector (head.bufferInit.tdiv RotationTime)

instance (writing : Bool) (seek timeAfter : ℤ) :
    Decidable (head.inBuffer newSector writing seek timeAfter) :=
  inferInstanceAs (Decidable (_ ∧ _ ∧ _))

/-- `Disk::ComputeLatency`, with whether the request is served from the track buffer. -/
def computeLatency (writing : Bool) : Option (ℤ × Bool) := do
  let (seek, rotation) ← head.timeToSeek totalTicks newSector
  let timeAfter := wrap32 (← longLong ((← longLong (totalTicks + seek)) + rotation))
  if head.inBuffer newSector writing seek timeAfter then return (RotationTime, true)
  else
    let rotation :=
      wrap32 (rotation + moduloDiff newSector (timeAfter.tdiv RotationTime) * RotationTime)
    return (wrap32 (seek + rotation + RotationTime), false)

/-- `Disk::UpdateLast`. -/
def updateLast : Option DiskHead := do
  let (seek, rotate) ← head.timeToSeek totalTicks newSector
  let timeAfter ← longLong ((← longLong (totalTicks + seek)) + rotate)
  return ⟨newSector, if seek ≠ 0 then wrap32 timeAfter else head.bufferInit⟩

end DiskHead

/-! ## Division in C -/

theorem tmod_sectors (x : ℤ) :
    x.tmod SectorsPerTrack % SectorsPerTrack = x % SectorsPerTrack ∧
      -SectorsPerTrack < x.tmod SectorsPerTrack ∧ x.tmod SectorsPerTrack < SectorsPerTrack := by
  rw [SectorsPerTrack]
  rcases Int.le_total 0 x with hx | hx
  · rw [Int.tmod_eq_emod_of_nonneg hx]
    omega
  · have hneg : x.tmod (32 : ℕ) = -((-x) % (32 : ℕ)) := by
      rw [← Int.tmod_eq_emod_of_nonneg (by omega), Int.neg_tmod, neg_neg]
    rw [hneg]
    omega

/-- `ModuloDiff` is right also for a time that has become negative. -/
theorem moduloDiff_eq {x : ℤ} (hx : 0 ≤ x) (y : ℤ) :
    moduloDiff x y = (x - y) % SectorsPerTrack := by
  obtain ⟨hmod, hlow, hhigh⟩ := tmod_sectors y
  rw [SectorsPerTrack] at hmod hlow hhigh
  rw [moduloDiff, SectorsPerTrack, Int.tmod_eq_emod_of_nonneg hx,
    Int.tmod_eq_emod_of_nonneg (by omega)]
  omega

/-- What is left of a time in an `int`. -/
theorem wrap32_eq_sub (x : ℤ) : wrap32 x = x - (x + 2 ^ 31) / 2 ^ 32 * 2 ^ 32 := by
  rw [wrap32, Int.bmod_def]
  split <;> omega

/-- How often an `int` that follows the clock has gone round at the time `a`. -/
def timesRound (a : ℤ) : ℤ := (a + 2 ^ 31) / 2 ^ 32

/-- The sectors that are lost when the time `a` is put in an `int`. The division rounds
towards zero. -/
def lostSectors (a : ℤ) : ℤ :=
  if timesRound a * 2 ^ 32 ≤ a then (timesRound a * 2 ^ 32 + (RotationTime - 1)) / RotationTime
  else timesRound a * 2 ^ 32 / RotationTime

theorem tdiv_wrap32 {a : ℤ} (ha : a % RotationTime = 0) :
    (wrap32 a).tdiv RotationTime = a / RotationTime - lostSectors a := by
  rw [wrap32_eq_sub, ← timesRound, lostSectors]
  rw [RotationTime] at *
  split
  · rw [Int.tdiv_eq_ediv_of_nonneg (by omega)]
    omega
  · have hneg : (a - timesRound a * 2 ^ 32).tdiv 500 =
        -((timesRound a * 2 ^ 32 - a) / 500) := by
      rw [← Int.tdiv_eq_ediv_of_nonneg (by omega), ← Int.neg_tdiv, neg_sub]
    rw [hneg]
    omega

/-- Up to the largest `int` nothing is lost. -/
theorem lostSectors_of_lt {a : ℤ} (ha : 0 ≤ a) (hlt : a < 2 ^ 31) : lostSectors a = 0 := by
  have hround : timesRound a = 0 := by
    rw [timesRound]
    omega
  rw [lostSectors, hround, RotationTime, if_pos (by omega)]
  rfl

namespace DiskHead

variable (head : DiskHead) (totalTicks newSector : ℤ)

/-- The time of the seek. -/
def seekTo : ℤ :=
  (newSector / SectorsPerTrack - head.lastSector / SectorsPerTrack).natAbs * SeekTime

/-- The first sector boundary after the seek. -/
def arrival : ℤ :=
  (totalTicks + (RotationTime - 1)) / RotationTime * RotationTime + head.seekTo newSector

variable {head totalTicks newSector}

/-- A sector of the disk. -/
def OnDisk (sector : ℤ) : Prop := 0 ≤ sector ∧ sector < NumSectors

instance (sector : ℤ) : Decidable (OnDisk sector) := inferInstanceAs (Decidable (_ ∧ _))

theorem seekTo_bounds (hlast : OnDisk head.lastSector) (hnew : OnDisk newSector) :
    0 ≤ head.seekTo newSector ∧ head.seekTo newSector < NumTracks * SeekTime ∧
      head.seekTo newSector % RotationTime = 0 := by
  simp only [OnDisk, NumSectors, NumTracks, SectorsPerTrack, seekTo, SeekTime, RotationTime] at *
  omega

theorem arrival_eq (head : DiskHead) (totalTicks newSector : ℤ) :
    head.arrival totalTicks newSector =
      totalTicks + head.seekTo newSector + -totalTicks % RotationTime := by
  rw [arrival, RotationTime]
  omega

theorem arrival_mod (totalTicks : ℤ) (hlast : OnDisk head.lastSector) (hnew : OnDisk newSector) :
    head.arrival totalTicks newSector % RotationTime = 0 := by
  obtain ⟨-, -, hmod⟩ := seekTo_bounds hlast hnew
  rw [arrival]
  rw [RotationTime] at *
  omega

theorem longLong_of_lt {x : ℤ} (hlow : 0 ≤ x) (hhigh : x < 2 ^ 63) : longLong x = some x :=
  if_pos ⟨by omega, hhigh⟩

/-- `TimeToSeek` waits for the next sector boundary, unless the clock overflows. -/
theorem timeToSeek_eq (hticks : 0 ≤ totalTicks) (hlast : OnDisk head.lastSector)
    (hnew : OnDisk newSector) :
    head.timeToSeek totalTicks newSector =
      (longLong (totalTicks + head.seekTo newSector)).bind fun _ =>
        some (head.seekTo newSector, -totalTicks % RotationTime) := by
  obtain ⟨hlow, hhigh, hmod⟩ := seekTo_bounds hlast hnew
  have hseek : wrap32 ((newSector.tdiv SectorsPerTrack -
      head.lastSector.tdiv SectorsPerTrack).natAbs * SeekTime) = head.seekTo newSector := by
    rw [Int.tdiv_eq_ediv_of_nonneg hnew.1, Int.tdiv_eq_ediv_of_nonneg hlast.1]
    apply wrap32_eq_self
    · exact le_trans (by norm_num) hlow
    · exact hhigh.trans (by norm_num [NumTracks, SeekTime])
  rw [timeToSeek]
  simp only [hseek]
  apply Option.bind_congr
  intro sum hsum
  rw [longLong_eq_some hsum, Int.tmod_eq_emod_of_nonneg (by omega)]
  rw [RotationTime] at *
  have hrotation : (if (totalTicks + head.seekTo newSector) % 500 > 0 then
      500 - (totalTicks + head.seekTo newSector) % 500 else 0) = -totalTicks % 500 := by
    split <;> omega
  rw [hrotation]
  rfl

variable {writing : Bool}

/-- The sum of the times does not fit the clock. -/
theorem computeLatency_eq_none (hticks : 0 ≤ totalTicks) (hlast : OnDisk head.lastSector)
    (hnew : OnDisk newSector) (hlarge : 2 ^ 63 ≤ head.arrival totalTicks newSector) :
    head.computeLatency totalTicks newSector writing = none := by
  have hover : longLong (totalTicks + head.seekTo newSector + -totalTicks % RotationTime) = none := by
    rw [← arrival_eq, longLong, if_neg (by omega)]
  rw [computeLatency, timeToSeek_eq hticks hlast hnew]
  cases hsum : longLong (totalTicks + head.seekTo newSector) with
  | none => rfl
  | some sum =>
      obtain rfl := longLong_eq_some hsum
      simp only [Option.bind_some, Option.bind_eq_bind, hsum, hover, Option.bind_none]

/-- **`ComputeLatency`**, with the sector that it takes to be under the head. -/
theorem computeLatency_eq (hticks : 0 ≤ totalTicks) (hlast : OnDisk head.lastSector)
    (hnew : OnDisk newSector) (hfits : head.arrival totalTicks newSector < 2 ^ 63) :
    head.computeLatency totalTicks newSector writing =
      some (if head.inBuffer newSector writing (head.seekTo newSector)
          (wrap32 (head.arrival totalTicks newSector)) then (RotationTime, true)
        else (head.seekTo newSector + -totalTicks % RotationTime +
          (newSector - (head.arrival totalTicks newSector / RotationTime -
            lostSectors (head.arrival totalTicks newSector))) % SectorsPerTrack * RotationTime +
          RotationTime, false)) := by
  obtain ⟨hlow, hhigh, hmod⟩ := seekTo_bounds hlast hnew
  have harrival := arrival_eq head totalTicks newSector
  have hrotation : 0 ≤ -totalTicks % RotationTime ∧ -totalTicks % RotationTime < RotationTime := by
    rw [RotationTime]
    omega
  have hsum : longLong (totalTicks + head.seekTo newSector) =
      some (totalTicks + head.seekTo newSector) := longLong_of_lt (by omega) (by omega)
  have hafter : longLong (totalTicks + head.seekTo newSector + -totalTicks % RotationTime) =
      some (head.arrival totalTicks newSector) := by
    rw [← harrival, longLong_of_lt (by omega) hfits]
  rw [computeLatency, timeToSeek_eq hticks hlast hnew]
  simp only [hsum, hafter, Option.bind_some, Option.bind_eq_bind, moduloDiff_eq hnew.1,
    tdiv_wrap32 (arrival_mod totalTicks hlast hnew)]
  split
  · rfl
  -- All of this is small.
  have hturn : ∀ x : ℤ, 0 ≤ x % SectorsPerTrack ∧ x % SectorsPerTrack < 32 := by
    intro x
    rw [SectorsPerTrack]
    omega
  have hturn := hturn (newSector - (head.arrival totalTicks newSector / RotationTime -
    lostSectors (head.arrival totalTicks newSector)))
  simp only [RotationTime, SeekTime, NumTracks] at *
  rw [wrap32_eq_self (x := -totalTicks % 500 + _) (by omega) (by omega),
    wrap32_eq_self (by omega) (by omega)]
  simp only [add_assoc]
  rfl

/-- The request takes a time, at least that of a transfer, and unless it is served from the
track buffer its transfer starts when the sector comes under the head. -/
def StartsOnSector (head : DiskHead) (totalTicks newSector : ℤ) (writing : Bool) : Prop :=
  ∃ t fromBuffer, head.computeLatency totalTicks newSector writing = some (t, fromBuffer) ∧
    RotationTime ≤ t ∧ (fromBuffer = false →
      (totalTicks + t - RotationTime) % RotationTime = 0 ∧
      (totalTicks + t - RotationTime) / RotationTime % SectorsPerTrack =
        newSector % SectorsPerTrack)

/-- Where the transfer starts, if the disk is taken to be `lost` sectors behind. -/
theorem transfer_start {totalTicks seek rotation a : ℤ} (ha : a = totalTicks + seek + rotation)
    (hboundary : a % RotationTime = 0) (newSector : ℤ) :
    let t := seek + rotation + (newSector - (a / RotationTime - lostSectors a)) %
      SectorsPerTrack * RotationTime + RotationTime
    (totalTicks + t - RotationTime) % RotationTime = 0 ∧
      ((totalTicks + t - RotationTime) / RotationTime % SectorsPerTrack =
        newSector % SectorsPerTrack ↔ lostSectors a % SectorsPerTrack = 0) := by
  simp only [RotationTime, SectorsPerTrack] at *
  omega

/-- While the times fit the clock. -/
theorem startsOnSector_of_fits (hticks : 0 ≤ totalTicks) (hlast : OnDisk head.lastSector)
    (hnew : OnDisk newSector) (hfits : head.arrival totalTicks newSector < 2 ^ 63) :
    head.StartsOnSector totalTicks newSector writing ↔
      head.inBuffer newSector writing (head.seekTo newSector)
          (wrap32 (head.arrival totalTicks newSector)) ∨
        lostSectors (head.arrival totalTicks newSector) % SectorsPerTrack = 0 := by
  rw [StartsOnSector, computeLatency_eq hticks hlast hnew hfits]
  obtain ⟨hlow, hhigh, hmod⟩ := seekTo_bounds hlast hnew
  have harrival := arrival_eq head totalTicks newSector
  have hboundary := arrival_mod totalTicks hlast hnew
  simp only [Option.some.injEq]
  by_cases hbuffer : head.inBuffer newSector writing (head.seekTo newSector)
      (wrap32 (head.arrival totalTicks newSector))
  · rw [if_pos hbuffer]
    exact iff_of_true ⟨_, _, rfl, le_rfl, nofun⟩ (Or.inl hbuffer)
  · rw [if_neg hbuffer]
    simp only [hbuffer, false_or]
    have hstart := transfer_start harrival hboundary newSector
    constructor
    · rintro ⟨t, fromBuffer, hresult, -, hright⟩
      cases hresult
      exact hstart.2.mp (hright rfl).2
    · intro hturns
      refine ⟨_, _, rfl, ?_, fun _ => ⟨hstart.1, hstart.2.mpr hturns⟩⟩
      have hrotation := Int.emod_nonneg (-totalTicks) (b := RotationTime) (by decide)
      have hturn := Int.emod_nonneg (newSector - (head.arrival totalTicks newSector /
        RotationTime - lostSectors (head.arrival totalTicks newSector)))
        (b := SectorsPerTrack) (by decide)
      rw [RotationTime] at *
      omega

/-- **When the transfer starts on the right sector.** The time of the sector boundary after
the seek fits the clock, and what an `int` loses of that time is a whole number of turns
of the disk. -/
theorem startsOnSector_iff (hticks : 0 ≤ totalTicks) (hlast : OnDisk head.lastSector)
    (hnew : OnDisk newSector) :
    head.StartsOnSector totalTicks newSector writing ↔
      head.arrival totalTicks newSector < 2 ^ 63 ∧
        (head.inBuffer newSector writing (head.seekTo newSector)
            (wrap32 (head.arrival totalTicks newSector)) ∨
          lostSectors (head.arrival totalTicks newSector) % SectorsPerTrack = 0) := by
  by_cases hfits : head.arrival totalTicks newSector < 2 ^ 63
  · rw [startsOnSector_of_fits hticks hlast hnew hfits, and_iff_right hfits]
  · rw [StartsOnSector, computeLatency_eq_none hticks hlast hnew (by omega)]
    refine iff_of_false ?_ fun h => hfits h.1
    rintro ⟨t, fromBuffer, hresult, -⟩
    cases hresult

/-- At the start of the simulation. -/
theorem startsOnSector_boot :
    OnDisk 0 ∧ OnDisk 40 ∧ StartsOnSector ⟨0, 0⟩ 0 40 true := by
  have hlast : OnDisk (DiskHead.mk 0 0).lastSector := by decide
  have hnew : OnDisk 40 := by decide
  exact ⟨hlast, hnew, (startsOnSector_iff le_rfl hlast hnew).mpr (by decide)⟩

/-- A write to sector `0` from there at the first time that is no `int`: the disk is taken
to be 14 sectors behind. -/
theorem not_startsOnSector_late : ¬ ∀ totalTicks lastSector newSector bufferInit writing,
    0 ≤ totalTicks → totalTicks < 2 ^ 63 → OnDisk lastSector → OnDisk newSector →
      StartsOnSector ⟨lastSector, bufferInit⟩ totalTicks newSector writing := by
  intro hall
  obtain ⟨t, fromBuffer, hresult, -, hright⟩ :=
    hall (2 ^ 31) 0 0 0 true (by decide) (by decide) (by decide) (by decide)
  have hlatency : computeLatency ⟨0, 0⟩ (2 ^ 31) 0 true = some (11852, false) := by decide
  rw [hlatency] at hresult
  cases hresult
  exact absurd (hright rfl).2 (by decide)

/-! ## Runs -/

/-- A request of `Disk::ReadRequest` or `Disk::WriteRequest`, with its time. -/
structure Request where
  totalTicks : ℤ
  newSector : ℤ
  writing : Bool

/-- What a request does to the head. -/
def Step (head : DiskHead) (request : Request) (head' : DiskHead) : Prop :=
  0 ≤ request.totalTicks ∧
    (head.computeLatency request.totalTicks request.newSector request.writing).isSome ∧
    OnDisk request.newSector ∧ head.updateLast request.totalTicks request.newSector = some head'

/-- The head is always at a sector of the disk. -/
theorem onDisk_step {head head' : DiskHead} {request : Request}
    (hstep : head.Step request head') : OnDisk head'.lastSector := by
  obtain ⟨-, -, hnew, hupdate⟩ := hstep
  simp only [updateLast, Option.bind_eq_bind, Option.bind_eq_some_iff] at hupdate
  obtain ⟨_, -, _, -, _, -, hhead⟩ := hupdate
  cases hhead
  exact hnew

/-- **Early requests.** In every run from the start, a request whose sector boundary comes
while the clock is an `int` starts on its sector. -/
theorem startsOnSector_of_run {head : DiskHead} {steps : List (Base.Step DiskHead Request)}
    (hrun : Trace Step ⟨0, 0⟩ steps head) {x : Base.Step DiskHead Request} (hx : x ∈ steps)
    (hearly : x.before.arrival x.label.totalTicks x.label.newSector < 2 ^ 31) :
    x.before.StartsOnSector x.label.totalTicks x.label.newSector x.label.writing := by
  obtain ⟨-, hall⟩ := Trace.invariant_of_forall (I := fun head => OnDisk head.lastSector)
    (fun x _ hstep => onDisk_step hstep) hrun (by decide)
  obtain ⟨hlast, -⟩ := hall x hx
  obtain ⟨hticks, -, hnew, -⟩ := hrun.rel_of_mem x hx
  rw [startsOnSector_of_fits hticks hlast hnew (by omega)]
  right
  rw [lostSectors_of_lt _ hearly]
  · rfl
  · obtain ⟨hlow, -⟩ := seekTo_bounds hlast hnew
    rw [arrival, RotationTime]
    omega

end DiskHead

end Nachos
