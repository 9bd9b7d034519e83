/-
# The provider of physical frames

`userprog/frameprovider.{h,cc}`: a bit map of the frames in use, behind a lock. The frame
that `GetEmptyFrame` hands out is chosen by `rand`; its contents are not kept here.

A call is one step once it has the lock. What is kept of the lock is whether it is held
when no call is under way, because one path of `GetEmptyFrame` returns without releasing it.
-/

import Mathlib.Data.List.GetD
import Nachos.Userprog.BitMap

namespace Nachos

open Base

/-- `class FrameProvider`. -/
structure FrameProvider where
  bitmap : BitMap
  totalFrames : ℕ
  /-- The lock is held, with no call under way. -/
  bitmapLock : Bool
  /-- The constructor makes the map for all the frames. -/
  numBits_eq : bitmap.numBits = totalFrames

namespace FrameProvider

/-- `FrameProvider::FrameProvider`, for at least one frame: frame `0` is marked. -/
def new (uninit : Mem) (nFrames : ℕ) : FrameProvider where
  bitmap := (BitMap.new uninit nFrames).markBit 0
  totalFrames := nFrames
  bitmapLock := false
  numBits_eq := BitMap.numBits_new uninit nFrames

/-- The "free" frames, in the order in which `GetEmptyFrame` collects them. -/
def emptyFrames (fp : FrameProvider) : List ℕ :=
  (List.range fp.totalFrames).filter fun i => !fp.bitmap.testBit i

/-- `bitmap->Mark(nFrame)`, for a frame in range. -/
def markFrame (fp : FrameProvider) (nFrame : ℕ) : FrameProvider :=
  { fp with bitmap := fp.bitmap.markBit nFrame, numBits_eq := fp.numBits_eq }

/-- `FrameProvider::GetEmptyFrame`, with the value that `rand` returns. With no frame
left, it returns without releasing the lock. -/
def getEmptyFrame (fp : FrameProvider) (rand : ℕ) : ℤ × FrameProvider :=
  if fp.emptyFrames = [] then (-1, { fp with bitmapLock := true })
  else
    let nFrame := fp.emptyFrames.getD (rand % fp.emptyFrames.length) 0
    (nFrame, fp.markFrame nFrame)

/-- `FrameProvider::ReleaseFrame`. -/
def releaseFrame (fp : FrameProvider) (nFrame : ℤ) : Except Fault FrameProvider :=
  if 0 ≤ nFrame ∧ nFrame < fp.bitmap.numBits then
    .ok { fp with
      bitmap := fp.bitmap.clearBit nFrame.toNat
      numBits_eq := fp.numBits_eq }
  else .error .assertion

/-- `FrameProvider::NumAvailFrame`. -/
def numAvailFrame (fp : FrameProvider) : ℕ := fp.bitmap.numClear

/-- `FrameProvider::IsFrameAvail`. -/
def isFrameAvail (fp : FrameProvider) : Bool := decide (fp.numAvailFrame > 0)

/-! ## What the calls do -/

theorem mem_emptyFrames {fp : FrameProvider} {f : ℕ} :
    f ∈ fp.emptyFrames ↔ f ∈ fp.bitmap.clearSet := by
  simp [emptyFrames, fp.numBits_eq]

theorem numAvailFrame_eq_card (fp : FrameProvider) :
    fp.numAvailFrame = fp.bitmap.clearSet.card := fp.bitmap.numClear_eq_card

/-- `GetEmptyFrame` marks a frame that was free, and fails only when there is none. -/
theorem getEmptyFrame_cases (fp : FrameProvider) (rand : ℕ) :
    (fp.numAvailFrame = 0 ∧ fp.getEmptyFrame rand = (-1, { fp with bitmapLock := true })) ∨
      ∃ f ∈ fp.bitmap.clearSet, fp.getEmptyFrame rand = ((f : ℤ), fp.markFrame f) := by
  rw [getEmptyFrame]
  split
  · rename_i hempty
    refine Or.inl ⟨?_, rfl⟩
    rw [numAvailFrame_eq_card, Finset.card_eq_zero, Finset.eq_empty_iff_forall_notMem]
    intro f hf
    rw [← mem_emptyFrames, hempty] at hf
    cases hf
  · rename_i hsome
    have hlt : rand % fp.emptyFrames.length < fp.emptyFrames.length :=
      Nat.mod_lt _ (List.length_pos_iff.mpr hsome)
    refine Or.inr ⟨_, mem_emptyFrames.mp ?_, rfl⟩
    rw [List.getD_eq_getElem _ _ hlt]
    exact List.getElem_mem hlt

/-- Handing out a free frame leaves one frame less. -/
theorem numAvailFrame_markFrame (fp : FrameProvider) {f : ℕ} (hf : f ∈ fp.bitmap.clearSet) :
    (fp.markFrame f).numAvailFrame + 1 = fp.numAvailFrame := by
  obtain ⟨hlt, hclear⟩ := BitMap.mem_clearSet.mp hf
  exact BitMap.numClear_markBit hlt hclear

theorem isFrameAvail_iff {fp : FrameProvider} : fp.isFrameAvail = true ↔ 0 < fp.numAvailFrame :=
  decide_eq_true_iff

/-- A new provider has handed out frame `0` only. -/
theorem testBit_new (uninit : Mem) {n f : ℕ} (hf : f < n) :
    (new uninit n).bitmap.testBit f = decide (f < 1) := by
  rw [new, BitMap.testBit_markBit, BitMap.testBit_new uninit hf, Bool.or_false, decide_eq_decide]
  exact Nat.lt_one_iff.symm

theorem numAvailFrame_new (uninit : Mem) (n : ℕ) : (new uninit n).numAvailFrame = n - 1 := by
  have hbits : (new uninit n).bitmap.numBits = n := (new uninit n).numBits_eq
  rw [numAvailFrame, BitMap.numClear_of_marked (m := 1), hbits]
  intro f hf
  rw [hbits] at hf
  exact testBit_new uninit hf

end FrameProvider

end Nachos
