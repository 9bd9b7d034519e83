/-
# The loader

`AddrSpace::AddrSpace` of `userprog/addrspace.cc` as a whole: the header of the executable, the
frames, and the copy of the two segments into memory, for which the new page table takes the
place of that of the machine. What it leaves is the image of the program.

The object is kept as memory. Which of its variables have been written matters where the
constructor returns half way.
-/

import Nachos.Filesys.FileAccess
import Nachos.Filesys.FileSystem
import Nachos.Machine.UserMemory
import Nachos.Userprog.UserProcess

namespace Nachos

open Base

/-- `sizeof(NoffHeader)`. -/
def sizeofNoffHeader : ℕ := 40

/-- A segment of the header, at offset `a`. -/
def Segment.ofMem (m : Mem) (a : ℕ) : Segment := ⟨m.int32 a, m.int32 (a + 4), m.int32 (a + 8)⟩

/-- The header, read from memory. -/
def NoffHeader.ofMem (m : Mem) : NoffHeader := ⟨m.int32 0, .ofMem m 4, .ofMem m 16, .ofMem m 28⟩

/-- What a pointer variable holds, as far as `delete` can tell. -/
inductive Pointer
  | null
  /-- An object that was made by `new` and has not been deleted. -/
  | object
  /-- Any other address. -/
  | invalid
  deriving DecidableEq, Repr

/-- A variable in memory: what it holds, and whether the program has written it. -/
structure Cell (α : Type) where
  value : α
  written : Bool

/-- The pointers of an `AddrSpace` to what it synchronises with. -/
inductive SpacePointer
  | threadIDLock
  | threadStackLock
  | threadExitCond
  | threadConditions (i : Fin UserThreadMax)
  deriving DecidableEq, Repr

/-- The memory that `new` gives for an `AddrSpace` and its page table. -/
structure SpaceMemory where
  pageTable : ℕ → TranslationEntry
  pointers : SpacePointer → Pointer
  pid : ℤ

/-- Memory that happens to be zero. -/
def SpaceMemory.zero : SpaceMemory :=
  ⟨fun _ => ⟨0, 0, false, false, false, false⟩, fun _ => .null, 0⟩

/-- `class AddrSpace` as an object in memory, less its threads. -/
structure SpaceObject where
  isCreated : Bool
  numPages : ℕ
  /-- The array that `pageTable` points to. -/
  pageTable : ℕ → Cell TranslationEntry
  pointers : SpacePointer → Cell Pointer
  pid : Cell ℤ

/-- `FrameProvider::GetEmptyFrame` with the memory of the machine: the frame is set to zero. -/
def FrameProvider.getZeroedFrame (fp : FrameProvider) (mainMemory : Mem) (rand : ℕ) :
    ℤ × FrameProvider × Mem :=
  let (nFrame, fp') := fp.getEmptyFrame rand
  if fp.emptyFrames = [] then (nFrame, fp', mainMemory)
  else (nFrame, fp', mainMemory.copy (nFrame.toNat * PageSize) (fun _ => 0) 0 PageSize)

/-- The page table of the machine is replaced. -/
def Machine.withTable (m : Machine) (pageTable : ℕ → TranslationEntry) (numPages : ℕ) : Machine :=
  { m with pageTable := pageTable, pageTableSize := numPages }

namespace Machine

/-- `ReadAtVirtual`. The page table it is given is that of the machine while it writes, and
comes back with the bits that the translations set. -/
def readAtVirtual (m : Machine) (disk : Disk) (executable : OpenFile) (stack : Mem)
    (virtualaddr numBytes position : ℤ) (pageTable : ℕ → TranslationEntry) (numPages : ℕ) :
    Except Fault (Machine × (ℕ → TranslationEntry)) := do
  let (nbBytes, buf) ← executable.readAt disk stack 0 numBytes position
  let oldTable := m.pageTable
  let oldTableSize := m.pageTableSize
  let m ← (m.withTable pageTable numPages).writeBytes buf (BitVec.ofInt 32 virtualaddr) 0
    nbBytes.toNat
  return (m.withTable oldTable oldTableSize, m.pageTable)

/-- The copy of a segment, which is left out for an empty one. -/
def loadSegment (m : Machine) (disk : Disk) (executable : OpenFile) (stack : Mem)
    (segment : Segment) (pageTable : ℕ → TranslationEntry) (numPages : ℕ) :
    Except Fault (Machine × (ℕ → TranslationEntry)) :=
  if segment.size > 0 then
    m.readAtVirtual disk executable stack segment.virtualAddr segment.size segment.inFileAddr
      pageTable numPages
  else .ok (m, pageTable)

end Machine

namespace SpaceObject

/-- The loop over the pages from `i` on, `n` of them, with the memory of the machine. -/
def fillPageTable (rand : ℕ → ℕ) :
    ℕ → ℕ → FrameProvider → Mem → Except Fault (List TranslationEntry × FrameProvider × Mem)
  | 0, _, fp, mainMemory => .ok ([], fp, mainMemory)
  | n + 1, i, fp, mainMemory =>
      if fp.isFrameAvail then do
        let (frame, fp, mainMemory) := fp.getZeroedFrame mainMemory (rand i)
        let (rest, fp, mainMemory) ← fillPageTable rand n (i + 1) fp mainMemory
        return (pageEntry i frame :: rest, fp, mainMemory)
      else .error .assertion

/-- The object that is not created: only `numPages` and `isCreated` are written. -/
def refused (memory : SpaceMemory) (numPages : ℕ) : SpaceObject where
  isCreated := false
  numPages := numPages
  pageTable := fun i => ⟨memory.pageTable i, false⟩
  pointers := fun p => ⟨memory.pointers p, false⟩
  pid := ⟨memory.pid, false⟩

/-- The object that is created. The search for a pid writes it if one is free. -/
def created (memory : SpaceMemory) (numPages : ℕ) (pageTable : ℕ → TranslationEntry)
    (pid : Option ℕ) : SpaceObject where
  isCreated := true
  numPages := numPages
  pageTable := fun i => ⟨pageTable i, decide (i < numPages)⟩
  pointers := fun _ => ⟨.object, true⟩
  pid :=
    match pid with
    | some k => ⟨k, true⟩
    | none => ⟨memory.pid, false⟩

/-- The middle of the constructor: the loop over the pages, and the copy of the two segments. -/
def loadProgram (m : Machine) (fp : FrameProvider) (disk : Disk) (executable : OpenFile)
    (stack : Heap) (memory : SpaceMemory) (rand : ℕ → ℕ) (noffH : NoffHeader) :
    Except Fault ((ℕ → TranslationEntry) × Machine × FrameProvider) := do
  let (entries, fp, mainMemory) ← fillPageTable rand noffH.numPages 0 fp m.mainMemory
  let m := { m with mainMemory := mainMemory }
  let pageTable := fun i => entries.getD i (memory.pageTable i)
  let (m, pageTable) ←
    m.loadSegment disk executable (stack 1) noffH.code pageTable noffH.numPages
  let (m, pageTable) ←
    m.loadSegment disk executable (stack 2) noffH.initData pageTable noffH.numPages
  return (pageTable, m, fp)

/-- `AddrSpace::AddrSpace`. The local variables are in `stack`: the header in block `0`, and the
buffers of the two calls of `ReadAtVirtual` in the next two. On a little-endian host `WordToHost`
returns its argument, so that the header is never swapped. -/
def construct (m : Machine) (fp : FrameProvider) (pids : ℕ → Bool) (disk : Disk)
    (executable : OpenFile) (stack : Heap) (memory : SpaceMemory) (rand : ℕ → ℕ) :
    Except Fault (SpaceObject × Machine × FrameProvider × (ℕ → Bool)) := do
  let (_, header) ← executable.readAt disk (stack 0) 0 sizeofNoffHeader 0
  let noffH := NoffHeader.ofMem header
  assert (noffH.noffMagic = NOFFMAGIC)
  assert (noffH.numPages ≤ NumPhysPages)
  if fp.numAvailFrame < noffH.numPages then
    return (refused memory noffH.numPages, m, fp, pids)
  let (pageTable, m, fp) ← loadProgram m fp disk executable stack memory rand noffH
  match (List.range 64).find? fun k => !pids k with
  | some k =>
      return (created memory noffH.numPages pageTable (some k), m, fp,
        Function.update pids k true)
  | none => return (created memory noffH.numPages pageTable none, m, fp, pids)

/-- `AddrSpace::RestoreState`. -/
def restoreState (object : SpaceObject) (m : Machine) : Machine :=
  m.withTable (fun i => (object.pageTable i).value) object.numPages

end SpaceObject

/-! ## What the constructor returns -/

namespace SpaceObject

variable {m m' : Machine} {fp fp' : FrameProvider} {pids pids' : ℕ → Bool} {disk : Disk}
  {executable : OpenFile} {stack : Heap} {memory : SpaceMemory} {rand : ℕ → ℕ} {count : ℤ}
  {header : Mem}

/-- With too few frames. -/
theorem construct_refused
    (hread : executable.readAt disk (stack 0) 0 sizeofNoffHeader 0 = .ok (count, header))
    (hmagic : (NoffHeader.ofMem header).noffMagic = NOFFMAGIC)
    (hpages : (NoffHeader.ofMem header).numPages ≤ NumPhysPages)
    (hfew : fp.numAvailFrame < (NoffHeader.ofMem header).numPages) :
    construct m fp pids disk executable stack memory rand =
      .ok (refused memory (NoffHeader.ofMem header).numPages, m, fp, pids) := by
  rw [construct, hread, Except.ok_bind]
  dsimp only
  rw [assert_of hmagic, Except.ok_bind, assert_of hpages, Except.ok_bind, if_pos hfew]
  rfl

/-- With enough frames. -/
theorem construct_created {pageTable : ℕ → TranslationEntry}
    (hread : executable.readAt disk (stack 0) 0 sizeofNoffHeader 0 = .ok (count, header))
    (hmagic : (NoffHeader.ofMem header).noffMagic = NOFFMAGIC)
    (hpages : (NoffHeader.ofMem header).numPages ≤ NumPhysPages)
    (henough : (NoffHeader.ofMem header).numPages ≤ fp.numAvailFrame)
    (hload : loadProgram m fp disk executable stack memory rand (NoffHeader.ofMem header) =
      .ok (pageTable, m', fp')) :
    construct m fp pids disk executable stack memory rand =
      match (List.range 64).find? fun k => !pids k with
      | some k => .ok (created memory (NoffHeader.ofMem header).numPages pageTable (some k), m',
          fp', Function.update pids k true)
      | none => .ok (created memory (NoffHeader.ofMem header).numPages pageTable none, m', fp',
          pids) := by
  rw [construct, hread, Except.ok_bind]
  dsimp only
  rw [assert_of hmagic, Except.ok_bind, assert_of hpages, Except.ok_bind,
    if_neg (Nat.not_lt.mpr henough), hload]
  rfl

/-- All the ways in which the constructor returns. -/
theorem construct_eq_ok {object : SpaceObject}
    (h : construct m fp pids disk executable stack memory rand = .ok (object, m', fp', pids')) :
    ∃ count header,
      executable.readAt disk (stack 0) 0 sizeofNoffHeader 0 = .ok (count, header) ∧
      (NoffHeader.ofMem header).noffMagic = NOFFMAGIC ∧
      (NoffHeader.ofMem header).numPages ≤ NumPhysPages ∧
      (fp.numAvailFrame < (NoffHeader.ofMem header).numPages ∧
          object = refused memory (NoffHeader.ofMem header).numPages ∧ m' = m ∧ fp' = fp ∧
          pids' = pids ∨
        (NoffHeader.ofMem header).numPages ≤ fp.numAvailFrame ∧
          ∃ pageTable, loadProgram m fp disk executable stack memory rand
              (NoffHeader.ofMem header) = .ok (pageTable, m', fp') ∧
            ((∃ k, (List.range 64).find? (fun k => !pids k) = some k ∧
                object = created memory (NoffHeader.ofMem header).numPages pageTable (some k) ∧
                pids' = Function.update pids k true) ∨
              (List.range 64).find? (fun k => !pids k) = none ∧
                object = created memory (NoffHeader.ofMem header).numPages pageTable none ∧
                pids' = pids)) := by
  obtain ⟨⟨count, header⟩, hread, h⟩ := Except.bind_eq_ok.mp h
  dsimp only at h
  obtain ⟨⟨⟩, hmagic, h⟩ := Except.bind_eq_ok.mp h
  obtain ⟨⟨⟩, hpages, h⟩ := Except.bind_eq_ok.mp h
  refine ⟨count, header, hread, assert_eq_ok.mp hmagic, assert_eq_ok.mp hpages, ?_⟩
  split at h
  · rename_i hfew
    cases h
    exact Or.inl ⟨hfew, rfl, rfl, rfl, rfl⟩
  · rename_i henough
    obtain ⟨⟨pageTable, m₁, fp₁⟩, hload, h⟩ := Except.bind_eq_ok.mp h
    refine Or.inr ⟨Nat.not_lt.mp henough, pageTable, ?_⟩
    dsimp only at h
    split at h
    · rename_i k hfind
      cases h
      exact ⟨hload, Or.inl ⟨k, hfind, rfl, rfl⟩⟩
    · rename_i hfind
      cases h
      exact ⟨hload, Or.inr ⟨hfind, rfl, rfl⟩⟩

end SpaceObject

/-! ## The frames -/

namespace FrameProvider

theorem getZeroedFrame_of_avail {fp : FrameProvider} (havail : fp.isFrameAvail = true)
    (mainMemory : Mem) (rand : ℕ) : fp.getZeroedFrame mainMemory rand =
      ((fp.getEmptyFrame rand).1, (fp.getEmptyFrame rand).2,
        mainMemory.copy ((fp.getEmptyFrame rand).1.toNat * PageSize) (fun _ => 0) 0 PageSize) := by
  have hsome : fp.emptyFrames ≠ [] := by
    intro hempty
    have hpositive := isFrameAvail_iff.mp havail
    rw [numAvailFrame_eq_card, Finset.card_pos] at hpositive
    obtain ⟨f, hf⟩ := hpositive
    rw [← mem_emptyFrames, hempty] at hf
    cases hf
  exact if_neg hsome

end FrameProvider

/-- The frames of the list are set to zero. -/
def zeroFrames (mainMemory : Mem) (frames : List ℤ) : Mem :=
  frames.foldl (fun mem frame => mem.copy (frame.toNat * PageSize) (fun _ => 0) 0 PageSize)
    mainMemory

/-- What is not in one of the frames is left, and the rest is zero. -/
theorem zeroFrames_apply (mainMemory : Mem) (frames : List ℤ) (k : ℕ) :
    ((∀ frame ∈ frames, k / PageSize ≠ frame.toNat) →
      zeroFrames mainMemory frames k = mainMemory k) ∧
    (∀ frame ∈ frames, k / PageSize = frame.toNat → zeroFrames mainMemory frames k = 0) := by
  induction frames generalizing mainMemory with
  | nil => exact ⟨fun _ => rfl, nofun⟩
  | cons first rest ih =>
      obtain ⟨hleft, hzero⟩ := ih (mainMemory.copy (first.toNat * PageSize) (fun _ => 0) 0 PageSize)
      have hout (h : k / PageSize ≠ first.toNat) :
          mainMemory.copy (first.toNat * PageSize) (fun _ => 0) 0 PageSize k = mainMemory k := by
        refine Mem.copy_of_not_mem _ _ ?_
        simp only [PageSize, SectorSize] at h ⊢
        omega
      refine ⟨fun h => ?_, fun frame hframe hk => ?_⟩
      · exact (hleft fun frame hframe => h frame (List.mem_cons_of_mem _ hframe)).trans
          (hout (h first List.mem_cons_self))
      · by_cases hrest : ∃ frame ∈ rest, k / PageSize = frame.toNat
        · obtain ⟨frame', hframe', hk'⟩ := hrest
          exact hzero frame' hframe' hk'
        · push Not at hrest
          have hfirst : frame = first := by
            rcases List.mem_cons.mp hframe with hfirst | hmem
            · exact hfirst
            · exact absurd hk (hrest frame hmem)
          rw [hfirst] at hk
          refine (hleft hrest).trans (Mem.copy_of_mem _ _ ?_)
          simp only [PageSize, SectorSize] at hk ⊢
          omega

namespace SpaceObject

/-- The frames are those of the loop without the memory, and each is set to zero. -/
theorem fillPageTable_eq (rand : ℕ → ℕ) (n i : ℕ) (fp : FrameProvider) (mainMemory : Mem) :
    fillPageTable rand n i fp mainMemory =
      (fun r => (r.1, r.2, zeroFrames mainMemory (r.1.map fun e => e.physicalPage))) <$>
        AddrSpace.allocFrames rand n i fp := by
  induction n generalizing i fp mainMemory with
  | zero => rfl
  | succ n ih =>
      rw [fillPageTable, AddrSpace.allocFrames]
      split
      · rename_i havail
        rw [FrameProvider.getZeroedFrame_of_avail havail]
        simp only [ih]
        cases AddrSpace.allocFrames rand n (i + 1) (fp.getEmptyFrame (rand i)).2 with
        | error fault => rfl
        | ok r => rfl
      · rfl

/-- A program that is loaded has taken its frames. -/
theorem allocFrames_of_loadProgram {m m' : Machine} {fp fp' : FrameProvider} {disk : Disk}
    {executable : OpenFile} {stack : Heap} {memory : SpaceMemory} {rand : ℕ → ℕ}
    {noffH : NoffHeader} {pageTable : ℕ → TranslationEntry}
    (h : loadProgram m fp disk executable stack memory rand noffH = .ok (pageTable, m', fp')) :
    ∃ entries, AddrSpace.allocFrames rand noffH.numPages 0 fp = .ok (entries, fp') := by
  obtain ⟨⟨entries, fp₁, mainMemory⟩, hfill, h⟩ := Except.bind_eq_ok.mp h
  obtain ⟨⟨m₂, table₂⟩, -, h⟩ := Except.bind_eq_ok.mp h
  obtain ⟨⟨m₃, table₃⟩, -, h⟩ := Except.bind_eq_ok.mp h
  cases h
  rw [fillPageTable_eq] at hfill
  obtain ⟨⟨taken, fp₂⟩, halloc, hequal⟩ := Except.map_eq_ok.mp hfill
  cases hequal
  exact ⟨taken, halloc⟩

/-- **The constructor without the memory** takes the same frames and the same pid. -/
theorem addrSpace_construct {m m' : Machine} {fp fp' : FrameProvider} {pids pids' : ℕ → Bool}
    {disk : Disk} {executable : OpenFile} {stack : Heap} {memory : SpaceMemory} {rand : ℕ → ℕ}
    {object : SpaceObject}
    (h : construct m fp pids disk executable stack memory rand = .ok (object, m', fp', pids')) :
    ∃ noffH space, AddrSpace.construct fp pids noffH rand memory.pid.toNat =
        .ok (space, fp', pids') ∧
      (object.isCreated = true ↔ space.isSome) ∧
      ∀ s ∈ space, s.numPages = object.numPages ∧ s.pid = object.pid.value.toNat := by
  obtain ⟨count, header, -, hmagic, hpages, ⟨hfew, rfl, -, rfl, rfl⟩ | ⟨henough, pageTable, hload,
    htaken⟩⟩ := construct_eq_ok h
  · refine ⟨NoffHeader.ofMem header, none, ?_, by simp [refused], nofun⟩
    rw [AddrSpace.construct, assert_of hmagic, Except.ok_bind, dif_pos hpages, if_pos hfew]
    rfl
  · obtain ⟨entries, halloc⟩ := allocFrames_of_loadProgram hload
    have hconstruct : AddrSpace.construct fp pids (NoffHeader.ofMem header) rand
        memory.pid.toNat = .ok (some (AddrSpace.init _ hpages entries
          (AddrSpace.takePid pids memory.pid.toNat).1), fp',
          (AddrSpace.takePid pids memory.pid.toNat).2) := by
      rw [AddrSpace.construct, assert_of hmagic, Except.ok_bind, dif_pos hpages,
        if_neg (Nat.not_lt.mpr henough), halloc]
      rfl
    obtain ⟨k, hfind, rfl, rfl⟩ | ⟨hfind, rfl, rfl⟩ := htaken
    · rw [AddrSpace.takePid, hfind] at hconstruct
      refine ⟨_, _, hconstruct, by simp [created], fun s hs => ?_⟩
      obtain rfl := Option.mem_some_iff.mp hs
      exact ⟨rfl, rfl⟩
    · rw [AddrSpace.takePid, hfind] at hconstruct
      refine ⟨_, _, hconstruct, by simp [created], fun s hs => ?_⟩
      obtain rfl := Option.mem_some_iff.mp hs
      exact ⟨rfl, rfl⟩

/-- Every entry is valid and can be written. -/
theorem entry_of_allocFrames {rand : ℕ → ℕ} {n i : ℕ} {fp fp' : FrameProvider}
    {table : List TranslationEntry} (h : AddrSpace.allocFrames rand n i fp = .ok (table, fp')) :
    ∀ e ∈ table, e.valid = true ∧ e.readOnly = false := by
  induction n generalizing i fp table with
  | zero =>
      cases h
      intro e he
      cases he
  | succ n ih =>
      rw [AddrSpace.allocFrames] at h
      split at h
      · obtain ⟨⟨rest, fp''⟩, hrest, hequal⟩ := Except.bind_eq_ok.mp h
        cases hequal
        intro e he
        rcases List.mem_cons.mp he with rfl | he
        · exact ⟨rfl, rfl⟩
        · exact ih hrest e he
      · cases h

end SpaceObject

/-- A page table of `n` pages in distinct frames that were free. -/
structure FreshTable (fp : FrameProvider) (table : ℕ → TranslationEntry) (n : ℕ) : Prop where
  valid : ∀ i < n, (table i).valid = true ∧ (table i).readOnly = false
  frame : ∀ i < n, ∃ f ∈ fp.bitmap.clearSet, (table i).physicalPage = (f : ℤ)
  injective : ∀ i < n, ∀ j < n, (table i).physicalPage = (table j).physicalPage → i = j

theorem freshTable_of_allocFrames {rand : ℕ → ℕ} {n : ℕ} {fp fp' : FrameProvider}
    {entries : List TranslationEntry}
    (h : AddrSpace.allocFrames rand n 0 fp = .ok (entries, fp')) (beyond : ℕ → TranslationEntry) :
    FreshTable fp (fun i => entries.getD i (beyond i)) n := by
  have halloc := AddrSpace.allocated_of_allocFrames h
  have hget (i : ℕ) (hi : i < n) : ∃ hlt : i < entries.length,
      entries.getD i (beyond i) = entries[i] :=
    ⟨halloc.length.symm ▸ hi, List.getD_eq_getElem _ _ (halloc.length.symm ▸ hi)⟩
  refine ⟨fun i hi => ?_, fun i hi => ?_, fun i hi j hj hequal => ?_⟩
  · obtain ⟨hlt, hentry⟩ := hget i hi
    simp only [hentry]
    exact SpaceObject.entry_of_allocFrames h _ (List.getElem_mem hlt)
  · obtain ⟨hlt, hentry⟩ := hget i hi
    simp only [hentry]
    exact halloc.fresh _ (List.getElem_mem hlt)
  · obtain ⟨hlt, hentry⟩ := hget i hi
    obtain ⟨hlt', hentry'⟩ := hget j hj
    simp only [hentry, hentry'] at hequal
    have hi' : i < (entries.map fun e => e.physicalPage).length := by rwa [List.length_map]
    have hj' : j < (entries.map fun e => e.physicalPage).length := by rwa [List.length_map]
    have hpages : (entries.map fun e => e.physicalPage)[i] =
        (entries.map fun e => e.physicalPage)[j] := by
      rwa [List.getElem_map, List.getElem_map]
    exact halloc.nodup.getElem_inj_iff.mp hpages

namespace FreshTable

variable {fp : FrameProvider} {table : ℕ → TranslationEntry} {n : ℕ}

theorem pageFrame (h : FreshTable fp table n) (htotal : fp.totalFrames = NumPhysPages)
    (m : Machine) {i : ℕ} (hi : i < n) :
    ((m.withTable table n).pageFrame i : ℤ) = (table i).physicalPage ∧
      (m.withTable table n).pageFrame i ∈ fp.bitmap.clearSet ∧
      (m.withTable table n).pageFrame i < NumPhysPages := by
  obtain ⟨f, hf, hpage⟩ := h.frame i hi
  obtain ⟨hrange, -⟩ := BitMap.mem_clearSet.mp hf
  rw [fp.numBits_eq, htotal] at hrange
  have hframe : (m.withTable table n).pageFrame i = f := by
    simp only [Machine.pageFrame, Machine.withTable, hpage]
    rw [NumPhysPages] at hrange
    omega
  rw [hframe]
  exact ⟨hpage.symm, hf, hrange⟩

theorem maps (h : FreshTable fp table n) (htotal : fp.totalFrames = NumPhysPages) (m : Machine)
    {a : BitVec 32} (ha : a.toNat < n * PageSize) : (m.withTable table n).Maps a true := by
  have hpage : a.toNat / PageSize < n := (Nat.div_lt_iff_lt_mul (by decide)).mpr ha
  exact ⟨hpage, (h.valid _ hpage).1, fun _ => (h.valid _ hpage).2,
    (h.pageFrame htotal m hpage).2.2⟩

theorem framesDistinct (h : FreshTable fp table n) (htotal : fp.totalFrames = NumPhysPages)
    (m : Machine) : (m.withTable table n).FramesDistinct := by
  intro i hi j hj _ _ hequal
  refine h.injective i hi j hj ?_
  rw [← (h.pageFrame htotal m hi).1, ← (h.pageFrame htotal m hj).1, hequal]

end FreshTable

/-! ## The segments -/

/-- The virtual addresses of a segment. -/
def Segment.Contains (segment : Segment) (a : ℤ) : Prop :=
  segment.virtualAddr ≤ a ∧ a < segment.virtualAddr + segment.size

instance (segment : Segment) (a : ℤ) : Decidable (segment.Contains a) :=
  inferInstanceAs (Decidable (_ ∧ _))

/-- A segment that is not empty lies in `n` pages, and in a file of the given length. -/
def Segment.Fits (segment : Segment) (n : ℕ) (length : ℤ) : Prop :=
  0 < segment.size →
    (0 ≤ segment.virtualAddr ∧ segment.virtualAddr + segment.size ≤ (n * PageSize : ℕ)) ∧
      0 ≤ segment.inFileAddr ∧ segment.inFileAddr + segment.size ≤ length

/-- The byte of the file that belongs at a virtual address of the segment. -/
def Segment.byteAt (segment : Segment) (file : Mem) (a : ℕ) : UInt8 :=
  file (segment.inFileAddr + (a - segment.virtualAddr)).toNat

/-- What the copy of a segment leaves: its bytes, in the pages of the new table, and the page
table of the machine. -/
structure SegmentLoaded (m : Machine) (table : ℕ → TranslationEntry) (n : ℕ) (segment : Segment)
    (file : Mem) (m' : Machine) (table' : ℕ → TranslationEntry) : Prop where
  pageTable : m'.pageTable = m.pageTable ∧ m'.pageTableSize = m.pageTableSize
  registers : m'.registers = m.registers
  sameMapping : (m.withTable table n).SameMapping (m'.withTable table' n)
  image : ∀ a : BitVec 32, a.toNat < n * PageSize → (m'.withTable table' n).userByte a =
    if segment.Contains a.toNat then some (segment.byteAt file a.toNat)
    else (m.withTable table n).userByte a
  others : ∀ k, (∀ a : BitVec 32, a.toNat < n * PageSize →
    k ≠ (m.withTable table n).physAddr a) → m'.mainMemory k = m.mainMemory k

/-- The addresses of a segment. -/
theorem toNat_ofInt_add {va j : ℕ} (h : va + j < 2 ^ 32) :
    (BitVec.ofInt 32 va + BitVec.ofNat 32 j).toNat = va + j := by
  rw [BitVec.ofInt_natCast, BitVec.toNat_add, BitVec.toNat_ofNat, BitVec.toNat_ofNat]
  omega

/-- A run of bytes from the virtual address `va` on, as the program sees it. -/
theorem Machine.userByte_writeBytes {m : Machine} (buf : Mem) {va size : ℕ}
    (hdist : m.FramesDistinct) (hsmall : va + size < 2 ^ 32)
    (hmaps : ∀ a : BitVec 32, va ≤ a.toNat → a.toNat < va + size → m.Maps a true) :
    ∃ m', m.writeBytes buf (BitVec.ofInt 32 va) 0 size = .ok m' ∧ m.SameMapping m' ∧
      m'.registers = m.registers ∧
      (∀ a : BitVec 32, m'.userByte a =
        if va ≤ a.toNat ∧ a.toNat < va + size then some (buf (a.toNat - va)) else m.userByte a) ∧
      ∀ k, (∀ a : BitVec 32, va ≤ a.toNat → a.toNat < va + size → k ≠ m.physAddr a) →
        m'.mainMemory k = m.mainMemory k := by
  have haddr {j : ℕ} (hj : j < size) : (BitVec.ofInt 32 va + BitVec.ofNat 32 j).toNat = va + j :=
    toNat_ofInt_add (by omega)
  have hrange : m.WritableRange (BitVec.ofInt 32 va) size :=
    .of_framesDistinct hdist (by omega) fun j hj =>
      hmaps _ (by rw [haddr hj]; omega) (by rw [haddr hj]; omega)
  obtain ⟨m', hwrite, hsame, hregs, hbytes, hothers⟩ := Machine.writeBytes_eq buf hrange le_rfl
  refine ⟨m', hwrite, hsame, hregs, fun a => ?_, fun k hk => hothers k fun j hj =>
    hk _ (by rw [haddr hj]; omega) (by rw [haddr hj]; omega)⟩
  split
  · rename_i hin
    obtain ⟨j, hj⟩ : ∃ j, a.toNat = va + j := ⟨a.toNat - va, by omega⟩
    have hplace : j < size := by omega
    obtain rfl : a = BitVec.ofInt 32 va + BitVec.ofNat 32 j :=
      BitVec.eq_of_toNat_eq (hj.trans (haddr hplace).symm)
    rw [(hrange.of_sameMapping hsame).userByte hplace, hsame.physAddr, hbytes j hplace, hj,
      Nat.add_sub_cancel_left]
  · rename_i hout
    refine hsame.userByte_of_others (A := fun c => va ≤ c.toNat ∧ c.toNat < va + size) hdist
      (fun c hc => (hmaps c hc.1 hc.2).of_writing) (fun k hk => hothers k fun j hj => hk _ ?_) hout
    rw [haddr hj]
    omega

/-- A request inside the file. -/
theorem OpenFile.readAt_inside {file : OpenFile} (hlength : file.hdr.numBytes ≤ MaxFileSize)
    (hsectors : file.hdr.InRange file.hdr.sectorCount) (disk : Disk) (into : Mem) {n pos : ℕ}
    (hinside : (pos + n : ℤ) ≤ file.hdr.numBytes) :
    file.readAt disk into 0 n pos =
      .ok ((n : ℤ), into.copy 0 (fileBytes disk file.hdr) pos n) := by
  rw [MaxFileSize, NumDirect, SectorSize] at hlength
  have hcount : file.transferred n pos = n := by
    rw [transferred]
    omega
  have hread := file.readAt_natCast disk into 0 n pos (fun _ => by omega) hsectors
    (by rw [FileHeader.sectorCount]; omega) (by rw [FileHeader.sectorCount, transferred]; omega)
  rwa [hcount] at hread

/-- The copy of one segment. -/
theorem loadSegment_eq {m : Machine} {table : ℕ → TranslationEntry} {n : ℕ} (disk : Disk)
    {file : OpenFile} (stack : Mem) {segment : Segment} (hn : n ≤ NumPhysPages)
    (hmaps : ∀ a : BitVec 32, a.toNat < n * PageSize → (m.withTable table n).Maps a true)
    (hdist : (m.withTable table n).FramesDistinct) (hlength : file.hdr.numBytes ≤ MaxFileSize)
    (hsectors : file.hdr.InRange file.hdr.sectorCount)
    (hfits : segment.Fits n file.hdr.numBytes) :
    ∃ m' table', m.loadSegment disk file stack segment table n = .ok (m', table') ∧
      SegmentLoaded m table n segment (OpenFile.fileBytes disk file.hdr) m' table' := by
  by_cases hsize : segment.size > 0
  · obtain ⟨⟨hva, hend⟩, hposition, hinside⟩ := hfits hsize
    obtain ⟨va, hva⟩ := Int.eq_ofNat_of_zero_le hva
    obtain ⟨pos, hpos⟩ := Int.eq_ofNat_of_zero_le hposition
    obtain ⟨size, hcount⟩ := Int.eq_ofNat_of_zero_le hsize.le
    rw [hva, hcount] at hend
    rw [hpos, hcount] at hinside
    have hend : va + size ≤ n * PageSize := by exact_mod_cast hend
    have hsmall : n * PageSize < 2 ^ 32 := by
      rw [NumPhysPages] at hn
      rw [PageSize, SectorSize]
      omega
    have hfit : va + size < 2 ^ 32 := by omega
    obtain ⟨m₁, hwrite, hsame, hregs, hbytes, hothers⟩ := Machine.userByte_writeBytes
      (stack.copy 0 (OpenFile.fileBytes disk file.hdr) pos size) hdist hfit
      fun a _ ha => hmaps a (by omega)
    -- The machine with the new table is the one that the loop has left.
    have hback : (m₁.withTable m.pageTable m.pageTableSize).withTable m₁.pageTable n = m₁ := by
      rw [← show m₁.pageTableSize = n from hsame.pageTableSize]
      rfl
    refine ⟨m₁.withTable m.pageTable m.pageTableSize, m₁.pageTable, ?_, ⟨rfl, rfl⟩, hregs, ?_,
      fun a ha => ?_, fun k hk => hothers k fun a _ hlt => hk a (by omega)⟩
    · rw [Machine.loadSegment, if_pos hsize, Machine.readAtVirtual, hva, hpos, hcount,
        OpenFile.readAt_inside hlength hsectors disk stack hinside, Except.ok_bind]
      dsimp only
      rw [Int.toNat_natCast, hwrite]
      rfl
    · rwa [hback]
    · have hcontains : segment.Contains a.toNat ↔ va ≤ a.toNat ∧ a.toNat < va + size := by
        rw [Segment.Contains, hva, hcount]
        omega
      rw [hback, hbytes]
      by_cases hin : va ≤ a.toNat ∧ a.toNat < va + size
      · rw [if_pos hin, if_pos (hcontains.mpr hin), Mem.copy_of_mem _ _ (by omega),
          Segment.byteAt, hpos, hva]
        congr 2
        omega
      · rw [if_neg hin, if_neg fun hc => hin (hcontains.mp hc)]
  · refine ⟨m, table, if_neg hsize, ⟨rfl, rfl⟩, rfl, .refl _, fun a _ => ?_, fun _ _ => rfl⟩
    rw [if_neg]
    rw [Segment.Contains]
    omega

/-! ## The image of a program -/

/-- An executable whose segments do not overlap, lie in the pages of the address space, and are
in the file as a whole. -/
structure NoffFile (disk : Disk) (file : OpenFile) (noffH : NoffHeader) : Prop where
  length : file.hdr.numBytes ≤ MaxFileSize
  sectors : file.hdr.InRange file.hdr.sectorCount
  present : (sizeofNoffHeader : ℤ) ≤ file.hdr.numBytes
  header : noffH = NoffHeader.ofMem (OpenFile.fileBytes disk file.hdr)
  magic : noffH.noffMagic = NOFFMAGIC
  code : noffH.code.Fits noffH.numPages file.hdr.numBytes
  initData : noffH.initData.Fits noffH.numPages file.hdr.numBytes
  disjoint : ∀ a, noffH.code.Contains a → ¬ noffH.initData.Contains a

/-- The byte that a program finds at a virtual address. -/
def NoffHeader.image (noffH : NoffHeader) (file : Mem) (a : ℕ) : UInt8 :=
  if noffH.code.Contains a then noffH.code.byteAt file a
  else if noffH.initData.Contains a then noffH.initData.byteAt file a
  else 0

/-- What the constructor has to leave: the image in frames that were free, one for each page,
the bytes of the other frames in use, and the page table of the machine. -/
structure BuildsImage (noffH : NoffHeader) (file : Mem) (m : Machine) (fp : FrameProvider)
    (object : SpaceObject) (m' : Machine) : Prop where
  created : object.isCreated = true
  numPages : object.numPages = noffH.numPages
  image : ∀ a : BitVec 32, a.toNat < noffH.numPages * PageSize →
    ∃ m'', (object.restoreState m').readMem a .byte =
      .ok (some ((noffH.image file a.toNat).toBitVec.signExtend 32), m'')
  frame : ∀ i < noffH.numPages, (object.pageTable i).value.valid = true ∧
    (object.restoreState m').pageFrame i ∈ fp.bitmap.clearSet
  distinct : ∀ i < noffH.numPages, ∀ j < noffH.numPages,
    (object.restoreState m').pageFrame i = (object.restoreState m').pageFrame j → i = j
  marked : ∀ f < NumPhysPages, fp.bitmap.testBit f = true → ∀ k < PageSize,
    m'.mainMemory (f * PageSize + k) = m.mainMemory (f * PageSize + k)
  pageTable : m'.pageTable = m.pageTable ∧ m'.pageTableSize = m.pageTableSize

theorem FrameProvider.numAvailFrame_le (fp : FrameProvider) :
    fp.numAvailFrame ≤ fp.totalFrames := by
  rw [numAvailFrame_eq_card, ← fp.numBits_eq, BitMap.clearSet]
  exact (Finset.card_filter_le _ _).trans (Finset.card_range _).le

/-- The header is in the first bytes of the file. -/
theorem NoffHeader.ofMem_congr {m m' : Mem} (h : ∀ k < sizeofNoffHeader, m k = m' k) :
    ofMem m = ofMem m' := by
  have hint (a : ℕ) (ha : a + 4 ≤ sizeofNoffHeader) : m.int32 a = m'.int32 a :=
    Mem.int32_congr fun k hk => h _ (by omega)
  rw [sizeofNoffHeader] at hint
  simp only [ofMem, Segment.ofMem]
  rw [hint 0 (by omega), hint 4 (by omega), hint 8 (by omega), hint 12 (by omega),
    hint 16 (by omega), hint 20 (by omega), hint 24 (by omega), hint 28 (by omega),
    hint 32 (by omega), hint 36 (by omega)]

theorem Machine.physAddr_div (m : Machine) (a : BitVec 32) :
    m.physAddr a / PageSize = m.pageFrame (a.toNat / PageSize) := by
  simp only [physAddr, PageSize, SectorSize]
  omega

/-- The frames of a fresh table, set to zero. -/
theorem FreshTable.userByte_zeroFrames {fp : FrameProvider} {table : ℕ → TranslationEntry} {n : ℕ}
    (h : FreshTable fp table n) (htotal : fp.totalFrames = NumPhysPages) (m : Machine)
    {frames : List ℤ} (hframes : ∀ i < n, (table i).physicalPage ∈ frames) {a : BitVec 32}
    (ha : a.toNat < n * PageSize) :
    (({ m with mainMemory := zeroFrames m.mainMemory frames } : Machine).withTable
      table n).userByte a = some 0 := by
  set m₁ : Machine := { m with mainMemory := zeroFrames m.mainMemory frames } with hm₁
  have hpage : a.toNat / PageSize < n := (Nat.div_lt_iff_lt_mul (by decide)).mpr ha
  obtain ⟨hframe, -, -⟩ := h.pageFrame htotal m₁ hpage
  rw [Machine.userByte, if_pos (h.maps htotal m₁ ha).of_writing]
  refine congrArg some ((zeroFrames_apply m.mainMemory frames _).2 _ (hframes _ hpage) ?_)
  rw [Machine.physAddr_div, ← hframe, Int.toNat_natCast]

namespace SpaceObject

/-- What the loop over the pages and the two copies leave together. -/
theorem buildsImage_created {disk : Disk} {file : OpenFile} {noffH : NoffHeader}
    {fp : FrameProvider} (hfile : NoffFile disk file noffH)
    (htotal : fp.totalFrames = NumPhysPages) {m m₂ m₃ : Machine}
    {table table₂ table₃ : ℕ → TranslationEntry} (hfresh : FreshTable fp table noffH.numPages)
    {frames : List ℤ} (hcover : ∀ i < noffH.numPages, (table i).physicalPage ∈ frames)
    (hclear : ∀ x ∈ frames, ∃ f ∈ fp.bitmap.clearSet, x = (f : ℤ))
    (hcode : SegmentLoaded { m with mainMemory := zeroFrames m.mainMemory frames } table
      noffH.numPages noffH.code (OpenFile.fileBytes disk file.hdr) m₂ table₂)
    (hdata : SegmentLoaded m₂ table₂ noffH.numPages noffH.initData
      (OpenFile.fileBytes disk file.hdr) m₃ table₃) (memory : SpaceMemory) (pid : Option ℕ) :
    BuildsImage noffH (OpenFile.fileBytes disk file.hdr) m fp
      (created memory noffH.numPages table₃ pid) m₃ := by
  set m₁ : Machine := { m with mainMemory := zeroFrames m.mainMemory frames } with hm₁
  have hsame : (m₁.withTable table noffH.numPages).SameMapping
      (m₃.withTable table₃ noffH.numPages) := hcode.sameMapping.trans hdata.sameMapping
  have hvalid (i : ℕ) (hi : i < noffH.numPages) : (table₃ i).valid = true :=
    (hsame.valid i).trans (hfresh.valid i hi).1
  -- A place in one of the new frames is not in a frame that was marked.
  have houtside (f : ℕ) (hf : fp.bitmap.testBit f = true) (k : ℕ) (hk : k / PageSize = f)
      (a : BitVec 32) (ha : a.toNat < noffH.numPages * PageSize) :
      k ≠ (m₁.withTable table noffH.numPages).physAddr a := by
    rintro rfl
    have hpage : a.toNat / PageSize < noffH.numPages :=
      (Nat.div_lt_iff_lt_mul (by decide)).mpr ha
    obtain ⟨-, hmem, -⟩ := hfresh.pageFrame htotal m₁ hpage
    rw [Machine.physAddr_div] at hk
    rw [hk, BitMap.mem_clearSet, hf] at hmem
    cases hmem.2
  constructor
  case created => rfl
  case numPages => rfl
  case image =>
    intro a ha
    have hbyte : (m₃.withTable table₃ noffH.numPages).userByte a =
        some (noffH.image (OpenFile.fileBytes disk file.hdr) a.toNat) := by
      rw [hdata.image a ha, hcode.image a ha, hfresh.userByte_zeroFrames htotal m hcover ha,
        NoffHeader.image]
      split
      · rename_i hin
        rw [if_neg fun hboth => hfile.disjoint _ hboth hin]
      · split <;> rfl
    obtain ⟨m'', hread, -⟩ := Machine.readMem_byte hbyte
    exact ⟨m'', hread⟩
  case frame =>
    intro i hi
    refine ⟨hvalid i hi, ?_⟩
    rw [restoreState]
    exact (hsame.pageFrame i).symm ▸ (hfresh.pageFrame htotal m₁ hi).2.1
  case distinct =>
    intro i hi j hj hequal
    have hdist := hsame.framesDistinct (hfresh.framesDistinct htotal m₁)
    exact hdist i hi j hj (hvalid i hi) (hvalid j hj) hequal
  case marked =>
    intro f hf hmarked k hk
    have hdiv : (f * PageSize + k) / PageSize = f := by
      simp only [PageSize, SectorSize] at hk ⊢
      omega
    have hframe := houtside f hmarked _ hdiv
    rw [hdata.others _ fun a ha => ?_, hcode.others _ hframe]
    · refine (zeroFrames_apply m.mainMemory frames _).1 fun x hx hplace => ?_
      obtain ⟨g, hg, rfl⟩ := hclear x hx
      rw [hdiv, Int.toNat_natCast] at hplace
      rw [← hplace, BitMap.mem_clearSet, hmarked] at hg
      cases hg.2
    · rw [hcode.sameMapping.physAddr]
      exact hframe a ha
  case pageTable =>
    exact ⟨hdata.pageTable.1.trans hcode.pageTable.1, hdata.pageTable.2.trans hcode.pageTable.2⟩

/-- The loop over the pages and the copies are gone through, and leave the image. -/
theorem loadProgram_image {disk : Disk} {file : OpenFile} {noffH : NoffHeader} {fp : FrameProvider}
    (hfile : NoffFile disk file noffH) (htotal : fp.totalFrames = NumPhysPages)
    (havail : noffH.numPages ≤ fp.numAvailFrame) (m : Machine) (stack : Heap)
    (memory : SpaceMemory) (rand : ℕ → ℕ) :
    ∃ pageTable m' fp', loadProgram m fp disk file stack memory rand noffH =
        .ok (pageTable, m', fp') ∧
      ∀ pid, BuildsImage noffH (OpenFile.fileBytes disk file.hdr) m fp
        (created memory noffH.numPages pageTable pid) m' := by
  have hpages : noffH.numPages ≤ NumPhysPages := htotal ▸ havail.trans fp.numAvailFrame_le
  -- The pages get their frames, which are set to zero.
  obtain ⟨entries, fp', halloc, -⟩ := AddrSpace.exists_allocFrames rand fp havail 0
  have hfresh := freshTable_of_allocFrames halloc memory.pageTable
  have hallocated := AddrSpace.allocated_of_allocFrames halloc
  set table : ℕ → TranslationEntry := fun i => entries.getD i (memory.pageTable i) with htable
  set frames := entries.map fun e => e.physicalPage with hframes
  have hcover (i : ℕ) (hi : i < noffH.numPages) : (table i).physicalPage ∈ frames := by
    rw [htable]
    dsimp only
    rw [List.getD_eq_getElem _ _ (hallocated.length.symm ▸ hi)]
    exact List.mem_map_of_mem (List.getElem_mem _)
  have hclear (x : ℤ) (hx : x ∈ frames) : ∃ f ∈ fp.bitmap.clearSet, x = (f : ℤ) := by
    obtain ⟨e, he, rfl⟩ := List.mem_map.mp hx
    exact hallocated.fresh e he
  have hfill : fillPageTable rand noffH.numPages 0 fp m.mainMemory =
      .ok (entries, fp', zeroFrames m.mainMemory frames) := by
    rw [fillPageTable_eq, halloc]
    rfl
  -- The segments are copied.
  obtain ⟨m₂, table₂, hcode, hloaded⟩ := loadSegment_eq disk (stack 1) hpages
    (fun a ha => hfresh.maps htotal { m with mainMemory := zeroFrames m.mainMemory frames } ha)
    (hfresh.framesDistinct htotal _) hfile.length hfile.sectors hfile.code
  obtain ⟨m₃, table₃, hdata, hloaded'⟩ := loadSegment_eq disk (stack 2) hpages
    (fun a ha => hloaded.sameMapping.maps_iff.mpr (hfresh.maps htotal _ ha))
    (hloaded.sameMapping.framesDistinct (hfresh.framesDistinct htotal _)) hfile.length
    hfile.sectors hfile.initData
  refine ⟨table₃, m₃, fp', ?_,
    buildsImage_created hfile htotal hfresh hcover hclear hloaded hloaded' memory⟩
  rw [loadProgram, hfill, Except.ok_bind]
  dsimp only
  rw [← htable, hcode, Except.ok_bind]
  dsimp only
  rw [hdata]
  rfl

/-- **The loader builds the image of the program**, whatever the frames that it gets. -/
theorem construct_image {disk : Disk} {file : OpenFile} {noffH : NoffHeader} {fp : FrameProvider}
    (hfile : NoffFile disk file noffH) (htotal : fp.totalFrames = NumPhysPages)
    (havail : noffH.numPages ≤ fp.numAvailFrame) (m : Machine) (pids : ℕ → Bool) (stack : Heap)
    (memory : SpaceMemory) (rand : ℕ → ℕ) :
    ∃ object m' fp' pids',
      construct m fp pids disk file stack memory rand = .ok (object, m', fp', pids') ∧
        BuildsImage noffH (OpenFile.fileBytes disk file.hdr) m fp object m' := by
  have hpages : noffH.numPages ≤ NumPhysPages := htotal ▸ havail.trans fp.numAvailFrame_le
  have hpresent : ((0 : ℕ) + sizeofNoffHeader : ℤ) ≤ file.hdr.numBytes := by
    rw [Nat.cast_zero, Int.zero_add]
    exact hfile.present
  have hheader := OpenFile.readAt_inside hfile.length hfile.sectors disk (stack 0) hpresent
  have hnoffH : NoffHeader.ofMem ((stack 0).copy 0 (OpenFile.fileBytes disk file.hdr) 0
      sizeofNoffHeader) = noffH := by
    rw [hfile.header]
    refine NoffHeader.ofMem_congr fun k hk => ?_
    rw [Mem.copy_of_mem _ _ (by omega)]
    exact congrArg _ (by omega)
  obtain ⟨pageTable, m', fp', hload, hbuilds⟩ :=
    loadProgram_image hfile htotal havail m stack memory rand
  rw [Nat.cast_zero] at hheader
  rw [construct_created hheader (hnoffH ▸ hfile.magic) (hnoffH ▸ hpages) (hnoffH ▸ havail)
    (hnoffH ▸ hload), hnoffH]
  cases (List.range 64).find? fun k => !pids k with
  | some k => exact ⟨_, _, _, _, rfl, hbuilds (some k)⟩
  | none => exact ⟨_, _, _, _, rfl, hbuilds none⟩

/-- A program with four bytes of code at the beginning of its memory, and four of data from
address `126` on, which lie across two pages and two sectors of the file. -/
def smallProgram : Disk := fun s =>
  if s = 5 then
    let header : Mem := fun _ => 0
    let header := header.setInt32 0 NOFFMAGIC
    let header := (header.setInt32 8 40).setInt32 12 4
    ((header.setInt32 16 126).setInt32 20 126).setInt32 24 4
  else fun _ => 9

/-- Its header. -/
def smallHeader : NoffHeader :=
  .ofMem (OpenFile.fileBytes smallProgram OpenFile.twoSectors.hdr)

theorem noffFile_small : NoffFile smallProgram OpenFile.twoSectors smallHeader := by
  have hcount : OpenFile.twoSectors.hdr.sectorCount = 2 := by decide
  have hrange : ∀ i < 2, 0 ≤ OpenFile.twoSectors.hdr.dataSectors i ∧
      OpenFile.twoSectors.hdr.dataSectors i < 1024 := by decide
  have hcode : smallHeader.code.virtualAddr = 0 ∧ smallHeader.code.size = 4 := by decide
  have hdata : smallHeader.initData.virtualAddr = 126 := by decide
  refine ⟨by decide, hcount ▸ hrange, by decide, rfl, by decide, fun _ => by decide,
    fun _ => by decide, fun a hin hboth => ?_⟩
  rw [Segment.Contains, hcode.1, hcode.2] at hin
  rw [Segment.Contains, hdata] at hboth
  omega

/-- The program is loaded, and its last byte of data is where it belongs. -/
theorem construct_image_small : ∃ object m' fp' pids',
    construct ⟨fun _ => 0, fun _ => 0, fun i => pageEntry i i, 2⟩
      (FrameProvider.new (fun _ => 0) NumPhysPages) (fun _ => false) smallProgram
      OpenFile.twoSectors (fun _ _ => 0) .zero (fun _ => 0) =
        .ok (object, m', fp', pids') ∧
      object.numPages = 17 ∧
      (∃ m'', (object.restoreState m').readMem 129 .byte = .ok (some 9, m'')) ∧
      m'.pageTableSize = 2 := by
  have hpages : smallHeader.numPages = 17 := by decide
  have havail : smallHeader.numPages ≤
      (FrameProvider.new (fun _ => 0) NumPhysPages).numAvailFrame := by
    rw [hpages, FrameProvider.numAvailFrame_new]
    decide
  obtain ⟨object, m', fp', pids', hconstruct, hbuilds⟩ :=
    construct_image noffFile_small rfl havail ⟨fun _ => 0, fun _ => 0, fun i => pageEntry i i, 2⟩
      (fun _ => false) (fun _ _ => 0) .zero (fun _ => 0)
  refine ⟨object, m', fp', pids', hconstruct, hbuilds.numPages.trans hpages, ?_,
    hbuilds.pageTable.2⟩
  have hbyte : smallHeader.image (OpenFile.fileBytes smallProgram OpenFile.twoSectors.hdr) 129 =
      9 := by decide
  have hread := hbuilds.image 129 (by rw [hpages]; decide)
  rwa [show (129 : BitVec 32).toNat = 129 from rfl, hbyte] at hread

end SpaceObject

end Nachos
