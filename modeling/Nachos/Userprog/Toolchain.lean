/-
# From the object file to the running program

A program gets into memory in three steps: `coff2noff` makes an executable of the object file, `Copy`
puts it on the disk, and `do_UserProcessCreate` loads it. Each step is described elsewhere. Here they
are put together: what a program reads at an address is what its object file has for that address, and
zero where the object file has nothing.
-/

import Nachos.Bin.Coff2noff
import Nachos.Filesys.Transfer
import Nachos.Userprog.RefusedCreation

namespace Nachos

open Base

/-! ## The file that `coff2noff` leaves -/

namespace Coff2noff

/-- How many bytes of contents are copied. -/
def copiedSize (sections : List ScnHdr) : ℕ :=
  ((sections.filter fun scn => scn.isText || scn.isData).map fun scn => scn.s_size.toNat).sum

/-- The output file: the header, and behind it the contents. -/
def outputFile (sections : List ScnHdr) (out : Mem) : List UInt8 :=
  (List.range (sizeofNoffHeader + copiedSize sections)).map out

variable {host : Host} {coff : CoffFile} {scn : ScnHdr} {s s' : State} {done sections : List ScnHdr}
  {stack out : Mem}

theorem copiedSize_cons (scn : ScnHdr) (sections : List ScnHdr) : copiedSize (scn :: sections) =
    (if scn.isText || scn.isData then scn.s_size.toNat else 0) + copiedSize sections := by
  rw [copiedSize, List.filter_cons]
  split
  · rw [List.map_cons, List.sum_cons, copiedSize]
  · rw [Nat.zero_add, copiedSize]

/-- One section moves the end of the file by the size of what is copied, and leaves the magic number of
the header. -/
theorem outPos_of_copySection (hs : Done coff done s)
    (hinside : scn.isText ∨ scn.isData → scn.s_size ≠ 0 → Inside coff scn)
    (h : copySection host coff s scn = .ok s') :
    s'.noffH.noffMagic = s.noffH.noffMagic ∧
      s'.outPos = s.outPos + if scn.isText || scn.isData then scn.s_size.toNat else 0 := by
  rw [copySection] at h
  split at h
  next hsize =>
    obtain rfl := Except.ok.inj h
    simp [hsize]
  next hsize =>
  split at h
  next htext =>
    obtain ⟨rfl, -⟩ := copyContents_eq_ok (hinside (.inl htext) hsize) h hs.outPos
    simp [htext]
  next htext =>
  split at h
  next hdata =>
    split at h
    next => cases h
    next =>
      obtain ⟨rfl, -⟩ := copyContents_eq_ok (hinside (.inr hdata) hsize) h hs.outPos
      simp [hdata]
  next hdata =>
  split at h
  next hbss =>
    split at h
    next =>
      split at h
      next => cases h
      next =>
        obtain rfl := Except.ok.inj h
        simp [htext, hdata]
    next =>
      obtain rfl := Except.ok.inj h
      simp [htext, hdata]
  next hbss =>
    simp only [Except.bind_eq_ok] at h
    obtain ⟨_, _, _, _, h⟩ := h
    cases h

theorem outPos_of_run (hs : Done coff done s) (hinside : ContentsInside coff sections)
    (h : sections.foldlM (copySection host coff) s = .ok s') :
    s'.noffH.noffMagic = s.noffH.noffMagic ∧ s'.outPos = s.outPos + copiedSize sections := by
  induction sections generalizing done s with
  | nil =>
      obtain rfl := Except.ok.inj h
      exact ⟨rfl, rfl⟩
  | cons scn sections ih =>
      rw [List.foldlM_cons, Except.bind_eq_ok] at h
      obtain ⟨next, hstep, hrest⟩ := h
      have hscn := hinside scn List.mem_cons_self
      obtain ⟨hmagic, hpos⟩ := outPos_of_copySection hs hscn hstep
      obtain ⟨hmagic', hpos'⟩ := ih (hs.step hscn hstep)
        (fun other hmem => hinside other (List.mem_cons_of_mem _ hmem)) hrest
      rw [copiedSize_cons]
      exact ⟨hmagic'.trans hmagic, by omega⟩

/-- A segment of the output file and the sections that it is made of. -/
structure Stored (coff : CoffFile) (kind : ScnHdr → Bool) (sections : List ScnHdr) (file : List UInt8)
    (segment : Segment) : Prop where
  /-- The segment lies in the file. -/
  inside : 0 < segment.size →
    0 ≤ segment.inFileAddr ∧ segment.inFileAddr + segment.size ≤ file.length
  holds : ∀ scn ∈ ofKind kind sections, segment.virtualAddr = scn.s_paddr ∧
    segment.size = scn.s_size ∧ ∀ k : ℕ, k < scn.s_size →
      file.getD (segment.inFileAddr.toNat + k) 0 = coff.bytes (scn.s_scnptr.toNat + k)
  only : 0 < segment.size → ∃ scn ∈ ofKind kind sections,
    segment.virtualAddr = scn.s_paddr ∧ segment.size = scn.s_size

theorem getD_outputFile {k : ℕ} (hk : k < sizeofNoffHeader + copiedSize sections) :
    (outputFile sections out).getD k 0 = out k := by
  rw [outputFile, List.getD_eq_getElem _ _ (by simpa using hk), List.getElem_map, List.getElem_range]

/-- The segment for the sections of a kind that are all the same. -/
theorem Slot.stored {kind : ScnHdr → Bool} {segment : Segment}
    (h : Slot coff out (sizeofNoffHeader + copiedSize sections) segment (ofKind kind sections))
    (hsame : ∀ scn ∈ ofKind kind sections, ∀ other ∈ ofKind kind sections,
      SameSection coff scn other) : Stored coff kind sections (outputFile sections out) segment := by
  have hholds := h.holds_iff.mpr hsame
  rw [Slot] at h
  split at h
  next hlast =>
    have hnone := List.getLast?_eq_none_iff.mp hlast
    refine ⟨fun hpos => absurd h (by omega), fun scn hscn => ?_, fun hpos => absurd h (by omega)⟩
    rw [hnone] at hscn
    cases hscn
  next last hlast =>
    have hbefore := h.before
    have hbehind := h.behind
    refine ⟨fun _ => ⟨by omega, ?_⟩, fun scn hscn => ?_, fun _ =>
      ⟨last, List.mem_of_getLast? hlast, h.virtualAddr, h.size⟩⟩
    · simpa [outputFile] using hbefore
    · obtain ⟨haddr, hsize, -, hbytes⟩ := hholds scn hscn
      refine ⟨haddr, hsize, fun k hk => ?_⟩
      rw [getD_outputFile (by omega)]
      exact hbytes k hk

/-- **The output file** when the program ends with `exit(0)`. -/
theorem outputFile_of_main (hinside : ContentsInside coff (sectionHeaders coff))
    (hsame : SameTexts coff (sectionHeaders coff)) (h : main host coff stack = .ok out) :
    (NoffHeader.ofMem out).noffMagic = NOFFMAGIC ∧
      Stored coff ScnHdr.isText (sectionHeaders coff) (outputFile (sectionHeaders coff) out)
        (NoffHeader.ofMem out).code ∧
      Stored coff ScnHdr.isData (sectionHeaders coff) (outputFile (sectionHeaders coff) out)
        (NoffHeader.ofMem out).initData := by
  obtain ⟨inPos, hconvert⟩ := main_eq_ok h
  simp only [convert, Except.bind_eq_ok] at hconvert
  obtain ⟨s, hrun, ⟨written, outPos⟩, hwrite, hout⟩ := hconvert
  obtain rfl := Except.ok.inj hout
  have hstart : Done coff [] (start stack inPos) := start_inv coff stack inPos
  have hdone : Done coff (sectionHeaders coff) s := hstart.run hinside hrun
  obtain ⟨hmagic, hpos⟩ := outPos_of_run hstart hinside hrun
  obtain ⟨hwrite, -⟩ := write_eq_ok (Int.natCast_nonneg _) hwrite
  cases hwrite
  have hheader : NoffHeader.ofMem (s.out.copy 0 s.noffH.toMem 0 (sizeofNoffHeader : ℤ).toNat) =
      s.noffH :=
    (NoffHeader.ofMem_congr fun k hk => Mem.copy_of_mem _ _ (by simpa using hk)).trans
      (NoffHeader.ofMem_toMem hdone.inRange)
  have hbehind (k : ℕ) (hk : sizeofNoffHeader ≤ k) :
      s.out.copy 0 s.noffH.toMem 0 (sizeofNoffHeader : ℤ).toNat k = s.out k :=
    Mem.copy_of_not_mem _ _ (.inr (by simpa using hk))
  have hstop : s.outPos = sizeofNoffHeader + copiedSize (sectionHeaders coff) := hpos
  rw [hheader]
  have hcode := hdone.code.congr hbehind
  have hdata := hdone.initData.congr hbehind
  rw [hstop] at hcode hdata
  exact ⟨hmagic, hcode.stored hsame, hdata.stored (sameSection_of_single hdone.single)⟩

end Coff2noff

/-! ## The file on the disk -/

/-- **An open file** as the loader reads it. -/
theorem FileSystem.Represents.exists_stored {fs : FileSystem} {s : FileTree} {L : Layout} {c k : ℕ}
    {o : OpenedFile} {bytes : List UInt8} (h : fs.Represents s L c) (hk : k < NbFileTableEntries)
    (ho : s.opened k = some o) (hnode : s.node o.path = some (.file bytes))
    (hsome : bytes ≠ []) : ∃ e, fs.fileTable.get k = some e ∧ e.file.hdr.numBytes = bytes.length ∧
      e.file.hdr.numBytes ≤ MaxFileSize ∧ e.file.hdr.InRange e.file.hdr.sectorCount ∧
      ∀ j < bytes.length, OpenFile.fileBytes fs.disk e.file.hdr j = bytes.getD j 0 := by
  obtain ⟨t, hstands⟩ := h.opened k hk o ho
  obtain ⟨e, he, -, hfile, -⟩ := hstands.openAt.entry
  have hconsistent := h.valid.consistent
  obtain ⟨hlisted, hbytes, hlength, hrange, -⟩ :=
    OpenAt.sectors hconsistent (hconsistent.mem_files_of_lookup hstands.path) hfile
  have hcontents : fs.disk.contents t = bytes := by
    rw [h.node, Disk.tree, Links.tree_eq_file.mpr ⟨t, hstands.path, rfl⟩] at hnode
    exact Node.file.inj (Option.some.inj hnode)
  have hsize : bytes.length = (fs.disk.header t).numBytes.toNat := by
    rw [← hcontents, Disk.contents, List.length_map, List.length_range]
  have hpos := List.length_pos_of_ne_nil hsome
  have hnum : e.file.hdr.numBytes = bytes.length := by omega
  refine ⟨e, (get_of_lt hk).trans he, hnum, ?_, fun i hi => hrange i ?_, fun j hj => ?_⟩
  · rw [MaxFileSize, NumDirect, SectorSize]
    omega
  · rw [FileHeader.sectorCount] at hi
    omega
  · rw [hfile.fileBytes (by omega), ← hcontents, Disk.contents,
      List.getD_eq_getElem _ _ (by rw [List.length_map, List.length_range]; omega), List.getElem_map,
      List.getElem_range]
    rfl

namespace CreationState

variable {st : CreationState} {heap : Heap} {execFile : List UInt8} {stack : Heap}
  {memory : SpaceMemory} {rand : ℕ → ℕ} {i : ℤ} {fs : FileSystem} {entry : OpenFileEntry}
  {noffH : NoffHeader}

/-- **The creation of a process** from a file that is in order. -/
theorem doUserProcessCreate_image (hopen : st.fs.openFile heap execFile modeRead = .ok (i, fs))
    (hi : i ≠ -1) (hget : fs.fileTable.get i = some entry) (hfile : NoffFile fs.disk entry.file noffH)
    (htotal : st.fprovider.totalFrames = NumPhysPages)
    (havail : noffH.numPages ≤ st.fprovider.numAvailFrame) :
    ∃ (object : SpaceObject) (st' : CreationState),
      st.doUserProcessCreate heap execFile stack memory rand = .ok (object.pid.value, st', []) ∧
        BuildsImage noffH (OpenFile.fileBytes fs.disk entry.file.hdr) st.machine st.fprovider object
          st'.machine ∧ st'.fs = fs := by
  have hpages : noffH.numPages ≤ NumPhysPages := htotal ▸ havail.trans st.fprovider.numAvailFrame_le
  have hpresent : ((0 : ℕ) + sizeofNoffHeader : ℤ) ≤ entry.file.hdr.numBytes := by
    rw [Nat.cast_zero, Int.zero_add]
    exact hfile.present
  have hread := OpenFile.readAt_inside hfile.length hfile.sectors fs.disk (stack 0) hpresent
  have hnoffH : NoffHeader.ofMem ((stack 0).copy 0 (OpenFile.fileBytes fs.disk entry.file.hdr) 0
      sizeofNoffHeader) = noffH := by
    rw [hfile.header]
    refine NoffHeader.ofMem_congr fun k hk => ?_
    rw [Mem.copy_of_mem _ _ (by omega)]
    exact congrArg _ (by omega)
  obtain ⟨pageTable, m', fp', hload, hbuilds⟩ :=
    SpaceObject.loadProgram_image hfile htotal havail st.machine stack memory rand
  rw [Nat.cast_zero] at hread
  rw [doUserProcessCreate_of_open hopen hi hget, SpaceObject.construct_created hread
    (hnoffH ▸ hfile.magic) (hnoffH ▸ hpages) (hnoffH ▸ havail) (hnoffH ▸ hload), hnoffH]
  cases (List.range 64).find? fun k => !st.pids k with
  | some k => exact ⟨SpaceObject.created memory noffH.numPages pageTable (some k), _, rfl,
      hbuilds (some k), rfl⟩
  | none => exact ⟨SpaceObject.created memory noffH.numPages pageTable none, _, rfl, hbuilds none, rfl⟩

end CreationState

/-! ## The program in memory -/

open Coff2noff

/-- The sections that are loaded lie in `n` pages, and those of the text apart from the data. -/
structure FitsPages (sections : List ScnHdr) (n : ℕ) : Prop where
  inside : ∀ scn ∈ sections, scn.isText ∨ scn.isData → scn.s_size ≠ 0 →
    0 ≤ scn.s_paddr ∧ scn.s_paddr + scn.s_size ≤ (n * PageSize : ℕ)
  apart : ∀ text ∈ sections, text.isText → ∀ data ∈ sections, data.isData → ∀ a,
    ¬ (text.extent.Contains a ∧ data.extent.Contains a)

/-- A byte that the program reads at an address. -/
def SpaceObject.Reads (object : SpaceObject) (m : Machine) (a : ℤ) (b : UInt8) : Prop :=
  ∃ m', (object.restoreState m).readMem (BitVec.ofInt 32 a) .byte =
    .ok (some (b.toBitVec.signExtend 32), m')

/-- What the program reads are the contents of the sections, and zeros between and behind them. -/
structure LoadsSections (coff : CoffFile) (sections : List ScnHdr) (n : ℕ) (object : SpaceObject)
    (m : Machine) : Prop where
  contents : ∀ scn ∈ sections, scn.isText ∨ scn.isData → ∀ k : ℕ, k < scn.s_size →
    object.Reads m (scn.s_paddr + k) (coff.bytes (scn.s_scnptr.toNat + k))
  zero : ∀ a : ℤ, 0 ≤ a → a < (n * PageSize : ℕ) →
    (∀ scn ∈ sections, scn.isText ∨ scn.isData → ¬ scn.extent.Contains a) → object.Reads m a 0

namespace Coff2noff

variable {coff : CoffFile} {sections : List ScnHdr} {file : List UInt8} {bytes : Mem}
  {noffH : NoffHeader}

/-- A byte of a section, through the segment that has it. -/
theorem Stored.byteAt {kind : ScnHdr → Bool} {segment : Segment} {scn : ScnHdr} {a k : ℕ}
    (h : Stored coff kind sections file segment)
    (hbytes : ∀ j < file.length, bytes j = file.getD j 0) (hscn : scn ∈ ofKind kind sections)
    (hk : k < scn.s_size) (ha : (a : ℤ) = scn.s_paddr + k) :
    segment.Contains a ∧ segment.byteAt bytes a = coff.bytes (scn.s_scnptr.toNat + k) := by
  obtain ⟨haddr, hsize, hcontents⟩ := h.holds scn hscn
  obtain ⟨hlow, hhigh⟩ := h.inside (by omega)
  have hplace : (segment.inFileAddr + (a - segment.virtualAddr)).toNat =
      segment.inFileAddr.toNat + k := by omega
  refine ⟨⟨by omega, by omega⟩, ?_⟩
  rw [Segment.byteAt, hplace, hbytes _ (by omega), hcontents k hk]

/-- An address of a segment is one of a section. -/
theorem Stored.exists_section {kind : ScnHdr → Bool} {segment : Segment} {a : ℤ}
    (h : Stored coff kind sections file segment) (ha : segment.Contains a) :
    ∃ scn ∈ ofKind kind sections, scn.extent.Contains a := by
  obtain ⟨hlow, hhigh⟩ := ha
  obtain ⟨scn, hscn, haddr, hsize⟩ := h.only (by omega)
  refine ⟨scn, hscn, ?_⟩
  rw [Extent.Contains, ScnHdr.extent]
  exact ⟨haddr ▸ hlow, by rw [← haddr, ← hsize]; exact hhigh⟩

/-- The segment lies in the pages and in the file. -/
theorem Stored.fits {kind : ScnHdr → Bool} {segment : Segment} {n : ℕ}
    (h : Stored coff kind sections file segment) (hfits : FitsPages sections n)
    (hkind : ∀ scn : ScnHdr, kind scn → scn.isText ∨ scn.isData) :
    segment.Fits n file.length := by
  intro hpos
  obtain ⟨scn, hscn, haddr, hsize⟩ := h.only hpos
  obtain ⟨hmem, hscn, hsome⟩ := mem_ofKind.mp hscn
  rw [haddr, hsize]
  exact ⟨hfits.inside scn hmem (hkind scn hscn) hsome, hsize ▸ h.inside hpos⟩

section Image

variable (hcode : Stored coff ScnHdr.isText sections file noffH.code)
  (hdata : Stored coff ScnHdr.isData sections file noffH.initData)

include hcode hdata

/-- The image that the header describes has the contents of the sections. -/
theorem image_of_stored (hbytes : ∀ j < file.length, bytes j = file.getD j 0)
    (hfits : FitsPages sections noffH.numPages) {scn : ScnHdr} (hscn : scn ∈ sections)
    (hkind : scn.isText ∨ scn.isData) {a k : ℕ} (hk : k < scn.s_size)
    (ha : (a : ℤ) = scn.s_paddr + k) :
    noffH.image bytes a = coff.bytes (scn.s_scnptr.toNat + k) := by
  have hsize : scn.s_size ≠ 0 := by omega
  rw [NoffHeader.image]
  rcases hkind with htext | hdat
  · obtain ⟨hin, hbyte⟩ := hcode.byteAt hbytes (mem_ofKind.mpr ⟨hscn, htext, hsize⟩) hk ha
    rw [if_pos hin, hbyte]
  · obtain ⟨hin, hbyte⟩ := hdata.byteAt hbytes (mem_ofKind.mpr ⟨hscn, hdat, hsize⟩) hk ha
    rw [if_neg fun hboth => ?_, if_pos hin, hbyte]
    -- The text would reach into the data.
    obtain ⟨text, htext, hcontains⟩ := hcode.exists_section hboth
    obtain ⟨hmem, hkind, -⟩ := mem_ofKind.mp htext
    refine hfits.apart text hmem hkind scn hscn hdat a ⟨hcontains, ?_⟩
    rw [Extent.Contains, ScnHdr.extent]
    dsimp only
    exact ⟨by omega, by omega⟩

/-- Elsewhere it is zero. -/
theorem image_eq_zero {a : ℕ}
    (hnone : ∀ scn ∈ sections, scn.isText ∨ scn.isData → ¬ scn.extent.Contains a) :
    noffH.image bytes a = 0 := by
  rw [NoffHeader.image, if_neg fun hin => ?_, if_neg fun hin => ?_]
  · obtain ⟨scn, hscn, hcontains⟩ := hdata.exists_section hin
    obtain ⟨hmem, hkind, -⟩ := mem_ofKind.mp hscn
    exact hnone scn hmem (.inr hkind) hcontains
  · obtain ⟨scn, hscn, hcontains⟩ := hcode.exists_section hin
    obtain ⟨hmem, hkind, -⟩ := mem_ofKind.mp hscn
    exact hnone scn hmem (.inl hkind) hcontains

/-- What the program reads when its image is built. -/
theorem loadsSections_of_builds (hbytes : ∀ j < file.length, bytes j = file.getD j 0)
    (hfits : FitsPages sections noffH.numPages) (hpages : noffH.numPages ≤ NumPhysPages)
    {m m' : Machine} {fp : FrameProvider} {object : SpaceObject}
    (h : BuildsImage noffH bytes m fp object m') :
    LoadsSections coff sections noffH.numPages object m' := by
  have hread {a : ℕ} (ha : a < noffH.numPages * PageSize) :
      object.Reads m' a (noffH.image bytes a) := by
    have hsmall : noffH.numPages * PageSize ≤ NumPhysPages * PageSize := Nat.mul_le_mul_right _ hpages
    have htotal : NumPhysPages * PageSize < 2 ^ 32 := by decide
    have hvalue : (BitVec.ofInt 32 a).toNat = a := by
      rw [BitVec.ofInt_natCast, BitVec.toNat_ofNat]
      omega
    have hbyte := h.image (BitVec.ofInt 32 a) (by rw [hvalue]; exact ha)
    rwa [hvalue] at hbyte
  constructor
  case contents =>
    intro scn hscn hkind k hk
    obtain ⟨hlow, hhigh⟩ := hfits.inside scn hscn hkind (by omega)
    obtain ⟨a, ha⟩ := Int.eq_ofNat_of_zero_le (show 0 ≤ scn.s_paddr + k by omega)
    rw [← image_of_stored hcode hdata hbytes hfits hscn hkind hk ha.symm, ha]
    exact hread (by omega)
  case zero =>
    intro a hlow hhigh hnone
    obtain ⟨a, rfl⟩ := Int.eq_ofNat_of_zero_le hlow
    rw [← image_eq_zero hcode hdata hnone]
    exact hread (by omega)

end Image

end Coff2noff

/-- **From the object file to the program.** `coff2noff` accepts an object file whose contents are all
there, whose `.text` sections are the same and whose sections fit the pages that its header asks for.
If `CreateFile` makes a file for the executable, then `Copy` stores it, `do_UserProcessCreate` starts a
process of it, and the process reads the contents of the sections where the object file has them and
zero elsewhere. No frame that was in use is touched. -/
theorem program_loaded {coff : CoffFile} {host : Host} {uninit out : Mem} (st : CreationState)
    {s : FileTree} {L : Layout} {c : ℕ} {path : List UInt8} {D : List Name} {name : Name}
    {fs₀ : FileSystem} (hmain : Coff2noff.main host coff uninit = .ok out)
    (hinside : ContentsInside coff (sectionHeaders coff))
    (hsame : SameTexts coff (sectionHeaders coff))
    (hfits : FitsPages (sectionHeaders coff) (NoffHeader.ofMem out).numPages)
    (h : st.fs.Represents s L c) (heap : ℕ → Heap) (hlocate : s.locate path = some (D, name))
    (hallows : s.Allows (.createFile path (outputFile (sectionHeaders coff) out).length))
    (hfree : ∃ k < NbFileTableEntries, s.opened k = none)
    (hcreate : st.fs.createFile (heap 0) path (outputFile (sectionHeaders coff) out).length =
      .ok (true, fs₀))
    (htotal : st.fprovider.totalFrames = NumPhysPages)
    (havail : (NoffHeader.ofMem out).numPages ≤ st.fprovider.numAvailFrame) (heap' stack : Heap)
    (memory : SpaceMemory) (rand : ℕ → ℕ) :
    ∃ (fs₁ : FileSystem) (object : SpaceObject) (st' : CreationState),
      st.fs.copy heap (outputFile (sectionHeaders coff) out) path = .ok fs₁ ∧
        ({ st with fs := fs₁ } : CreationState).doUserProcessCreate heap' path stack memory rand =
          .ok (object.pid.value, st', []) ∧
        LoadsSections coff (sectionHeaders coff) (NoffHeader.ofMem out).numPages object st'.machine ∧
        ∀ f < NumPhysPages, st.fprovider.bitmap.testBit f = true → ∀ k < PageSize,
          st'.machine.mainMemory (f * PageSize + k) = st.machine.mainMemory (f * PageSize + k) := by
  obtain ⟨hmagic, hcode, hdata⟩ := outputFile_of_main hinside hsame hmain
  set noffH := NoffHeader.ofMem out with hnoffH
  set file := outputFile (sectionHeaders coff) out with hfile
  have hlength : sizeofNoffHeader ≤ file.length := by
    rw [hfile, outputFile, List.length_map, List.length_range]
    omega
  -- The executable is on the disk.
  obtain ⟨created, fs₀', fs₁, L₁, c₁, hcreate', hcopy, hcases⟩ :=
    h.copy_eq hlocate hallows hfree heap
  obtain ⟨rfl, rfl⟩ := Prod.mk.inj (Except.ok.inj (hcreate.symm.trans hcreate'))
  rw [if_pos rfl] at hcases
  obtain ⟨hname, hnew, hrep⟩ := hcases
  set s₁ := s.setNode (D ++ [name]) (some (.file file)) with hs₁
  have hnode : s₁.node (D ++ [name]) = some (.file file) := s.node_setNode_self ..
  have hpath : s₁.locate path = s.locate path :=
    FileTree.locate_congr (show s₁.here = s.here from rfl) (FileTree.node_eq_dir_iff hnew) path
  -- It is opened.
  obtain ⟨fs₂, L₂, c₂, hopen, hrep₂⟩ := hrep.openFile_eq (hpath.trans hlocate)
    ⟨hname.ne_dot, hname.ne_dotDot, by rw [hnode]; simp⟩ modeRead heap'
  obtain ⟨k, hk, -, hfresh⟩ :=
    FileTree.openFile_fresh hnode (h.path_ne_of_absent hnew) hfree modeRead
  rw [hfresh] at hopen hrep₂
  obtain ⟨e, hget, hbytes, hmax, hsectors, hcontents⟩ := hrep₂.exists_stored hk
    (FileTree.opened_setOpened_self _ _ _) hnode (List.ne_nil_of_length_pos (by
      rw [sizeofNoffHeader] at hlength
      omega))
  -- Its header is the one that `coff2noff` wrote.
  have hheader : noffH = NoffHeader.ofMem (OpenFile.fileBytes fs₂.disk e.file.hdr) := by
    refine NoffHeader.ofMem_congr fun j hj => ?_
    rw [hcontents j (by omega), getD_outputFile (by omega)]
  have hnoff : NoffFile fs₂.disk e.file noffH := by
    refine ⟨hmax, hsectors, by omega, hheader, hmagic,
      hbytes ▸ hcode.fits hfits fun scn => .inl, hbytes ▸ hdata.fits hfits fun scn => .inr,
      fun a hin hboth => ?_⟩
    obtain ⟨text, htext, hcontains⟩ := hcode.exists_section hin
    obtain ⟨data, hdat, hcontains'⟩ := hdata.exists_section hboth
    obtain ⟨hmem, hkind, -⟩ := mem_ofKind.mp htext
    obtain ⟨hmem', hkind', -⟩ := mem_ofKind.mp hdat
    exact hfits.apart text hmem hkind data hmem' hkind' a ⟨hcontains, hcontains'⟩
  obtain ⟨object, st', hrun, hbuilds, -⟩ :=
    ({ st with fs := fs₁ } : CreationState).doUserProcessCreate_image hopen (by omega) hget hnoff
      htotal havail
  refine ⟨fs₁, object, st', hcopy, hrun, loadsSections_of_builds hcode hdata hcontents hfits
    (htotal ▸ havail.trans st.fprovider.numAvailFrame_le) hbuilds, hbuilds.marked⟩

/-- An object file with one section of each kind, on a fresh disk: its first byte of data is where it
belongs. -/
theorem program_loaded_one_of_each : ∃ out fs fs₁, ∃ (object : SpaceObject) (st' : CreationState),
    Coff2noff.main roomyHost oneOfEach (fun _ => 0) = .ok out ∧
      FileSystem.format (fun _ _ => 0) (fun _ _ => 0) (fun _ => none) = .ok fs ∧
      fs.copy (fun _ _ _ => 0) (outputFile (sectionHeaders oneOfEach) out) [97] = .ok fs₁ ∧
      (⟨fs₁, ⟨fun _ => 0, fun _ => 0, fun i => pageEntry i i, 2⟩,
          FrameProvider.new (fun _ => 0) NumPhysPages, fun _ => false, 0⟩ :
        CreationState).doUserProcessCreate (fun _ _ => 0) [97] (fun _ _ => 0) .zero (fun _ => 0) =
          .ok (object.pid.value, st', []) ∧
      object.Reads st'.machine 8 (oneOfEach.bytes 204) ∧ object.Reads st'.machine 12 0 := by
  obtain ⟨out, hmain, hpages⟩ : ∃ out, Coff2noff.main roomyHost oneOfEach (fun _ => 0) = .ok out ∧
      (NoffHeader.ofMem out).numPages = 17 := ⟨_, rfl, by decide⟩
  have hlength : (outputFile (sectionHeaders oneOfEach) out).length = 52 := by
    rw [outputFile, List.length_map, List.length_range]
    decide
  obtain ⟨fs, hformat, hformatted, hvalid, hnew, -⟩ :=
    FileSystem.format_eq_ok (fun _ _ => 0) (fun _ _ => 0) (fun _ => none)
  obtain ⟨i, disk', hcreate, -⟩ := hvalid.createFile_of_formatted hformatted (fun _ _ => 0) [97] 52
    (by decide) (by decide) (by decide) (by omega)
  have hrep : fs.Represents .initial Layout.initial 1 :=
    .of_formatted hvalid hformatted (fun k _ => by rw [hnew]; rfl) (by rw [hnew]; rfl)
  have hsections : ∀ scn ∈ sectionHeaders oneOfEach, scn.isText ∨ scn.isData → scn.s_size ≠ 0 →
      0 ≤ scn.s_paddr ∧ scn.s_paddr + scn.s_size ≤ (17 * PageSize : ℕ) := by decide
  have hapart : ∀ text ∈ sectionHeaders oneOfEach, text.isText →
      ∀ data ∈ sectionHeaders oneOfEach, data.isData →
        text.s_paddr + text.s_size ≤ data.s_paddr := by decide
  have hfits : FitsPages (sectionHeaders oneOfEach) (NoffHeader.ofMem out).numPages := by
    rw [hpages]
    refine ⟨hsections, fun text htext hkind data hdata hkind' a hboth => ?_⟩
    have hbefore := hapart text htext hkind data hdata hkind'
    simp only [Extent.Contains, ScnHdr.extent] at hboth
    omega
  obtain ⟨fs₁, object, st', hcopy, hrun, hloads, -⟩ := program_loaded
    (⟨fs, ⟨fun _ => 0, fun _ => 0, fun i => pageEntry i i, 2⟩,
      FrameProvider.new (fun _ => 0) NumPhysPages, fun _ => false, 0⟩ : CreationState)
    hmain (by decide) (sameSection_of_single (by decide)) hfits hrep (fun _ _ _ => 0)
    (show FileTree.initial.locate [97] = some ([], [97]) by decide)
    ⟨by decide, by omega, by rw [hlength]; decide⟩ ⟨0, by decide, rfl⟩ (by rw [hlength]; exact hcreate)
    rfl (by rw [hpages, FrameProvider.numAvailFrame_new]; decide) (fun _ _ => 0) (fun _ _ => 0) .zero
    (fun _ => 0)
  refine ⟨out, fs, fs₁, object, st', hmain, hformat, hcopy, hrun, ?_, ?_⟩
  · obtain ⟨scn, hscn, hkind, haddr, hsize, hscnptr⟩ : ∃ scn ∈ sectionHeaders oneOfEach,
        (scn.isText ∨ scn.isData) ∧ scn.s_paddr = 8 ∧ 0 < scn.s_size ∧ scn.s_scnptr.toNat = 204 := by
      decide
    have hbyte := hloads.contents scn hscn hkind 0 (by exact_mod_cast hsize)
    rwa [haddr, hscnptr] at hbyte
  · exact hloads.zero 12 (by decide) (by rw [hpages]; decide) (by decide)

end Nachos
