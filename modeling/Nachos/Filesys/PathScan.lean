/-
# What the path scanner touches

`ChangeCurrentDir` copies the path into `dirName`, character by character, and calls
`SetCurrentDir` at each slash and at the end, unless the character before the write
index is zero. With no character stored that is a byte in front of the buffer, so an
empty component is told apart by memory that is not the scanner's. Neither here nor
in `SplitPathAndName` is a length checked.

The scan is written down as the list of its accesses and calls. Performing them in
order is the loop of `ChangeCurrentDir`.
-/

import Nachos.Filesys.Path

namespace Nachos

open Base

/-- One thing the loop of `ChangeCurrentDir` does. -/
inductive ScanStep
  /-- The test reads `dirName[index]`. -/
  | read (index : ℤ)
  /-- A character or the terminating zero is stored in `dirName[index]`. -/
  | write (index : ℕ)
  /-- `SetCurrentDir(name)`, at character `i` of the path. -/
  | call (i : ℕ) (name : Name)
  deriving DecidableEq

namespace ScanStep

/-- The access is to one of the nine bytes of `dirName`. -/
def Inside : ScanStep → Prop
  | read index => 0 ≤ index ∧ index < FileNameMaxLen
  | write index => index < FileNameMaxLen
  | call _ _ => True

instance : DecidablePred Inside := fun step =>
  match step with
  | read index => inferInstanceAs (Decidable (0 ≤ index ∧ index < FileNameMaxLen))
  | write index => inferInstanceAs (Decidable (index < FileNameMaxLen))
  | call _ _ => inferInstanceAs (Decidable True)

/-- The argument of a call. -/
def called : ScanStep → Option (ℕ × Name)
  | call i name => some (i, name)
  | _ => none

/-- Perform the step on the file system. A read in front of the buffer returns what is
there; a write behind it is not defined. -/
def run (heap : Heap) (fs : FileSystem) : ScanStep → Except Fault FileSystem
  | read _ => .ok fs
  | write index => do
      inBounds (index < FileNameMaxLen)
      return fs
  | call i name => fs.setCurrentDir (fun n => heap (9 + 2 * i + n)) name

end ScanStep

/-- The end of a component, at character `i` of the path: what is done, and what is then
stored in `dirName`. -/
def endScan (below : UInt8) (i : ℕ) (dirName : Name) : List ScanStep × Name :=
  if dirName.getLastD below ≠ 0 then
    ([.read ((dirName.length : ℤ) - 1), .write dirName.length, .call i dirName], [])
  else ([.read ((dirName.length : ℤ) - 1)], dirName)

/-- The scan of a path from character `i` on, with `dirName` already stored. -/
def scan (below : ℕ → UInt8) (dirName : Name) (i : ℕ) : List UInt8 → List ScanStep
  | [] => (endScan (below i) i dirName).1
  | c :: rest =>
      if c = slash then
        (endScan (below i) i dirName).1 ++ scan below (endScan (below i) i dirName).2 (i + 1) rest
      else .write dirName.length :: scan below (dirName ++ [c]) (i + 1) rest

namespace FileSystem

/-- One component of the loop. -/
theorem endComponent_eq_run (fs : FileSystem) (heap : Heap) (below : UInt8) (i : ℕ)
    (dirName : Name) :
    fs.endComponent (fun n => heap (9 + 2 * i + n)) below dirName =
      (endScan below i dirName).1.foldlM (ScanStep.run heap) fs >>= fun fs =>
        .ok (fs, (endScan below i dirName).2) := by
  unfold endComponent endScan
  split
  · simp only [List.foldlM_cons, List.foldlM_nil, ScanStep.run, Except.ok_bind, bind_assoc,
      pure_bind]
    rfl
  · rfl

/-- **The loop of `ChangeCurrentDir` performs the scan.** -/
theorem walkPath_eq_run (heap : Heap) (fs : FileSystem) (dirName : Name) (i : ℕ)
    (path : List UInt8) : walkPath heap fs dirName i path =
      (scan (heap 8) dirName i path).foldlM (ScanStep.run heap) fs := by
  induction path generalizing fs dirName i with
  | nil =>
      rw [walkPath, endComponent_eq_run, scan, bind_assoc]
      exact bind_pure _
  | cons c rest ih =>
      rw [walkPath, scan]
      split
      · rw [endComponent_eq_run, List.foldlM_append, bind_assoc]
        simp only [Except.ok_bind, ih]
      · rw [List.foldlM_cons]
        simp only [ScanStep.run, bind_assoc, pure_bind, ih]

/-- `ChangeCurrentDir` performs the scan of its path. -/
theorem changeCurrentDir_eq_run (fs : FileSystem) (heap : Heap) (path : List UInt8) :
    fs.changeCurrentDir heap path =
      (scan (heap 8) [] 0 (path.takeWhile (· != 0))).foldlM (ScanStep.run heap) fs :=
  walkPath_eq_run heap fs [] 0 _

end FileSystem

/-! ## Accesses and calls of a scan -/

section Scan

variable {below : ℕ → UInt8} {dirName : Name} {i : ℕ} {path : List UInt8}

/-- A component with characters in it always ends with a call. -/
theorem endScan_of_ne (b : UInt8) (i : ℕ) (hne : dirName ≠ []) (hzero : (0 : UInt8) ∉ dirName) :
    endScan b i dirName =
      ([.read ((dirName.length : ℤ) - 1), .write dirName.length, .call i dirName], []) := by
  have hlast : dirName.getLastD b ≠ 0 := by
    rw [List.getLastD_eq_getLast?, List.getLast?_eq_getLast_of_ne_nil hne]
    exact fun h => hzero (h ▸ List.getLast_mem hne)
  exact if_pos hlast

/-- The end of a component stays inside the buffer when the component is neither empty
nor too long. -/
theorem endScan_inside (b : UInt8) (i : ℕ) (hzero : (0 : UInt8) ∉ dirName) :
    (∀ step ∈ (endScan b i dirName).1, step.Inside) ↔
      dirName ≠ [] ∧ dirName.length < FileNameMaxLen := by
  by_cases hne : dirName = []
  · subst hne
    simp only [ne_eq, not_true_eq_false, false_and, iff_false]
    intro hall
    have hread : ScanStep.read (-1) ∈ (endScan b i []).1 := by
      unfold endScan
      split
      · exact List.mem_cons_self
      · exact List.mem_cons_self
    have hlow := (hall _ hread).1
    omega
  · have hpos := List.length_pos_of_ne_nil hne
    rw [endScan_of_ne b i hne hzero]
    simp only [List.mem_cons, List.not_mem_nil, or_false, forall_eq_or_imp, forall_eq,
      ScanStep.Inside, and_true, ne_eq, hne, not_false_eq_true, true_and]
    omega

/-- **The scan stays inside `dirName`** exactly when no component is empty or has more
than eight characters. -/
theorem scan_inside_iff (hname : (0 : UInt8) ∉ dirName) (hpath : (0 : UInt8) ∉ path) :
    (∀ step ∈ scan below dirName i path, step.Inside) ↔
      ∀ name ∈ components dirName path, name ≠ [] ∧ name.length < FileNameMaxLen := by
  induction path generalizing dirName i with
  | nil =>
      rw [scan, endScan_inside _ _ hname, components]
      simp
  | cons c rest ih =>
      have hc : c ≠ 0 := fun h => hpath (h ▸ List.mem_cons_self)
      have hrest : (0 : UInt8) ∉ rest := fun h => hpath (List.mem_cons_of_mem _ h)
      rw [scan, components]
      split
      · rw [List.forall_mem_append, endScan_inside _ _ hname, List.forall_mem_cons]
        refine and_congr_right fun hcomponent => ?_
        rw [endScan_of_ne _ _ hcomponent.1 hname]
        exact ih (by simp) hrest
      · have hlonger : (0 : UInt8) ∉ dirName ++ [c] := by
          simpa [hc.symm] using hname
        rw [List.forall_mem_cons, ih hlonger hrest]
        refine ⟨fun h => h.2, fun h => ⟨?_, h⟩⟩
        -- The component being stored ends up at least this long.
        obtain ⟨name, hmem, hlength⟩ := length_le_of_components (dirName ++ [c]) rest
        rw [List.length_append, List.length_singleton] at hlength
        have hshort := (h name hmem).2
        change dirName.length < FileNameMaxLen
        omega

/-- A scan along components that are not empty calls `SetCurrentDir` once for each. -/
theorem scan_called (hname : (0 : UInt8) ∉ dirName) (hpath : (0 : UInt8) ∉ path)
    (hne : ∀ name ∈ components dirName path, name ≠ []) :
    ((scan below dirName i path).filterMap ScanStep.called).map Prod.snd =
      components dirName path := by
  induction path generalizing dirName i with
  | nil =>
      rw [components] at hne ⊢
      rw [scan, endScan_of_ne _ _ (hne dirName List.mem_cons_self) hname]
      rfl
  | cons c rest ih =>
      have hc : c ≠ 0 := fun h => hpath (h ▸ List.mem_cons_self)
      have hrest : (0 : UInt8) ∉ rest := fun h => hpath (List.mem_cons_of_mem _ h)
      rw [components] at hne ⊢
      rw [scan]
      split at hne <;> rename_i hslash
      · rw [if_pos hslash, if_pos hslash, endScan_of_ne _ _ (hne dirName List.mem_cons_self) hname,
          List.filterMap_append, List.map_append,
          ih (by simp) hrest fun name h => hne name (List.mem_cons_of_mem _ h)]
        rfl
      · rw [if_neg hslash, if_neg hslash]
        exact ih (by simpa [hc.symm] using hname) hrest hne

end Scan

/-! ## Splitting off the name -/

namespace FileSystem

/-- What `SplitPathAndName` makes of a path, were its buffers large enough. -/
def splitText (path : List UInt8) : Name × List UInt8 :=
  let path := path.takeWhile (· != 0)
  let stripped :=
    if lastSlash path = some (path.length - 1) then path.take (path.length - 1) else path
  match lastSlash stripped with
  | none => (stripped, [])
  | some i => (stripped.drop (i + 1), stripped.take i)

/-- The checks that stand between the text and the result. -/
theorem splitPathAndName_eq (path : List UInt8) : splitPathAndName path = (do
    assert ((path.takeWhile (· != 0)).head? ≠ some slash)
    inBounds ((path.takeWhile (· != 0)).length < PathLenMax)
    inBounds ((splitText path).1.length < FileNameMaxLen)
    return splitText path) := rfl

/-- `SplitPathAndName` leaves its buffers exactly when the path is too long or the name is,
and the path does not start with a slash. -/
theorem splitPathAndName_inside_iff (path : List UInt8) :
    splitPathAndName path ≠ .error .bounds ↔
      (path.takeWhile (· != 0)).head? = some slash ∨
        (path.takeWhile (· != 0)).length < PathLenMax ∧
          (splitText path).1.length < FileNameMaxLen := by
  rw [splitPathAndName_eq]
  by_cases hrelative : (path.takeWhile (· != 0)).head? = some slash
  · simp [assert, hrelative]
  · by_cases hlength : (path.takeWhile (· != 0)).length < PathLenMax <;>
      by_cases hname : (splitText path).1.length < FileNameMaxLen <;>
      simp [assert, inBounds, hrelative, hlength, hname, pure, Except.pure]

/-- The greatest index with a property. -/
theorem find?_reverse_range_eq_some {p : ℕ → Bool} {n i : ℕ}
    (h : (List.range n).reverse.find? p = some i) :
    i < n ∧ p i = true ∧ ∀ j, i < j → j < n → p j = false := by
  induction n with
  | zero => simp at h
  | succ n ih =>
      rw [List.range_succ, List.reverse_append, List.reverse_singleton, List.singleton_append,
        List.find?_cons] at h
      cases hp : p n with
      | true =>
          rw [hp] at h
          cases h
          exact ⟨by omega, hp, fun j hj hlt => by omega⟩
      | false =>
          rw [hp] at h
          obtain ⟨hi, hpi, hlater⟩ := ih h
          refine ⟨by omega, hpi, fun j hj hlt => ?_⟩
          rcases (by omega : j < n ∨ j = n) with hlt | rfl
          · exact hlater j hj hlt
          · exact hp

/-- The text behind the last slash has no slash in it. -/
theorem lastSlash_eq_some {path : List UInt8} {i : ℕ} (h : lastSlash path = some i) :
    i < path.length ∧ path = path.take i ++ slash :: path.drop (i + 1) ∧
      slash ∉ path.drop (i + 1) := by
  obtain ⟨hi, hslash, hlater⟩ := find?_reverse_range_eq_some h
  rw [beq_iff_eq, List.getD_eq_getElem _ _ hi] at hslash
  refine ⟨hi, ?_, fun hmem => ?_⟩
  · rw [← hslash, ← List.drop_eq_getElem_cons hi, List.take_append_drop]
  · obtain ⟨j, hj, hget⟩ := List.getElem_of_mem hmem
    rw [List.getElem_drop] at hget
    rw [List.length_drop] at hj
    have hfalse := hlater (i + 1 + j) (by omega) (by omega)
    rw [List.getD_eq_getElem _ _ (by omega), hget] at hfalse
    simp at hfalse

end FileSystem

/-- The components of a path are those on either side of a slash. -/
theorem components_append (start : Name) (path rest : List UInt8) :
    components start (path ++ slash :: rest) = components start path ++ components [] rest := by
  induction path generalizing start with
  | nil => simp [components]
  | cons c path ih =>
      rw [List.cons_append, components, components]
      split
      · rw [ih, List.cons_append]
      · exact ih _

theorem zero_notMem_of_components {start : Name} {path : List UInt8} (hstart : (0 : UInt8) ∉ start)
    (hpath : (0 : UInt8) ∉ path) : ∀ name ∈ components start path, (0 : UInt8) ∉ name := by
  induction path generalizing start with
  | nil => simpa [components] using hstart
  | cons c rest ih =>
      rw [List.mem_cons, not_or] at hpath
      rw [components]
      split
      · exact List.forall_mem_cons.mpr ⟨hstart, ih List.not_mem_nil hpath.2⟩
      · refine ih (fun hmem => ?_) hpath.2
        rcases List.mem_append.mp hmem with hmem | hmem
        · exact hstart hmem
        · exact hpath.1 (List.mem_singleton.mp hmem)

theorem components_of_noSlash {path : List UInt8} (start : Name) (h : slash ∉ path) :
    components start path = [start ++ path] := by
  induction path generalizing start with
  | nil => simp [components]
  | cons c path ih =>
      rw [List.mem_cons, not_or] at h
      rw [components, if_neg (Ne.symm h.1), ih _ h.2, List.append_assoc]
      rfl

namespace FileSystem

theorem noSlash_of_lastSlash {path : List UInt8} (h : lastSlash path = none) : slash ∉ path := by
  intro hmem
  obtain ⟨i, hi, hget⟩ := List.getElem_of_mem hmem
  rw [lastSlash, List.find?_eq_none] at h
  refine h i (by simpa using hi) ?_
  rw [List.getD_eq_getElem _ _ hi, hget]
  rfl

/-- The name split off a path without empty components is its last one. -/
theorem splitText_mem_components {path : List UInt8}
    (hne : ∀ name ∈ components [] (path.takeWhile (· != 0)), name ≠ []) :
    (splitText path).1 ∈ components [] (path.takeWhile (· != 0)) := by
  unfold splitText
  dsimp only
  generalize path.takeWhile (· != 0) = text at hne ⊢
  have htrailing : lastSlash text ≠ some (text.length - 1) := by
    intro hlast
    obtain ⟨hlt, hsplit, -⟩ := lastSlash_eq_some hlast
    rw [show text.length - 1 + 1 = text.length by omega, List.drop_length] at hsplit
    rw [hsplit, components_append] at hne
    exact hne [] (by simp [components]) rfl
  rw [if_neg htrailing]
  split <;> rename_i hslash
  · rw [components_of_noSlash [] (noSlash_of_lastSlash hslash)]
    simp
  · obtain ⟨-, hsplit, hno⟩ := lastSlash_eq_some hslash
    have hcomponents := congrArg (components []) hsplit
    rw [components_append, components_of_noSlash [] hno] at hcomponents
    rw [hcomponents]
    simp

/-- Path walking is exact and stays in its buffers. -/
structure ScansExactly (heap : Heap) (path : List UInt8) : Prop where
  /-- `ChangeCurrentDir` calls `SetCurrentDir` once for each component that is not empty,
  in order. -/
  calls : ((scan (heap 8) [] 0 (path.takeWhile (· != 0))).filterMap ScanStep.called).map Prod.snd =
    (components [] (path.takeWhile (· != 0))).filter (· ≠ [])
  /-- It reads and writes only `dirName`. -/
  inside : ∀ step ∈ scan (heap 8) [] 0 (path.takeWhile (· != 0)), step.Inside
  /-- `SplitPathAndName` writes only `name` and `tmpPath`. -/
  split : splitPathAndName path ≠ .error .bounds

/-- **When path walking is exact.** Whatever the memory holds, the scan is as it should be
if and only if the path has fewer than 128 characters and its components are neither
empty nor longer than eight. -/
theorem scansExactly_iff (heap : Heap) (path : List UInt8) :
    ScansExactly heap path ↔ WellFormedPath (components [] (path.takeWhile (· != 0))) ∧
      (path.takeWhile (· != 0)).length < PathLenMax := by
  have hzero : (0 : UInt8) ∉ path.takeWhile (· != 0) := fun hmem => by
    simpa using List.mem_takeWhile_imp hmem
  have hinside : (∀ step ∈ scan (heap 8) [] 0 (path.takeWhile (· != 0)), step.Inside) ↔
      ∀ name ∈ components [] (path.takeWhile (· != 0)), name ≠ [] ∧ name.length < FileNameMaxLen :=
    scan_inside_iff List.not_mem_nil hzero
  constructor
  · intro h
    have hnames := hinside.mp h.inside
    have hrelative : (path.takeWhile (· != 0)).head? ≠ some slash := by
      intro hhead
      obtain ⟨rest, hrest⟩ := List.head?_eq_some_iff.mp hhead
      rw [hrest, components, if_pos rfl] at hnames
      exact (hnames [] List.mem_cons_self).1 rfl
    refine ⟨fun name hname => ⟨(hnames name hname).1, (hnames name hname).2,
      zero_notMem_of_components List.not_mem_nil hzero name hname⟩, ?_⟩
    rcases (splitPathAndName_inside_iff path).mp h.split with hhead | hlength
    · exact absurd hhead hrelative
    · exact hlength.1
  · rintro ⟨hwell, hlength⟩
    have hne (name : Name) (hname : name ∈ components [] (path.takeWhile (· != 0))) : name ≠ [] :=
      (hwell name hname).1
    refine ⟨?_, hinside.mpr fun name hname => ⟨(hwell name hname).1, (hwell name hname).2.1⟩, ?_⟩
    · rw [scan_called List.not_mem_nil hzero hne, List.filter_eq_self.mpr]
      intro name hname
      simpa using hne name hname
    · refine (splitPathAndName_inside_iff path).mpr (Or.inr ⟨hlength, ?_⟩)
      exact (hwell _ (splitText_mem_components hne)).2.1

/-- A name of nine characters, which a directory entry has room for, overruns `dirName` and
the buffer of `SplitPathAndName`. -/
theorem not_scansExactly_nine :
    ¬ ScansExactly (fun _ _ => 0) [97, 98, 99, 100, 101, 102, 103, 104, 105] := by
  intro h
  have hwrite := h.inside (.write 9) (by decide)
  exact absurd hwrite (by decide)

end FileSystem

end Nachos
