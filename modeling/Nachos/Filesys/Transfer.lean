/-
# Copying files to the disk and printing them

`Copy` and `Print` of `filesys/fstest.cc`, which the command line offers. Both go through the file in
pieces of `TransferSize` bytes. Here they are clients of the file system: what they do is derived from
what the tree promises, without another look at the disk.

`Print` opens its file as everybody does, so a file that is open already is read under the id it has,
from where that id stands, and is closed at the end.
-/

import Nachos.Filesys.Contract
import Nachos.Filesys.Sequential

namespace Nachos

open Base

/-- `TransferSize`. -/
def TransferSize : ℕ := 10

/-- The pieces in which `fread` delivers a file. -/
def transferChunks : List UInt8 → List (List UInt8)
  | [] => []
  | b :: rest =>
      (b :: rest.take (TransferSize - 1)) :: transferChunks (rest.drop (TransferSize - 1))
termination_by contents => contents.length
decreasing_by simp only [List.length_drop, List.length_cons]; omega

theorem flatten_transferChunks (contents : List UInt8) :
    (transferChunks contents).flatten = contents := by
  fun_induction transferChunks contents with
  | case1 => rfl
  | case2 b rest ih => rw [List.flatten_cons, ih, List.cons_append, List.take_append_drop]

theorem length_le_of_mem_transferChunks {contents chunk : List UInt8}
    (hchunk : chunk ∈ transferChunks contents) : chunk.length ≤ TransferSize := by
  fun_induction transferChunks contents with
  | case1 => cases hchunk
  | case2 b rest ih =>
      rcases List.mem_cons.mp hchunk with rfl | hchunk
      · simp only [List.length_cons, List.length_take, TransferSize]
        omega
      · exact ih hchunk

namespace FileSystem

/-- `Copy` of a file with the given contents to the path `target`. -/
def copy (fs : FileSystem) (heap : ℕ → Heap) (contents target : List UInt8) :
    Except Fault FileSystem := do
  let (created, fs) ← fs.createFile (heap 0) target contents.length
  if !created then return fs
  else do
    let (openFile, fs) ← fs.openFile (heap 1) target modeWrite
    assert (openFile ≠ -1)
    let (_, fs) ← writeAll (heap 2) openFile fs (transferChunks contents)
    let (_, fs) ← fs.close openFile
    return fs

/-- The loop of `Print`, for at most `fuel` reads: what is printed, if the loop ends. -/
def printLoop (openFile : ℤ) :
    ℕ → Mem → FileSystem → Except Fault (Option (List UInt8 × FileSystem))
  | 0, _, _ => .ok none
  | fuel + 1, buffer, fs => do
      let (amountRead, buffer, fs) ← fs.read openFile buffer TransferSize
      if amountRead > 0 then
        let rest ← printLoop openFile fuel buffer fs
        return rest.map fun (text, fs) => ((List.range amountRead.toNat).map buffer ++ text, fs)
      else return some ([], fs)

/-- `Print`: what is printed, and the file system afterwards. -/
def print (fs : FileSystem) (heap : Heap) (buffer : Mem) (name : List UInt8) (fuel : ℕ) :
    Except Fault (Option (List UInt8 × FileSystem)) := do
  let (openFile, fs) ← fs.openFile heap name modeRead
  if openFile = -1 then return some ([], fs)
  else
    match ← printLoop openFile fuel buffer fs with
    | none => return none
    | some (text, fs) => do
        let (_, fs) ← fs.close openFile
        return some (text, fs)

end FileSystem

/-! ## Bytes over bytes -/

@[simp]
theorem length_overwrite (old : List UInt8) (pos : ℕ) (bytes : List UInt8) :
    (overwrite old pos bytes).length = old.length := by
  simp only [overwrite, List.length_append, List.length_take, List.length_drop]
  omega

theorem getElem_overwrite {old : List UInt8} {pos : ℕ} (hpos : pos ≤ old.length)
    (bytes : List UInt8) {j : ℕ} (hj : j < (overwrite old pos bytes).length) :
    (overwrite old pos bytes)[j] =
      if j < pos then old.getD j 0
      else if j < pos + bytes.length then bytes.getD (j - pos) 0 else old.getD j 0 := by
  rw [length_overwrite] at hj
  simp only [overwrite, List.getElem_append, List.length_append, List.length_take,
    List.getElem_take, List.getElem_drop]
  split_ifs <;> first
    | omega
    | exact (List.getD_eq_getElem _ _ (by omega)).symm
    | (rw [List.getD_eq_getElem _ _ (by omega)]; congr 1; omega)

theorem overwrite_nil (old : List UInt8) (pos : ℕ) : overwrite old pos [] = old := by
  simp [overwrite]

/-- Two pieces, one behind the other. -/
theorem overwrite_append {old : List UInt8} {pos : ℕ} (hpos : pos ≤ old.length)
    (bytes more : List UInt8) :
    overwrite (overwrite old pos bytes) (pos + min bytes.length (old.length - pos)) more =
      overwrite old pos (bytes ++ more) := by
  refine List.ext_getElem (by simp only [length_overwrite]) fun j hj hj' => ?_
  rw [length_overwrite, length_overwrite] at hj
  rw [getElem_overwrite (by rw [length_overwrite]; omega), getElem_overwrite hpos,
    List.getD_eq_getElem _ _ (by rw [length_overwrite]; exact hj), getElem_overwrite hpos,
    List.length_append]
  -- The second piece is empty unless the first one ends inside the file.
  split_ifs <;> first
    | rfl
    | omega
    | (rw [List.getD_append _ _ _ _ (by omega)])
    | (rw [List.getD_append_right _ _ _ _ (by omega)]; congr 1; omega)

/-- A whole file. -/
theorem overwrite_all {old bytes : List UInt8} (hlength : old.length = bytes.length) :
    overwrite old 0 bytes = bytes := by
  simp [overwrite, hlength]

namespace FileTree

variable {s : FileTree} {P : List Name} {bytes : List UInt8} {k : ℕ} {o : OpenedFile}

theorem contents_of_node (hnode : s.node P = some (.file bytes)) : s.contents P = bytes := by
  rw [contents, hnode]

theorem get_of_lt (hk : k < NbFileTableEntries) : s.get k = s.opened k := by
  rw [get, if_neg (by omega), Int.toNat_natCast]

theorem setOpened_self (ho : s.opened k = some o) : s.setOpened k (some o) = s := by
  rw [setOpened, ← ho, Function.update_eq_self]

/-- Where a path leads is a matter of the directories. -/
theorem locate_congr {s' : FileTree} (hhere : s'.here = s.here)
    (hdirs : ∀ P, s'.node P = some .dir ↔ s.node P = some .dir) (path : List UInt8) :
    s'.locate path = s.locate path := by
  have hgoes : s'.goesTo = s.goesTo := by
    funext tmpPath
    rw [goesTo, goesTo, hhere, NameTree.walk_congr hdirs]
  rw [locate, locate, hhere, hgoes]

/-- A new file is not a directory. -/
theorem node_eq_dir_iff (hnew : s.node P = none) (Q : List Name) :
    (s.setNode P (some (.file bytes))).node Q = some .dir ↔ s.node Q = some .dir := by
  by_cases hQ : Q = P
  · rw [hQ, node_setNode_self, hnew]
    simp
  · rw [node_setNode_of_ne s hQ]

/-- A file that no id stands for gets one, as long as there is one left. -/
theorem openFile_fresh (hnode : s.node P = some (.file bytes))
    (hclosed : ∀ k < NbFileTableEntries, ∀ o, s.opened k = some o → o.path ≠ P)
    (hfree : ∃ k < NbFileTableEntries, s.opened k = none) (mode : UInt8) :
    ∃ k < NbFileTableEntries, s.opened k = none ∧
      s.openFile P mode = ((k : ℤ), s.setOpened k (some ⟨P, mode, 0⟩)) := by
  have hfind : ((List.range NbFileTableEntries).find? fun k => (s.opened k).any (·.path = P)) =
      none := by
    refine List.find?_eq_none.mpr fun k hk hany => ?_
    obtain ⟨o, ho, hpath⟩ := (Option.any_eq_true _ _).mp hany
    exact hclosed k (List.mem_range.mp hk) o ho (of_decide_eq_true hpath)
  cases hfirst : (List.range NbFileTableEntries).find? fun k => (s.opened k).isNone with
  | none =>
      obtain ⟨k, hk, hnone⟩ := hfree
      refine absurd ?_ (List.find?_eq_none.mp hfirst k (List.mem_range.mpr hk))
      rw [hnone]
      rfl
  | some k =>
      obtain ⟨hnone, hk, -⟩ := List.find?_range_eq_some.mp hfirst
      refine ⟨k, List.mem_range.mp hk, Option.isNone_iff_eq_none.mp hnone, ?_⟩
      simp only [openFile, hnode, hfind, hfirst]

/-- What `Print` shows of the file at `P`. -/
def printed (s : FileTree) (P : List Name) : List UInt8 :=
  match (s.openFile P modeRead).2.get (s.openFile P modeRead).1 with
  | some o => if o.mode = modeRead then (s.contents P).drop o.pos else []
  | none => []

/-- The tree after `Print` of the file at `P`. -/
def afterPrint (s : FileTree) (P : List Name) : FileTree :=
  if (s.openFile P modeRead).1 = -1 then s
  else (s.openFile P modeRead).2.setOpened (s.openFile P modeRead).1.toNat none

/-- A file that no id stands for is shown whole, and the tree is as before. -/
theorem printed_fresh (hnode : s.node P = some (.file bytes))
    (hclosed : ∀ k < NbFileTableEntries, ∀ o, s.opened k = some o → o.path ≠ P)
    (hfree : ∃ k < NbFileTableEntries, s.opened k = none) :
    s.printed P = bytes ∧ s.afterPrint P = s := by
  obtain ⟨k, hk, hnone, hopen⟩ := openFile_fresh hnode hclosed hfree modeRead
  have hneg : ¬ ((k : ℤ) = -1) := by omega
  constructor
  · rw [printed, hopen]
    dsimp only
    rw [get_of_lt hk, opened_setOpened_self]
    simp only [if_true, contents_of_node hnode, List.drop_zero]
  · rw [afterPrint, hopen]
    dsimp only
    rw [if_neg hneg, Int.toNat_natCast, setOpened, setOpened, ← hnone]
    simp only [Function.update_idem, Function.update_eq_self]

/-- An id that the opening of `P` gives stands for `P`. -/
theorem openFile_cases (s : FileTree) (P : List Name) (mode : UInt8) :
    s.openFile P mode = (-1, s) ∨ ∃ k < NbFileTableEntries, ∃ o,
      (s.openFile P mode).1 = k ∧ (s.openFile P mode).2.opened k = some o ∧ o.path = P ∧
        (s.openFile P mode).2.node = s.node ∧ ∃ bytes, s.node P = some (.file bytes) := by
  rw [openFile]
  split
  swap
  · exact Or.inl rfl
  rename_i bytes hnode
  split
  · rename_i k hfind
    obtain ⟨hopen, hk, -⟩ := List.find?_range_eq_some.mp hfind
    obtain ⟨o, ho, hpath⟩ := (Option.any_eq_true _ _).mp hopen
    exact Or.inr ⟨k, List.mem_range.mp hk, o, rfl, ho, of_decide_eq_true hpath, rfl, bytes, hnode⟩
  split
  · rename_i k hfree
    obtain ⟨-, hk, -⟩ := List.find?_range_eq_some.mp hfree
    exact Or.inr ⟨k, List.mem_range.mp hk, ⟨P, mode, 0⟩, rfl, s.opened_setOpened_self _ _, rfl,
      rfl, bytes, hnode⟩
  · exact Or.inl rfl

end FileTree

namespace FileSystem.Represents

variable {fs : FileSystem} {s : FileTree} {L : Layout} {c k : ℕ} {o : OpenedFile}
  {bytes path : List UInt8} {D : List Name} {name : Name}

/-- No file is longer than a header can say. -/
theorem length_le (h : fs.Represents s L c) {P : List Name}
    (hnode : s.node P = some (.file bytes)) : bytes.length ≤ 3840 := by
  have hconsistent := h.valid.consistent
  rw [h.node] at hnode
  obtain ⟨t, hP, -⟩ := Links.tree_eq_file.mp hnode
  have hlength := h.length_contents hP
  rw [FileTree.contents_of_node (h.node ▸ hnode)] at hlength
  have hheader := (hconsistent.fileHeader t (hconsistent.mem_files_of_lookup hP)).1
  have hlisted : (fs.disk.header t).listed ≤ 30 := Nat.min_le_right _ _
  rw [hlength, lengthOf]
  omega

/-- A small transfer stays in the range of `int`. -/
theorem fitsInt_of_small (h : fs.Represents s L c) {i : ℤ} (mode : UInt8) {n : ℕ}
    (hn : n ≤ TransferSize) : s.FitsInt i mode n := by
  rw [TransferSize] at hn
  refine ⟨by omega, fun o _ _ hpos => ?_⟩
  cases hnode : s.node o.path with
  | none =>
      rw [FileTree.contents, hnode] at hpos
      simp at hpos
  | some node =>
      cases node with
      | dir =>
          rw [FileTree.contents, hnode] at hpos
          simp at hpos
      | file bytes =>
          rw [FileTree.contents_of_node hnode] at hpos
          have hlength := h.length_le hnode
          omega

/-- The position of an open file is inside it. -/
theorem pos_le (h : fs.Represents s L c) (hk : k < NbFileTableEntries) (ho : s.opened k = some o)
    (hnode : s.node o.path = some (.file bytes)) : o.pos ≤ bytes.length := by
  obtain ⟨t, hstands⟩ := h.opened k hk o ho
  have hlength := h.length_contents hstands.path
  rw [FileTree.contents_of_node hnode] at hlength
  rw [hlength]
  exact hstands.openAt.within

/-- **The writes of a list of pieces** put them into the file one behind the other. -/
theorem writeAll (heap : Heap) (chunks : List (List UInt8))
    (hsmall : ∀ chunk ∈ chunks, chunk.length ≤ TransferSize) (h : fs.Represents s L c)
    (hk : k < NbFileTableEntries) (ho : s.opened k = some o) (hmode : o.mode = modeWrite)
    (hnode : s.node o.path = some (.file bytes)) :
    ∃ stored fs' pos L' c', FileSystem.writeAll heap k fs chunks = .ok (stored, fs') ∧
      fs'.Represents ((s.setNode o.path (some (.file (overwrite bytes o.pos chunks.flatten)))).setOpened
        k (some { o with pos := pos })) L' c' := by
  induction chunks generalizing fs s L c o bytes with
  | nil =>
      refine ⟨[], fs, o.pos, L, c, rfl, ?_⟩
      have hsame : (s.setNode o.path (some (.file (overwrite bytes o.pos [])))).setOpened k
          (some { o with pos := o.pos }) = s := by
        rw [overwrite_nil, ← hnode, FileTree.setNode, Function.update_eq_self]
        exact FileTree.setOpened_self ho
      rw [List.flatten_nil, hsame]
      exact h
  | cons chunk rest ih =>
      obtain ⟨count, fs₁, s₁, L₁, c₁, hwrite, hspec, hrep⟩ := h.write_eq k chunk
        (h.fitsInt_of_small modeWrite (hsmall chunk List.mem_cons_self)) (heap rest.length)
      simp only [FileTree.write, FileTree.get_of_lt hk, ho, if_neg (not_not.mpr hmode),
        FileTree.contents_of_node hnode, Prod.mk.injEq] at hspec
      obtain ⟨-, rfl⟩ := hspec
      rw [Int.toNat_natCast] at hrep
      obtain ⟨stored, fs', pos, L', c', hall, hrep'⟩ := ih
        (fun chunk hchunk => hsmall chunk (List.mem_cons_of_mem _ hchunk)) hrep
        (FileTree.opened_setOpened_self _ _ _) hmode (Function.update_self ..)
      refine ⟨count :: stored, fs', pos, L', c', ?_, ?_⟩
      · rw [FileSystem.writeAll, hwrite, Except.ok_bind]
        dsimp only
        rw [hall]
        rfl
      · rw [overwrite_append (h.pos_le hk ho hnode)] at hrep'
        simpa only [FileTree.setNode, FileTree.setOpened, Function.update_idem,
          List.flatten_cons] using hrep'

/-- **The loop of `Print`** shows what is left of the file, and ends. -/
theorem printLoop (n : ℕ) (buffer : Mem) (h : fs.Represents s L c) (hk : k < NbFileTableEntries)
    (ho : s.opened k = some o) (hmode : o.mode = modeRead)
    (hnode : s.node o.path = some (.file bytes)) (hn : bytes.length - o.pos ≤ n) :
    ∃ fs' pos L' c', (∀ fuel, n < fuel →
        FileSystem.printLoop k fuel buffer fs = .ok (some (bytes.drop o.pos, fs'))) ∧
      fs'.Represents (s.setOpened k (some { o with pos := pos })) L' c' := by
  induction n using Nat.strong_induction_on generalizing fs s L c o buffer with
  | _ n ih =>
      obtain ⟨count, buffer', fs₁, s₁, L₁, c₁, hread, hspec, hrep⟩ :=
        h.read_eq (i := k) (h.fitsInt_of_small modeRead le_rfl) buffer
      simp only [FileTree.read, FileTree.get_of_lt hk, ho, if_neg (not_not.mpr hmode),
        FileTree.contents_of_node hnode, Prod.mk.injEq, Answer.bytes.injEq] at hspec
      obtain ⟨⟨rfl, hgot⟩, rfl⟩ := hspec
      rw [Int.toNat_natCast] at hrep hgot
      set got := (bytes.drop o.pos).take TransferSize with hdef
      have hlength : got.length = min TransferSize (bytes.length - o.pos) := by
        rw [hdef, List.length_take, List.length_drop]
      by_cases hempty : bytes.length - o.pos = 0
      · -- Nothing is left.
        refine ⟨fs₁, _, L₁, c₁, fun fuel hfuel => ?_, hrep⟩
        obtain ⟨fuel, rfl⟩ : ∃ m, fuel = m + 1 := ⟨fuel - 1, by omega⟩
        rw [FileSystem.printLoop, hread, Except.ok_bind]
        have hzero : ¬ (0 : ℤ) < (got.length : ℤ) := by rw [hlength, hempty]; simp
        simp only [gt_iff_lt, hzero, if_false]
        rw [List.drop_eq_nil_of_le (by omega)]
        rfl
      · have hpos : 0 < got.length := by
          rw [hlength, TransferSize]
          omega
        obtain ⟨fs', pos, L', c', hloop, hrep'⟩ := ih (n - got.length) (by omega) buffer' hrep
          (FileTree.opened_setOpened_self _ _ _) hmode hnode (by dsimp only; omega)
        refine ⟨fs', pos, L', c', fun fuel hfuel => ?_, ?_⟩
        · obtain ⟨fuel, rfl⟩ : ∃ m, fuel = m + 1 := ⟨fuel - 1, by omega⟩
          rw [FileSystem.printLoop, hread, Except.ok_bind]
          have hcount : (0 : ℤ) < (got.length : ℤ) := by exact_mod_cast hpos
          simp only [gt_iff_lt, hcount, if_true, hloop fuel (by omega), Except.ok_bind,
            Option.map_some, Int.toNat_natCast, ← hgot]
          rw [← List.drop_drop, ← List.prefix_append_drop (List.take_prefix _ _)]
          rfl
        · simpa only [FileTree.setOpened, Function.update_idem] using hrep'

/-- **`Print`** shows what is left of the file under its id, and closes the id. -/
theorem print_eq (h : fs.Represents s L c) (hlocate : s.locate path = some (D, name))
    (hplace : s.FilePlace D name) (heap : Heap) (buffer : Mem) :
    ∃ fs' L' c', (∀ fuel, (s.contents (D ++ [name])).length < fuel →
        fs.print heap buffer path fuel = .ok (some (s.printed (D ++ [name]), fs'))) ∧
      fs'.Represents (s.afterPrint (D ++ [name])) L' c' := by
  obtain ⟨fs₁, L₁, c₁, hopen, hrep⟩ := h.openFile_eq hlocate hplace modeRead heap
  obtain hnone | ⟨k, hk, o, hi, ho, hpath, hsame, bytes, hnode⟩ :=
    s.openFile_cases (D ++ [name]) modeRead
  · -- There is no such file, or no id for it.
    rw [hnone] at hopen hrep
    refine ⟨fs₁, L₁, c₁, fun fuel _ => ?_, ?_⟩
    · have hget : s.get (-1) = none := if_pos (Or.inr (by omega))
      rw [print, hopen, Except.ok_bind, FileTree.printed, hnone]
      simp only [hget, if_true]
      rfl
    · rw [FileTree.afterPrint, hnone, if_pos rfl]
      exact hrep
  have hcontents : s.contents (D ++ [name]) = bytes := FileTree.contents_of_node hnode
  have hneg : ¬ ((k : ℤ) = -1) := by omega
  have hafter : s.afterPrint (D ++ [name]) =
      (s.openFile (D ++ [name]) modeRead).2.setOpened k none := by
    rw [FileTree.afterPrint, hi, if_neg hneg, Int.toNat_natCast]
  rw [hi] at hopen
  set s₁ := (s.openFile (D ++ [name]) modeRead).2 with hs₁
  -- Whatever the loop leaves under the id, closing it leaves nothing there.
  have hclose {fs₂ : FileSystem} {o' : OpenedFile} {L₂ : Layout} {c₂ : ℕ}
      (hrep₂ : fs₂.Represents (s₁.setOpened k (some o')) L₂ c₂) :
      ∃ fs' L' c', fs₂.close k = .ok (0, fs') ∧ fs'.Represents (s₁.setOpened k none) L' c' := by
    obtain ⟨fs', L', c', hok, hrep'⟩ := hrep₂.close_eq hk
    simp only [FileTree.close, FileTree.opened_setOpened_self] at hok hrep'
    refine ⟨fs', L', c', hok, ?_⟩
    simpa only [FileTree.setOpened, Function.update_idem] using hrep'
  rw [hafter, hcontents]
  by_cases hmode : o.mode = modeRead
  · obtain ⟨fs₂, pos, L₂, c₂, hloop, hrep₂⟩ := hrep.printLoop bytes.length buffer hk ho hmode
      (by rw [hsame, hpath]; exact hnode) (Nat.sub_le _ _)
    obtain ⟨fs', L', c', hok, hrep'⟩ := hclose hrep₂
    refine ⟨fs', L', c', fun fuel hfuel => ?_, hrep'⟩
    rw [print, hopen, Except.ok_bind]
    simp only [hneg, if_false, hloop fuel hfuel, Except.ok_bind, hok]
    rw [FileTree.printed, ← hs₁, hi, FileTree.get_of_lt hk, ho]
    simp only [hmode, if_true, hcontents]
    rfl
  · -- Reading is refused, and the loop ends at once.
    obtain ⟨count, buffer', fs₂, s₂, L₂, c₂, hread, hspec, hrep₂⟩ :=
      hrep.read_eq (i := k) (hrep.fitsInt_of_small modeRead le_rfl) buffer
    simp only [FileTree.read, FileTree.get_of_lt hk, ho, if_pos hmode, Prod.mk.injEq,
      Answer.bytes.injEq] at hspec
    obtain ⟨⟨rfl, -⟩, rfl⟩ := hspec
    rw [← FileTree.setOpened_self ho] at hrep₂
    obtain ⟨fs', L', c', hok, hrep'⟩ := hclose hrep₂
    refine ⟨fs', L', c', fun fuel hfuel => ?_, hrep'⟩
    obtain ⟨fuel, rfl⟩ : ∃ m, fuel = m + 1 := ⟨fuel - 1, by omega⟩
    rw [print, hopen, Except.ok_bind]
    simp only [hneg, if_false, FileSystem.printLoop, hread, Except.ok_bind]
    rw [if_neg (by omega), FileTree.printed, ← hs₁, hi, FileTree.get_of_lt hk, ho]
    simp only [hmode, if_false]
    change (do let r ← fs₂.close k; _) = _
    rw [hok]
    rfl

/-- No id stands for a path without a file. -/
theorem path_ne_of_absent (h : fs.Represents s L c) {P : List Name} (hnew : s.node P = none) :
    ∀ k < NbFileTableEntries, ∀ o, s.opened k = some o → o.path ≠ P := by
  intro k hk o ho hpath
  obtain ⟨t, hstands⟩ := h.opened k hk o ho
  have hfile : s.node o.path = some (.file (fs.disk.contents t)) := by
    rw [h.node]
    exact Links.tree_eq_file.mpr ⟨t, hstands.path, rfl⟩
  rw [hpath, hnew] at hfile
  cases hfile

/-- **`Copy`** enters the file if `CreateFile` does. -/
theorem copy_eq (h : fs.Represents s L c) (hlocate : s.locate path = some (D, name))
    {contents : List UInt8} (hallows : s.Allows (.createFile path contents.length))
    (hfree : ∃ k < NbFileTableEntries, s.opened k = none) (heap : ℕ → Heap) :
    ∃ created fs₀ fs' L' c', fs.createFile (heap 0) path contents.length = .ok (created, fs₀) ∧
      fs.copy heap contents path = .ok fs' ∧
      if created then OrdinaryName name ∧ s.node (D ++ [name]) = none ∧
        fs'.Represents (s.setNode (D ++ [name]) (some (.file contents))) L' c'
      else fs'.Represents s L' c' := by
  obtain ⟨created, fs₀, s₀, L₀, c₀, hcreate, hspec, hrep⟩ := h.createFile_eq hallows (heap 0)
  obtain ⟨D', name', hlocate', hcases⟩ := hspec
  obtain ⟨rfl, rfl⟩ := Prod.mk.inj (Option.some.inj (hlocate.symm.trans hlocate'))
  obtain ⟨hanswer, rfl⟩ | ⟨hanswer, hname, hnew, node, ⟨blank, rfl, hlength⟩, rfl⟩ := hcases
  · obtain rfl := Answer.flag.inj hanswer
    refine ⟨false, fs₀, fs₀, L₀, c₀, hcreate, ?_, hrep⟩
    rw [copy, hcreate]
    rfl
  obtain rfl := Answer.flag.inj hanswer
  set P := D ++ [name] with hP
  -- The new file is opened.
  have hnode : (s.setNode P (some (.file blank))).node P = some (.file blank) :=
    Function.update_self ..
  have hsame : (s.setNode P (some (.file blank))).locate path = s.locate path :=
    FileTree.locate_congr (show (s.setNode P _).here = s.here from rfl)
      (FileTree.node_eq_dir_iff hnew) path
  obtain ⟨fs₁, L₁, c₁, hopen, hrep₁⟩ := hrep.openFile_eq (hsame.trans hlocate)
    ⟨hname.ne_dot, hname.ne_dotDot, by rw [hnode]; simp⟩ modeWrite (heap 1)
  obtain ⟨k, hk, hnone, hfresh⟩ := FileTree.openFile_fresh hnode
    (h.path_ne_of_absent hnew) hfree modeWrite
  rw [hfresh] at hopen hrep₁
  -- Its bytes are written, and it is closed.
  obtain ⟨stored, fs₂, pos, L₂, c₂, hwrite, hrep₂⟩ := hrep₁.writeAll (heap 2)
    (transferChunks contents) (fun chunk => length_le_of_mem_transferChunks) hk
    (FileTree.opened_setOpened_self _ _ _) rfl hnode
  rw [flatten_transferChunks, overwrite_all (by omega)] at hrep₂
  obtain ⟨fs', L', c', hclose, hrep'⟩ := hrep₂.close_eq hk
  refine ⟨true, fs₀, fs', L', c', hcreate, ?_, ?_⟩
  · have hneg : (k : ℤ) ≠ -1 := by omega
    rw [copy, hcreate, Except.ok_bind]
    simp only [Bool.not_true, Bool.false_eq_true, if_false]
    rw [hopen, Except.ok_bind]
    simp only [assert_of hneg, Except.ok_bind, hwrite, hclose]
    rfl
  · rw [if_pos rfl]
    refine ⟨hname, hnew, ?_⟩
    simp only [FileTree.close, FileTree.opened_setOpened_self] at hrep'
    have hclosed : s.opened k = none := hnone
    have hopened : Function.update s.opened k none = s.opened := by
      rw [← hclosed, Function.update_eq_self]
    simpa only [FileTree.setNode, FileTree.setOpened, Function.update_idem, hopened] using hrep'

end FileSystem.Represents

namespace FileSystem

/-- **`Copy` and then `Print`** of the same path shows the bytes that were copied. The tree has the new
file, and nothing else in it has changed. -/
theorem print_copy {fs fs₀ : FileSystem} {s : FileTree} {L : Layout} {c : ℕ}
    {path contents : List UInt8} {D : List Name} {name : Name}
    (h : fs.Represents s L c) (heap : ℕ → Heap) (hlocate : s.locate path = some (D, name))
    (hallows : s.Allows (.createFile path contents.length))
    (hfree : ∃ k < NbFileTableEntries, s.opened k = none)
    (hcreate : fs.createFile (heap 0) path contents.length = .ok (true, fs₀)) (heap' : Heap)
    (buffer : Mem) : ∃ fs₁ fs₂, fs.copy heap contents path = .ok fs₁ ∧
      (∀ fuel, contents.length < fuel →
        fs₁.print heap' buffer path fuel = .ok (some (contents, fs₂))) ∧
      ∃ L' c', fs₂.Represents (s.setNode (D ++ [name]) (some (.file contents))) L' c' := by
  obtain ⟨created, fs₀', fs₁, L₁, c₁, hcreate', hcopy, hcases⟩ :=
    h.copy_eq hlocate hallows hfree heap
  obtain ⟨rfl, rfl⟩ := Prod.mk.inj (Except.ok.inj (hcreate.symm.trans hcreate'))
  rw [if_pos rfl] at hcases
  obtain ⟨hname, hnew, hrep⟩ := hcases
  set s₁ := s.setNode (D ++ [name]) (some (.file contents)) with hs₁
  have hnode : s₁.node (D ++ [name]) = some (.file contents) := s.node_setNode_self ..
  have hsame : s₁.locate path = s.locate path :=
    FileTree.locate_congr (show s₁.here = s.here from rfl) (FileTree.node_eq_dir_iff hnew) path
  obtain ⟨fs₂, L₂, c₂, hprint, hrep₂⟩ := hrep.print_eq (hsame.trans hlocate)
    ⟨hname.ne_dot, hname.ne_dotDot, by rw [hnode]; simp⟩ heap' buffer
  obtain ⟨hprinted, hafter⟩ := FileTree.printed_fresh hnode (h.path_ne_of_absent hnew) hfree
  rw [hprinted, FileTree.contents_of_node hnode] at hprint
  rw [hafter] at hrep₂
  exact ⟨fs₁, fs₂, hcopy, hprint, L₂, c₂, hrep₂⟩

/-- Two bytes are copied to a fresh disk. -/
theorem print_copy_two_bytes : ∃ fs fs₁ fs₂,
    format (fun _ _ => 0) (fun _ _ => 0) (fun _ => none) = .ok fs ∧
      fs.copy (fun _ _ _ => 0) [1, 2] [97] = .ok fs₁ ∧
      fs₁.print (fun _ _ => 0) (fun _ => 0) [97] 3 = .ok (some ([1, 2], fs₂)) := by
  obtain ⟨fs, disk', i, hformat, hcreate, -, -, -, -, -, htable, hfiles⟩ := exists_file_of_two
  obtain ⟨fs', hformat', hformatted, hvalid, -⟩ :=
    format_eq_ok (fun _ _ => 0) (fun _ _ => 0) (fun _ => none)
  obtain rfl := Except.ok.inj (hformat.symm.trans hformat')
  have hlength : ((([1, 2] : List UInt8).length : ℕ) : ℤ) = 2 := rfl
  rw [← hlength] at hcreate
  have hlocate : FileTree.initial.locate [97] = some ([], [97]) := by decide
  have hallows : FileTree.initial.Allows (.createFile [97] ([1, 2] : List UInt8).length) :=
    ⟨by decide, by norm_num, by decide⟩
  obtain ⟨fs₁, fs₂, hcopy, hprint, -⟩ := print_copy
    (Represents.of_formatted hvalid hformatted (fun k _ => htable k) hfiles) (fun _ _ _ => 0) hlocate
    hallows ⟨0, by decide, rfl⟩ hcreate (fun _ _ => 0) fun _ => 0
  exact ⟨fs, fs₁, fs₂, hformat, hcopy, hprint 3 (by decide)⟩

end FileSystem

end Nachos
