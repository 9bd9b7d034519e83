/-
# The counter of the table of open files

`OpenFileTable` counts its entries in `nbFiles`, looks for a free one by scanning for
`NULL`, and looks for a file by scanning for its header sector. `Add` trusts the counter
when it asserts that its scan finds something. The counter, the entries and the
sectors are in step in every run of `Open` and `Close`.

Each function holds the lock of the table, so a run of several threads is a sequence of
calls, each with a disk and a current directory of its own.
-/

import Nachos.Filesys.OpenIds

namespace Nachos

open Base

namespace OpenFileTable

/-- The indices of the entries that are not `NULL`. -/
def used (t : OpenFileTable) : Finset ℕ :=
  (Finset.range NbFileTableEntries).filter fun k => (t.table k).isSome

/-- The counter is right, it is within the table, and no file is there twice. -/
structure Consistent (t : OpenFileTable) : Prop where
  count : t.nbFiles = t.used.card
  bound : t.nbFiles ≤ NbFileTableEntries
  distinct : ∀ j < NbFileTableEntries, ∀ k < NbFileTableEntries, ∀ e e',
    t.table j = some e → t.table k = some e' → e.sector = e'.sector → j = k

variable {t t' : OpenFileTable} {k : ℕ}

theorem mem_used : k ∈ t.used ↔ k < NbFileTableEntries ∧ (t.table k).isSome := by
  simp [used]

theorem card_used_le (t : OpenFileTable) : t.used.card ≤ NbFileTableEntries := by
  have hle := Finset.card_filter_le (Finset.range NbFileTableEntries)
    fun k => (t.table k).isSome
  rwa [Finset.card_range] at hle

/-- An entry more. -/
theorem used_set_some (hk : k < NbFileTableEntries) (e : OpenFileEntry) (nbFiles : ℤ) :
    used ⟨t.set k (some e), nbFiles⟩ = insert k t.used := by
  ext j
  simp only [mem_used, Finset.mem_insert, set]
  by_cases hj : j = k
  · simp [hj, hk]
  · simp [hj]

/-- An entry less. -/
theorem used_set_none (k : ℕ) (nbFiles : ℤ) :
    used ⟨t.set k none, nbFiles⟩ = t.used.erase k := by
  ext j
  simp only [mem_used, Finset.mem_erase, set]
  by_cases hj : j = k
  · simp [hj]
  · simp [hj]

namespace Consistent

/-- A table without entries. -/
theorem of_null (hnull : ∀ k < NbFileTableEntries, t.table k = none) (hcount : t.nbFiles = 0) :
    t.Consistent := by
  have hused : t.used = ∅ := by
    ext k
    rw [mem_used]
    simp +contextual [hnull]
  refine ⟨by rw [hcount, hused]; rfl, by rw [hcount]; exact Int.natCast_nonneg _,
    fun j hj _ _ e _ he => ?_⟩
  rw [hnull j hj] at he
  cases he

/-- **The assertion of `Add`.** While the counter says that there is room, the scan
finds it. -/
theorem exists_add (ht : t.Consistent) (e : OpenFileEntry) : ∃ r, t.add e = .ok r := by
  rw [add]
  split
  · exact ⟨_, rfl⟩
  rename_i hroom
  split
  · exact ⟨_, rfl⟩
  rename_i hscan
  -- Every entry would be in use.
  have hall : t.used = Finset.range NbFileTableEntries := by
    ext k
    rw [mem_used, Finset.mem_range, and_iff_left_iff_imp]
    intro hk
    have hnot := List.find?_eq_none.mp hscan k (List.mem_range.mpr hk)
    simpa [Option.isSome_iff_ne_none] using hnot
  have hcount := ht.count
  rw [hall, Finset.card_range] at hcount
  omega

/-- A file that is not there yet gets an entry. -/
theorem add_free (ht : t.Consistent) {e : OpenFileEntry} (hk : k < NbFileTableEntries)
    (hnone : t.table k = none) (hfind : t.find e.sector = none) :
    Consistent ⟨t.set k (some e), t.nbFiles + 1⟩ := by
  have hnew : k ∉ t.used := by
    rw [mem_used, hnone]
    simp
  have hcount : t.nbFiles + 1 = (used ⟨t.set k (some e), t.nbFiles + 1⟩).card := by
    rw [used_set_some hk, Finset.card_insert_of_notMem hnew, Nat.cast_succ, ht.count]
  have hother := find_eq_none.mp hfind
  refine ⟨hcount, ?_, fun i hi j hj e₁ e₂ h₁ h₂ hsector => ?_⟩
  · exact hcount.le.trans (by exact_mod_cast card_used_le _)
  · simp only [set] at h₁ h₂
    split at h₁ <;> split at h₂
    · omega
    · cases h₁
      exact absurd hsector.symm (hother j hj e₂ h₂)
    · cases h₂
      exact absurd hsector (hother i hi e₁ h₁)
    · exact ht.distinct i hi j hj e₁ e₂ h₁ h₂ hsector

/-- Closing a file that is open. -/
theorem set_none (ht : t.Consistent) (hk : k < NbFileTableEntries) (hsome : (t.table k).isSome) :
    Consistent ⟨t.set k none, t.nbFiles - 1⟩ := by
  have hcard := Finset.card_erase_add_one (mem_used.mpr ⟨hk, hsome⟩)
  have hcount := ht.count
  refine ⟨?_, ?_, fun i hi j hj e₁ e₂ h₁ h₂ hsector => ?_⟩
  · rw [used_set_none]
    dsimp only
    omega
  · have hbound := ht.bound
    dsimp only
    omega
  · simp only [set] at h₁ h₂
    split at h₁
    · cases h₁
    split at h₂
    · cases h₂
    exact ht.distinct i hi j hj e₁ e₂ h₁ h₂ hsector

end Consistent

end OpenFileTable

/-- The calls that change which files are open. -/
inductive OpenCall
  | openFile (heap : Heap) (disk : Disk) (currentDirectory : OpenFile) (name : Name) (mode : UInt8)
  | close (i : ℤ)

namespace OpenCall

/-- What the call does to the table, and what it returns. -/
def run (t : OpenFileTable) : OpenCall → Except Fault (ℤ × OpenFileTable)
  | openFile heap disk currentDirectory name mode =>
      t.openFile heap disk currentDirectory name mode
  | close i => t.close i

/-- A call that returns, with its result. `Close` is called with the index of an entry. -/
def Step (t : OpenFileTable) (call : OpenCall × ℤ) (t' : OpenFileTable) : Prop :=
  (∀ i, call.1 = close i → 0 ≤ i ∧ i < NbFileTableEntries) ∧ call.1.run t = .ok (call.2, t')

variable {t t' : OpenFileTable}

/-- **One call** keeps the table consistent. -/
theorem consistent_step (ht : t.Consistent) {call : OpenCall × ℤ} (hstep : Step t call t') :
    t'.Consistent := by
  obtain ⟨call, result⟩ := call
  obtain ⟨-, hrun⟩ := hstep
  cases call with
  | openFile heap disk currentDirectory name mode =>
      obtain ⟨directory, -, ⟨-, -, rfl⟩ | ⟨file, -, ⟨k, -, -, rfl⟩ | ⟨hfind, hadd⟩⟩⟩ :=
        OpenFileTable.openFile_eq_ok hrun
      · exact ht
      · exact ht
      obtain ⟨-, rfl⟩ | ⟨k, -, hk, hnone, rfl⟩ := OpenFileTable.add_cases hadd
      · exact ht
      · exact ht.add_free hk hnone hfind
  | close i =>
      obtain ⟨k, -, hk, ⟨-, -, rfl⟩ | ⟨hsome, -, rfl⟩⟩ := OpenFileTable.close_cases hrun
      · exact ht
      · exact ht.set_none hk hsome

/-- A call that fails leaves the table alone. -/
theorem eq_of_failed {call : OpenCall} (hrun : call.run t = .ok (-1, t')) : t' = t := by
  cases call with
  | openFile heap disk currentDirectory name mode =>
      obtain ⟨directory, -, ⟨-, -, hequal⟩ | ⟨file, -, ⟨k, -, -, hequal⟩ | ⟨-, hadd⟩⟩⟩ :=
        OpenFileTable.openFile_eq_ok hrun
      · exact hequal
      · exact hequal
      obtain ⟨-, hequal⟩ | ⟨k, hminus, -⟩ := OpenFileTable.add_cases hadd
      · exact hequal
      · omega
  | close i =>
      obtain ⟨k, -, -, ⟨-, -, hequal⟩ | ⟨-, hzero, -⟩⟩ := OpenFileTable.close_cases hrun
      · exact hequal
      · omega

/-- `Close` of an index of the table returns `0` or `-1`. -/
theorem close_of_lt (t : OpenFileTable) {k : ℕ} (hk : k < NbFileTableEntries) :
    ∃ result t', t.close k = .ok (result, t') ∧
      (result = 0 ↔ (t.table k).isSome) ∧ (result = -1 ↔ t.table k = none) := by
  have hrange : inBounds ((k : ℤ) ≥ 0 ∧ (k : ℤ) < NbFileTableEntries) = .ok () :=
    inBounds_eq_ok.mpr (by omega)
  rw [OpenFileTable.close, hrange, Except.ok_bind, Int.toNat_natCast]
  split
  · rename_i hnone
    refine ⟨-1, t, rfl, ?_, ?_⟩
    · simp_all
    · simpa using hnone
  · rename_i hsome
    have hused : (t.table k).isSome := by simpa [Option.isSome_iff_ne_none] using hsome
    refine ⟨0, _, by rw [OpenFileTable.remove, if_pos hused]; rfl, ?_, ?_⟩
    · simpa using hused
    · simpa using hsome

/-- **The table of open files is consistent in every run** from an empty table: before
and after each call the counter is the number of entries in use and no file has two of
them, `Add` does not get to its assertion, a call that fails changes nothing, and `Close`
succeeds exactly on an entry in use. -/
theorem consistent_of_run {t₀ t : OpenFileTable}
    (hnull : ∀ k < NbFileTableEntries, t₀.table k = none) (hcount : t₀.nbFiles = 0)
    {steps : List (Base.Step OpenFileTable (OpenCall × ℤ))} (hrun : Trace Step t₀ steps t) :
    t.Consistent ∧ (∀ e, ∃ r, t.add e = .ok r) ∧
      (∀ k < NbFileTableEntries, ∃ result t', t.close k = .ok (result, t') ∧
        (result = 0 ↔ (t.table k).isSome)) ∧
      ∀ x ∈ steps, x.before.Consistent ∧ x.after.Consistent ∧
        (∀ e, ∃ r, x.before.add e = .ok r) ∧
        (x.label.2 = -1 → x.after = x.before) ∧
        ∀ i, x.label.1 = close i → (x.label.2 = 0 ↔ (x.before.table i.toNat).isSome) := by
  obtain ⟨ht, hall⟩ := Trace.invariant_of_forall (I := OpenFileTable.Consistent)
    (fun x hbefore hstep => consistent_step hbefore hstep) hrun (.of_null hnull hcount)
  refine ⟨ht, ht.exists_add, fun k hk => ?_, fun x hx => ?_⟩
  · obtain ⟨result, t', hclose, hzero, -⟩ := close_of_lt t hk
    exact ⟨result, t', hclose, hzero⟩
  obtain ⟨hbefore, hafter⟩ := hall x hx
  obtain ⟨hrange, hcall⟩ := hrun.rel_of_mem x hx
  refine ⟨hbefore, hafter, hbefore.exists_add, fun hfailed => ?_, fun i hlabel => ?_⟩
  · rw [hfailed] at hcall
    exact eq_of_failed hcall
  · rw [hlabel] at hcall
    obtain ⟨k, rfl, -, ⟨hnone, hresult, -⟩ | ⟨hsome, hresult, -⟩⟩ :=
      OpenFileTable.close_cases hcall
    · rw [hresult, Int.toNat_natCast, hnone]
      simp
    · rw [hresult, Int.toNat_natCast]
      simpa using hsome

/-- The file `a` is opened, closed, and closed again. -/
theorem consistent_open_close_close : ∃ t₀ steps t, (∀ k, t₀.table k = none) ∧ t₀.nbFiles = 0 ∧
    Trace Step t₀ steps t ∧ steps.map (fun x => x.label.2) = [0, 0, -1] ∧ t.Consistent := by
  obtain ⟨fs, disk', fs₁, j, hformat, htable, -, ⟨fs', hok, hequal⟩, -, -, -, -, e, hentry, -⟩ :=
    IdRun.exists_ids_run
  cases hequal
  obtain ⟨⟨i, t₁⟩, hopen, hequal⟩ := Except.bind_eq_ok.mp hok
  cases hequal
  have hcount : fs.fileTable.nbFiles = 0 := by
    obtain ⟨fs', hformat', -, -, hnew, -⟩ :=
      FileSystem.format_eq_ok (fun _ _ => 0) (fun _ _ => 0) (fun _ => none)
    rw [Except.ok.inj (hformat.symm.trans hformat'), hnew]
    rfl
  have hsome : (t₁.table 0).isSome := by
    obtain ⟨k, hk, -, hentry⟩ := OpenFileTable.get_eq_some hentry
    obtain rfl : k = 0 := by omega
    exact Option.isSome_iff_exists.mpr ⟨e, hentry⟩
  obtain ⟨result, t₂, hclose, hzero, -⟩ := close_of_lt t₁ (k := 0) (by decide)
  obtain rfl := hzero.mpr hsome
  have hnone : t₂.table 0 = none := by
    obtain ⟨k, hk, -, hset⟩ := OpenFileTable.close_eq_ok hclose
    obtain rfl : 0 = k := by omega
    rw [hset]
    rfl
  obtain ⟨result, t₃, hagain, -, hminus⟩ := close_of_lt t₂ (k := 0) (by decide)
  obtain rfl := hminus.mpr hnone
  have hclosing : ∀ i, OpenCall.close (0 : ℕ) = .close i → 0 ≤ i ∧ i < NbFileTableEntries := by
    rintro i ⟨⟩
    decide
  have hfirst : Step fs.fileTable (.openFile (fun _ _ => 0) disk' fs.currentDirectory [97]
    modeWrite, 0) t₁ := ⟨nofun, hopen⟩
  have hsecond : Step t₁ (.close (0 : ℕ), 0) t₂ := ⟨hclosing, hclose⟩
  have hthird : Step t₂ (.close (0 : ℕ), -1) t₃ := ⟨hclosing, hagain⟩
  have hrun := (((Trace.nil fs.fileTable).snoc hfirst).snoc hsecond).snoc hthird
  exact ⟨fs.fileTable, _, t₃, htable, hcount, hrun, rfl,
    (consistent_of_run (fun k _ => htable k) hcount hrun).1⟩

end OpenCall

end Nachos
