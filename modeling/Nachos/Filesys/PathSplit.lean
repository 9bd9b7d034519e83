/-
# Splitting a path in place

`SplitPathAndName` works in the buffer of its caller: the path is copied there, the last slash is
overwritten with a zero, and so is the one before it if the path ends with a slash. The name is
copied out of the same buffer. Each of the four forms of a path takes another branch; on every path the
two buffers hold in the end what the text of the path says, or the copy has left them.
-/

import Nachos.Filesys.PathScan

namespace Nachos.FileSystem

open Base

/-- The first loop of `SplitPathAndName`: the path is copied, and the last slash is noted. -/
def copyPath (resPath : Mem) (lastSlash : ℤ) (i : ℕ) : List UInt8 → Except Fault (Mem × ℤ × ℕ)
  | [] => return (resPath, lastSlash, i)
  | c :: rest => do
      inBounds (i < PathLenMax)
      copyPath (resPath.setByte i c) (if c = slash then i else lastSlash) (i + 1) rest

/-- The second loop of `SplitPathAndName`, backwards from `i - 1` on to a slash, or to `-1`. -/
def backToSlash (resPath : Mem) : ℕ → ℤ
  | 0 => -1
  | i + 1 => if resPath i ≠ slash then backToSlash resPath i else i

/-- `FileSystem::SplitPathAndName`, with what its buffers hold before and after. `resName` has
`FileNameMaxLen` bytes and `resPath` has `PathLenMax` bytes. -/
def splitInPlace (path : List UInt8) (resName resPath : Mem) : Except Fault (Mem × Mem) := do
  let path := path.takeWhile (· != 0)
  assert (path.head? ≠ some slash)
  let (resPath, lastSlash, i) ← copyPath resPath (-1) 0 path
  inBounds (i < PathLenMax)
  let resPath := resPath.setByte i 0
  if lastSlash = -1 then
    let resName ← resName.strcpy FileNameMaxLen (Mem.ofString path) 0 (path.length + 1)
    return (resName, resPath.setByte 0 0)
  else if lastSlash = i - 1 then
    let resPath := resPath.setByte lastSlash.toNat 0
    let i := backToSlash resPath (i + 1)
    if i = -1 then
      -- Name of a directory with the form: "dir/".
      let resName ← resName.strcpy FileNameMaxLen resPath 0 PathLenMax
      return (resName, resPath.setByte 0 0)
    else
      -- The path has the form "dir1/dir2/.../dirn/".
      let resPath := resPath.setByte i.toNat 0
      let resName ← resName.strcpy FileNameMaxLen (resPath.shift (i.toNat + 1)) 0
        (PathLenMax - (i.toNat + 1))
      return (resName, resPath)
  else
    let resName ← resName.strcpy FileNameMaxLen (resPath.shift (lastSlash.toNat + 1)) 0
      (PathLenMax - (lastSlash.toNat + 1))
    return (resName, resPath.setByte lastSlash.toNat 0)

/-- The buffers hold the strings. -/
structure Buffers (resName resPath : Mem) (name rest : List UInt8) : Prop where
  name : resName.cString 0 FileNameMaxLen = name
  path : resPath.cString 0 PathLenMax = rest

/-! ## The last slash -/

/-- The last slash as an index, `-1` if there is none. -/
def slashIndex (path : List UInt8) : ℤ :=
  match lastSlash path with
  | some i => i
  | none => -1

theorem lastSlash_append_cons {a b : List UInt8} (h : slash ∉ b) :
    lastSlash (a ++ slash :: b) = some a.length := by
  cases hlast : lastSlash (a ++ slash :: b) with
  | none => exact absurd (by simp) (noSlash_of_lastSlash hlast)
  | some i =>
      obtain ⟨hi, hslash, hlater⟩ := find?_reverse_range_eq_some hlast
      rcases Nat.lt_trichotomy i a.length with hlt | heq | hgt
      · have hfalse := hlater a.length hlt (by simp)
        simp at hfalse
      · rw [heq]
      · exfalso
        obtain ⟨j, rfl⟩ : ∃ j, i = a.length + 1 + j := ⟨i - (a.length + 1), by omega⟩
        rw [List.length_append, List.length_cons] at hi
        rw [List.getD_append_right _ _ _ _ (by omega), beq_iff_eq,
          show a.length + 1 + j - a.length = j + 1 by omega, List.getD_cons_succ,
          List.getD_eq_getElem _ _ (by omega)] at hslash
        exact h (hslash ▸ List.getElem_mem _)

theorem slashIndex_of_noSlash {path : List UInt8} (h : slash ∉ path) : slashIndex path = -1 := by
  rw [slashIndex, lastSlash_eq_none h]

theorem slashIndex_append_cons {a b : List UInt8} (h : slash ∉ b) :
    slashIndex (a ++ slash :: b) = a.length := by
  rw [slashIndex, lastSlash_append_cons h]

/-- A path has no slash, or it is cut in two at the last one. -/
theorem noSlash_or_split (path : List UInt8) :
    slash ∉ path ∨ ∃ a b, path = a ++ slash :: b ∧ slash ∉ b := by
  cases hlast : lastSlash path with
  | none => exact .inl (noSlash_of_lastSlash hlast)
  | some i =>
      obtain ⟨-, hsplit, hno⟩ := lastSlash_eq_some hlast
      exact .inr ⟨_, _, hsplit, hno⟩

theorem slashIndex_append_singleton {path : List UInt8} {c : UInt8} (hc : c ≠ slash) :
    slashIndex (path ++ [c]) = slashIndex path := by
  rcases noSlash_or_split path with hno | ⟨a, b, rfl, hno⟩
  · rw [slashIndex_of_noSlash hno, slashIndex_of_noSlash (by simpa [hno] using hc.symm)]
  · rw [slashIndex_append_cons hno, List.append_assoc, List.cons_append,
      slashIndex_append_cons (by simpa [hno] using hc.symm)]

/-! ## The loops -/

/-- **The first loop** copies the path and finds the last slash, or leaves the buffer. -/
theorem copyPath_eq {resPath : Mem} {done : List UInt8} (h : resPath.Starts done)
    (hdone : done.length ≤ PathLenMax) (rest : List UInt8) :
    if done.length + rest.length ≤ PathLenMax then
      ∃ resPath', copyPath resPath (slashIndex done) done.length rest =
          .ok (resPath', slashIndex (done ++ rest), (done ++ rest).length) ∧
        resPath'.Starts (done ++ rest)
    else copyPath resPath (slashIndex done) done.length rest = .error .bounds := by
  induction rest generalizing resPath done with
  | nil =>
      rw [List.length_nil, Nat.add_zero, if_pos hdone, List.append_nil]
      exact ⟨resPath, rfl, h⟩
  | cons c rest ih =>
      rw [copyPath]
      by_cases hlt : done.length < PathLenMax
      · have hindex : (if c = slash then (done.length : ℤ) else slashIndex done) =
            slashIndex (done ++ [c]) := by
          split
          next hc => rw [hc, slashIndex_append_cons List.not_mem_nil]
          next hc => rw [slashIndex_append_singleton hc]
        have hnext := ih (h.push c) (by rw [List.length_append, List.length_singleton]; omega)
        rw [show (done ++ [c]).length = done.length + 1 from List.length_append] at hnext
        rw [inBounds_of hlt, Except.ok_bind, hindex]
        rwa [List.append_assoc, show done.length + 1 + rest.length = done.length + (c :: rest).length by
          rw [List.length_cons]; omega] at hnext
      · rw [if_neg (by rw [List.length_cons]; omega), inBounds, if_neg hlt]
        rfl

/-- **The second loop** finds the last slash. -/
theorem backToSlash_eq {resPath : Mem} {text : List UInt8} (h : resPath.Starts text) :
    backToSlash resPath text.length = slashIndex text := by
  induction text using List.reverseRecOn with
  | nil => rfl
  | append_singleton text c ih =>
      rw [List.length_append, List.length_singleton, backToSlash, h.getByte]
      by_cases hc : c = slash
      · rw [if_neg (not_not.mpr hc), hc, slashIndex_append_cons List.not_mem_nil]
      · rw [if_pos hc, ih h.left, slashIndex_append_singleton hc]

/-! ## The two levels -/

section Forms

variable {path a b : List UInt8}

theorem splitText_of_noSlash (h : slash ∉ path.takeWhile (· != 0)) :
    splitText path = (path.takeWhile (· != 0), []) := by
  simp only [splitText, lastSlash_eq_none h, reduceCtorEq, if_false]

theorem splitText_of_split (htext : path.takeWhile (· != 0) = a ++ slash :: b) (hb : b ≠ [])
    (hno : slash ∉ b) : splitText path = (b, a) := by
  have hpos := List.length_pos_of_ne_nil hb
  simp only [splitText, htext, lastSlash_append_cons hno, Option.some.injEq]
  rw [if_neg (by rw [List.length_append, List.length_cons]; omega), lastSlash_append_cons hno]
  simp

theorem splitText_of_trailing (htext : path.takeWhile (· != 0) = a ++ [slash]) (hno : slash ∉ a) :
    splitText path = (a, []) := by
  have hlength : a.length = (a ++ [slash]).length - 1 := by simp
  have hstripped : (a ++ [slash]).take ((a ++ [slash]).length - 1) = a := by simp
  simp only [splitText, htext, lastSlash_append_cons List.not_mem_nil, Option.some.injEq,
    if_pos hlength, hstripped, lastSlash_eq_none hno]

theorem splitText_of_split_trailing
    (htext : path.takeWhile (· != 0) = (a ++ slash :: b) ++ [slash]) (hno : slash ∉ b) :
    splitText path = (b, a) := by
  have hlength : (a ++ slash :: b).length = ((a ++ slash :: b) ++ [slash]).length - 1 := by simp
  have hstripped : ((a ++ slash :: b) ++ [slash]).take
      (((a ++ slash :: b) ++ [slash]).length - 1) = a ++ slash :: b := by
    rw [← hlength, List.take_left]
  have hname : (a ++ slash :: b).drop (a.length + 1) = b := by simp
  simp only [splitText, htext, lastSlash_append_cons List.not_mem_nil, Option.some.injEq,
    if_pos hlength, hstripped, lastSlash_append_cons hno, hname, List.take_left]

end Forms

/-- The calls on the buffers do what is done to the text. -/
def Carries (buffers : Except Fault (Mem × Mem)) (text : Except Fault (Name × List UInt8)) : Prop :=
  match text with
  | .ok (name, rest) =>
      ∃ resName resPath, buffers = .ok (resName, resPath) ∧ Buffers resName resPath name rest
  | .error fault => buffers = .error fault

/-- The end of each branch: the name is copied, and the path is in its buffer. -/
theorem carries_strcpy {src resPath : Mem} {name rest t u : List UInt8} (hsrc : src.Starts (name ++ 0 :: t))
    (hname : (0 : UInt8) ∉ name) {n : ℕ} (hn : name.length < n)
    (hpath : resPath.Starts (rest ++ 0 :: u)) (hrest : (0 : UInt8) ∉ rest)
    (hlength : rest.length < PathLenMax) (resName : Mem) :
    Carries (do
      let resName ← resName.strcpy FileNameMaxLen src 0 n
      return (resName, resPath)) (do
      inBounds (name.length < FileNameMaxLen)
      return (name, rest)) := by
  have hcopy := Mem.strcpy_eq hsrc hname resName FileNameMaxLen hn
  split at hcopy
  next hlt =>
    obtain ⟨resName', hcopy, hstarts⟩ := hcopy
    rw [inBounds_of hlt, hcopy]
    exact ⟨resName', resPath, rfl, hstarts.cString_eq hname hlt, hpath.cString_eq hrest hlength⟩
  next hge =>
    rw [inBounds, if_neg hge, hcopy]
    rfl

/-- A path that ends with a slash, when that slash is overwritten. -/
theorem carries_trailing {path a : List UInt8} {buffer : Mem}
    (htext : path.takeWhile (· != 0) = a ++ [slash]) (hzero : (0 : UInt8) ∉ a)
    (hlength : a.length < PathLenMax) (hcut : buffer.Starts (a ++ 0 :: [0])) (resName : Mem) :
    Carries (if slashIndex a = -1 then do
        let resName ← resName.strcpy FileNameMaxLen buffer 0 PathLenMax
        return (resName, buffer.setByte 0 0)
      else do
        let resPath := buffer.setByte (slashIndex a).toNat 0
        let resName ← resName.strcpy FileNameMaxLen (resPath.shift ((slashIndex a).toNat + 1)) 0
          (PathLenMax - ((slashIndex a).toNat + 1))
        return (resName, resPath))
      (do
        inBounds ((splitText path).1.length < FileNameMaxLen)
        return splitText path) := by
  rcases noSlash_or_split a with hplain | ⟨a, b, rfl, hb⟩
  · -- Name of a directory with the form: "dir/".
    rw [slashIndex_of_noSlash hplain, if_pos rfl, splitText_of_trailing htext hplain]
    obtain ⟨t, hempty⟩ := hcut.setByte_zero (by simp) 0
    exact carries_strcpy hcut hzero hlength hempty List.not_mem_nil (Nat.zero_lt_succ _) resName
  · -- The path has the form "dir1/dir2/.../dirn/".
    rw [slashIndex_append_cons hb, if_neg (by omega), Int.toNat_natCast,
      splitText_of_split_trailing htext hb]
    rw [List.append_assoc, List.cons_append] at hcut
    have hpath := hcut.setByte 0
    simp only [List.mem_append, List.mem_cons, not_or] at hzero
    simp only [List.length_append, List.length_cons] at hlength
    have hroom : b.length < PathLenMax - (a.length + 1) := by omega
    exact carries_strcpy hpath.shift_succ hzero.2.2 hroom hpath hzero.1 (by omega) resName

/-- The branches of `SplitPathAndName`, with the path in its buffer. -/
theorem carries_branches {path text : List UInt8} {buffer : Mem}
    (htext : path.takeWhile (· != 0) = text) (hzero : (0 : UInt8) ∉ text)
    (hlength : text.length < PathLenMax) (hstarts : buffer.Starts (text ++ [0])) (resName : Mem) :
    Carries (if slashIndex text = -1 then do
        let resName ← resName.strcpy FileNameMaxLen (Mem.ofString text) 0 (text.length + 1)
        return (resName, buffer.setByte 0 0)
      else if slashIndex text = text.length - 1 then
        let resPath := buffer.setByte (slashIndex text).toNat 0
        let i := backToSlash resPath (text.length + 1)
        if i = -1 then do
          let resName ← resName.strcpy FileNameMaxLen resPath 0 PathLenMax
          return (resName, resPath.setByte 0 0)
        else do
          let resPath := resPath.setByte i.toNat 0
          let resName ← resName.strcpy FileNameMaxLen (resPath.shift (i.toNat + 1)) 0
            (PathLenMax - (i.toNat + 1))
          return (resName, resPath)
      else do
        let resName ← resName.strcpy FileNameMaxLen (buffer.shift ((slashIndex text).toNat + 1)) 0
          (PathLenMax - ((slashIndex text).toNat + 1))
        return (resName, buffer.setByte (slashIndex text).toNat 0))
      (do
        inBounds ((splitText path).1.length < FileNameMaxLen)
        return splitText path) := by
  rcases noSlash_or_split text with hno | ⟨a, b, rfl, hno⟩
  · -- If only the name of a file or directory was given.
    rw [slashIndex_of_noSlash hno, if_pos rfl, splitText_of_noSlash (htext ▸ hno), htext]
    obtain ⟨t, hempty⟩ := hstarts.setByte_zero (by simp) 0
    exact carries_strcpy (Mem.starts_ofString text) hzero (Nat.lt_succ_self _) hempty
      List.not_mem_nil (Nat.zero_lt_succ _) resName
  have hlengths : (a ++ slash :: b).length = a.length + b.length + 1 := by
    rw [List.length_append, List.length_cons]
    omega
  have hzeros : (0 : UInt8) ∉ a ∧ (0 : UInt8) ∉ b := by
    simp only [List.mem_append, List.mem_cons, not_or] at hzero
    exact ⟨hzero.1, hzero.2.2⟩
  rw [slashIndex_append_cons hno, if_neg (by omega), Int.toNat_natCast]
  rw [List.append_assoc, List.cons_append] at hstarts
  have hcut := hstarts.setByte 0
  cases b with
  | cons c b =>
      rw [if_neg (by rw [hlengths, List.length_cons]; omega),
        splitText_of_split htext (List.cons_ne_nil c b) hno]
      exact carries_strcpy hstarts.shift_succ hzeros.2 (by omega) hcut hzeros.1 (by omega) resName
  | nil =>
      rw [if_pos (by rw [hlengths, List.length_nil]; omega)]
      have hback : backToSlash (buffer.setByte a.length 0) ((a ++ [slash]).length + 1) =
          slashIndex a := by
        have hbytes := backToSlash_eq hcut
        rw [List.nil_append, List.append_cons, slashIndex_append_singleton (by decide),
          slashIndex_append_singleton (by decide)] at hbytes
        simpa only [List.length_append, List.length_singleton] using hbytes
      simp only [hback]
      exact carries_trailing htext hzeros.1 (by omega) hcut resName

/-- **The two levels agree.** On every path, and whatever the buffers hold before. -/
theorem carries_splitInPlace (path : List UInt8) (resName resPath : Mem) :
    Carries (splitInPlace path resName resPath) (splitPathAndName path) := by
  have hzero : (0 : UInt8) ∉ path.takeWhile (· != 0) := fun hmem => by
    simpa using List.mem_takeWhile_imp hmem
  rw [splitPathAndName_eq, splitInPlace]
  generalize htext : path.takeWhile (· != 0) = text at hzero
  by_cases hrelative : text.head? = some slash
  · simp only [assert, hrelative, ne_eq, not_true_eq_false, if_false, Except.error_bind]
    rfl
  have hempty : resPath.Starts [] := fun k hk => absurd hk (Nat.not_lt_zero k)
  have hcopy := copyPath_eq hempty (Nat.zero_le _) text
  rw [List.length_nil, Nat.zero_add, List.nil_append, slashIndex_of_noSlash List.not_mem_nil] at hcopy
  rw [assert_of hrelative, Except.ok_bind, Except.ok_bind]
  by_cases hlength : text.length < PathLenMax
  · rw [if_pos hlength.le] at hcopy
    obtain ⟨copied, hcopy, hstarts⟩ := hcopy
    rw [hcopy]
    simp only [Except.ok_bind, inBounds_of hlength]
    exact carries_branches htext hzero hlength (hstarts.push 0) resName
  · -- A path of exactly the buffer's length is copied, and its terminating zero is one too many.
    have houtside : inBounds (text.length < PathLenMax) = .error .bounds := if_neg hlength
    rw [houtside, Except.error_bind]
    split at hcopy
    next =>
      obtain ⟨copied, hcopy, -⟩ := hcopy
      rw [hcopy]
      simp only [Except.ok_bind, houtside]
      rfl
    next =>
      rw [hcopy]
      rfl

/-! ## Paths made of components -/

/-- Names joined by single slashes. -/
def joinNames (names : List Name) : List UInt8 := [slash].intercalate names

/-- The path of the names, with a slash at the end or without one. -/
def pathOf (names : List Name) (trailing : Bool) : List UInt8 :=
  joinNames names ++ if trailing then [slash] else []

section Components

variable {names : List Name} {name last : Name}

theorem joinNames_concat (hne : names ≠ []) (last : Name) :
    joinNames (names ++ [last]) = joinNames names ++ slash :: last := by
  induction names with
  | nil => exact absurd rfl hne
  | cons name names ih =>
      rw [List.cons_append, joinNames, List.intercalate_cons_of_ne_nil (by simp)]
      cases names with
      | nil => simp [joinNames]
      | cons second names =>
          rw [joinNames] at ih
          rw [ih (List.cons_ne_nil _ _), joinNames, joinNames,
            List.intercalate_cons_of_ne_nil (List.cons_ne_nil _ _)]
          simp

theorem zero_notMem_joinNames (h : ∀ name ∈ names, IsComponent name) :
    (0 : UInt8) ∉ joinNames names := by
  induction names using List.reverseRecOn with
  | nil => exact List.not_mem_nil
  | append_singleton names last ih =>
      have hlast := (h last (by simp)).noZero
      by_cases hne : names = []
      · rw [hne]
        simpa [joinNames] using hlast
      · rw [joinNames_concat hne, List.mem_append, List.mem_cons]
        rintro (hmem | hzero | hmem)
        · exact ih (fun name hname => h name (by simp [hname])) hmem
        · cases hzero
        · exact hlast hmem

/-- The path is relative. -/
theorem head?_joinNames (hne : names ≠ []) (h : ∀ name ∈ names, IsComponent name) :
    ∃ c, c ≠ slash ∧ (joinNames names).head? = some c := by
  induction names using List.reverseRecOn with
  | nil => exact absurd rfl hne
  | append_singleton names last ih =>
      by_cases hnames : names = []
      · obtain ⟨c, rest, rfl⟩ := List.exists_cons_of_ne_nil (h last (by simp)).nonempty
        refine ⟨c, ?_, by simp [hnames, joinNames]⟩
        rintro rfl
        exact (h (slash :: rest) (by simp)).noSlash (List.mem_cons_self)
      · obtain ⟨c, hc, hhead⟩ := ih hnames fun name hname => h name (by simp [hname])
        exact ⟨c, hc, by rw [joinNames_concat hnames, List.head?_append, hhead]; rfl⟩

variable {trailing : Bool}

/-- The path has no terminating zero in it. -/
theorem takeWhile_pathOf (h : ∀ name ∈ names, IsComponent name) :
    (pathOf names trailing).takeWhile (· != 0) = pathOf names trailing := by
  rw [List.takeWhile_eq_self_iff]
  intro c hc
  have hne : c ≠ 0 := by
    rintro rfl
    rcases List.mem_append.mp hc with hmem | hmem
    · exact zero_notMem_joinNames h hmem
    · split at hmem
      · exact absurd (List.mem_singleton.mp hmem) (by decide)
      · exact List.not_mem_nil hmem
  simpa using hne

theorem head?_pathOf (hne : names ≠ []) (h : ∀ name ∈ names, IsComponent name) :
    (pathOf names trailing).head? ≠ some slash := by
  obtain ⟨c, hc, hhead⟩ := head?_joinNames hne h
  rw [pathOf, List.head?_append, hhead]
  exact fun hslash => hc (Option.some.inj hslash)

/-- The text of each of the four forms. -/
theorem splitText_pathOf (hne : names ≠ []) (h : ∀ name ∈ names, IsComponent name) :
    splitText (pathOf names trailing) = (names.getLast hne, joinNames names.dropLast) := by
  have htake : (pathOf names trailing).takeWhile (· != 0) = pathOf names trailing :=
    takeWhile_pathOf h
  induction names using List.reverseRecOn with
  | nil => exact absurd rfl hne
  | append_singleton names last _ =>
      have hlast := h last (by simp)
      rw [List.getLast_append_singleton, List.dropLast_concat]
      by_cases hnames : names = []
      · subst hnames
        have hjoin : joinNames ([] ++ [last]) = last := by simp [joinNames]
        rw [pathOf, hjoin] at htake ⊢
        cases trailing with
        | false =>
            rw [if_neg Bool.false_ne_true, List.append_nil] at htake ⊢
            rw [splitText_of_noSlash (htake.symm ▸ hlast.noSlash), htake]
            rfl
        | true =>
            rw [splitText_of_trailing htake hlast.noSlash]
            rfl
      · rw [pathOf, joinNames_concat hnames] at htake ⊢
        cases trailing with
        | false =>
            rw [if_neg Bool.false_ne_true, List.append_nil] at htake ⊢
            exact splitText_of_split htake hlast.nonempty hlast.noSlash
        | true =>
            exact splitText_of_split_trailing htake hlast.noSlash

end Components

/-- **`SplitPathAndName` separates the last component.** Whatever the buffers hold before, for every
path of at least one component, with a slash at the end or without one, that fits its buffer. -/
theorem splitInPlace_of_components {names : List Name} (hne : names ≠ [])
    (hnames : ∀ name ∈ names, IsComponent name) (trailing : Bool)
    (hlength : (pathOf names trailing).length < PathLenMax) (resName resPath : Mem) :
    ∃ resName' resPath', splitInPlace (pathOf names trailing) resName resPath =
        .ok (resName', resPath') ∧
      Buffers resName' resPath' (names.getLast hne) (joinNames names.dropLast) := by
  have hcarries := carries_splitInPlace (pathOf names trailing) resName resPath
  have hlast := hnames _ (List.getLast_mem hne)
  rw [splitPathAndName_eq, takeWhile_pathOf hnames, assert_of (head?_pathOf hne hnames),
    Except.ok_bind, inBounds_of hlength, Except.ok_bind, splitText_pathOf hne hnames,
    inBounds_of hlast.length] at hcarries
  exact hcarries

/-- The path `a/bc/` is split into `bc` and `a`. -/
theorem splitInPlace_two_components : ∃ resName' resPath',
    splitInPlace [97, slash, 98, 99, slash] (fun _ => 255) (fun _ => 47) = .ok (resName', resPath') ∧
      Buffers resName' resPath' [98, 99] [97] :=
  splitInPlace_of_components (List.cons_ne_nil [97] [[98, 99]]) (by decide) true (by decide) _ _

end Nachos.FileSystem
