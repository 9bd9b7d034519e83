/-
# The ids of the threads of an address space

A thread id is also an index: `threadConditions[ID]` is what a thread that joins `ID`
sleeps on and what the exit of `ID` wakes. The ids come from a counter that only grows,
and the table has `UserThreadMax` entries. The first thread created has id `2`, so the
table serves the first `UserThreadMax - 2` threads, however many are alive together.
-/

import Mathlib.Data.Finset.Card
import Mathlib.Data.Finset.Range
import Mathlib.Data.Finset.Union
import Nachos.Userprog.UserThread

namespace Nachos

open Base

namespace ThreadRun

/-- One of the threads is replaced. -/
def setThread (st : ThreadRun) (i : ℕ) (thread : UserThread) : ThreadRun :=
  { st with threads := Function.update st.threads i thread }

/-- A new thread gets the next id, which is entered in the table. -/
def addThread (st : ThreadRun) : ThreadRun where
  space := { st.space with
    maxTIDGiven := st.created + 2
    threadIDs := st.space.threadIDs ++ [st.created + 2] }
  created := st.created + 1
  threads := Function.update st.threads (st.created + 1) ⟨st.created + 2, 0, .embryo, 0⟩

/-- The state after a creation by thread `c` has passed its check. -/
def accept (st : ThreadRun) (c : ℕ) : ThreadRun :=
  st.addThread.moveTo c (.creating (st.created + 1))

/-- The state after thread `c` took slot `k` for its child. -/
def giveStack (st : ThreadRun) (c child : ℕ) (k : Fin UserThreadMax) : ThreadRun where
  space := { st.space with
    threadStackPointer := Function.update st.space.threadStackPointer k true }
  created := st.created
  threads := Function.update
    (Function.update st.threads child
      { st.threads child with sp := st.space.stackPointer k, activity := .running }) c
    { st.threads c with activity := .running, result := (st.threads child).tid }

/-- The condition variable that goes with an id. -/
def conditionOf (ID : ℕ) : Option (Fin UserThreadMax) :=
  if h : ID < UserThreadMax then some ⟨ID, h⟩ else none

/-- Thread `i` is alive, or some thread is still in a join on it. -/
def InUse (st : ThreadRun) (i : ℕ) : Prop :=
  i ≤ st.created ∧ ((st.threads i).activity.isLive ∨
    ∃ c, (st.threads c).activity = .joining (st.threads i).tid)

/-- Different threads have different condition variables. -/
def ConditionsDistinct (st : ThreadRun) : Prop :=
  ∀ i j, i ≠ j → st.InUse i → st.InUse j → ∀ k,
    conditionOf (st.threads i).tid = some k → conditionOf (st.threads j).tid ≠ some k

/-- The sections that use a condition variable. -/
def usesCondition : ThreadCall → Bool
  | .exit _ | .join _ _ | .wake _ => true
  | _ => false

/-- Every condition variable that a section uses is in the table. -/
def InTable (st : ThreadRun) (call : ThreadCall) : Prop :=
  usesCondition call → ∀ result, st.exec call = some result → ∃ st', result = .ok st'

/-- A thread that leaves, or that another thread joins while it is alive, is the main
thread or one of the first `UserThreadMax - 2` that were created. -/
def IdSafe (st : ThreadRun) : ThreadCall → Prop
  | .exit c => c + 1 < UserThreadMax
  | .join c t => ∀ i ≤ st.created, (st.threads i).tid = t → (st.threads i).activity.isLive →
      i ≠ c → i + 1 < UserThreadMax
  | _ => True

instance (st : ThreadRun) : (call : ThreadCall) → Decidable (st.IdSafe call)
  | .exit c => inferInstanceAs (Decidable (c + 1 < UserThreadMax))
  | .join c t => inferInstanceAs (Decidable (∀ i ≤ st.created, (st.threads i).tid = t →
      (st.threads i).activity.isLive → i ≠ c → i + 1 < UserThreadMax))
  | .create _ | .takeStack _ | .releaseStack _ | .wake _ => inferInstanceAs (Decidable True)

/-- What holds of the ids. Thread number `i` has id `i + 1`, and the table of living
threads lists the ids of the threads that are alive. -/
structure IdInv (st : ThreadRun) : Prop where
  unborn : ∀ i, st.created < i → (st.threads i).activity = .unborn
  born : ∀ i ≤ st.created, (st.threads i).activity ≠ .unborn
  tid : ∀ i ≤ st.created, (st.threads i).tid = i + 1
  max : st.space.maxTIDGiven = st.created + 1
  nodup : st.space.threadIDs.Nodup
  mem : ∀ ID, ID ∈ st.space.threadIDs ↔
    ∃ i ≤ st.created, ID = i + 1 ∧ (st.threads i).activity.isLive
  room : st.space.getTotalThreads ≤ UserThreadMax
  exited : ∀ i, (st.threads i).activity.hasExited → i + 1 < UserThreadMax
  joined : ∀ c t, (st.threads c).activity = .joining t → t < UserThreadMax
  child : ∀ c i, (st.threads c).activity = .creating i → (st.threads i).activity = .embryo
  creator : ∀ c d i, (st.threads c).activity = .creating i →
    (st.threads d).activity = .creating i → c = d

namespace IdInv

variable {st st' : ThreadRun} {c : ℕ}

/-- At the start there is only the main thread. -/
theorem start {numPages : ℕ} (hpages : numPages ≤ NumPhysPages)
    (pageTable : List TranslationEntry) (pid : ℕ) :
    (ThreadRun.start (AddrSpace.init numPages hpages pageTable pid)).IdInv := by
  have hthread (i : ℕ) :
      (ThreadRun.start (AddrSpace.init numPages hpages pageTable pid)).threads i =
        if i = 0 then mainThread else noThread := by
    simp [ThreadRun.start, Function.update_apply]
  have hrunning (i : ℕ) : (if i = 0 then mainThread else noThread).activity =
      if i = 0 then .running else .unborn := by
    split <;> rfl
  refine ⟨fun i hi => ?_, fun i hi => ?_, fun i hi => ?_, rfl, List.nodup_singleton 1,
    fun ID => ?_, (by decide : 1 ≤ UserThreadMax), fun i hi => ?_, fun d t ht => ?_, fun d i hi => ?_,
    fun d e i hi => ?_⟩
  · have hne : i ≠ 0 := Nat.ne_of_gt hi
    rw [hthread, hrunning, if_neg hne]
  · rw [hthread, hrunning, if_pos (Nat.le_zero.mp hi)]
    decide
  · rw [hthread, if_pos (Nat.le_zero.mp hi), Nat.le_zero.mp hi]
    rfl
  · constructor
    · intro hID
      refine ⟨0, le_rfl, List.mem_singleton.mp hID, ?_⟩
      rw [hthread]
      rfl
    · rintro ⟨i, hi, rfl, -⟩
      rw [Nat.le_zero.mp hi]
      exact List.mem_singleton_self _
  all_goals
    rw [hthread, hrunning] at *
    split at * <;> simp_all [Activity.hasExited]

/-- A thread whose number was given out. -/
theorem le_created (h : st.IdInv) (hc : (st.threads c).activity ≠ .unborn) : c ≤ st.created := by
  by_contra hlt
  exact hc (h.unborn c (Nat.lt_of_not_le hlt))

theorem mem_iff (h : st.IdInv) {i : ℕ} (hi : i ≤ st.created) :
    (st.threads i).tid ∈ st.space.threadIDs ↔ (st.threads i).activity.isLive := by
  rw [h.mem, h.tid i hi]
  constructor
  · rintro ⟨j, -, hequal, hlive⟩
    rw [Nat.add_right_cancel hequal]
    exact hlive
  · intro hlive
    exact ⟨i, hi, rfl, hlive⟩

/-- A living thread under a given id. -/
theorem exists_of_mem (h : st.IdInv) {ID : ℕ} (hID : ID ∈ st.space.threadIDs) :
    ∃ i ≤ st.created, (st.threads i).tid = ID ∧ (st.threads i).activity.isLive := by
  obtain ⟨i, hi, hequal, hlive⟩ := (h.mem ID).mp hID
  exact ⟨i, hi, (h.tid i hi).trans hequal.symm, hlive⟩

/-- The numbers of the living threads. -/
def live (st : ThreadRun) : Finset ℕ :=
  (Finset.range (st.created + 1)).filter fun i => (st.threads i).activity.isLive

theorem mem_live {i : ℕ} : i ∈ live st ↔ i ≤ st.created ∧ (st.threads i).activity.isLive := by
  rw [live, Finset.mem_filter, Finset.mem_range, Nat.lt_succ_iff]

/-- `nbThreads` counts the living threads. -/
theorem totalThreads_eq_card (h : st.IdInv) : st.space.getTotalThreads = (live st).card := by
  have himage : st.space.threadIDs.toFinset = (live st).image fun i => i + 1 := by
    ext ID
    rw [List.mem_toFinset, h.mem, Finset.mem_image]
    constructor
    · rintro ⟨i, hi, hequal, hlive⟩
      exact ⟨i, mem_live.mpr ⟨hi, hlive⟩, hequal.symm⟩
    · rintro ⟨i, hi, hequal⟩
      exact ⟨i, (mem_live.mp hi).1, hequal.symm, (mem_live.mp hi).2⟩
  rw [AddrSpace.getTotalThreads, ← List.toFinset_card_of_nodup h.nodup, himage,
    Finset.card_image_of_injective _ (add_left_injective 1)]

/-- So few threads leave that the counter stays far from its end. -/
theorem created_lt (h : st.IdInv) : st.created < 2 * UserThreadMax := by
  have hcover : Finset.range (st.created + 1) ⊆ live st ∪ Finset.range UserThreadMax := by
    intro i hi
    have hle : i ≤ st.created := Nat.lt_succ_iff.mp (Finset.mem_range.mp hi)
    rw [Finset.mem_union, mem_live, Finset.mem_range]
    have hborn := h.born i hle
    have hexited := h.exited i
    cases hactivity : (st.threads i).activity with
    | unborn => exact absurd hactivity hborn
    | embryo | running | creating _ | joining _ => exact Or.inl ⟨hle, rfl⟩
    | exiting | finished =>
        rw [hactivity] at hexited
        exact Or.inr (Nat.lt_of_succ_lt (hexited rfl))
  have hcard := (Finset.card_le_card hcover).trans (Finset.card_union_le _ _)
  rw [Finset.card_range, Finset.card_range, ← h.totalThreads_eq_card] at hcard
  have hroom := h.room
  omega

/-- The next id is new. -/
theorem next_not_mem (h : st.IdInv) : st.created + 2 ∉ st.space.threadIDs := by
  intro hmem
  obtain ⟨i, hi, hequal, -⟩ := (h.mem _).mp hmem
  omega

/-- A step that only changes other parts of the address space. -/
theorem of_space (h : st.IdInv) (space : AddrSpace)
    (hids : space.threadIDs = st.space.threadIDs)
    (hmax : space.maxTIDGiven = st.space.maxTIDGiven) :
    ({ st with space := space } : ThreadRun).IdInv :=
  ⟨h.unborn, h.born, h.tid, hmax.trans h.max, by rw [hids]; exact h.nodup,
    fun ID => by rw [hids]; exact h.mem ID,
    by rw [AddrSpace.getTotalThreads, hids]; exact h.room, h.exited, h.joined, h.child, h.creator⟩

/-- A step that moves one thread, which stays alive or stays gone, and which no thread is
creating. -/
theorem setThread (h : st.IdInv) (thread : UserThread) (hc : c ≤ st.created)
    (htid : thread.tid = (st.threads c).tid)
    (hlive : thread.activity.isLive = (st.threads c).activity.isLive)
    (hborn : thread.activity ≠ .unborn)
    (hexited : thread.activity.hasExited → c + 1 < UserThreadMax)
    (hjoined : ∀ t, thread.activity = .joining t → t < UserThreadMax)
    (hcreating : ∀ i, thread.activity = .creating i → i ≠ c ∧
      (st.threads i).activity = .embryo ∧ ∀ d, (st.threads d).activity ≠ .creating i)
    (hfree : ∀ d, (st.threads d).activity ≠ .creating c) : (st.setThread c thread).IdInv := by
  have hself : (st.setThread c thread).threads c = thread := Function.update_self _ _ _
  have hother {i : ℕ} (hi : i ≠ c) : (st.setThread c thread).threads i = st.threads i :=
    Function.update_of_ne hi _ _
  have hisLive (i : ℕ) : ((st.setThread c thread).threads i).activity.isLive =
      (st.threads i).activity.isLive := by
    by_cases hi : i = c
    · rw [hi, hself, hlive]
    · rw [hother hi]
  have hold {d i : ℕ} (hd : ((st.setThread c thread).threads d).activity = .creating i) :
      d = c ∧ thread.activity = .creating i ∨ (st.threads d).activity = .creating i := by
    by_cases hequal : d = c
    · rw [hequal, hself] at hd
      exact Or.inl ⟨hequal, hd⟩
    · rw [hother hequal] at hd
      exact Or.inr hd
  refine ⟨fun i hi => ?_, fun i hi => ?_, fun i hi => ?_, h.max, h.nodup, fun ID => ?_, h.room,
    fun i hi => ?_, fun d t ht => ?_, fun d i hd => ?_, fun d e i hd he => ?_⟩
  · have hlt : st.created < i := hi
    rw [hother (by omega)]
    exact h.unborn i hi
  · by_cases hequal : i = c
    · rw [hequal, hself]
      exact hborn
    · rw [hother hequal]
      exact h.born i hi
  · by_cases hequal : i = c
    · rw [hequal, hself, htid]
      exact h.tid c hc
    · rw [hother hequal]
      exact h.tid i hi
  · simp only [hisLive]
    exact h.mem ID
  · by_cases hequal : i = c
    · rw [hequal, hself] at hi
      rw [hequal]
      exact hexited hi
    · rw [hother hequal] at hi
      exact h.exited i hi
  · by_cases hequal : d = c
    · rw [hequal, hself] at ht
      exact hjoined t ht
    · rw [hother hequal] at ht
      exact h.joined d t ht
  · rcases hold hd with ⟨-, hnew⟩ | hbefore
    · rw [hother (hcreating i hnew).1]
      exact (hcreating i hnew).2.1
    · rw [hother (by rintro rfl; exact hfree d hbefore)]
      exact h.child d i hbefore
  · rcases hold hd with ⟨hdc, hd⟩ | hd
    · rcases hold he with ⟨hec, -⟩ | he
      · exact hdc.trans hec.symm
      · exact absurd he ((hcreating i hd).2.2 e)
    · rcases hold he with ⟨-, he⟩ | he
      · exact absurd hd ((hcreating i he).2.2 d)
      · exact h.creator d e i hd he

/-- Nobody is creating a thread that has started. -/
theorem not_creating (h : st.IdInv) (hc : (st.threads c).activity ≠ .embryo) (d : ℕ) :
    (st.threads d).activity ≠ .creating c :=
  fun hd => hc (h.child d c hd)

/-- A thread that runs goes on running. -/
theorem resume (h : st.IdInv) (hc : (st.threads c).activity.isLive)
    (hembryo : (st.threads c).activity ≠ .embryo) (result : ℤ) : (st.resume c result).IdInv := by
  apply h.setThread
  · apply h.le_created
    intro hunborn
    rw [hunborn] at hc
    cases hc
  · rfl
  · exact hc.symm
  · simp
  · intro hexited
    cases hexited
  · simp
  · simp
  · exact h.not_creating hembryo

/-- **Creating a thread, the ids.** -/
theorem doUserThreadCreate_cases (h : st.IdInv) (c : ℕ) :
    (UserThreadMax ≤ st.space.getTotalThreads ∧
        st.doUserThreadCreate c = .ok (st.resume c (-1))) ∨
      (st.space.getTotalThreads < UserThreadMax ∧ st.doUserThreadCreate c = .ok (st.accept c)) := by
  have hlt := h.created_lt
  rw [AddrSpace.userThreadMax_eq] at hlt
  rcases Nat.lt_or_ge st.space.getTotalThreads UserThreadMax with hroom | hfull
  · refine Or.inr ⟨hroom, ?_⟩
    have hnext : (st.space.maxTIDGiven + 1) % 2 ^ 32 = st.created + 2 := by
      rw [h.max, Nat.mod_eq_of_lt (by omega)]
    have hadd := AddrSpace.addThreadID_of_not_mem
      { st.space with maxTIDGiven := st.created + 2 } h.next_not_mem hroom
    simp only [doUserThreadCreate, AddrSpace.getNextThreadID, hnext, hadd,
      if_neg (Nat.not_lt.mpr hroom), Except.ok_bind, gt_iff_lt]
    rfl
  · refine Or.inl ⟨hfull, ?_⟩
    rw [doUserThreadCreate, if_pos (Nat.lt_succ_of_le hfull)]
    rfl

/-- A new thread in the table. -/
theorem addThread (h : st.IdInv) (hroom : st.space.getTotalThreads < UserThreadMax) :
    st.addThread.IdInv := by
  have hself : st.addThread.threads (st.created + 1) = ⟨st.created + 2, 0, .embryo, 0⟩ :=
    Function.update_self _ _ _
  have hother {i : ℕ} (hi : i ≠ st.created + 1) : st.addThread.threads i = st.threads i :=
    Function.update_of_ne hi _ _
  have hold {i : ℕ} {activity : Activity} (hi : (st.addThread.threads i).activity = activity)
      (hne : activity ≠ .embryo) :
      i ≠ st.created + 1 ∧ (st.threads i).activity = activity := by
    have hequal : i ≠ st.created + 1 := by
      rintro rfl
      rw [hself] at hi
      exact hne hi.symm
    rw [hother hequal] at hi
    exact ⟨hequal, hi⟩
  have hle {i : ℕ} (hi : i ≤ st.addThread.created) : i = st.created + 1 ∨ i ≤ st.created := by
    have : i ≤ st.created + 1 := hi
    omega
  refine ⟨fun i hi => ?_, fun i hi => ?_, fun i hi => ?_, rfl, ?_, fun ID => ?_, ?_,
    fun i hi => ?_, fun d t ht => h.joined d t (hold ht (by simp)).2, fun d i hd => ?_,
    fun d e i hd he => h.creator d e i (hold hd (by simp)).2 (hold he (by simp)).2⟩
  · have hlt : st.created + 1 < i := hi
    rw [hother (by omega)]
    exact h.unborn i (by omega)
  · rcases hle hi with rfl | hbefore
    · rw [hself]
      simp
    · rw [hother (by omega)]
      exact h.born i hbefore
  · rcases hle hi with rfl | hbefore
    · rw [hself]
    · rw [hother (by omega)]
      exact h.tid i hbefore
  · refine List.nodup_append.mpr ⟨h.nodup, List.nodup_singleton _, fun a ha b hb => ?_⟩
    rintro rfl
    rw [List.mem_singleton.mp hb] at ha
    exact h.next_not_mem ha
  · have hids : ID ∈ st.addThread.space.threadIDs ↔
        ID ∈ st.space.threadIDs ∨ ID = st.created + 2 := by
      rw [ThreadRun.addThread, List.mem_append, List.mem_singleton]
    rw [hids, h.mem]
    constructor
    · rintro (⟨i, hi, hequal, hlive⟩ | rfl)
      · refine ⟨i, Nat.le_succ_of_le hi, hequal, ?_⟩
        rw [hother (by omega)]
        exact hlive
      · refine ⟨st.created + 1, le_rfl, rfl, ?_⟩
        rw [hself]
        rfl
    · rintro ⟨i, hi, hequal, hlive⟩
      rcases hle hi with rfl | hbefore
      · exact Or.inr hequal
      · rw [hother (by omega)] at hlive
        exact Or.inl ⟨i, hbefore, hequal, hlive⟩
  · rw [AddrSpace.getTotalThreads, ThreadRun.addThread, List.length_append]
    exact hroom
  · have hne : i ≠ st.created + 1 := by
      rintro rfl
      rw [hself] at hi
      cases hi
    rw [hother hne] at hi
    exact h.exited i hi
  · have hembryo := h.child d i (hold hd (by simp)).2
    rw [hother (by rintro rfl; rw [h.unborn _ (Nat.lt_succ_self _)] at hembryo; cases hembryo)]
    exact hembryo

/-- A creation that passed its check. -/
theorem accept (h : st.IdInv) (hc : (st.threads c).activity = .running)
    (hroom : st.space.getTotalThreads < UserThreadMax) : (st.accept c).IdInv := by
  have hle : c ≤ st.created := h.le_created (by rw [hc]; decide)
  have hnew : c ≠ st.created + 1 := by omega
  have hadd := h.addThread hroom
  have hother {i : ℕ} (hi : i ≠ st.created + 1) : st.addThread.threads i = st.threads i :=
    Function.update_of_ne hi _ _
  have hchild : st.addThread.threads (st.created + 1) = ⟨st.created + 2, 0, .embryo, 0⟩ :=
    Function.update_self _ _ _
  apply hadd.setThread _ (Nat.le_succ_of_le hle)
  · rfl
  · rw [hother hnew, hc]
    rfl
  · simp
  · intro hexited
    cases hexited
  · simp
  · intro i hi
    cases hi
    refine ⟨hnew.symm, by rw [hchild], fun d hd => ?_⟩
    -- A creator of the new thread would have been its creator before it had a number.
    have hne : d ≠ st.created + 1 := by
      rintro rfl
      rw [hchild] at hd
      cases hd
    rw [hother hne] at hd
    have hembryo := h.child d _ hd
    rw [h.unborn _ (Nat.lt_succ_self _)] at hembryo
    cases hembryo
  · exact hadd.not_creating (by rw [hother hnew, hc]; decide)

/-- A thread in creation is not its own creator. -/
theorem child_ne (h : st.IdInv) {child : ℕ} (hc : (st.threads c).activity = .creating child) :
    child ≠ c := by
  have hembryo := h.child c child hc
  rintro rfl
  rw [hc] at hembryo
  cases hembryo

/-- **Creating a thread, the stack.** -/
theorem takeStack_cases (h : st.IdInv) {child : ℕ}
    (hc : (st.threads c).activity = .creating child) :
    (∃ k, st.space.threadStackPointer k = false ∧
        st.takeStack c child = .ok (st.giveStack c child k)) ∨
      ((∀ k, st.space.threadStackPointer k = true) ∧
        st.takeStack c child = .error .assertion) := by
  have hne : c ≠ child := (h.child_ne hc).symm
  obtain ⟨k, hfree, hget⟩ | ⟨hfull, hget⟩ := st.space.getThreadStackPointer_cases
  · refine Or.inl ⟨k, hfree, ?_⟩
    simp only [ThreadRun.takeStack, hget, Except.ok_bind]
    rw [ThreadRun.resume, giveStack]
    simp only [Function.update_of_ne hne]
    rfl
  · refine Or.inr ⟨hfull, ?_⟩
    rw [ThreadRun.takeStack, hget, Except.error_bind]

theorem giveStack (h : st.IdInv) {child : ℕ} (hc : (st.threads c).activity = .creating child)
    (k : Fin UserThreadMax) : (st.giveStack c child k).IdInv := by
  have hembryo := h.child c child hc
  have hne := h.child_ne hc
  -- The creator goes on first: after that nobody is creating the child.
  have hresume := h.resume (c := c) (by rw [hc]; rfl) (by rw [hc]; simp) (st.threads child).tid
  have hself : (st.resume c (st.threads child).tid).threads c =
      { st.threads c with activity := .running, result := (st.threads child).tid } :=
    Function.update_self _ _ _
  have hother {i : ℕ} (hi : i ≠ c) :
      (st.resume c (st.threads child).tid).threads i = st.threads i :=
    Function.update_of_ne hi _ _
  have hchild := hresume.setThread (c := child)
    { st.threads child with sp := st.space.stackPointer k, activity := .running }
    (h.le_created (by rw [hembryo]; decide)) (by rw [hother hne])
    (by rw [hother hne, hembryo]; rfl) (by simp) (fun hexited => by cases hexited) (by simp)
    (by simp) (fun d hd => by
      by_cases hequal : d = c
      · rw [hequal, hself] at hd
        cases hd
      · rw [hother hequal] at hd
        exact hequal (h.creator d c child hd hc))
  have hequal : st.giveStack c child k = { (st.resume c (st.threads child).tid).setThread child
      { st.threads child with sp := st.space.stackPointer k, activity := .running } with
      space := (st.giveStack c child k).space } := by
    rw [ThreadRun.giveStack, ThreadRun.setThread, ThreadRun.resume, Function.update_comm hne]
  rw [hequal]
  exact hchild.of_space _ rfl rfl

/-- **Leaving, the ids.** -/
theorem doUserThreadExit_eq_ok (h : st.IdInv) (hc : (st.threads c).activity = .running)
    (hlt : c + 1 < UserThreadMax) :
    ∃ space, st.doUserThreadExit c = .ok ({ st with space := space }.moveTo c .exiting) ∧
      { st.space with
        threadIDs := st.space.threadIDs.erase (st.threads c).tid }.SameTables space := by
  have hle : c ≤ st.created := h.le_created (by rw [hc]; decide)
  have hmem : (st.threads c).tid ∈ st.space.threadIDs := by
    rw [h.mem_iff hle, hc]
    rfl
  obtain ⟨space, hremove, hsame⟩ := AddrSpace.removeThreadID_of_mem hmem
    (by rw [h.tid c hle]; exact hlt)
  refine ⟨space, ?_, hsame⟩
  rw [doUserThreadExit, hremove, Except.ok_bind]
  rfl

theorem moveTo_exiting (h : st.IdInv) (hc : (st.threads c).activity = .running)
    (hlt : c + 1 < UserThreadMax) {space : AddrSpace} (hsame : { st.space with
      threadIDs := st.space.threadIDs.erase (st.threads c).tid }.SameTables space) :
    ({ st with space := space }.moveTo c .exiting).IdInv := by
  have hids : space.threadIDs = st.space.threadIDs.erase (st.threads c).tid := hsame.threadIDs
  have hle : c ≤ st.created := h.le_created (by rw [hc]; decide)
  set st' := { st with space := space }.moveTo c .exiting with hst'
  have hself : st'.threads c = { st.threads c with activity := .exiting } :=
    Function.update_self _ _ _
  have hother {i : ℕ} (hi : i ≠ c) : st'.threads i = st.threads i := Function.update_of_ne hi _ _
  have hold {i : ℕ} {activity : Activity} (hi : (st'.threads i).activity = activity)
      (hne : activity ≠ .exiting) : (st.threads i).activity = activity := by
    have hequal : i ≠ c := by
      rintro rfl
      rw [hself] at hi
      exact hne hi.symm
    rw [hother hequal] at hi
    exact hi
  refine ⟨fun i hi => ?_, fun i hi => ?_, fun i hi => ?_,
    hsame.maxTIDGiven.trans h.max, ?_, fun ID => ?_, ?_, fun i hi => ?_,
    fun d t ht => h.joined d t (hold ht (by simp)), fun d i hd => ?_,
    fun d e i hd he => h.creator d e i (hold hd (by simp)) (hold he (by simp))⟩
  · have hbeyond : st.created < i := hi
    rw [hother (by omega)]
    exact h.unborn i hi
  · by_cases hequal : i = c
    · rw [hequal, hself]
      simp
    · rw [hother hequal]
      exact h.born i hi
  · by_cases hequal : i = c
    · rw [hequal, hself]
      exact h.tid c hle
    · rw [hother hequal]
      exact h.tid i hi
  · show space.threadIDs.Nodup
    rw [hids]
    exact h.nodup.erase _
  · show ID ∈ space.threadIDs ↔ _
    rw [hids, h.nodup.mem_erase_iff, h.mem, h.tid c hle]
    constructor
    · rintro ⟨hne, i, hi, hequal, hlive⟩
      refine ⟨i, hi, hequal, ?_⟩
      rw [hother (by omega)]
      exact hlive
    · rintro ⟨i, hi, hequal, hlive⟩
      have hne : i ≠ c := by
        rintro rfl
        rw [hself] at hlive
        cases hlive
      rw [hother hne] at hlive
      exact ⟨by omega, i, hi, hequal, hlive⟩
  · show space.threadIDs.length ≤ _
    rw [hids]
    exact List.length_erase_le.trans h.room
  · by_cases hequal : i = c
    · rw [hequal]
      exact hlt
    · rw [hother hequal] at hi
      exact h.exited i hi
  · have hembryo := h.child d i (hold hd (by simp))
    rw [hother (by rintro rfl; rw [hc] at hembryo; cases hembryo)]
    exact hembryo

/-- Leaving, the stack: the thread is gone in either place. -/
theorem releaseStack (h : st.IdInv) (hc : (st.threads c).activity = .exiting)
    (hok : st.releaseStack c = .ok st') : st'.IdInv := by
  rw [ThreadRun.releaseStack, Except.bind_eq_ok] at hok
  obtain ⟨space, hremove, hequal⟩ := hok
  cases hequal
  have hspace : space.threadIDs = st.space.threadIDs ∧
      space.maxTIDGiven = st.space.maxTIDGiven := by
    rw [AddrSpace.removeThreadStackPointer] at hremove
    split at hremove
    · cases hremove
      exact ⟨rfl, rfl⟩
    · cases hremove
  apply (h.of_space space hspace.1 hspace.2).setThread
  · exact h.le_created (by rw [hc]; decide)
  · rfl
  · show Activity.isLive .finished = _
    rw [hc]
    rfl
  · simp
  · intro _
    exact h.exited c (by rw [hc]; rfl)
  · simp
  · simp
  · exact h.not_creating (by rw [hc]; decide)

/-- The loop of a join sleeps while the thread is alive, and returns when it is gone. -/
theorem joinLoop_cases (st : ThreadRun) (c : ℕ) {t : ℕ}
    (hlt : t ∈ st.space.threadIDs → t < UserThreadMax) :
    (∃ space, t < UserThreadMax ∧ st.space.SameTables space ∧
        st.joinLoop c t = .ok ({ st with space := space }.moveTo c (.joining t))) ∨
      (t ∉ st.space.threadIDs ∧ st.joinLoop c t = .ok (st.resume c 0)) := by
  by_cases hmem : t ∈ st.space.threadIDs
  · obtain ⟨space, hwait, hsame⟩ := AddrSpace.updateCondition_of_lt st.space (hlt hmem)
      Condition.wait
    refine Or.inl ⟨space, hlt hmem, hsame, ?_⟩
    simp only [joinLoop, AddrSpace.containThreadID, hmem, decide_true, if_true,
      AddrSpace.threadJoinConditionWait, hwait, Except.ok_bind]
    rfl
  · refine Or.inr ⟨hmem, ?_⟩
    simp only [joinLoop, AddrSpace.containThreadID, hmem, decide_false, Bool.false_eq_true,
      if_false]
    rfl

theorem joinLoop (h : st.IdInv) (hc : (st.threads c).activity.isLive)
    (hembryo : (st.threads c).activity ≠ .embryo) {t : ℕ}
    (hlt : t ∈ st.space.threadIDs → t < UserThreadMax) (hok : st.joinLoop c t = .ok st') :
    st'.IdInv := by
  obtain ⟨space, hin, hsame, hequal⟩ | ⟨-, hequal⟩ := joinLoop_cases st c hlt
  · rw [hequal] at hok
    cases hok
    apply (h.of_space space hsame.threadIDs hsame.maxTIDGiven).setThread
    · apply h.le_created
      intro hunborn
      rw [hunborn] at hc
      cases hc
    · rfl
    · exact hc.symm
    · simp
    · intro hexited
      cases hexited
    · intro u hu
      cases hu
      exact hin
    · simp
    · exact h.not_creating hembryo
  · rw [hequal] at hok
    cases hok
    exact h.resume hc hembryo 0

/-- A safe join of a living thread stays in the table. -/
theorem lt_of_idSafe (h : st.IdInv) {t : ℕ} (hsafe : st.IdSafe (.join c t))
    (hself : (st.threads c).tid ≠ t) (hmem : t ∈ st.space.threadIDs) : t < UserThreadMax := by
  obtain ⟨i, hi, htid, hlive⟩ := h.exists_of_mem hmem
  have hlt := hsafe i hi htid hlive (by rintro rfl; exact hself htid)
  rw [h.tid i hi] at htid
  omega

/-- A join that does not return at once goes into its loop. -/
theorem doUserThreadJoin_cases (h : st.IdInv) {t : ℕ} (hsafe : st.IdSafe (.join c t)) :
    st.doUserThreadJoin c t = .ok (st.resume c (-1)) ∨
      (t ∈ st.space.threadIDs → t < UserThreadMax) ∧
        st.doUserThreadJoin c t = st.joinLoop c t := by
  rw [doUserThreadJoin]
  split
  · exact Or.inl rfl
  · rename_i hself
    split
    · exact Or.inr ⟨h.lt_of_idSafe hsafe hself, rfl⟩
    · exact Or.inl rfl

/-- **Safe sections keep the ids in order.** -/
theorem step (h : st.IdInv) {call : ThreadCall} (hsafe : st.IdSafe call)
    (hstep : st.Step call st') : st'.IdInv := by
  obtain ⟨c, rfl, hc, hresult⟩ | ⟨c, child, rfl, hc, hresult⟩ | ⟨c, rfl, hc, hresult⟩ |
    ⟨c, rfl, hc, hresult⟩ | ⟨c, t, rfl, hc, hresult⟩ | ⟨c, t, conditions, rfl, hc, hlt, hresult⟩ :=
    exec_cases hstep
  · obtain ⟨-, hequal⟩ | ⟨hroom, hequal⟩ := h.doUserThreadCreate_cases c
    · rw [hequal] at hresult
      cases hresult
      exact h.resume (by rw [hc]; rfl) (by rw [hc]; decide) (-1)
    · rw [hequal] at hresult
      cases hresult
      exact h.accept hc hroom
  · obtain ⟨k, -, hequal⟩ | ⟨-, hequal⟩ := h.takeStack_cases hc
    · rw [hequal] at hresult
      cases hresult
      exact h.giveStack hc k
    · rw [hequal] at hresult
      cases hresult
  · obtain ⟨space, hequal, hsame⟩ := h.doUserThreadExit_eq_ok hc hsafe
    rw [hequal] at hresult
    cases hresult
    exact h.moveTo_exiting hc hsafe hsame
  · exact h.releaseStack hc hresult.symm
  · rcases h.doUserThreadJoin_cases hsafe with hequal | ⟨hin, hequal⟩
    · rw [hequal] at hresult
      cases hresult
      exact h.resume (by rw [hc]; rfl) (by rw [hc]; decide) (-1)
    · rw [hequal] at hresult
      exact h.joinLoop (by rw [hc]; rfl) (by rw [hc]; decide) hin hresult.symm
  · apply (h.of_space { st.space with threadConditions := conditions } rfl rfl).joinLoop
    · show (st.threads c).activity.isLive
      rw [hc]
      rfl
    · show (st.threads c).activity ≠ .embryo
      rw [hc]
      simp
    · intro _
      exact hlt
    · exact hresult.symm

/-- A safe section finds its condition variable in the table. -/
theorem inTable (h : st.IdInv) {call : ThreadCall} (hsafe : st.IdSafe call) :
    st.InTable call := by
  intro huses result hexec
  obtain ⟨c, rfl, -, -⟩ | ⟨c, child, rfl, -, -⟩ | ⟨c, rfl, hc, hresult⟩ | ⟨c, rfl, -, -⟩ |
    ⟨c, t, rfl, hc, hresult⟩ | ⟨c, t, conditions, rfl, hc, hlt, hresult⟩ := exec_cases hexec
  · cases huses
  · cases huses
  · obtain ⟨space, hequal, -⟩ := h.doUserThreadExit_eq_ok hc hsafe
    exact ⟨_, hresult.trans hequal⟩
  · cases huses
  · rcases h.doUserThreadJoin_cases hsafe with hequal | ⟨hin, hequal⟩
    · exact ⟨_, hresult.trans hequal⟩
    · obtain ⟨space, -, -, hloop⟩ | ⟨-, hloop⟩ := joinLoop_cases st c hin
      · exact ⟨_, hresult.trans (hequal.trans hloop)⟩
      · exact ⟨_, hresult.trans (hequal.trans hloop)⟩
  · obtain ⟨space, -, -, hloop⟩ | ⟨-, hloop⟩ := joinLoop_cases
      { st with space := { st.space with threadConditions := conditions } } c fun _ => hlt
    · exact ⟨_, hresult.trans hloop⟩
    · exact ⟨_, hresult.trans hloop⟩

/-- A section that is not safe does not find its condition variable. -/
theorem not_inTable (h : st.IdInv) {call : ThreadCall} (henabled : (st.exec call).isSome)
    (hbroken : ¬ st.IdSafe call) : ¬ st.InTable call := by
  have hbounds {ID : ℕ} (hID : UserThreadMax ≤ ID) (space : AddrSpace)
      (f : Condition → Condition) : space.updateCondition ID f = .error .bounds :=
    dif_neg (Nat.not_lt.mpr hID)
  intro hin
  obtain ⟨result, hexec⟩ := Option.isSome_iff_exists.mp henabled
  obtain ⟨c, rfl, -, -⟩ | ⟨c, child, rfl, -, -⟩ | ⟨c, rfl, hc, hresult⟩ | ⟨c, rfl, -, -⟩ |
    ⟨c, t, rfl, hc, hresult⟩ | ⟨c, t, conditions, rfl, -, -, -⟩ := exec_cases hexec
  · exact hbroken trivial
  · exact hbroken trivial
  · have hle : c ≤ st.created := h.le_created (by rw [hc]; decide)
    have hmem : (st.threads c).tid ∈ st.space.threadIDs := by
      rw [h.mem_iff hle, hc]
      rfl
    obtain ⟨st', hok⟩ := hin rfl result hexec
    rw [hresult, doUserThreadExit, AddrSpace.removeThreadID, if_pos hmem, h.tid c hle] at hok
    simp only [AddrSpace.threadJoinConditionBroadcast, hbounds (Nat.not_lt.mp hbroken),
      Except.error_bind] at hok
    cases hok
  · exact hbroken trivial
  · obtain ⟨i, hi, htid, hlive, hne, hbeyond⟩ : ∃ i ≤ st.created, (st.threads i).tid = t ∧
        (st.threads i).activity.isLive ∧ i ≠ c ∧ UserThreadMax ≤ i + 1 := by
      simpa [IdSafe] using hbroken
    have hle : c ≤ st.created := h.le_created (by rw [hc]; decide)
    have hself : (st.threads c).tid ≠ t := by
      rw [← htid, h.tid c hle, h.tid i hi]
      omega
    have hmem : t ∈ st.space.threadIDs := by
      rw [← htid, h.mem_iff hi]
      exact hlive
    obtain ⟨st', hok⟩ := hin rfl result hexec
    rw [h.tid i hi] at htid
    simp only [hresult, doUserThreadJoin, if_neg hself, ThreadRun.joinLoop,
      AddrSpace.containThreadID, hmem, decide_true, if_true, AddrSpace.threadJoinConditionWait,
      hbounds (htid ▸ hbeyond), Except.error_bind] at hok
    cases hok
  · exact hbroken trivial

/-- Different threads have different ids, so different condition variables. -/
theorem conditionsDistinct (h : st.IdInv) : st.ConditionsDistinct := by
  intro i j hne hi hj k hik hjk
  have hequal : (st.threads i).tid = (st.threads j).tid := by
    simp only [conditionOf, Option.dite_none_right_eq_some, Option.some.injEq] at hik hjk
    obtain ⟨_, hik⟩ := hik
    obtain ⟨_, hjk⟩ := hjk
    exact congrArg Fin.val (hik.trans hjk.symm)
  rw [h.tid i hi.1, h.tid j hj.1] at hequal
  omega

/-- The invariant of runs whose sections are all safe. -/
theorem of_trace {numPages : ℕ} {hpages : numPages ≤ NumPhysPages}
    {pageTable : List TranslationEntry} {pid : ℕ} {steps : List (Base.Step ThreadRun ThreadCall)}
    (hrun : Trace Step (ThreadRun.start (AddrSpace.init numPages hpages pageTable pid)) steps st)
    (hsafe : ∀ x ∈ steps, x.before.IdSafe x.label) : st.IdInv :=
  (hrun.invariant (fun _ hbefore hstep hcall => hbefore.step hcall hstep)
    (IdInv.start hpages pageTable pid) hsafe).1

end IdInv

/-- **The ids of the first threads stay in the table.** In every run in which only the
main thread and the first `UserThreadMax - 2` threads created leave or are joined,
different threads that are alive or being joined have different condition variables, and
the condition variable of the next section is in the table exactly when that section
keeps to this. -/
theorem ids_in_table {numPages : ℕ} (hpages : numPages ≤ NumPhysPages)
    (pageTable : List TranslationEntry) (pid : ℕ) {steps : List (Base.Step ThreadRun ThreadCall)}
    {st : ThreadRun}
    (hrun : Trace Step (start (AddrSpace.init numPages hpages pageTable pid)) steps st)
    (hsafe : ∀ x ∈ steps, x.before.IdSafe x.label) :
    (∀ call, (st.exec call).isSome → (st.InTable call ↔ st.IdSafe call)) ∧
      st.ConditionsDistinct := by
  have hinv := IdInv.of_trace hrun hsafe
  refine ⟨fun call hcall => ⟨fun hin => ?_, hinv.inTable⟩, hinv.conditionsDistinct⟩
  by_contra hbroken
  exact hinv.not_inTable hcall hbroken hin

/-- A thread is created, and leaves while the main thread waits for it. -/
theorem ids_in_table_one : ∃ steps st,
    Trace Step (start (AddrSpace.init 18 (by decide) [] 0)) steps st ∧
      steps.map (fun x => x.label) =
        [.create 0, .takeStack 0, .join 0 2, .exit 1, .wake 0] ∧
      (∀ x ∈ steps, x.before.IdSafe x.label) ∧
      (∀ call, (st.exec call).isSome → (st.InTable call ↔ st.IdSafe call)) ∧
      st.ConditionsDistinct := by
  set calls : List ThreadCall := [.create 0, .takeStack 0, .join 0 2, .exit 1, .wake 0] with hcalls
  set first := start (AddrSpace.init 18 (by decide) [] 0) with hfirst
  have hsome : (first.execAll calls).isSome := by decide
  obtain ⟨st, hst⟩ := Option.isSome_iff_exists.mp hsome
  have hrun := trace_of_execAll hst
  have hsafe : ∀ x ∈ first.stepsOf calls, x.before.IdSafe x.label := by decide
  exact ⟨_, st, hrun, by decide, hsafe, ids_in_table (by decide) [] 0 hrun hsafe⟩

/-- The 47th thread created has the id `48`, and the main thread joining it goes to a
condition variable that is not there. -/
theorem not_inTable_of_47_threads : ¬ ∀ steps st,
    Trace Step (start (AddrSpace.init 18 (by decide) [] 0)) steps st →
      ∀ call, st.InTable call := by
  intro hclaim
  have hfault : ((((start (AddrSpace.init 18 (by decide) [] 0)).execAll
      (List.replicate 47 [.create 0, .takeStack 0]).flatten).bind
        fun st => st.exec (.join 0 48)).map fun result => result.toBool) = some false := by
    decide +kernel
  obtain ⟨result, hresult, hfalse⟩ := Option.map_eq_some_iff.mp hfault
  obtain ⟨st, hst, hexec⟩ := Option.bind_eq_some_iff.mp hresult
  obtain ⟨st', rfl⟩ := hclaim _ st (trace_of_execAll hst) (.join 0 48) rfl result hexec
  cases hfalse

end ThreadRun

end Nachos
