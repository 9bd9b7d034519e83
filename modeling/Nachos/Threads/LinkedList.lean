/-
# Lists of pointers

`threads/list.{h,cc}`: the queues of threads, of messages and of pending interrupts are chains of
`ListElement`s between the pointers `first` and `last`. The two pointers and the `next` fields
are changed by six operations; whatever their order, the chain from `first` is finite, ends in
`last`, and carries a sequence. Elsewhere a queue is modelled by that sequence.

All lists share one heap. `new` may return any address where nothing is.
-/

import Mathlib.Data.List.TakeWhile
import Nachos.Base.Chain
import Nachos.Base.Trace
import Nachos.Machine.Interrupt

namespace Nachos

open Base

variable {α : Type}

/-- `class ListElement` with its pointer. -/
structure ListNode (α : Type) extends ListElement α where
  next : Pointer
  deriving DecidableEq, Repr

/-- The constructor `ListElement::ListElement`. -/
def ListNode.new (itemPtr : α) (sortKey : ℤ) : ListNode α := ⟨⟨itemPtr, sortKey⟩, none⟩

/-- `class List`, in the heap of all elements. -/
structure LinkedList (α : Type) where
  heap : Heap (ListNode α)
  first : Pointer
  last : Pointer

namespace LinkedList

/-- `List::List`. -/
def new (heap : Heap (ListNode α)) : LinkedList α := ⟨heap, none, none⟩

/-- `List::IsEmpty`. -/
def isEmpty (l : LinkedList α) : Bool := l.first == none

/-- `List::Append`; `element` is what `new` returns. -/
def append (l : LinkedList α) (element : ℕ) (item : α) : Except Fault (LinkedList α) := do
  let heap := l.heap.put element (.new item 0)
  if l.isEmpty then
    return ⟨heap, some element, some element⟩
  else
    let heap ← heap.modify l.last fun node => { node with next := some element }
    return ⟨heap, l.first, some element⟩

/-- `List::Prepend`. -/
def prepend (l : LinkedList α) (element : ℕ) (item : α) : Except Fault (LinkedList α) := do
  let heap := l.heap.put element (.new item 0)
  if l.isEmpty then
    return ⟨heap, some element, some element⟩
  else
    let heap ← heap.modify (some element) fun node => { node with next := l.first }
    return ⟨heap, some element, l.last⟩

/-- The loop of `SortedInsert` from `ptr` on. It returns nothing if it goes on for more than the
given number of rounds. -/
def insertLoop (l : LinkedList α) (element : ℕ) (sortKey : ℤ) :
    ℕ → Pointer → Except Fault (Option (LinkedList α))
  | 0, _ => return none
  | rounds + 1, ptr => do
      let node ← l.heap.load ptr
      if node.next ≠ none then
        let next ← l.heap.load node.next
        if sortKey < next.key then
          let heap ← l.heap.modify (some element) fun new => { new with next := node.next }
          let heap ← heap.modify ptr fun node => { node with next := some element }
          return some { l with heap := heap }
        else
          insertLoop l element sortKey rounds node.next
      else
        -- The item goes at the end of the list.
        let heap ← l.heap.modify l.last fun node => { node with next := some element }
        return some ⟨heap, l.first, some element⟩

/-- `List::SortedInsert`. -/
def sortedInsert (l : LinkedList α) (rounds element : ℕ) (item : α) (sortKey : ℤ) :
    Except Fault (Option (LinkedList α)) := do
  let heap := l.heap.put element (.new item sortKey)
  if l.isEmpty then
    return some ⟨heap, some element, some element⟩
  else
    let first ← heap.load l.first
    if sortKey < first.key then
      let heap ← heap.modify (some element) fun node => { node with next := l.first }
      return some ⟨heap, some element, l.last⟩
    else
      insertLoop { l with heap := heap } element sortKey rounds l.first

/-- `List::SortedRemove`. `keyPtr` is what the argument points to, if it is not null; it is
returned as it is afterwards, beside the item. -/
def sortedRemove (l : LinkedList α) (keyPtr : Option ℤ) :
    Except Fault (Option α × Option ℤ × LinkedList α) := do
  if l.isEmpty then
    return (none, keyPtr, l)
  else
    let element ← l.heap.load l.first
    let (first, last) := if l.first = l.last then (none, none) else (element.next, l.last)
    let keyPtr := keyPtr.map fun _ => element.key
    let heap ← l.heap.delete l.first
    return (some element.item, keyPtr, ⟨heap, first, last⟩)

/-- `List::Remove`. -/
def remove (l : LinkedList α) : Except Fault (Option α × LinkedList α) := do
  let (thing, _, l) ← l.sortedRemove none
  return (thing, l)

/-! ## What a list carries -/

/-- The items and keys of the nodes of a chain. -/
def elements (cells : List (ℕ × ListNode α)) : List (ListElement α) :=
  cells.map fun cell => cell.2.toListElement

/-- The chain from `first` consists of `cells` and ends in `last`. -/
structure Links (l : LinkedList α) (cells : List (ℕ × ListNode α)) : Prop where
  chain : Chain l.heap ListNode.next l.first cells none
  last : l.last = Chain.lastAddress cells

/-- The list carries the sequence. -/
def Represents (l : LinkedList α) (sequence : List (ListElement α)) : Prop :=
  ∃ cells, l.Links cells ∧ elements cells = sequence

/-- A node of the list is at the address. -/
def Owns (l : LinkedList α) (a : ℕ) : Prop := ∃ cells, l.Links cells ∧ a ∈ cells.map Prod.fst

/-- A call, with the address of the element that it allocates or with what it returns. The first
number of `SortedRemove` is what the argument points to before, the second one what it points to
afterwards. -/
inductive Call (α : Type)
  | append (element : ℕ) (item : α)
  | prepend (element : ℕ) (item : α)
  | remove (thing : Option α)
  | isEmpty (answer : Bool)
  | sortedInsert (element : ℕ) (item : α) (sortKey : ℤ)
  | sortedRemove (before : ℤ) (thing : Option α) (key : ℤ)

/-- The address that a call allocates. -/
def Call.allocated : Call α → Option ℕ
  | .append element _ | .prepend element _ | .sortedInsert element _ _ => some element
  | _ => none

/-- All calls but `Append` and `Prepend`. -/
def Call.KeepsOrder : Call α → Prop
  | .append _ _ | .prepend _ _ => False
  | _ => True

/-- One call. -/
def Step (l : LinkedList α) (call : Call α) (l' : LinkedList α) : Prop :=
  match call with
  | .append element item => l.heap element = none ∧ l.append element item = .ok l'
  | .prepend element item => l.heap element = none ∧ l.prepend element item = .ok l'
  | .remove thing => l.remove = .ok (thing, l')
  | .isEmpty answer => l.isEmpty = answer ∧ l' = l
  | .sortedInsert element item sortKey =>
      l.heap element = none ∧ ∃ rounds, l.sortedInsert rounds element item sortKey = .ok (some l')
  | .sortedRemove before thing key => l.sortedRemove (some before) = .ok (thing, some key, l')

/-- What the call is to do to a sequence, and what it is to return. -/
def SequenceStep (sequence : List (ListElement α)) (call : Call α)
    (sequence' : List (ListElement α)) : Prop :=
  match call with
  | .append _ item => sequence' = sequence ++ [⟨item, 0⟩]
  | .prepend _ item => sequence' = ⟨item, 0⟩ :: sequence
  | .remove thing => thing = sequence.head?.map ListElement.item ∧ sequence' = sequence.tail
  | .isEmpty answer => answer = sequence.isEmpty ∧ sequence' = sequence
  | .sortedInsert _ item sortKey => sequence' = Nachos.sortedInsert sequence item sortKey
  | .sortedRemove before thing key =>
      thing = sequence.head?.map ListElement.item ∧
        key = (sequence.head?.map ListElement.key).getD before ∧ sequence' = sequence.tail

/-- A call leaves the sequence, and changes the heap at the addresses `own` only. -/
structure Leaves (l : LinkedList α) (own : List ℕ) (l' : LinkedList α)
    (sequence : List (ListElement α)) : Prop where
  represents : l'.Represents sequence
  frame (a : ℕ) : a ∉ own → l'.heap a = l.heap a

variable {l l' : LinkedList α} {cells before behind : List (ℕ × ListNode α)}
  {sequence : List (ListElement α)} {element a : ℕ} {item : α} {sortKey : ℤ} {node : ListNode α}

@[simp]
theorem elements_nil : elements ([] : List (ℕ × ListNode α)) = [] := rfl

@[simp]
theorem elements_cons : elements ((a, node) :: cells) = node.toListElement :: elements cells := rfl

@[simp]
theorem elements_eq_nil : elements cells = [] ↔ cells = [] := List.map_eq_nil_iff

@[simp]
theorem elements_append : elements (before ++ behind) = elements before ++ elements behind :=
  List.map_append

/-! ## Empty lists -/

theorem links_new (heap : Heap (ListNode α)) : (new heap).Links [] := ⟨rfl, rfl⟩

/-- A list without nodes has null pointers. -/
theorem Links.of_nil (h : l.Links []) : l.first = none ∧ l.last = none := ⟨h.chain, h.last⟩

/-- The pointers of a list with nodes. -/
theorem Links.of_cons (h : l.Links ((a, node) :: cells)) :
    l.first = some a ∧ l.heap a = some node ∧ l.last ≠ none := by
  obtain ⟨hfirst, hnode, -⟩ := h.chain
  refine ⟨hfirst, hnode, ?_⟩
  rw [h.last, Chain.lastAddress, List.map_cons, Ne, List.getLast?_eq_none_iff]
  exact List.cons_ne_nil _ _

theorem Links.isEmpty_iff (h : l.Links cells) : l.isEmpty = true ↔ cells = [] := by
  rw [isEmpty, beq_iff_eq]
  cases cells with
  | nil => exact ⟨fun _ => rfl, fun _ => h.of_nil.1⟩
  | cons cell cells =>
      rw [h.of_cons.1]
      exact ⟨nofun, nofun⟩

/-- The first element of an empty list. -/
theorem leaves_singleton (l : LinkedList α) (element : ℕ) (item : α) (sortKey : ℤ) :
    l.Leaves [element] ⟨l.heap.put element (.new item sortKey), some element, some element⟩
      [⟨item, sortKey⟩] where
  represents := ⟨[(element, .new item sortKey)], ⟨⟨rfl, Heap.put_self .., rfl⟩, rfl⟩, rfl⟩
  frame _ ha := Heap.put_of_ne _ _ (List.ne_of_not_mem_cons ha)

/-! ## New elements -/

/-- A new element in front of the others. -/
theorem Links.push (h : l.Links ((a, node) :: cells)) (hfresh : l.heap element = none)
    (item : α) (sortKey : ℤ) :
    ((l.heap.put element (.new item sortKey)).modify (some element)
        fun node => { node with next := l.first }) =
      .ok (l.heap.put element ⟨⟨item, sortKey⟩, l.first⟩) ∧
    l.Leaves [element] ⟨l.heap.put element ⟨⟨item, sortKey⟩, l.first⟩, some element, l.last⟩
      (⟨item, sortKey⟩ :: elements ((a, node) :: cells)) := by
  refine ⟨?_, ⟨_, ⟨h.chain.cons hfresh rfl, ?_⟩, rfl⟩, fun b hb => ?_⟩
  · rw [Heap.modify_of_some (Heap.put_self ..), Heap.put_put]
    rfl
  · exact h.last
  · exact Heap.put_of_ne _ _ (List.ne_of_not_mem_cons hb)

/-- A new element behind the last one. -/
theorem Links.pushBack (h : l.Links (before ++ [(a, node)])) (hfresh : l.heap element = none)
    (item : α) (sortKey : ℤ) :
    ∃ heap, (l.heap.put element (.new item sortKey)).modify l.last
        (fun node => { node with next := some element }) = .ok heap ∧
      l.Leaves [element, a] ⟨heap, l.first, some element⟩
        (elements (before ++ [(a, node)]) ++ [⟨item, sortKey⟩]) := by
  have hnode : l.heap a = some node := h.chain.heap_eq (by simp)
  have hne : a ≠ element := by
    rintro rfl
    rw [hfresh] at hnode
    cases hnode
  have hnull : none = node.next := by
    obtain ⟨-, -, -, -, hend⟩ := Chain.append_iff.mp h.chain
    exact hend.symm
  have hlast : l.last = some a := h.last.trans Chain.lastAddress_append_cons
  have hchain := h.chain.insert { node with next := some element } (.new item sortKey) hfresh rfl
    hnull
  refine ⟨_, ?_, ⟨_, ⟨hchain, ?_⟩, ?_⟩, fun b hb => ?_⟩
  · rw [hlast]
    exact Heap.modify_of_some ((Heap.put_of_ne _ _ hne).trans hnode) _
  · rw [Chain.lastAddress_append_cons]
    rfl
  · simp [ListNode.new]
  · obtain ⟨helement, ha⟩ := List.ne_and_not_mem_of_not_mem_cons hb
    exact (Heap.put_of_ne _ _ (List.ne_of_not_mem_cons ha)).trans (Heap.put_of_ne _ _ helement)

theorem Leaves.mono {own own' : List ℕ} (h : l.Leaves own l' sequence) (hsub : own ⊆ own') :
    l.Leaves own' l' sequence :=
  ⟨h.represents, fun a ha => h.frame a fun hmem => ha (hsub hmem)⟩

/-- **`Append`** adds at the end. -/
theorem Links.append (h : l.Links cells) (hfresh : l.heap element = none) (item : α) :
    ∃ l', l.append element item = .ok l' ∧
      l.Leaves (element :: cells.map Prod.fst) l' (elements cells ++ [⟨item, 0⟩]) := by
  obtain rfl | ⟨before, ⟨a, node⟩, rfl⟩ := List.eq_nil_or_concat' cells
  · refine ⟨_, ?_, l.leaves_singleton element item 0⟩
    rw [LinkedList.append, if_pos (h.isEmpty_iff.mpr rfl)]
    rfl
  · obtain ⟨heap, hmodify, hleaves⟩ := h.pushBack hfresh item 0
    refine ⟨_, ?_, hleaves.mono fun b hb => ?_⟩
    · rw [LinkedList.append, if_neg (by simp [h.isEmpty_iff]), hmodify]
      rfl
    · simp only [List.mem_cons, List.not_mem_nil, or_false] at hb
      rcases hb with rfl | rfl <;> simp

/-- **`Prepend`** adds at the front. -/
theorem Links.prepend (h : l.Links cells) (hfresh : l.heap element = none) (item : α) :
    ∃ l', l.prepend element item = .ok l' ∧
      l.Leaves (element :: cells.map Prod.fst) l' (⟨item, 0⟩ :: elements cells) := by
  cases cells with
  | nil =>
      refine ⟨_, ?_, l.leaves_singleton element item 0⟩
      rw [LinkedList.prepend, if_pos (h.isEmpty_iff.mpr rfl)]
      rfl
  | cons cell cells =>
      obtain ⟨hmodify, hleaves⟩ := h.push hfresh item 0
      refine ⟨_, ?_, hleaves.mono (by simp)⟩
      rw [LinkedList.prepend, if_neg (by simp [h.isEmpty_iff]), hmodify]
      rfl

/-- **The loop of `SortedInsert`** ends, and puts the new element in front of the first later one
with a greater key. -/
theorem Links.insertLoop (h : l.Links (before ++ (a, node) :: behind))
    (hfresh : l.heap element = none) (item : α) (sortKey : ℤ) {rounds : ℕ}
    (hrounds : behind.length < rounds) :
    ∃ l', LinkedList.insertLoop { l with heap := l.heap.put element (.new item sortKey) } element
        sortKey rounds (some a) = .ok (some l') ∧
      l.Leaves (element :: (before ++ (a, node) :: behind).map Prod.fst) l'
        (elements before ++ insertAfter ⟨item, sortKey⟩ node.toListElement (elements behind)) := by
  have hold {b : ℕ} {other : ListNode α} (hb : l.heap b = some other) :
      l.heap.put element (.new item sortKey) b = some other := by
    refine (Heap.put_of_ne _ _ ?_).trans hb
    rintro rfl
    rw [hfresh] at hb
    cases hb
  induction behind generalizing before a node rounds with
  | nil =>
      obtain ⟨rounds, rfl⟩ : ∃ n, rounds = n + 1 := ⟨rounds - 1, by omega⟩
      obtain ⟨-, -, -, hnode, hrest⟩ := Chain.append_iff.mp h.chain
      obtain ⟨heap, hmodify, hleaves⟩ := h.pushBack hfresh item sortKey
      rw [elements_append, List.append_assoc] at hleaves
      refine ⟨_, ?_, hleaves.mono fun b hb => ?_⟩
      · rw [LinkedList.insertLoop, Heap.load_of_some (hold hnode), Except.ok_bind,
          if_neg fun hne => hne hrest, hmodify]
        rfl
      · simp only [List.mem_cons, List.not_mem_nil, or_false] at hb
        rcases hb with rfl | rfl <;> simp
  | cons cell behind ih =>
      obtain ⟨rounds, rfl⟩ : ∃ n, rounds = n + 1 := ⟨rounds - 1, by omega⟩
      obtain ⟨-, -, -, hnode, hrest⟩ := Chain.append_iff.mp h.chain
      obtain ⟨c, next⟩ := cell
      obtain ⟨hnext, hc, -⟩ := hrest
      rw [LinkedList.insertLoop, Heap.load_of_some (hold hnode), Except.ok_bind,
        if_pos (by simp [hnext]), hnext, Heap.load_of_some (hold hc), Except.ok_bind,
        elements_cons, insertAfter]
      by_cases hlt : sortKey < next.key
      · rw [if_pos hlt, if_pos hlt, Heap.modify_of_some (Heap.put_self ..), Heap.put_put,
          Except.ok_bind]
        have hne : a ≠ element := by
          rintro rfl
          rw [hfresh] at hnode
          cases hnode
        rw [Heap.modify_of_some ((Heap.put_of_ne _ _ hne).trans hnode), Except.ok_bind]
        have hchain := h.chain.insert { node with next := some element }
          ⟨⟨item, sortKey⟩, some c⟩ hfresh rfl hnext.symm
        refine ⟨_, rfl, ⟨_, ⟨hchain, ?_⟩, ?_⟩, fun b hb => ?_⟩
        · refine h.last.trans ?_
          rw [Chain.lastAddress_append_cons, Chain.lastAddress_append_cons]
          rfl
        · simp
        · simp only [List.map_append, List.map_cons, List.mem_cons, List.mem_append, not_or] at hb
          exact (Heap.put_of_ne _ _ hb.2.2.1).trans (Heap.put_of_ne _ _ hb.1)
      · rw [if_neg hlt, if_neg hlt]
        have hsplit : before ++ (a, node) :: (c, next) :: behind =
            (before ++ [(a, node)]) ++ (c, next) :: behind := by simp
        rw [hsplit] at h ⊢
        obtain ⟨l', hloop, hleaves⟩ := ih h (Nat.lt_of_succ_lt_succ hrounds)
        refine ⟨l', hloop, ?_⟩
        rw [elements_append, List.append_assoc (elements before)] at hleaves
        exact hleaves

/-- **`SortedInsert`** ends, and does what is done to the sequence. -/
theorem Links.sortedInsert (h : l.Links cells) (hfresh : l.heap element = none) (item : α)
    (sortKey : ℤ) {rounds : ℕ} (hrounds : cells.length ≤ rounds) :
    ∃ l', l.sortedInsert rounds element item sortKey = .ok (some l') ∧
      l.Leaves (element :: cells.map Prod.fst) l'
        (Nachos.sortedInsert (elements cells) item sortKey) := by
  cases cells with
  | nil =>
      refine ⟨_, ?_, l.leaves_singleton element item sortKey⟩
      rw [LinkedList.sortedInsert, if_pos (h.isEmpty_iff.mpr rfl)]
      rfl
  | cons cell cells =>
      obtain ⟨a, node⟩ := cell
      obtain ⟨hfirst, hnode, -⟩ := h.of_cons
      have hne : a ≠ element := by
        rintro rfl
        rw [hfresh] at hnode
        cases hnode
      have hload : (l.heap.put element (.new item sortKey)).load l.first = .ok node := by
        rw [hfirst]
        exact Heap.load_of_some ((Heap.put_of_ne _ _ hne).trans hnode)
      rw [LinkedList.sortedInsert, if_neg (by simp [h.isEmpty_iff]), hload, Except.ok_bind,
        elements_cons, Nachos.sortedInsert]
      by_cases hlt : sortKey < node.key
      · obtain ⟨hmodify, hleaves⟩ := h.push hfresh item sortKey
        rw [if_pos hlt, if_pos hlt, hmodify]
        exact ⟨_, rfl, hleaves.mono (by simp)⟩
      · rw [if_neg hlt, if_neg hlt]
        have hall : l.Links ([] ++ (a, node) :: cells) := h
        obtain ⟨l', hloop, hleaves⟩ := hall.insertLoop hfresh item sortKey hrounds
        rw [← hfirst] at hloop
        exact ⟨l', hloop, hleaves⟩

/-- A loop that returns does so with more rounds as well. -/
theorem insertLoop_mono {rounds more : ℕ} {ptr : Pointer}
    (h : l.insertLoop element sortKey rounds ptr = .ok (some l')) :
    l.insertLoop element sortKey (rounds + more) ptr = .ok (some l') := by
  induction rounds generalizing ptr with
  | zero => cases h
  | succ rounds ih =>
      rw [insertLoop, Except.bind_eq_ok] at h
      obtain ⟨node, hload, h⟩ := h
      rw [Nat.succ_add, insertLoop, hload, Except.ok_bind]
      by_cases hnext : node.next ≠ none
      · rw [if_pos hnext, Except.bind_eq_ok] at h
        obtain ⟨next, hload', h⟩ := h
        rw [if_pos hnext, hload', Except.ok_bind]
        by_cases hlt : sortKey < next.key
        · rw [if_pos hlt] at h ⊢
          exact h
        · rw [if_neg hlt] at h ⊢
          exact ih h
      · rw [if_neg hnext] at h ⊢
        exact h

theorem sortedInsert_mono {rounds more : ℕ}
    (h : l.sortedInsert rounds element item sortKey = .ok (some l')) :
    l.sortedInsert (rounds + more) element item sortKey = .ok (some l') := by
  rw [sortedInsert] at h ⊢
  by_cases hempty : l.isEmpty = true
  · rw [if_pos hempty] at h ⊢
    exact h
  · rw [if_neg hempty, Except.bind_eq_ok] at h
    obtain ⟨first, hload, h⟩ := h
    rw [if_neg hempty, hload, Except.ok_bind]
    by_cases hlt : sortKey < first.key
    · rw [if_pos hlt] at h ⊢
      exact h
    · rw [if_neg hlt] at h ⊢
      exact insertLoop_mono h

/-- **`SortedRemove`** takes the head. -/
theorem Links.sortedRemove (h : l.Links cells) (keyPtr : Option ℤ) :
    ∃ l', l.sortedRemove keyPtr = .ok ((elements cells).head?.map ListElement.item,
        keyPtr.map fun before => ((elements cells).head?.map ListElement.key).getD before, l') ∧
      l.Leaves (cells.map Prod.fst) l' (elements cells).tail := by
  cases cells with
  | nil =>
      refine ⟨l, ?_, ⟨[], h, rfl⟩, fun _ _ => rfl⟩
      rw [LinkedList.sortedRemove, if_pos (h.isEmpty_iff.mpr rfl)]
      cases keyPtr <;> rfl
  | cons cell cells =>
      obtain ⟨a, node⟩ := cell
      obtain ⟨hfirst, hnode, -⟩ := h.of_cons
      have htail := h.chain.tail
      have hframe (b : ℕ) (hb : b ∉ ((a, node) :: cells).map Prod.fst) :
          l.heap.free a b = l.heap b := Heap.free_of_ne _ (List.ne_of_not_mem_cons hb)
      rw [LinkedList.sortedRemove, if_neg (by simp [h.isEmpty_iff]), hfirst,
        Heap.load_of_some hnode, Except.ok_bind, Heap.delete_of_some hnode]
      cases cells with
      | nil =>
          rw [if_pos (h.last ▸ rfl)]
          exact ⟨_, rfl, ⟨[], ⟨rfl, rfl⟩, rfl⟩, hframe⟩
      | cons cell cells =>
          have hlast : some a ≠ l.last := h.last ▸ h.chain.lastAddress_ne.symm
          rw [if_neg hlast]
          exact ⟨_, rfl, ⟨cell :: cells, ⟨htail, h.last⟩, rfl⟩, hframe⟩

/-- **`Remove`** takes the head. -/
theorem Links.remove (h : l.Links cells) :
    ∃ l', l.remove = .ok ((elements cells).head?.map ListElement.item, l') ∧
      l.Leaves (cells.map Prod.fst) l' (elements cells).tail := by
  obtain ⟨l', hremove, hleaves⟩ := h.sortedRemove none
  refine ⟨l', ?_, hleaves⟩
  rw [LinkedList.remove, hremove]
  rfl

/-! ## Runs -/

/-- What is known of a list after any calls. -/
structure IsSequence (l : LinkedList α) (sequence : List (ListElement α)) : Prop where
  /-- The chain from `first` is finite, ends in `last`, and carries the sequence. -/
  represents : l.Represents sequence
  first : l.first = none ↔ sequence = []
  last : l.last = none ↔ sequence = []
  /-- Every call returns. -/
  append (element : ℕ) (item : α) :
    l.heap element = none → ∃ l', Step l (.append element item) l'
  prepend (element : ℕ) (item : α) :
    l.heap element = none → ∃ l', Step l (.prepend element item) l'
  sortedInsert (element : ℕ) (item : α) (sortKey : ℤ) :
    l.heap element = none → ∃ l', Step l (.sortedInsert element item sortKey) l'
  remove : ∃ thing l', Step l (.remove thing) l'
  sortedRemove (before : ℤ) : ∃ thing key l', Step l (.sortedRemove before thing key) l'

theorem Represents.isSequence (h : l.Represents sequence) : l.IsSequence sequence := by
  obtain ⟨cells, hlinks, rfl⟩ := h
  refine ⟨⟨cells, hlinks, rfl⟩, ?_, ?_, fun element item hfresh => ?_, fun element item hfresh => ?_,
    fun element item sortKey hfresh => ?_, ?_, fun before => ?_⟩
  · cases cells with
    | nil => simp [hlinks.of_nil.1]
    | cons cell cells => simp [hlinks.of_cons.1]
  · cases cells with
    | nil => simp [hlinks.of_nil.2]
    | cons cell cells => simp [hlinks.of_cons.2.2]
  · obtain ⟨l', hcall, -⟩ := hlinks.append hfresh item
    exact ⟨l', hfresh, hcall⟩
  · obtain ⟨l', hcall, -⟩ := hlinks.prepend hfresh item
    exact ⟨l', hfresh, hcall⟩
  · obtain ⟨l', hcall, -⟩ := hlinks.sortedInsert hfresh item sortKey le_rfl
    exact ⟨l', hfresh, _, hcall⟩
  · obtain ⟨l', hcall, -⟩ := hlinks.remove
    exact ⟨_, l', hcall⟩
  · obtain ⟨l', hcall, -⟩ := hlinks.sortedRemove (some before)
    exact ⟨_, _, l', hcall⟩

/-- **One call** does to the list what it is to do to the sequence, and touches no object but the
nodes of the list and the new one. -/
theorem Represents.step {call : Call α} (h : l.Represents sequence) (hstep : Step l call l') :
    ∃ sequence', SequenceStep sequence call sequence' ∧ l'.Represents sequence' ∧
      ∀ a, ¬ l.Owns a → call.allocated ≠ some a → l'.heap a = l.heap a := by
  obtain ⟨cells, hlinks, rfl⟩ := h
  have hout {a : ℕ} (ha : ¬ l.Owns a) : a ∉ cells.map Prod.fst := fun hmem => ha ⟨cells, hlinks, hmem⟩
  have hnew {element a : ℕ} (ha : ¬ l.Owns a) (hne : some element ≠ some a) :
      a ∉ element :: cells.map Prod.fst :=
    List.not_mem_cons_of_ne_of_not_mem (fun hequal => hne (congrArg some hequal.symm)) (hout ha)
  cases call with
  | append element item =>
      obtain ⟨hfresh, hcall⟩ := hstep
      obtain ⟨t, hreturn, hleaves⟩ := hlinks.append hfresh item
      obtain rfl : t = l' := Except.ok.inj (hreturn.symm.trans hcall)
      exact ⟨_, rfl, hleaves.represents, fun a ha hne => hleaves.frame a (hnew ha hne)⟩
  | prepend element item =>
      obtain ⟨hfresh, hcall⟩ := hstep
      obtain ⟨t, hreturn, hleaves⟩ := hlinks.prepend hfresh item
      obtain rfl : t = l' := Except.ok.inj (hreturn.symm.trans hcall)
      exact ⟨_, rfl, hleaves.represents, fun a ha hne => hleaves.frame a (hnew ha hne)⟩
  | remove thing =>
      obtain ⟨t, hreturn, hleaves⟩ := hlinks.remove
      obtain ⟨rfl, rfl⟩ := Prod.mk.inj (Except.ok.inj (hreturn.symm.trans hstep))
      exact ⟨_, ⟨rfl, rfl⟩, hleaves.represents, fun a ha _ => hleaves.frame a (hout ha)⟩
  | isEmpty answer =>
      obtain ⟨rfl, rfl⟩ := hstep
      refine ⟨_, ⟨?_, rfl⟩, ⟨cells, hlinks, rfl⟩, fun _ _ _ => rfl⟩
      rw [Bool.eq_iff_iff, hlinks.isEmpty_iff, List.isEmpty_iff, elements_eq_nil]
  | sortedInsert element item sortKey =>
      obtain ⟨hfresh, rounds, hcall⟩ := hstep
      obtain ⟨t, hreturn, hleaves⟩ := hlinks.sortedInsert hfresh item sortKey
        (Nat.le_add_left cells.length rounds)
      obtain rfl : t = l' :=
        Option.some.inj (Except.ok.inj (hreturn.symm.trans (sortedInsert_mono hcall)))
      exact ⟨_, rfl, hleaves.represents, fun a ha hne => hleaves.frame a (hnew ha hne)⟩
  | sortedRemove before thing key =>
      obtain ⟨t, hreturn, hleaves⟩ := hlinks.sortedRemove (some before)
      obtain ⟨rfl, hrest⟩ := Prod.mk.inj (Except.ok.inj (hreturn.symm.trans hstep))
      obtain ⟨hkey, rfl⟩ := Prod.mk.inj hrest
      obtain rfl := Option.some.inj hkey
      exact ⟨_, ⟨rfl, rfl, rfl⟩, hleaves.represents, fun a ha _ => hleaves.frame a (hout ha)⟩

/-! ## Sorted lists -/

theorem insertAfter_eq (new ptr : ListElement α) (rest : List (ListElement α)) :
    insertAfter new ptr rest = ptr :: (rest.takeWhile (fun e => e.key ≤ new.key) ++
      new :: rest.dropWhile fun e => e.key ≤ new.key) := by
  induction rest generalizing ptr with
  | nil => rfl
  | cons next rest ih =>
      rw [insertAfter]
      by_cases hlt : new.key < next.key
      · rw [if_pos hlt, List.takeWhile_cons_of_neg (by simpa using hlt),
          List.dropWhile_cons_of_neg (by simpa using hlt)]
        rfl
      · have hle : next.key ≤ new.key := not_lt.mp hlt
        rw [if_neg hlt, ih, List.takeWhile_cons_of_pos (by simpa using hle),
          List.dropWhile_cons_of_pos (by simpa using hle)]
        rfl

/-- A new item goes in front of the first element with a greater key. -/
theorem sortedInsert_eq (sequence : List (ListElement α)) (item : α) (sortKey : ℤ) :
    Nachos.sortedInsert sequence item sortKey =
      sequence.takeWhile (fun e => e.key ≤ sortKey) ++
        ⟨item, sortKey⟩ :: sequence.dropWhile fun e => e.key ≤ sortKey := by
  cases sequence with
  | nil => rfl
  | cons first rest =>
      rw [Nachos.sortedInsert]
      by_cases hlt : sortKey < first.key
      · rw [if_pos hlt, List.takeWhile_cons_of_neg (by simpa using hlt),
          List.dropWhile_cons_of_neg (by simpa using hlt)]
        rfl
      · have hle : first.key ≤ sortKey := not_lt.mp hlt
        rw [if_neg hlt, insertAfter_eq, List.takeWhile_cons_of_pos (by simpa using hle),
          List.dropWhile_cons_of_pos (by simpa using hle)]
        rfl

/-- A new item belongs behind the keys that are not greater, and before the greater ones. -/
def GoesAfterEqual (sequence : List (ListElement α)) : Prop :=
  ∀ (item : α) (sortKey : ℤ), ∃ before behind, sequence = before ++ behind ∧
    Nachos.sortedInsert sequence item sortKey = before ++ ⟨item, sortKey⟩ :: behind ∧
    (∀ e ∈ before, e.key ≤ sortKey) ∧ ∀ e ∈ behind, sortKey < e.key

/-- In a sorted sequence a new item goes after all items with the same key. -/
theorem goesAfterEqual_of_sorted (h : KeysSorted sequence) : GoesAfterEqual sequence := by
  intro item sortKey
  refine ⟨_, _, List.takeWhile_append_dropWhile.symm, sortedInsert_eq sequence item sortKey,
    fun e he => by simpa using List.mem_takeWhile_imp he, ?_⟩
  intro e he
  have hsuffix : KeysSorted (sequence.dropWhile fun e => e.key ≤ sortKey) :=
    h.sublist (List.dropWhile_sublist _)
  cases hdrop : sequence.dropWhile fun e => decide (e.key ≤ sortKey) with
  | nil =>
      rw [hdrop] at he
      cases he
  | cons greater rest =>
      have hgreater : sortKey < greater.key := by
        have hnot := List.head_dropWhile_not (fun e : ListElement α => decide (e.key ≤ sortKey))
          (l := sequence) (by simp [hdrop])
        simpa [hdrop] using hnot
      rw [hdrop] at he hsuffix
      rcases List.mem_cons.mp he with rfl | he
      · exact hgreater
      · exact hgreater.trans_le ((List.pairwise_cons.mp hsuffix).1 e he)

/-- **One call** that is neither `Append` nor `Prepend` keeps the keys in order. -/
theorem SequenceStep.keysSorted {call : Call α} {sequence' : List (ListElement α)}
    (hstep : SequenceStep sequence call sequence') (hcall : call.KeepsOrder)
    (h : KeysSorted sequence) : KeysSorted sequence' := by
  cases call with
  | append element item => exact hcall.elim
  | prepend element item => exact hcall.elim
  | remove thing =>
      obtain ⟨-, rfl⟩ := hstep
      exact h.sublist (List.tail_sublist _)
  | isEmpty answer =>
      obtain ⟨-, rfl⟩ := hstep
      exact h
  | sortedInsert element item sortKey =>
      obtain rfl := hstep
      exact h.sortedInsert item sortKey
  | sortedRemove before thing key =>
      obtain ⟨-, -, rfl⟩ := hstep
      exact h.sublist (List.tail_sublist _)

/-- A run does what the same calls do to a sequence, and ends in a list that carries it. No object
of the heap but the nodes of the list and the new ones is touched. Without `Append` and `Prepend`
the keys are in order. -/
def BehavesAsSequence (steps : List (Base.Step (LinkedList α) (Call α))) (l : LinkedList α) : Prop :=
  ∃ sequence steps', Trace SequenceStep [] steps' sequence ∧
    steps'.map (fun x => x.label) = steps.map (fun x => x.label) ∧ l.IsSequence sequence ∧
    (∀ x ∈ steps, ∀ a, ¬ x.before.Owns a → x.label.allocated ≠ some a →
      x.after.heap a = x.before.heap a) ∧
    ((∀ x ∈ steps, x.label.KeepsOrder) → KeysSorted sequence ∧ GoesAfterEqual sequence)

/-- **Lists are sequences**, whatever is called on a new list. -/
theorem behavesAsSequence {heap : Heap (ListNode α)}
    {steps : List (Base.Step (LinkedList α) (Call α))} (hrun : Trace Step (new heap) steps l) :
    BehavesAsSequence steps l := by
  have hnew : (new heap).Represents [] := ⟨[], links_new heap, rfl⟩
  obtain ⟨steps', sequence, hsequence, hlabels, hl⟩ := hrun.simulation (Q := Represents)
    (fun _ _ _ _ hrel hstep => by
      obtain ⟨sequence', hnext, hrel', -⟩ := hrel.step hstep
      exact ⟨sequence', hnext, hrel'⟩) hnew
  refine ⟨sequence, steps', hsequence, hlabels, hl.isSequence, fun x hx => ?_, fun hsorted => ?_⟩
  · obtain ⟨-, hall⟩ := hrun.invariant_of_forall (I := fun l => ∃ sequence, l.Represents sequence)
      (fun x ⟨_, hbefore⟩ hstep => by
        obtain ⟨sequence', -, hafter, -⟩ := hbefore.step hstep
        exact ⟨sequence', hafter⟩) ⟨[], hnew⟩
    obtain ⟨⟨_, hbefore⟩, -⟩ := hall x hx
    obtain ⟨_, -, -, hframe⟩ := hbefore.step (hrun.rel_of_mem x hx)
    exact hframe
  · have horder : ∀ x ∈ steps', x.label.KeepsOrder := fun x hx => by
      have hmem : x.label ∈ steps.map fun x => x.label :=
        hlabels ▸ List.mem_map_of_mem hx
      obtain ⟨y, hy, hequal⟩ := List.mem_map.mp hmem
      exact hequal ▸ hsorted y hy
    obtain ⟨hkeys, -⟩ := hsequence.invariant (I := KeysSorted) (C := fun x => x.label.KeepsOrder)
      (fun x hbefore hstep hcall => SequenceStep.keysSorted hstep hcall hbefore) List.Pairwise.nil
      horder
    exact ⟨hkeys, goesAfterEqual_of_sorted hkeys⟩

/-- Two items with one key, the second one behind the first. -/
theorem behavesAsSequence_equal_keys :
    ∃ (steps : List (Base.Step (LinkedList Char) (Call Char))) (l : LinkedList Char),
      Trace Step (new fun _ => none) steps l ∧
      steps.map (fun x => x.label) = [.sortedInsert 8 'a' 5, .sortedInsert 4 'b' 5,
        .sortedInsert 6 'c' 3, .sortedRemove 0 (some 'c') 3, .sortedRemove 0 (some 'a') 5] ∧
      BehavesAsSequence steps l := by
  have hfirst : Step (new fun _ => none) (.sortedInsert 8 'a' 5) _ := ⟨rfl, 2, rfl⟩
  have hrun := (Trace.nil (new fun _ => none)).snoc hfirst
  have hrun := hrun.snoc (i := Call.sortedInsert 4 'b' 5) ⟨rfl, 2, rfl⟩
  have hrun := hrun.snoc (i := Call.sortedInsert 6 'c' 3) ⟨rfl, 2, rfl⟩
  have hrun := hrun.snoc (i := Call.sortedRemove 0 (some 'c') 3) rfl
  have hrun := hrun.snoc (i := Call.sortedRemove 0 (some 'a') 5) rfl
  exact ⟨_, _, hrun, rfl, behavesAsSequence hrun⟩

end LinkedList

end Nachos
