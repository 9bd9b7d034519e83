/-
# Chains of nodes in a heap

Linked structures put each node at an address of its own and keep the pointer to the next node
inside the node. A chain lists the nodes that are met on the way from one pointer to another,
with their addresses. A chain that ends at the null pointer meets no address twice, so that a
write to one of its nodes, or to none of them, is seen where it was made and nowhere else: the
three changes of a list, a node in front, a node behind a node, and the first node gone, each
have their rule.
-/

import Mathlib.Data.List.Nodup
import Mathlib.Logic.Function.Basic
import Nachos.Base.Fault

namespace Nachos.Base

/-- A pointer. `none` is the null pointer. -/
abbrev Pointer := Option ℕ

/-- The object at each address, where there is one. -/
abbrev Heap (ν : Type) := ℕ → Option ν

variable {ν : Type}

namespace Heap

/-- The object that a pointer leads to. -/
def load (heap : Heap ν) (p : Pointer) : Except Fault ν :=
  match p.bind heap with
  | some node => .ok node
  | none => .error .bounds

/-- A new object at an address, or another one in its place. -/
def put (heap : Heap ν) (a : ℕ) (node : ν) : Heap ν := Function.update heap a (some node)

/-- Give an address back. -/
def free (heap : Heap ν) (a : ℕ) : Heap ν := Function.update heap a none

/-- `delete`, which does nothing to the null pointer. -/
def delete (heap : Heap ν) (p : Pointer) : Except Fault (Heap ν) :=
  match p with
  | some a => if (heap a).isSome then .ok (heap.free a) else .error .bounds
  | none => .ok heap

/-- Change the object that a pointer leads to. -/
def modify (heap : Heap ν) (p : Pointer) (f : ν → ν) : Except Fault (Heap ν) :=
  match p with
  | some a =>
      match heap a with
      | some node => .ok (heap.put a (f node))
      | none => .error .bounds
  | none => .error .bounds

variable {heap : Heap ν} {a b : ℕ} {node : ν}

theorem load_of_some (h : heap a = some node) : heap.load (some a) = .ok node := by
  rw [load, Option.bind_some, h]

theorem modify_of_some (h : heap a = some node) (f : ν → ν) :
    heap.modify (some a) f = .ok (heap.put a (f node)) := by
  rw [modify, h]

theorem delete_of_some (h : heap a = some node) : heap.delete (some a) = .ok (heap.free a) := by
  rw [delete, h, Option.isSome_some, if_pos rfl]

@[simp]
theorem put_self (heap : Heap ν) (a : ℕ) (node : ν) : heap.put a node a = some node :=
  Function.update_self ..

theorem put_of_ne (heap : Heap ν) (node : ν) (h : b ≠ a) : heap.put a node b = heap b :=
  Function.update_of_ne h ..

@[simp]
theorem put_put (heap : Heap ν) (a : ℕ) (node node' : ν) :
    (heap.put a node).put a node' = heap.put a node' := Function.update_idem ..

@[simp]
theorem free_self (heap : Heap ν) (a : ℕ) : heap.free a a = none := Function.update_self ..

theorem free_of_ne (heap : Heap ν) (h : b ≠ a) : heap.free a b = heap b :=
  Function.update_of_ne h ..

end Heap

/-- From the pointer `p` the nodes `cells` are met, each at its address, and then the pointer
`q`. -/
def Chain (heap : Heap ν) (next : ν → Pointer) : Pointer → List (ℕ × ν) → Pointer → Prop
  | p, [], q => p = q
  | p, (a, node) :: cells, q => p = some a ∧ heap a = some node ∧ Chain heap next (next node) cells q

namespace Chain

variable {heap heap' : Heap ν} {next : ν → Pointer} {p q : Pointer} {a b : ℕ} {node node' : ν}
  {cells cells' before behind : List (ℕ × ν)}

theorem append_iff :
    Chain heap next p (before ++ behind) q ↔
      ∃ r, Chain heap next p before r ∧ Chain heap next r behind q := by
  induction before generalizing p with
  | nil => exact ⟨fun h => ⟨p, rfl, h⟩, fun ⟨_, heq, h⟩ => heq ▸ h⟩
  | cons cell before ih =>
      constructor
      · rintro ⟨hp, hnode, hrest⟩
        obtain ⟨r, hbefore, hbehind⟩ := ih.mp hrest
        exact ⟨r, ⟨hp, hnode, hbefore⟩, hbehind⟩
      · rintro ⟨r, ⟨hp, hnode, hbefore⟩, hbehind⟩
        exact ⟨hp, hnode, ih.mpr ⟨r, hbefore, hbehind⟩⟩

/-- The nodes are in the heap. -/
theorem heap_eq (h : Chain heap next p cells q) (hmem : (a, node) ∈ cells) :
    heap a = some node := by
  induction cells generalizing p with
  | nil => cases hmem
  | cons cell cells ih =>
      obtain ⟨-, hnode, hrest⟩ := h
      rcases List.mem_cons.mp hmem with rfl | hmem
      · exact hnode
      · exact ih hrest hmem

/-- **The frame rule.** A chain is not changed by what happens at other addresses. -/
theorem congr (h : Chain heap next p cells q)
    (hsame : ∀ a ∈ cells.map Prod.fst, heap' a = heap a) : Chain heap' next p cells q := by
  induction cells generalizing p with
  | nil => exact h
  | cons cell cells ih =>
      obtain ⟨hp, hnode, hrest⟩ := h
      exact ⟨hp, (hsame _ List.mem_cons_self).trans hnode,
        ih hrest fun a ha => hsame a (List.mem_cons_of_mem _ ha)⟩

/-- There is one chain to the null pointer. -/
theorem unique (h : Chain heap next p cells none) (h' : Chain heap next p cells' none) :
    cells = cells' := by
  induction cells generalizing p cells' with
  | nil =>
      cases cells' with
      | nil => rfl
      | cons cell cells' =>
          obtain rfl := h
          cases h'.1
  | cons cell cells ih =>
      obtain ⟨rfl, hnode, hrest⟩ := h
      cases cells' with
      | nil => cases h'
      | cons cell' cells' =>
          obtain ⟨hequal, hnode', hrest'⟩ := h'
          obtain ⟨a, node⟩ := cell
          obtain ⟨b, node'⟩ := cell'
          obtain rfl := Option.some.inj hequal
          obtain rfl := Option.some.inj (hnode.symm.trans hnode')
          rw [ih hrest hrest']

/-- **A chain that ends** meets no address twice. -/
theorem nodup (h : Chain heap next p cells none) : (cells.map Prod.fst).Nodup := by
  induction cells generalizing p with
  | nil => exact List.nodup_nil
  | cons cell cells ih =>
      have hall := h
      obtain ⟨rfl, hnode, hrest⟩ := h
      refine List.nodup_cons.mpr ⟨fun hmem => ?_, ih hrest⟩
      -- Met again, the address would start the same chain a second time.
      obtain ⟨⟨a, node'⟩, hcell, hequal⟩ := List.mem_map.mp hmem
      obtain rfl : a = cell.1 := hequal
      obtain ⟨before, behind, rfl⟩ := List.append_of_mem hcell
      obtain ⟨r, -, hagain⟩ := append_iff.mp hrest
      obtain rfl : r = some cell.1 := hagain.1
      have hlength := congrArg List.length (hall.unique hagain)
      simp only [List.length_cons, List.length_append] at hlength
      omega

/-- An address without an object is not on a chain. -/
theorem not_mem_of_none (h : Chain heap next p cells q) (hfresh : heap a = none) :
    a ∉ cells.map Prod.fst := by
  intro hmem
  obtain ⟨⟨b, node⟩, hcell, rfl⟩ := List.mem_map.mp hmem
  rw [h.heap_eq hcell] at hfresh
  cases hfresh

/-- What is put at an address off the chain does not change it. -/
theorem put_of_not_mem (h : Chain heap next p cells q) (ha : a ∉ cells.map Prod.fst) :
    Chain (heap.put a node) next p cells q :=
  h.congr fun _ hb => heap.put_of_ne node fun hequal => ha (hequal ▸ hb)

/-- **A node in front.** -/
theorem cons (h : Chain heap next p cells q) (hfresh : heap a = none) (hnext : next node = p) :
    Chain (heap.put a node) next (some a) ((a, node) :: cells) q := by
  refine ⟨rfl, heap.put_self a node, ?_⟩
  rw [hnext]
  exact h.put_of_not_mem (h.not_mem_of_none hfresh)

/-- **A node behind a node.** The new node takes over the pointer of the old one, which is made to
point to the new one. -/
theorem insert (h : Chain heap next p (before ++ (b, node) :: behind) none) (old new : ν)
    (hfresh : heap a = none) (hold : next old = some a) (hnew : next new = next node) :
    Chain ((heap.put a new).put b old) next p (before ++ (b, old) :: (a, new) :: behind) none := by
  have hnodup := h.nodup
  have haway := h.not_mem_of_none hfresh
  rw [List.map_append, List.map_cons, List.nodup_append] at hnodup
  rw [List.map_append, List.map_cons, List.mem_append, List.mem_cons] at haway
  push Not at haway
  obtain ⟨hbefore, hne, hbehind⟩ := haway
  obtain ⟨-, hcons, hdisjoint⟩ := hnodup
  obtain ⟨hb, -⟩ := List.nodup_cons.mp hcons
  obtain ⟨r, hfirst, rfl, -, hrest⟩ := append_iff.mp h
  refine append_iff.mpr ⟨some b, ?_, rfl, Heap.put_self .., hold, ?_, hnew ▸ ?_⟩
  · exact (hfirst.put_of_not_mem hbefore).put_of_not_mem fun hmem =>
      hdisjoint b hmem b List.mem_cons_self rfl
  · rw [Heap.put_of_ne _ _ hne, Heap.put_self]
  · exact (hrest.put_of_not_mem hbehind).put_of_not_mem hb

/-- **The first node gone.** -/
theorem tail (h : Chain heap next p ((a, node) :: cells) none) :
    Chain (heap.free a) next (next node) cells none := by
  have ha := (List.nodup_cons.mp h.nodup).1
  exact h.2.2.congr fun _ hb => heap.free_of_ne fun hequal => ha (hequal ▸ hb)

/-- The address of the last node. -/
def lastAddress (cells : List (ℕ × ν)) : Pointer := (cells.map Prod.fst).getLast?

@[simp]
theorem lastAddress_append_cons :
    lastAddress (before ++ (a, node) :: behind) = lastAddress ((a, node) :: behind) := by
  rw [lastAddress, List.map_append, List.map_cons, List.getLast?_append_of_ne_nil _ (by simp)]
  rfl

/-- The last of several nodes is not the first. -/
theorem lastAddress_ne {cell : ℕ × ν} (h : Chain heap next p ((a, node) :: cell :: cells) none) :
    lastAddress ((a, node) :: cell :: cells) ≠ some a := by
  intro hlast
  rw [lastAddress, List.map_cons, List.map_cons, List.getLast?_cons_cons] at hlast
  exact (List.nodup_cons.mp h.nodup).1 (List.mem_of_getLast? hlast)

end Chain

end Nachos.Base
