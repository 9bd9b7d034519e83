/-
# Extents that fill a whole

An extent is a run of addresses. A list of extents tiles a whole when together they have exactly its
addresses. If the lengths add up to the length of the whole there is no room for an overlap, and then
the extents, in some order, follow one another without a gap.
-/

import Mathlib.Algebra.BigOperators.Group.List.Basic
import Mathlib.Algebra.Order.BigOperators.Group.List
import Mathlib.Algebra.Order.Group.Int
import Mathlib.Data.Int.Interval

namespace Nachos.Base

/-- A run of addresses. -/
structure Extent where
  start : ℤ
  length : ℤ

namespace Extent

/-- The addresses of the extent; none if its length is not positive. -/
def Contains (e : Extent) (a : ℤ) : Prop := e.start ≤ a ∧ a < e.start + e.length

instance (e : Extent) (a : ℤ) : Decidable (e.Contains a) := inferInstanceAs (Decidable (_ ∧ _))

/-- An address of one of the extents. -/
def Covered (extents : List Extent) (a : ℤ) : Prop := ∃ e ∈ extents, e.Contains a

/-- What the lengths add up to. -/
def total (extents : List Extent) : ℤ := (extents.map Extent.length).sum

/-- The extents have together exactly the addresses of the whole. -/
def Tile (extents : List Extent) (whole : Extent) : Prop :=
  ∀ a, Covered extents a ↔ whole.Contains a

/-- Each extent starts where the one before it ends, and the first one at `start`. -/
def Contiguous : ℤ → List Extent → Prop
  | _, [] => True
  | start, e :: rest => e.start = start ∧ Contiguous (start + e.length) rest

section Lists

variable {extents order : List Extent} {e whole : Extent} {a start : ℤ}

@[simp]
theorem total_nil : total [] = 0 := rfl

@[simp]
theorem total_cons (e : Extent) (extents : List Extent) :
    total (e :: extents) = e.length + total extents := by
  simp [total]

@[simp]
theorem total_append (first second : List Extent) :
    total (first ++ second) = total first + total second := by
  simp [total]

theorem total_perm (h : order.Perm extents) : total order = total extents :=
  (h.map _).sum_eq

@[simp]
theorem covered_nil : ¬ Covered [] a := by
  simp [Covered]

@[simp]
theorem covered_cons : Covered (e :: extents) a ↔ e.Contains a ∨ Covered extents a := by
  simp [Covered]

theorem covered_perm (h : order.Perm extents) : Covered order a ↔ Covered extents a :=
  exists_congr fun _ => and_congr_left fun _ => h.mem_iff

theorem total_nonneg (h : ∀ e ∈ extents, 0 ≤ e.length) : 0 ≤ total extents :=
  List.sum_nonneg fun _ hn => by
    obtain ⟨e, he, rfl⟩ := List.mem_map.mp hn
    exact h e he

/-- Contiguous extents tile what their lengths add up to. -/
theorem Contiguous.tile (h : Contiguous start extents) (hlength : ∀ e ∈ extents, 0 ≤ e.length) :
    Tile extents ⟨start, total extents⟩ := by
  intro a
  induction extents generalizing start with
  | nil =>
      simp only [covered_nil, Contains, total_nil, false_iff]
      omega
  | cons e rest ih =>
      obtain ⟨rfl, hrest⟩ := h
      have he := hlength e List.mem_cons_self
      have hnonneg := fun e he => hlength e (List.mem_cons_of_mem _ he)
      have htotal := total_nonneg hnonneg
      rw [covered_cons, ih hrest hnonneg]
      simp only [Contains, total_cons]
      omega

/-! ## No room for an overlap -/

/-- The addresses of the extents, as a finite set. -/
def addresses : List Extent → Finset ℤ
  | [] => ∅
  | e :: rest =>
      (Finset.range e.length.toNat).image (fun k : ℕ => e.start + k) ∪ addresses rest

theorem mem_addresses : a ∈ addresses extents ↔ Covered extents a := by
  induction extents with
  | nil => simp [addresses]
  | cons e rest ih =>
      rw [covered_cons, ← ih, addresses, Finset.mem_union, Finset.mem_image]
      refine or_congr_left ⟨?_, fun ha => ⟨(a - e.start).toNat, ?_⟩⟩
      · rintro ⟨k, hk, rfl⟩
        rw [Finset.mem_range] at hk
        exact ⟨by omega, by omega⟩
      · have hstart := ha.1
        have hend := ha.2
        rw [Finset.mem_range]
        omega

theorem card_addresses_le (h : ∀ e ∈ extents, 0 ≤ e.length) :
    ((addresses extents).card : ℤ) ≤ total extents := by
  induction extents with
  | nil => simp [addresses]
  | cons e rest ih =>
      have hfirst : ((Finset.range e.length.toNat).image fun k : ℕ => e.start + k).card ≤
          e.length.toNat :=
        Finset.card_image_le.trans (Finset.card_range _).le
      have hunion := Finset.card_union_le
        ((Finset.range e.length.toNat).image fun k : ℕ => e.start + k) (addresses rest)
      have hrest := ih fun e he => h e (List.mem_cons_of_mem _ he)
      have he := h e List.mem_cons_self
      rw [total_cons, addresses]
      omega

/-- Behind the extent a tiling starts with, the other extents tile the rest. -/
theorem Tile.tail (h : Tile (e :: extents) ⟨e.start, total (e :: extents)⟩)
    (hlength : ∀ e' ∈ e :: extents, 0 ≤ e'.length) :
    Tile extents ⟨e.start + e.length, total extents⟩ := by
  have hrest := fun e' he => hlength e' (List.mem_cons_of_mem _ he)
  have hsub : Finset.Ico (e.start + e.length) (e.start + e.length + total extents) ⊆
      addresses extents := by
    intro a ha
    rw [Finset.mem_Ico] at ha
    have he := hlength e List.mem_cons_self
    have hcovered := (h a).mpr (by simp only [Contains, total_cons]; omega)
    rcases covered_cons.mp hcovered with hfirst | hother
    · exact absurd hfirst.2 (not_lt.mpr ha.1)
    · exact mem_addresses.mpr hother
  -- The others have no room for any more addresses than these.
  have hequal := Finset.eq_of_subset_of_card_le hsub (by
    have hcard := card_addresses_le hrest
    rw [Int.card_Ico, add_sub_cancel_left]
    omega)
  intro a
  rw [← mem_addresses, ← hequal, Finset.mem_Ico]
  rfl

/-- One extent is the whole. -/
theorem Tile.start_eq (h : Tile [e] ⟨start, total [e]⟩) (hpos : 0 < e.length) : e.start = start := by
  have hfirst := (h start).mpr
  have hstart := (h e.start).mp
  simp only [covered_cons, covered_nil, or_false, Contains, total_cons, total_nil] at hfirst hstart
  omega

/-- **A tiling without an overlap is an order.** Extents whose lengths add up to the length of the
whole tile it exactly if some order of them is contiguous. -/
theorem tile_iff_contiguous (hpos : ∀ e ∈ extents, 0 < e.length) :
    Tile extents ⟨start, total extents⟩ ↔
      ∃ order : List Extent, order.Perm extents ∧ Contiguous start order := by
  constructor
  · intro h
    induction hn : extents.length generalizing extents start with
    | zero =>
        rw [List.length_eq_zero_iff] at hn
        exact ⟨[], hn ▸ .refl _, trivial⟩
    | succ n ih =>
        obtain ⟨e, he⟩ := List.exists_mem_of_length_eq_add_one hn
        have hnonneg := fun e he => (hpos e he).le
        have htotal : 0 < total extents :=
          List.sum_pos _ (fun _ hmem => by
            obtain ⟨e, he, rfl⟩ := List.mem_map.mp hmem
            exact hpos e he) (by
            rintro hnil
            rw [List.map_eq_nil_iff.mp hnil] at he
            cases he)
        -- Some extent has the first address of the whole, and it starts there.
        obtain ⟨first, hfirst, hcontains⟩ := (h start).mpr ⟨le_rfl, by dsimp only; omega⟩
        have hstart : first.start = start :=
          le_antisymm hcontains.1
            ((h first.start).mp ⟨first, hfirst, le_rfl, by have := hpos first hfirst; omega⟩).1
        obtain ⟨before, after, rfl⟩ := List.append_of_mem hfirst
        have hperm : (first :: (before ++ after)).Perm (before ++ first :: after) :=
          List.perm_middle.symm
        have htile : Tile (first :: (before ++ after))
            ⟨first.start, total (first :: (before ++ after))⟩ := by
          intro a
          rw [covered_perm hperm, total_perm hperm, hstart]
          exact h a
        obtain ⟨order, horder, hcontiguous⟩ :=
          ih (fun e he => hpos e (hperm.subset (List.mem_cons_of_mem _ he)))
            (htile.tail fun e he => hnonneg e (hperm.subset he)) (by
              simp only [List.length_append, List.length_cons] at hn ⊢
              omega)
        exact ⟨first :: order, (horder.cons first).trans hperm, hstart, hstart ▸ hcontiguous⟩
  · rintro ⟨order, hperm, hcontiguous⟩ a
    rw [← covered_perm hperm, ← total_perm hperm]
    exact hcontiguous.tile (fun e he => (hpos e (hperm.subset he)).le) a

end Lists

end Extent

end Nachos.Base
