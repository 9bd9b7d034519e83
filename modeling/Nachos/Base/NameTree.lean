/-
# Trees of names

A store of objects in which directories list other objects by name, and the tree that a user
sees: a map from paths to directories and contents. As long as every object is listed once, changing
one entry of the store changes the map at one path. The two names by which a directory lists itself
and its parent lead where their textual meaning says.
-/

import Mathlib.Data.List.Induction
import Mathlib.Data.Set.Basic
import Mathlib.Logic.Function.Basic

namespace Nachos.Base

universe u v w

variable {σ : Type u} {ν : Type v} {γ : Type w}

/-- What a path stands for. -/
inductive Node (γ : Type w)
  | dir
  | file (contents : γ)

/-- What the paths stand for. -/
abbrev NameTree (ν : Type v) (γ : Type w) := List ν → Option (Node γ)

namespace NameTree

/-- The tree with a root and nothing else. -/
def root : NameTree ν γ
  | [] => some .dir
  | _ :: _ => none

/-- Whatever has a path is in a directory. -/
structure WellFormed (T : NameTree ν γ) : Prop where
  root : T [] = some .dir
  parent : ∀ P name, T (P ++ [name]) ≠ none → T P = some .dir

/-- Follow the names from the directory `D`; `here` stays there and `up` drops the last name. -/
def walk [DecidableEq ν] (here up : ν) (T : NameTree ν γ) : List ν → List ν → Option (List ν)
  | D, [] => some D
  | D, name :: rest =>
      if name = here then walk here up T D rest
      else if name = up then walk here up T D.dropLast rest
      else
        match T (D ++ [name]) with
        | some .dir => walk here up T (D ++ [name]) rest
        | _ => none

/-- Where a walk leads is a matter of the directories. -/
theorem walk_congr [DecidableEq ν] {T T' : NameTree ν γ}
    (h : ∀ P, T' P = some .dir ↔ T P = some .dir) (here up : ν) (D path : List ν) :
    T'.walk here up D path = T.walk here up D path := by
  induction path generalizing D with
  | nil => rfl
  | cons name rest ih =>
      have hdir := h (D ++ [name])
      rw [walk, walk]
      split
      · exact ih D
      split
      · exact ih D.dropLast
      split
      next hnew =>
        rw [hdir.mp hnew]
        exact ih (D ++ [name])
      next hnew =>
        split
        next hold => exact absurd (hdir.mpr hold) hnew
        next => rfl

/-- In a well-formed tree a walk from a directory ends in a directory. -/
theorem WellFormed.walk_eq_some [DecidableEq ν] {T : NameTree ν γ} (hT : T.WellFormed) {here up : ν}
    {D E path : List ν} (hD : T D = some .dir) (h : T.walk here up D path = some E) :
    T E = some .dir := by
  induction path generalizing D with
  | nil =>
      obtain rfl := Option.some.inj h
      exact hD
  | cons name rest ih =>
      rw [walk] at h
      split at h
      · exact ih hD h
      split at h
      · -- The directory above, or the root again.
        cases D using List.reverseRecOn with
        | nil => exact ih hD h
        | append_singleton P last =>
            rw [List.dropLast_concat] at h
            refine ih (hT.parent P last ?_) h
            rw [hD]
            exact Option.some_ne_none _
      split at h
      next hdir => exact ih hdir h
      next => cases h

end NameTree

/-- What a directory lists under a name: an object, and whether it is a directory. -/
abbrev Links (σ : Type u) (ν : Type v) := σ → ν → Option (Bool × σ)

namespace Links

/-- Follow one more name. -/
def enter (g : Links σ ν) : Option (Bool × σ) → ν → Option (Bool × σ)
  | some (true, p), name => g p name
  | _, _ => none

/-- What a path leads to from the directory `p`. -/
def lookup (g : Links σ ν) (p : σ) (P : List ν) : Option (Bool × σ) := P.foldl g.enter (some (true, p))

/-- The tree below the directory `r`. -/
def tree (g : Links σ ν) (r : σ) (contents : σ → γ) : NameTree ν γ := fun P =>
  (g.lookup r P).map fun x => if x.1 then .dir else .file (contents x.2)

variable {g g' full : Links σ ν} {S : Set σ} {r p q t : σ} {P D : List ν} {name : ν}

@[simp]
theorem lookup_nil : g.lookup p [] = some (true, p) := rfl

theorem lookup_concat : g.lookup p (P ++ [name]) = g.enter (g.lookup p P) name := by
  rw [lookup, List.foldl_append]
  rfl

theorem enter_eq_some {x : Option (Bool × σ)} {y : Bool × σ} :
    g.enter x name = some y ↔ ∃ p, x = some (true, p) ∧ g p name = some y := by
  unfold enter
  split
  · simp
  · rename_i hnot
    simp only [reduceCtorEq, false_iff, not_exists, not_and]
    exact fun p hp => absurd hp (hnot p)

theorem lookup_cons : g.lookup p (name :: P) = P.foldl g.enter (g p name) := rfl

/-- Nothing comes of a path that has left the directories. -/
theorem foldl_enter_eq_some {x : Option (Bool × σ)} (h : P.foldl g.enter x = some (true, q)) :
    ∃ p, x = some (true, p) ∧ g.lookup p P = some (true, q) := by
  induction P generalizing x with
  | nil => exact ⟨q, h, rfl⟩
  | cons name rest ih =>
      rw [List.foldl_cons] at h
      obtain ⟨s, henter, -⟩ := ih h
      obtain ⟨p, rfl, -⟩ := enter_eq_some.mp henter
      exact ⟨p, rfl, h⟩

/-- The directories `S` are a tree with the given root: each object is listed at most once. -/
structure IsTree (g : Links σ ν) (S : Set σ) (r : σ) : Prop where
  root_mem : r ∈ S
  closed : ∀ p ∈ S, ∀ name q, g p name = some (true, q) → q ∈ S
  ne_root : ∀ p ∈ S, ∀ name b, g p name ≠ some (b, r)
  unique : ∀ p ∈ S, ∀ q ∈ S, ∀ name other b c t, g p name = some (b, t) →
    g q other = some (c, t) → p = q ∧ name = other

namespace IsTree

variable (htree : g.IsTree S r)

include htree in
theorem lookup_mem (h : g.lookup r P = some (true, p)) : p ∈ S := by
  induction P using List.reverseRecOn generalizing p with
  | nil =>
      cases h
      exact htree.root_mem
  | append_singleton E name ih =>
      rw [lookup_concat] at h
      obtain ⟨q, hq, hentry⟩ := enter_eq_some.mp h
      exact htree.closed q (ih hq) name p hentry

include htree in
/-- **One path leads to an object.** -/
theorem lookup_injective {b c : Bool} (h : g.lookup r P = some (b, t))
    (h' : g.lookup r D = some (c, t)) : P = D := by
  induction P using List.reverseRecOn generalizing D b c t with
  | nil =>
      cases h
      cases D using List.reverseRecOn with
      | nil => rfl
      | append_singleton E name =>
          rw [lookup_concat] at h'
          obtain ⟨q, hq, hentry⟩ := enter_eq_some.mp h'
          exact absurd hentry (htree.ne_root q (htree.lookup_mem hq) name c)
  | append_singleton P name ih =>
      rw [lookup_concat] at h
      obtain ⟨p, hp, hentry⟩ := enter_eq_some.mp h
      cases D using List.reverseRecOn with
      | nil =>
          cases h'
          exact absurd hentry (htree.ne_root p (htree.lookup_mem hp) name b)
      | append_singleton E other =>
          rw [lookup_concat] at h'
          obtain ⟨q, hq, hentry'⟩ := enter_eq_some.mp h'
          obtain ⟨rfl, rfl⟩ := htree.unique p (htree.lookup_mem hp) q (htree.lookup_mem hq) name
            other b c t hentry hentry'
          rw [ih hp hq]

include htree in
/-- **A change of one entry**, from nothing or an empty directory or a file to another such object,
changes what one path leads to. -/
theorem lookup_eq_update [DecidableEq ν] (hp : g.lookup r D = some (true, p))
    (hsame : ∀ q ∈ S, ∀ other, ¬ (q = p ∧ other = name) → g' q other = g q other)
    (hbefore : ∀ t, g p name = some (true, t) → ∀ other, g t other = none)
    (hafter : ∀ t, g' p name = some (true, t) → ∀ other, g' t other = none) :
    g'.lookup r = Function.update (g.lookup r) (D ++ [name]) (g' p name) := by
  funext P
  induction P using List.reverseRecOn with
  | nil => rw [Function.update_of_ne (by simp), lookup_nil, lookup_nil]
  | append_singleton E other ih =>
      rw [lookup_concat, ih]
      by_cases hE : E = D ++ [name]
      · -- Below the changed path there is nothing, before and after.
        rw [hE, Function.update_self, Function.update_of_ne (by simp), lookup_concat, lookup_concat,
          hp]
        have hnothing {g : Links σ ν} {x : Option (Bool × σ)}
            (h : ∀ t, x = some (true, t) → ∀ other, g t other = none) : g.enter x other = none := by
          unfold enter
          split
          · exact h _ rfl _
          · rfl
        rw [hnothing hafter, hnothing (x := g.enter (some (true, p)) name) hbefore]
      rw [Function.update_of_ne hE]
      by_cases hlast : E = D ∧ other = name
      · rw [hlast.1, hlast.2, hp, Function.update_self]
        rfl
      have hne : E ++ [other] ≠ D ++ [name] := fun heq => hlast (by simpa using heq)
      rw [Function.update_of_ne hne, lookup_concat]
      cases hq : g.lookup r E with
      | none => rfl
      | some x =>
          obtain ⟨_ | _, q⟩ := x
          · rfl
          · refine hsame q (htree.lookup_mem hq) other fun hboth => hlast ⟨?_, hboth.2⟩
            rw [hboth.1] at hq
            exact htree.lookup_injective hq hp

include htree in
theorem lookup_congr (hsame : ∀ q ∈ S, ∀ other, g' q other = g q other) :
    g'.lookup r = g.lookup r := by
  funext P
  induction P using List.reverseRecOn with
  | nil => rfl
  | append_singleton E other ih =>
      rw [lookup_concat, lookup_concat, ih]
      cases hq : g.lookup r E with
      | none => rfl
      | some x =>
          obtain ⟨_ | _, q⟩ := x
          · rfl
          · exact hsame q (htree.lookup_mem hq) other

end IsTree

/-! ## The tree a user sees -/

section Tree

variable {contents contents' : σ → γ}

theorem tree_eq_dir : g.tree r contents P = some .dir ↔ ∃ p, g.lookup r P = some (true, p) := by
  rw [tree]
  cases g.lookup r P with
  | none => simp
  | some x =>
      obtain ⟨_ | _, q⟩ := x
      · simp
      · simp

theorem tree_eq_file {c : γ} : g.tree r contents P = some (.file c) ↔
    ∃ t, g.lookup r P = some (false, t) ∧ contents t = c := by
  rw [tree]
  cases g.lookup r P with
  | none => simp
  | some x =>
      obtain ⟨_ | _, q⟩ := x
      · simp
      · simp

theorem tree_eq_none : g.tree r contents P = none ↔ g.lookup r P = none := by
  rw [tree, Option.map_eq_none_iff]

theorem tree_wellFormed (g : Links σ ν) (r : σ) (contents : σ → γ) :
    (g.tree r contents).WellFormed where
  root := rfl
  parent P name h := by
    rw [ne_eq, tree_eq_none, lookup_concat] at h
    obtain ⟨x, hx⟩ := Option.ne_none_iff_exists'.mp h
    obtain ⟨p, hp, -⟩ := enter_eq_some.mp hx
    exact tree_eq_dir.mpr ⟨p, hp⟩

/-- **A change of one entry, to the user.** -/
theorem tree_eq_update [DecidableEq ν] {y : Option (Bool × σ)}
    (hlookup : g'.lookup r = Function.update (g.lookup r) P y)
    (hcontents : ∀ D t, D ≠ P → g.lookup r D = some (false, t) → contents' t = contents t) :
    g'.tree r contents' = Function.update (g.tree r contents) P
      (y.map fun x => if x.1 then .dir else .file (contents' x.2)) := by
  funext D
  rw [tree, hlookup]
  by_cases hD : D = P
  · rw [hD, Function.update_self, Function.update_self]
  rw [Function.update_of_ne hD, Function.update_of_ne hD, tree]
  cases hx : g.lookup r D with
  | none => rfl
  | some x =>
      obtain ⟨_ | _, t⟩ := x
      · simp [hcontents D t hD hx]
      · rfl

/-- **New contents of one file, to the user.** -/
theorem IsTree.tree_write [DecidableEq ν] (htree : g.IsTree S r)
    (hlookup : g'.lookup r = g.lookup r) (hP : g.lookup r P = some (false, t))
    (hcontents : ∀ D s, g.lookup r D = some (false, s) → s ≠ t → contents' s = contents s) :
    g'.tree r contents' = Function.update (g.tree r contents) P (some (.file (contents' t))) := by
  have hupdate : g'.lookup r = Function.update (g.lookup r) P (some (false, t)) := by
    rw [hlookup, ← hP, Function.update_eq_self]
  rw [tree_eq_update hupdate fun D s hD hs => hcontents D s hs fun hst => hD ?_]
  · rfl
  · rw [hst] at hs
    exact htree.lookup_injective hs hP

/-! ## The names for the directory and its parent -/

/-- `full` lists under ordinary names what `g` does, and under `here` and `up` the directory itself and
its parent. -/
structure Completes (full g : Links σ ν) (S : Set σ) (r : σ) (here up : ν) (W : ν → Prop) : Prop where
  ordinary : ∀ p ∈ S, ∀ name, W name → name ≠ here → name ≠ up → full p name = g p name
  listsSelf : ∀ p ∈ S, full p here = some (true, p)
  listsRoot : full r up = some (true, r)
  listsParent : ∀ p ∈ S, ∀ name q, g p name = some (true, q) → full q up = some (true, p)

/-- **Paths through a directory and its parent** lead where the names say. -/
theorem Completes.lookup_eq_some [DecidableEq ν] {here up : ν} {W : ν → Prop} {path : List ν}
    (contents : σ → γ) (hfull : full.Completes g S r here up W) (htree : g.IsTree S r) (hpath : ∀ name ∈ path, W name)
    (hD : g.lookup r D = some (true, p)) : full.lookup p path = some (true, q) ↔
      ∃ E, (g.tree r contents).walk here up D path = some E ∧ g.lookup r E = some (true, q) := by
  induction path generalizing D p with
  | nil =>
      rw [lookup_nil, NameTree.walk]
      constructor
      · intro h
        cases h
        exact ⟨D, rfl, hD⟩
      · rintro ⟨E, hE, hlookup⟩
        cases hE
        exact hD.symm.trans hlookup
  | cons name rest ih =>
      have hp := htree.lookup_mem hD
      have hrest := fun other hother => hpath other (List.mem_cons_of_mem name hother)
      rw [lookup_cons, NameTree.walk]
      split_ifs with hself hup
      · rw [hself, hfull.listsSelf p hp]
        exact ih hrest hD
      · rw [hup]
        cases D using List.reverseRecOn with
        | nil =>
            cases hD
            rw [hfull.listsRoot, List.dropLast_nil]
            exact ih hrest lookup_nil
        | append_singleton D last =>
            rw [lookup_concat] at hD
            obtain ⟨s, hs, hentry⟩ := enter_eq_some.mp hD
            rw [hfull.listsParent s (htree.lookup_mem hs) last p hentry, List.dropLast_concat]
            exact ih hrest hs
      · rw [hfull.ordinary p hp name (hpath name List.mem_cons_self) hself hup]
        have hnext : g.lookup r (D ++ [name]) = g p name := by
          rw [lookup_concat, hD]
          rfl
        have htreeAt : g.tree r contents (D ++ [name]) = (g p name).map fun x =>
            if x.1 then .dir else .file (contents x.2) := by
          rw [tree, hnext]
        cases hentry : g p name with
        | none =>
            rw [htreeAt, hentry]
            simp only [Option.map_none, reduceCtorEq, false_and, exists_false, iff_false]
            intro h
            obtain ⟨s, hs, -⟩ := foldl_enter_eq_some h
            cases hs
        | some x =>
            obtain ⟨_ | _, s⟩ := x
            · rw [htreeAt, hentry]
              simp only [Option.map_some, Bool.false_eq_true, if_false, reduceCtorEq, false_and,
                exists_false, iff_false]
              intro h
              obtain ⟨s, hs, -⟩ := foldl_enter_eq_some h
              cases hs
            · rw [htreeAt, hentry]
              exact ih hrest (hnext.trans hentry)

end Tree

end Links

end Nachos.Base
