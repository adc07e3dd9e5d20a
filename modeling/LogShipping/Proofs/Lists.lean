import Mathlib.Data.List.Basic
import Mathlib.Data.List.Forall2
import Mathlib.Data.List.Induction

/-!
# Facts about lists and maxima

What several modules need of lists and of greatest numbers, apart from the program: a list is what its
indices give, of two members of a list one comes behind the other, and a greatest number that is taken
by going through a list is one of those in it, and none of them exceeds it.

The last is stated for a fold that starts from a number of its own, since counters are raised to what a
store holds and never lowered to it.
-/

namespace LogShipping

/-! ## Lists -/

/-- A list is read off by its indices. -/
theorem filterMap_getElem?_range {α : Type} (xs : List α) :
    ((List.range xs.length).filterMap fun i => xs[i]?) = xs := by
  induction xs using List.reverseRecOn with
  | nil => rfl
  | append_singleton front x ih =>
    have hfront : ((List.range front.length).filterMap fun i => (front ++ [x])[i]?) = front := by
      have hcongr : ∀ i ∈ List.range front.length, (front ++ [x])[i]? = front[i]? := by
        intro i hi
        rw [List.getElem?_append_left (List.mem_range.mp hi)]
      rw [List.filterMap_congr hcongr, ih]
    rw [List.length_append, List.length_singleton, List.range_succ, List.filterMap_append, hfront]
    simp

/-- Of two members of one list, one comes behind the other. -/
theorem mem_of_append_cons_eq {α : Type} {xs ys zs ws : List α} {x y : α}
    (h : xs ++ x :: ys = zs ++ y :: ws) (hne : x ≠ y) : y ∈ ys ∨ x ∈ ws := by
  rcases List.append_eq_append_iff.mp h with ⟨between, -, hbehind⟩ | ⟨between, -, hbehind⟩
  · cases between with
    | nil => exact absurd (List.cons.inj hbehind).1 hne
    | cons _ between =>
      rw [(List.cons.inj hbehind).2]
      exact Or.inl (List.mem_append_right _ List.mem_cons_self)
  · cases between with
    | nil => exact absurd (List.cons.inj hbehind).1.symm hne
    | cons _ between =>
      rw [(List.cons.inj hbehind).2]
      exact Or.inr (List.mem_append_right _ List.mem_cons_self)

/-- Of two lists related member by member, each member of the first one has its counterpart. -/
theorem exists_zip_of_mem {α β : Type} {R : α → β → Prop} {as : List α} {bs : List β}
    (h : List.Forall₂ R as bs) {a : α} (ha : a ∈ as) : ∃ b, (a, b) ∈ as.zip bs ∧ R a b := by
  obtain ⟨i, hi, rfl⟩ := List.getElem_of_mem ha
  have hi' : i < bs.length := h.length_eq ▸ hi
  have hmem : (as[i], bs[i]) ∈ as.zip bs := by
    have hzip : i < (as.zip bs).length := by
      rw [List.length_zip]
      omega
    rw [← List.getElem_zip (h := hzip)]
    exact List.getElem_mem hzip
  exact ⟨bs[i], hmem, List.forall₂_zip h hmem⟩

/-! ## Maxima -/

theorem le_max_left_right (a b : UInt64) : a ≤ max a b ∧ b ≤ max a b := by
  rw [UInt64.max_def]
  grind

theorem le_foldl_max (numbers : List UInt64) (n : UInt64) : n ≤ numbers.foldl max n := by
  induction numbers generalizing n with
  | nil => exact UInt64.le_refl n
  | cons number rest ih => exact UInt64.le_trans (le_max_left_right n number).1 (ih _)

theorem le_foldl_max_of_mem {numbers : List UInt64} {number : UInt64} (n : UInt64)
    (h : number ∈ numbers) : number ≤ numbers.foldl max n := by
  induction numbers generalizing n with
  | nil => cases h
  | cons first rest ih =>
    rcases List.mem_cons.mp h with rfl | h
    · exact UInt64.le_trans (le_max_left_right n number).2 (le_foldl_max rest _)
    · exact ih _ h

/-- The greatest number is one of those that it was taken of. -/
theorem foldl_max_eq_or_mem (numbers : List UInt64) (n : UInt64) :
    numbers.foldl max n = n ∨ numbers.foldl max n ∈ numbers := by
  induction numbers generalizing n with
  | nil => exact Or.inl rfl
  | cons number rest ih =>
    rcases ih (max n number) with hmax | hmem
    · rw [List.foldl_cons, hmax, UInt64.max_def]
      split
      · exact Or.inr List.mem_cons_self
      · exact Or.inl rfl
    · exact Or.inr (List.mem_cons_of_mem _ hmem)

end LogShipping
