import Mathlib

/-!
# Running extremes

The least and the greatest positive element of a set that grows, kept as a
number in which zero stands for none.
-/

set_option autoImplicit false

namespace VeTls.Extremes

variable {α : Type*} [LinearOrder α] [Zero α]

def IsFirst (s : Set α) (x : α) : Prop :=
  IsLeast (s ∩ Set.Ioi 0) x ∨ s ∩ Set.Ioi 0 = ∅ ∧ x = 0

def IsLast (s : Set α) (x : α) : Prop :=
  IsGreatest (s ∩ Set.Ioi 0) x ∨ s ∩ Set.Ioi 0 = ∅ ∧ x = 0

def first (x y : α) : α := if 0 < y ∧ (x = 0 ∨ y < x) then y else x

def last (x y : α) : α := if 0 < y ∧ x < y then y else x

theorem isFirst_empty : IsFirst (∅ : Set α) 0 := .inr ⟨Set.empty_inter _, rfl⟩

theorem isLast_empty : IsLast (∅ : Set α) 0 := .inr ⟨Set.empty_inter _, rfl⟩

theorem IsFirst.nonneg {s : Set α} {x : α} (h : IsFirst s x) : 0 ≤ x := by
  obtain h | ⟨-, rfl⟩ := h
  · exact h.1.2.le
  · exact le_rfl

theorem IsLast.nonneg {s : Set α} {x : α} (h : IsLast s x) : 0 ≤ x := by
  obtain h | ⟨-, rfl⟩ := h
  · exact h.1.2.le
  · exact le_rfl

theorem IsFirst.union {s t : Set α} {x y : α} (h : IsFirst s x) (h' : IsFirst t y) :
    IsFirst (s ∪ t) (first x y) := by
  rw [IsFirst, Set.union_inter_distrib_right, first]
  obtain h | ⟨hs, rfl⟩ := h <;> obtain h' | ⟨ht, rfl⟩ := h'
  · have hx : x ≠ 0 := h.1.2.ne'
    have hy : 0 < y := h'.1.2
    have hmin : (if 0 < y ∧ (x = 0 ∨ y < x) then y else x) = min x y := by
      rw [min_comm, min_def_lt]
      simp [hx, hy]
    rw [hmin]
    exact .inl (h.union h')
  · rw [if_neg (fun hc => lt_irrefl _ hc.1), ht, Set.union_empty]
    exact .inl h
  · rw [if_pos ⟨h'.1.2, .inl rfl⟩, hs, Set.empty_union]
    exact .inl h'
  · rw [if_neg (fun hc => lt_irrefl _ hc.1), hs, ht, Set.union_empty]
    exact .inr ⟨rfl, rfl⟩

theorem IsLast.union {s t : Set α} {x y : α} (h : IsLast s x) (h' : IsLast t y) :
    IsLast (s ∪ t) (last x y) := by
  rw [IsLast, Set.union_inter_distrib_right, last]
  obtain h | ⟨hs, rfl⟩ := h <;> obtain h' | ⟨ht, rfl⟩ := h'
  · have hy : 0 < y := h'.1.2
    have hmax : (if 0 < y ∧ x < y then y else x) = max x y := by
      rw [max_def_lt]
      simp [hy]
    rw [hmax]
    exact .inl (h.union h')
  · rw [if_neg (fun hc => lt_irrefl _ hc.1), ht, Set.union_empty]
    exact .inl h
  · rw [if_pos ⟨h'.1.2, h'.1.2⟩, hs, Set.empty_union]
    exact .inl h'
  · rw [if_neg (fun hc => lt_irrefl _ hc.1), hs, ht, Set.union_empty]
    exact .inr ⟨rfl, rfl⟩

theorem singleton_pos {y : α} (h : 0 < y) : {y} ∩ Set.Ioi 0 = ({y} : Set α) :=
  Set.inter_eq_left.mpr (Set.singleton_subset_iff.mpr h)

theorem isFirst_singleton {y : α} (h : 0 < y) : IsFirst {y} y := by
  rw [IsFirst, singleton_pos h]
  exact .inl isLeast_singleton

theorem isLast_singleton {y : α} (h : 0 < y) : IsLast {y} y := by
  rw [IsLast, singleton_pos h]
  exact .inl isGreatest_singleton

theorem union_nonpos (s : Set α) {y : α} (h : ¬ 0 < y) :
    (s ∪ {y}) ∩ Set.Ioi 0 = s ∩ Set.Ioi 0 := by
  have hempty : ({y} : Set α) ∩ Set.Ioi 0 = ∅ := Set.singleton_inter_eq_empty.mpr h
  rw [Set.union_inter_distrib_right, hempty, Set.union_empty]

/-- One more element, which need not be positive. -/
theorem IsFirst.insert {s : Set α} {x : α} (h : IsFirst s x) (y : α) :
    IsFirst (s ∪ {y}) (first x y) := by
  by_cases hy : 0 < y
  · exact h.union (isFirst_singleton hy)
  · rw [IsFirst, union_nonpos s hy, first, if_neg (fun hc => hy hc.1)]
    exact h

theorem IsLast.insert {s : Set α} {x : α} (h : IsLast s x) (y : α) :
    IsLast (s ∪ {y}) (last x y) := by
  by_cases hy : 0 < y
  · exact h.union (isLast_singleton hy)
  · rw [IsLast, union_nonpos s hy, last, if_neg (fun hc => hy hc.1)]
    exact h

/-- Of positive elements the first is the minimum. -/
theorem IsFirst.isLeast {s : Set α} {x : α} (h : IsFirst s x) (hpos : ∀ y ∈ s, 0 < y)
    (hne : s.Nonempty) : IsLeast s x := by
  have hs : s ∩ Set.Ioi 0 = s := Set.inter_eq_left.mpr hpos
  rw [IsFirst, hs] at h
  exact h.resolve_right fun he => hne.ne_empty he.1

theorem IsLast.isGreatest {s : Set α} {x : α} (h : IsLast s x) (hpos : ∀ y ∈ s, 0 < y)
    (hne : s.Nonempty) : IsGreatest s x := by
  have hs : s ∩ Set.Ioi 0 = s := Set.inter_eq_left.mpr hpos
  rw [IsLast, hs] at h
  exact h.resolve_right fun he => hne.ne_empty he.1

/-- A new element above all others comes first only if it is the first. -/
theorem IsFirst.above {s : Set α} {x y : α} (h : IsFirst s x) (hy : ∀ z ∈ s, z < y) :
    first x y = if x = 0 ∧ 0 < y then y else x := by
  rw [first]
  obtain h | ⟨-, rfl⟩ := h
  · have hx : x ≠ 0 := h.1.2.ne'
    have hlt : ¬ y < x := (hy x h.1.1).le.not_gt
    rw [if_neg (fun hc => hc.2.elim hx hlt), if_neg (fun hc => hx hc.1)]
  · simp

/-- A new element above all others is the last. -/
theorem IsLast.above {s : Set α} {x y : α} (h : IsLast s x) (hpos : 0 < y)
    (hy : ∀ z ∈ s, z < y) : last x y = y := by
  refine if_pos ⟨hpos, ?_⟩
  obtain h | ⟨-, rfl⟩ := h
  · exact hy x h.1.1
  · exact hpos

end VeTls.Extremes
