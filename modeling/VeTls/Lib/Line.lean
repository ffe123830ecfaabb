import Mathlib.Data.List.Pairwise
import Mathlib.Order.Lattice

/-!
# Order along a line

Items pass the places of a line one after the other. `R a b` says that `a`
is to go before `b`. A line is in order when nothing is at an earlier place
than an item it is to go before; moving one item keeps it so when the item
passes none that is to go before it.
-/

set_option autoImplicit false

namespace VeTls.Line

variable {ι β : Type*} {R : β → β → Prop}

section Places

variable [LinearOrder ι] {At At' : ι → β → Prop}

def InOrder (R : β → β → Prop) (At : ι → β → Prop) : Prop :=
  ∀ k l a b, k < l → At k a → At l b → ¬R a b

theorem InOrder.sub (h : InOrder R At) (hsub : ∀ k a, At' k a → At k a) : InOrder R At' :=
  fun k l a b hkl ha hb => h k l a b hkl (hsub k a ha) (hsub l b hb)

/-- The item `x` moves from the place `m` to the place `m'`. -/
theorem InOrder.move (h : InOrder R At) (x : β) (m m' : ι) (hx : At m x)
    (hsub : ∀ k a, At' k a → At k a ∨ k = m' ∧ a = x)
    (hpass : ∀ k a, m ≤ k → k < m' → At' k a → ¬R a x)
    (hback : ∀ k b, m' < k → k ≤ m → At' k b → ¬R x b) : InOrder R At' := by
  intro k l a b hkl ha hb
  obtain hold | ⟨rfl, rfl⟩ := hsub k a ha
  · obtain hold' | ⟨rfl, rfl⟩ := hsub l b hb
    · exact h k l a b hkl hold hold'
    · by_cases hk : m ≤ k
      · exact hpass k a hk hkl ha
      · exact h k m a b (not_le.mp hk) hold hx
  · obtain hold' | ⟨rfl, _⟩ := hsub l b hb
    · by_cases hl : l ≤ m
      · exact hback l b hkl hl hb
      · exact h m l a b (not_le.mp hl) hx hold'
    · exact absurd hkl (lt_irrefl l)

/-- New items enter at the place `m`. -/
theorem InOrder.enter (h : InOrder R At) (m : ι) (New : β → Prop)
    (hsub : ∀ k a, At' k a → At k a ∨ k = m ∧ New a)
    (hahead : ∀ l b a, m < l → At l b → New a → ¬R a b)
    (hbehind : ∀ k a b, k < m → At k a → New b → ¬R a b) : InOrder R At' := by
  intro k l a b hkl ha hb
  obtain hold | ⟨rfl, hnew⟩ := hsub k a ha
  · obtain hold' | ⟨rfl, hnew'⟩ := hsub l b hb
    · exact h k l a b hkl hold hold'
    · exact hbehind k a b hkl hold hnew'
  · obtain hold' | ⟨rfl, _⟩ := hsub l b hb
    · exact hahead l b a hkl hold' hnew
    · exact absurd hkl (lt_irrefl l)

end Places

/-- Nothing in the list stands behind an item it is to go before. -/
def Sorted (R : β → β → Prop) (l : List β) : Prop := l.Pairwise fun a b => ¬R b a

theorem Sorted.nil : Sorted R ([] : List β) := List.Pairwise.nil

theorem Sorted.cons {l : List β} {x : β} (h : Sorted R l) (hx : ∀ a ∈ l, ¬R a x) :
    Sorted R (x::l) := List.pairwise_cons.mpr ⟨hx, h⟩

theorem Sorted.tail {l : List β} {x : β} (h : Sorted R (x::l)) :
    Sorted R l ∧ ∀ a ∈ l, ¬R a x :=
  ⟨(List.pairwise_cons.mp h).2, (List.pairwise_cons.mp h).1⟩

theorem Sorted.snoc {l : List β} {x : β} (h : Sorted R l) (hx : ∀ a ∈ l, ¬R x a) :
    Sorted R (l++[x]) := by
  refine List.pairwise_append.mpr ⟨h, List.pairwise_singleton _ x, fun a ha b hb => ?_⟩
  obtain rfl := List.mem_singleton.mp hb
  exact hx a ha

/-- Where an item first stands in a list that is in order. -/
theorem Sorted.idxOf_lt [DecidableEq β] {l : List β} (h : Sorted R l) {a b : β} (ha : a ∈ l)
    (hb : b ∈ l) (hne : a ≠ b) (hab : R a b) : l.idxOf a < l.idxOf b := by
  by_contra hle
  have hia := List.idxOf_lt_length_of_mem ha
  have hib := List.idxOf_lt_length_of_mem hb
  have hidx : l.idxOf b ≠ l.idxOf a := by
    intro he
    have hget := List.getElem_idxOf hib
    simp only [he, List.getElem_idxOf hia] at hget
    exact hne hget
  have hpair := List.pairwise_iff_getElem.mp h (l.idxOf b) (l.idxOf a) hib hia (by omega)
  rw [List.getElem_idxOf hia, List.getElem_idxOf hib] at hpair
  exact hpair hab

end VeTls.Line
