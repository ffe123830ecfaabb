import Mathlib

/-!
# Families of threads

Threads of one kind are a function from their numbers to their states, next
to a state they all share. A step of one thread is a chain of smaller moves
on its own state and the shared one; an invariant that every move keeps is
kept by the chain. `total` adds up what the first `n` threads have.
-/

set_option autoImplicit false

namespace VeTls.Threads

variable {α σ : Type*}

/-- A chain of moves of the thread `i` keeps what each of its moves keeps. -/
theorem chain_invariant (R : α × σ → α × σ → Prop) (I : (ℕ → α) → σ → Prop) (i : ℕ)
    (hmove : ∀ f s r, I f s → R (f i, s) r → I (Function.update f i r.1) r.2)
    (f : ℕ → α) (s : σ) (r : α × σ) (h : I f s) (hr : Relation.ReflTransGen R (f i, s) r) :
    I (Function.update f i r.1) r.2 := by
  induction hr with
  | refl =>
    rw [Function.update_eq_self]
    exact h
  | @tail b c _ hlast ih =>
    have hnext := hmove (Function.update f i b.1) b.2 c ih
      (by rw [Function.update_self]; exact hlast)
    rwa [Function.update_idem] at hnext

def total (n : ℕ) (f : ℕ → α) (g : α → ℕ) : ℕ := ∑ i ∈ Finset.range n, g (f i)

theorem total_update (n i : ℕ) (hi : i < n) (f : ℕ → α) (g : α → ℕ) (a : α) :
    total n (Function.update f i a) g+g (f i) = total n f g+g a := by
  have hmem := Finset.mem_range.mpr hi
  unfold total
  rw [← Finset.add_sum_erase _ _ hmem, ← Finset.add_sum_erase _ (fun j => g (f j)) hmem,
    Function.update_self]
  have hrest : ∀ j ∈ (Finset.range n).erase i, g (Function.update f i a j) = g (f j) := by
    intro j hj
    rw [Function.update_of_ne (Finset.ne_of_mem_erase hj)]
  rw [Finset.sum_congr rfl hrest]
  omega

theorem total_same (n i : ℕ) (f : ℕ → α) (g : α → ℕ) (a : α) (h : g a = g (f i)) :
    total n (Function.update f i a) g = total n f g := by
  apply Finset.sum_congr rfl
  intro j _
  by_cases hj : j = i
  · rw [hj, Function.update_self, h]
  · rw [Function.update_of_ne hj]

theorem le_total (n i : ℕ) (hi : i < n) (f : ℕ → α) (g : α → ℕ) : g (f i) ≤ total n f g := by
  unfold total
  rw [← Finset.add_sum_erase _ (fun j => g (f j)) (Finset.mem_range.mpr hi)]
  exact Nat.le_add_right _ _

theorem add_le_total (n i j : ℕ) (hi : i < n) (hj : j < n) (hij : i ≠ j) (f : ℕ → α) (g : α → ℕ) :
    g (f i)+g (f j) ≤ total n f g := by
  unfold total
  rw [← Finset.add_sum_erase _ (fun k => g (f k)) (Finset.mem_range.mpr hi),
    ← Finset.add_sum_erase _ (fun k => g (f k))
      (Finset.mem_erase.mpr ⟨Ne.symm hij, Finset.mem_range.mpr hj⟩)]
  omega

theorem total_eq_zero (n : ℕ) (f : ℕ → α) (g : α → ℕ) (h : ∀ i, g (f i) = 0) :
    total n f g = 0 :=
  Finset.sum_eq_zero fun i _ => h i

theorem eq_zero_of_total (n i : ℕ) (hi : i < n) (f : ℕ → α) (g : α → ℕ) (h : total n f g = 0) :
    g (f i) = 0 := by
  have := le_total n i hi f g
  omega

/-- The sum over what some of the threads have is a total. -/
theorem sum_filterMap {β : Type*} (n : ℕ) (f : ℕ → α) (o : α → Option β) (g : β → ℕ) :
    (((List.range n).filterMap fun i => o (f i)).map g).sum =
      total n f fun a => ((o a).map g).getD 0 := by
  induction n with
  | zero => rfl
  | succ n ih =>
    rw [List.range_succ, List.filterMap_append, List.map_append, List.sum_append, ih, total, total,
      Finset.sum_range_succ]
    cases h : o (f n) <;> simp [h]

end VeTls.Threads
