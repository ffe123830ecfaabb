import VeTls.Lib.Threads

/-!
# Signals for units

Threads wait at a condition variable for a unit: a free slot, an item. Who
makes a unit signals one sleeper, and who is awake looks again. No signal is
lost as long as a thread that is awake leaves only with a unit, or when there
is none: then the sleepers never have more units before them than there are
threads awake.
-/

set_option autoImplicit false

namespace VeTls.Signals

open VeTls.Threads (total total_update total_eq_zero le_total)

/-- Where a thread is with one condition variable. -/
inductive Stance where
  | apart
  | awake
  | asleep
  deriving DecidableEq, Repr

variable {α : Type*} (n : ℕ) (stance : α → Stance)

def count (x : Stance) (f : ℕ → α) : ℕ := total n f fun a => if stance a = x then 1 else 0

theorem count_update (x : Stance) (f : ℕ → α) (i : ℕ) (hi : i < n) (a : α) :
    count n stance x (Function.update f i a)+(if stance (f i) = x then 1 else 0) =
      count n stance x f+(if stance a = x then 1 else 0) :=
  total_update n i hi f _ a

theorem count_pos (x : Stance) (f : ℕ → α) (i : ℕ) (hi : i < n) (h : stance (f i) = x) :
    0 < count n stance x f := by
  have hle := le_total n i hi f fun a => if stance a = x then 1 else 0
  rw [if_pos h] at hle
  exact hle

theorem count_eq_zero (x : Stance) (f : ℕ → α) (h : ∀ i < n, stance (f i) ≠ x) :
    count n stance x f = 0 :=
  Finset.sum_eq_zero fun i hi => if_neg (h i (Finset.mem_range.mp hi))

/-- The sleepers have no more units before them than there are threads awake. -/
def Served (f : ℕ → α) (free : ℕ) : Prop :=
  0 < count n stance .asleep f → free ≤ count n stance .awake f

/-- What a thread may do, and what becomes of the units. -/
inductive Move : Stance → Stance → ℕ → ℕ → Prop
  | stays (x : Stance) (free : ℕ) : Move x x free free
  | arrives (free : ℕ) : Move .apart .awake free free
  | sleeps : Move .awake .asleep 0 0
  | wakes (free : ℕ) : Move .asleep .awake free free
  | takes (free : ℕ) : Move .awake .apart (free+1) free
  | leaves : Move .awake .apart 0 0

variable {n stance}

theorem Served.move {f : ℕ → α} {free free' : ℕ} (h : Served n stance f free) (i : ℕ) (hi : i < n)
    (a : α) (hm : Move (stance (f i)) (stance a) free free') :
    Served n stance (Function.update f i a) free' := by
  have hawake := count_update n stance .awake f i hi a
  have hasleep := count_update n stance .asleep f i hi a
  unfold Served at h ⊢
  generalize hx : stance (f i) = x at hm hawake hasleep
  generalize hy : stance a = y at hm hawake hasleep
  cases hm with
  | stays => omega
  | arrives => simp only [reduceCtorEq, if_false, if_true] at hawake hasleep; omega
  | sleeps => omega
  | wakes => simp only [reduceCtorEq, if_false, if_true] at hawake hasleep; omega
  | takes => simp only [reduceCtorEq, if_false, if_true] at hawake hasleep; omega
  | leaves => omega

/-- A new unit wakes a sleeper. -/
theorem Served.signal {f : ℕ → α} {free : ℕ} (h : Served n stance f free) (j : ℕ) (hj : j < n)
    (hasleep : stance (f j) = .asleep) (a : α) (ha : stance a = .awake) :
    Served n stance (Function.update f j a) (free+1) := by
  have hpos := count_pos n stance .asleep f j hj hasleep
  have hcount := count_update n stance .awake f j hj a
  rw [hasleep, ha, if_neg (by decide), if_pos rfl] at hcount
  intro _
  have := h hpos
  omega

theorem served_of_none {f : ℕ → α} (h : ∀ i < n, stance (f i) ≠ .asleep) (free : ℕ) :
    Served n stance f free := by
  intro hpos
  rw [count_eq_zero n stance .asleep f h] at hpos
  exact absurd hpos (lt_irrefl 0)

/-- When nobody is awake the sleepers have nothing to wait for in vain. -/
theorem Served.none_awake {f : ℕ → α} {free : ℕ} (h : Served n stance f free)
    (hawake : ∀ i < n, stance (f i) ≠ .awake) (i : ℕ) (hi : i < n)
    (hasleep : stance (f i) = .asleep) : free = 0 := by
  have hle := h (count_pos n stance .asleep f i hi hasleep)
  rw [count_eq_zero n stance .awake f hawake] at hle
  exact Nat.le_zero.mp hle

end VeTls.Signals
