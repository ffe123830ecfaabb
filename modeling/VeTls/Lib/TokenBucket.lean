import Mathlib

/-!
# Token buckets

A bucket of rate `r` holds at most `r` tokens and gains `r` of them in a
second; times are in milliseconds. `spent log t u` is what was taken from
time `t` to time `u`. What the invariant `Bounded` relates is the tokens that
are left and all that was taken since any time: it gives the bound for every
window.
-/

set_option autoImplicit false

namespace VeTls.TokenBucket

variable {K : Type*} [Field K] [LinearOrder K] [IsStrictOrderedRing K]

def spent (log : List (ℤ × K)) (t u : ℤ) : K :=
  (log.map fun e => if t ≤ e.1 ∧ e.1 ≤ u then e.2 else 0).sum

omit [LinearOrder K] [IsStrictOrderedRing K] in
theorem spent_append (log log' : List (ℤ × K)) (t u : ℤ) :
    spent (log++log') t u = spent log t u+spent log' t u := by
  simp [spent]

omit [LinearOrder K] [IsStrictOrderedRing K] in
theorem spent_singleton (s t u : ℤ) (c : K) :
    spent [(s, c)] t u = if t ≤ s ∧ s ≤ u then c else 0 := by
  simp [spent]

omit [LinearOrder K] [IsStrictOrderedRing K] in
theorem spent_congr (log : List (ℤ × K)) (t u v : ℤ)
    (h : ∀ e ∈ log, t ≤ e.1 → (e.1 ≤ u ↔ e.1 ≤ v)) : spent log t u = spent log t v := by
  unfold spent
  congr 1
  apply List.map_congr_left
  intro e he
  by_cases ht : t ≤ e.1
  · simp [ht, h e he ht]
  · simp [ht]

omit [LinearOrder K] [IsStrictOrderedRing K] in
theorem spent_eq_zero (log : List (ℤ × K)) (t u : ℤ) (h : ∀ e ∈ log, e.1 < t) :
    spent log t u = 0 := by
  unfold spent
  apply List.sum_eq_zero
  intro x hx
  obtain ⟨e, he, rfl⟩ := List.mem_map.mp hx
  rw [if_neg]
  intro hin
  have hlt := h e he
  omega

/-- What `r` tokens a second give in `T` milliseconds, from a full bucket. -/
def allowance (r : K) (T : ℤ) : K := r*(1+(T : K)/1000)

theorem allowance_mono (r : K) (hr : 0 ≤ r) (T T' : ℤ) (h : T ≤ T') :
    allowance r T ≤ allowance r T' := by
  unfold allowance
  have hcast : (T : K) ≤ T' := by exact_mod_cast h
  gcongr

theorem le_allowance (r : K) (hr : 0 ≤ r) (T : ℤ) (h : 0 ≤ T) : r ≤ allowance r T := by
  have hzero := allowance_mono r hr 0 T h
  simpa [allowance] using hzero

/-- The bucket has `tokens` left at the time `last`, after what `log` says was
taken from it. -/
structure Bounded (r : K) (last : ℤ) (tokens : K) (log : List (ℤ × K)) : Prop where
  cap : tokens ≤ r
  past : ∀ e ∈ log, e.1 ≤ last
  since : ∀ t ≤ last, spent log t last+tokens ≤ allowance r (last-t)
  window : ∀ t T : ℤ, 0 ≤ T → spent log t (t+T) ≤ allowance r T

theorem Bounded.start (r : K) (hr : 0 ≤ r) (last : ℤ) : Bounded r last r [] where
  cap := le_rfl
  past := by simp
  since := fun t ht => by
    have := le_allowance r hr (last-t) (by omega)
    simpa [spent] using this
  window := fun t T hT => by
    have := le_allowance r hr T hT
    simpa [spent] using hr.trans this

/-- Time passes and the bucket fills up. -/
theorem Bounded.refill {r tokens : K} {last : ℤ} {log : List (ℤ × K)} (hr : 0 ≤ r)
    (h : Bounded r last tokens log) (now : ℤ) (hnow : last ≤ now) :
    Bounded r now (min (tokens+((now-last : ℤ) : K)/1000*r) r) log where
  cap := min_le_right _ _
  past := fun e he => (h.past e he).trans hnow
  since := fun t ht => by
    by_cases hlast : t ≤ last
    · have hsame : spent log t now = spent log t last := by
        apply spent_congr
        intro e he _
        have hpast := h.past e he
        constructor <;> omega
      have hmin := min_le_left (tokens+((now-last : ℤ) : K)/1000*r) r
      have hold := h.since t hlast
      unfold allowance at hold ⊢
      push_cast at hold hmin ⊢
      rw [hsame]
      linarith
    · have hzero : spent log t now = 0 := by
        apply spent_eq_zero
        intro e he
        have hpast := h.past e he
        omega
      rw [hzero, zero_add]
      exact (min_le_right _ _).trans (le_allowance r hr _ (by omega))
  window := h.window

/-- Tokens are taken at the time of the last refill. -/
theorem Bounded.spend {r tokens : K} {last : ℤ} {log : List (ℤ × K)} (hr : 0 ≤ r)
    (h : Bounded r last tokens log) (c : K) (hc : 0 ≤ c) (hle : c ≤ tokens) :
    Bounded r last (tokens-c) (log++[(last, c)]) := by
  have hsince : ∀ t ≤ last, spent (log++[(last, c)]) t last+(tokens-c) ≤ allowance r (last-t) := by
    intro t ht
    rw [spent_append, spent_singleton, if_pos ⟨ht, le_rfl⟩]
    have hold := h.since t ht
    linarith
  refine ⟨by linarith [h.cap], ?_, hsince, ?_⟩
  · intro e he
    rcases List.mem_append.mp he with hold | hnew
    · exact h.past e hold
    · rw [List.mem_singleton.mp hnew]
  · intro t T hT
    by_cases hin : t ≤ last ∧ last ≤ t+T
    · have hall : spent (log++[(last, c)]) t (t+T) = spent (log++[(last, c)]) t last := by
        apply spent_congr
        intro e he _
        have hle : e.1 ≤ last := by
          rcases List.mem_append.mp he with hold | hnew
          · exact h.past e hold
          · rw [List.mem_singleton.mp hnew]
        constructor <;> omega
      have hnow := hsince t hin.1
      have hmono := allowance_mono r hr (last-t) T (by omega)
      rw [hall]
      linarith
    · rw [spent_append, spent_singleton, if_neg hin, add_zero]
      exact h.window t T hT

/-- A bucket that has nothing to catch up with is as good as a full one. -/
theorem Bounded.rested {r tokens : K} {last : ℤ} {log : List (ℤ × K)} (hr : 0 ≤ r)
    (h : Bounded r last tokens log) (now : ℤ) (hnow : last ≤ now)
    (hfull : r ≤ tokens+((now-last : ℤ) : K)/1000*r) : Bounded r now r log := by
  have hnew := h.refill hr now hnow
  rwa [min_eq_right hfull] at hnew

theorem Bounded.later {r : K} {last : ℤ} {log : List (ℤ × K)} (hr : 0 ≤ r)
    (h : Bounded r last r log) (now : ℤ) (hnow : last ≤ now) : Bounded r now r log := by
  apply h.rested hr now hnow
  have hdt : (0 : K) ≤ ((now-last : ℤ) : K) := by
    have : 0 ≤ now-last := by omega
    exact_mod_cast this
  have : 0 ≤ ((now-last : ℤ) : K)/1000*r := by positivity
  linarith

/-- When nothing is taken from it, a bucket fills up in the end. -/
theorem eventually_full [Archimedean K] (r tokens : K) (hr : 0 < r) (last : ℤ) :
    ∃ t > last, ∀ now ≥ t, r ≤ tokens+((now-last : ℤ) : K)/1000*r := by
  obtain ⟨n, hn⟩ := Archimedean.arch ((r-tokens)*1000) hr
  refine ⟨last+n+1, by omega, fun now hnow => ?_⟩
  have hlong : (n : K) ≤ ((now-last : ℤ) : K) := by
    have : (n : ℤ) ≤ now-last := by omega
    exact_mod_cast this
  have hgain : (n : K)*r ≤ ((now-last : ℤ) : K)*r := by gcongr
  rw [nsmul_eq_mul] at hn
  rw [div_mul_eq_mul_div]
  linarith

end VeTls.TokenBucket
