import VeTls.RateLimit
import VeTls.Pipeline.Recall

/-!
# Batches that no limiter admits

A bucket never holds more than its rate gives in a second, and a batch takes
its bytes at once. Whether a batch can get through is a question of its size
alone, since a bucket from which nothing is taken fills up.
-/

set_option autoImplicit false

namespace VeTls

open VeTls.Keys (Addr)

namespace Tokens

variable {rps bps : ℤ}

/-- The states of a bucket after reservations of any sizes, at clock readings
in any order, that were granted or refused. -/
inductive Reached (rps bps : ℤ) : Tokens → Prop where
  | zero : Reached rps bps zero
  | step (bytes : ℕ) (now : ℤ) (b : Tokens) (h : Reached rps bps b) :
    Reached rps bps (reserve rps bps bytes now b).2

theorem refill_le (hb : 0 < bps) (now : ℤ) (b : Tokens) (h : b.rlByteTokens ≤ bps) :
    (refill rps bps now b).rlByteTokens ≤ bps := by
  unfold refill
  split
  · simp [full, hb]
  · split
    · simp only [topUp, gt_iff_lt, hb, if_true]
      exact min_le_right _ _
    · exact h

theorem reserve_le (hb : 0 < bps) (bytes : ℕ) (now : ℤ) (b : Tokens) (h : b.rlByteTokens ≤ bps) :
    (reserve rps bps bytes now b).2.rlByteTokens ≤ bps := by
  have hrefill : (refill rps bps now b).rlByteTokens ≤ bps := refill_le hb now b h
  unfold reserve
  dsimp only
  split
  · have hbytes : (0 : ℚ) ≤ bytes := Nat.cast_nonneg bytes
    simp only [take, gt_iff_lt, hb, if_true]
    linarith
  · exact hrefill

theorem Reached.le {b : Tokens} (h : Reached rps bps b) (hb : 0 < bps) : b.rlByteTokens ≤ bps := by
  induction h with
  | zero =>
    show (0 : ℚ) ≤ bps
    exact_mod_cast hb.le
  | step bytes now b h ih => exact reserve_le hb bytes now b ih

/-- What is admitted is no larger than a full bucket. -/
theorem Reached.admits_le {b : Tokens} (h : Reached rps bps b) (hb : 0 < bps) (bytes : ℕ) (now : ℤ)
    (hok : (reserve rps bps bytes now b).1 = true) : (bytes : ℤ) ≤ bps := by
  have hcap : (refill rps bps now b).rlByteTokens ≤ bps := refill_le hb now b (h.le hb)
  have henough : enough rps bps bytes (refill rps bps now b) = true := by
    by_contra hno
    unfold reserve at hok
    dsimp only at hok
    rw [if_neg hno] at hok
    cases hok
  simp only [enough, Bool.and_eq_true, Bool.not_eq_true', Bool.and_eq_false_iff,
    decide_eq_false_iff_not, not_lt] at henough
  have hle : (bytes : ℚ) ≤ bps := (henough.2.resolve_left (by omega)).trans hcap
  exact_mod_cast hle

theorem full_enough (hr : 0 < rps) (bytes : ℕ) (hbytes : (bytes : ℤ) ≤ bps) (b : Tokens)
    (hreq : b.rlReqTokens = rps) (hbyte : b.rlByteTokens = bps) :
    enough rps bps bytes b = true := by
  have hone : ¬ (rps : ℚ) < 1 := by
    rw [not_lt]
    exact_mod_cast hr
  have hall : ¬ (bps : ℚ) < bytes := by
    rw [not_lt]
    exact_mod_cast hbytes
  simp [enough, hreq, hbyte, hone, hall]

theorem refill_eventually (hr : 0 < rps) (hb : 0 < bps) (b : Tokens) :
    ∃ t, ∀ now ≥ t, (refill rps bps now b).rlReqTokens = rps ∧
      (refill rps bps now b).rlByteTokens = bps := by
  have hr' : (0 : ℚ) < rps := by exact_mod_cast hr
  have hb' : (0 : ℚ) < bps := by exact_mod_cast hb
  obtain ⟨t, ht, hreq⟩ := TokenBucket.eventually_full (rps : ℚ) b.rlReqTokens hr' b.rlLastMs
  obtain ⟨u, hu, hbyte⟩ := TokenBucket.eventually_full (bps : ℚ) b.rlByteTokens hb' b.rlLastMs
  refine ⟨max t u, fun now hnow => ?_⟩
  have hlater : now > b.rlLastMs := by omega
  unfold refill
  split_ifs
  · simp [full, hr, hb]
  · simp only [topUp, gt_iff_lt, hr, hb, if_true]
    exact ⟨min_eq_right (hreq now (by omega)), min_eq_right (hbyte now (by omega))⟩

/-- From some time on a batch that fits the full bucket is admitted. -/
theorem eventually_admits (hr : 0 < rps) (hb : 0 < bps) (bytes : ℕ) (hbytes : (bytes : ℤ) ≤ bps)
    (b : Tokens) : ∃ t, ∀ now ≥ t, (reserve rps bps bytes now b).1 = true := by
  obtain ⟨t, ht⟩ := refill_eventually hr hb b
  refine ⟨t, fun now hnow => ?_⟩
  have henough := full_enough hr bytes hbytes _ (ht now hnow).1 (ht now hnow).2
  unfold reserve
  dsimp only
  rw [if_pos henough]

theorem keyRateLimitReserve_none (hb : 0 < bps) (bytes : ℕ) (now : ℤ) (b : Tokens) :
    (keyRateLimitReserve rps bps bytes now b).1 = none ↔
      (reserve rps bps bytes now b).1 = true := by
  have hon : ¬ (rps ≤ 0 ∧ bps ≤ 0) := by omega
  unfold keyRateLimitReserve
  rw [if_neg hon]
  dsimp only
  cases (reserve rps bps bytes now b).1 <;> simp

end Tokens

namespace Limiter

theorem rateLimitWait_idle (bytes : ℕ) (now : ℤ) (p : Limiter) (hstop : p.stop = false) :
    (rateLimitWait bytes now p).1 = .idle ↔
      (p.tokens.reserve p.rateLimitRps p.rateLimitBps bytes now).1 = true := by
  unfold rateLimitWait
  rw [hstop, if_neg Bool.false_ne_true]
  dsimp only
  split
  · rename_i hok
    simp [hok]
  · rename_i hno
    simp [hno]

end Limiter

/-- At this reading of the clock the bucket of the key and the one of the
producer admit the batch. -/
def Admitted (keyRps keyBps : ℤ) (bytes : ℕ) (key : Tokens) (p : Limiter) (now : ℤ) : Prop :=
  (key.keyRateLimitReserve keyRps keyBps bytes now).1 = none ∧
    (p.rateLimitWait bytes now).1 = .idle

theorem Admitted.le {keyRps keyBps : ℤ} {bytes : ℕ} {key : Tokens} {p : Limiter} {now : ℤ}
    (h : Admitted keyRps keyBps bytes key p now) (hstop : p.stop = false)
    (hkey : Tokens.Reached keyRps keyBps key)
    (hall : Tokens.Reached p.rateLimitRps p.rateLimitBps p.tokens)
    (hkb : 0 < keyBps) (hb : 0 < p.rateLimitBps) :
    (bytes : ℤ) ≤ p.rateLimitBps ∧ (bytes : ℤ) ≤ keyBps :=
  ⟨hall.admits_le hb bytes now ((Limiter.rateLimitWait_idle bytes now p hstop).mp h.2),
    hkey.admits_le hkb bytes now ((Tokens.keyRateLimitReserve_none hkb bytes now key).mp h.1)⟩

/-- Whatever the buckets have given so far, and when no other request is let
in, both limiters admit a batch at some later time exactly when it is no
larger than either byte rate. -/
theorem batch_admitted_iff (keyRps keyBps : ℤ) (bytes : ℕ) (key : Tokens) (p : Limiter)
    (clock : ℤ) (hkr : 0 < keyRps) (hkb : 0 < keyBps) (hr : 0 < p.rateLimitRps)
    (hb : 0 < p.rateLimitBps) (hstop : p.stop = false) (hkey : Tokens.Reached keyRps keyBps key)
    (hall : Tokens.Reached p.rateLimitRps p.rateLimitBps p.tokens) :
    (∃ now ≥ clock, Admitted keyRps keyBps bytes key p now) ↔
      (bytes : ℤ) ≤ p.rateLimitBps ∧ (bytes : ℤ) ≤ keyBps := by
  constructor
  · rintro ⟨now, -, h⟩
    exact h.le hstop hkey hall hkb hb
  · rintro ⟨hle, hkle⟩
    obtain ⟨t, ht⟩ := Tokens.eventually_admits hr hb bytes hle p.tokens
    obtain ⟨u, hu⟩ := Tokens.eventually_admits hkr hkb bytes hkle key
    refine ⟨max clock (max t u), le_max_left _ _, ?_, ?_⟩
    · rw [Tokens.keyRateLimitReserve_none hkb]
      exact hu _ (by omega)
    · rw [Limiter.rateLimitWait_idle bytes _ p hstop]
      exact ht _ (by omega)

def oneByteRate : Limiter := ⟨1, 100, false, Tokens.zero, []⟩

theorem smallBatch_admitted :
    (∃ now ≥ (5 : ℤ), Admitted 1 20 14 Tokens.zero oneByteRate now) ↔
      ((14 : ℕ) : ℤ) ≤ oneByteRate.rateLimitBps ∧ ((14 : ℕ) : ℤ) ≤ 20 :=
  batch_admitted_iff 1 20 14 Tokens.zero oneByteRate 5 (by decide) (by decide) (by decide)
    (by decide) rfl .zero .zero

def slowKeys : Setup :=
  ⟨{ keyQueueBucketCount := 1, rateLimitRps := 1, rateLimitBps := 100, keyRateLimitRps := 1,
     keyRateLimitBps := 13 }, 1, 0⟩

/-- A log is packed and its batch comes to the gate of its key. -/
def toTheGate : List Act :=
  Sys.packKeyed 9++List.replicate 5 (.sender 0 ⟨1, 1, 7, none, .sent⟩)

def gateSize (s : Sys) : Option ℕ :=
  match s.senders 0 with
  | .gate _ send => some (Worker.sendSize send.task)
  | _ => none

/-- The batch has fourteen bytes, one more than its key gets in a second. -/
theorem largeBatch_refused : ¬ ∀ (st : Setup) (acts : List Act) (s : Sys) (bytes : ℕ)
    (key : Tokens) (p : Limiter) (clock : ℤ),
    0 < st.cfg.keyRateLimitRps → 0 < st.cfg.keyRateLimitBps →
      0 < st.cfg.rateLimitRps → 0 < st.cfg.rateLimitBps →
      p.rateLimitRps = st.cfg.rateLimitRps → p.rateLimitBps = st.cfg.rateLimitBps →
      p.stop = false → Sys.run st acts (Sys.start st) = some s → gateSize s = some bytes →
      Tokens.Reached st.cfg.keyRateLimitRps st.cfg.keyRateLimitBps key →
      Tokens.Reached p.rateLimitRps p.rateLimitBps p.tokens →
        ∃ now ≥ clock,
          Admitted st.cfg.keyRateLimitRps st.cfg.keyRateLimitBps bytes key p now := by
  intro h
  have hgate : (Sys.run slowKeys toTheGate (Sys.start slowKeys)).map gateSize =
      some (some 14) := by decide +kernel
  obtain ⟨s, hs, hsize⟩ := Option.map_eq_some_iff.mp hgate
  obtain ⟨now, -, hnow⟩ := h slowKeys toTheGate s 14 Tokens.zero oneByteRate 1 (by decide)
    (by decide) (by decide) (by decide) rfl rfl rfl hs hsize .zero .zero
  have hle := (hnow.le rfl .zero .zero (by decide) (by decide)).2
  exact absurd hle (by decide)

end VeTls
