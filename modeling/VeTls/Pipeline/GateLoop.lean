import VeTls.RateLimit
import VeTls.Sender

/-!
# The breaker loop of a sender

In front of its first request a sender waits while the breaker is open and
then asks for a permit, again and again until it is let in. Each look at the
producer follows a reading of the clock and holds the mutex; between two
looks other threads run. Without a clock, or without a breaker, the two
functions do not look at all.
-/

set_option autoImplicit false

namespace VeTls.Sender

open VeTls.Keys (Addr KeyMap)

/-- A reading of the clock and the producer found after it. -/
structure Look where
  now : ℤ
  prod : Producer

/-- The results `1`, `2` and `0` of `ve_tls_breaker_try_enter_half_open`. -/
inductive Entry where
  | unguarded
  | permit
  | refused
  deriving DecidableEq, Repr

variable {cfg : Config}

def unwatched (cfg : Config) (timeMs : Bool) : Bool :=
  decide (cfg.breakerFailThreshold ≤ 0) || !timeMs

/-- The looks that are left when the function returns; `none` while it waits. -/
def breakerWaitOpen (cfg : Config) (timeMs : Bool) : List Look → Option (List Look)
  | [] => if unwatched cfg timeMs then some [] else none
  | l::rest =>
    if unwatched cfg timeMs then some (l::rest)
    else if l.prod.stop then some rest
    else if l.prod.breakerOpenUntilMs = 0 ∨ l.now ≥ l.prod.breakerOpenUntilMs then some rest
    else breakerWaitOpen cfg timeMs rest

def hasPermit (cfg : Config) (l : Look) : Bool :=
  (decide (l.prod.breakerOpenUntilMs = 0) || decide (l.now ≥ l.prod.breakerOpenUntilMs)) &&
    decide (l.prod.breakerHalfOpenInflight < cfg.breakerHalfOpenMaxInflight)

def breakerTryEnterHalfOpen (cfg : Config) (timeMs : Bool) :
    List Look → Option (Entry × List Look)
  | [] => if unwatched cfg timeMs then some (.unguarded, []) else none
  | l::rest =>
    if unwatched cfg timeMs then some (.unguarded, l::rest)
    else if hasPermit cfg l then some (.permit, rest)
    else some (.refused, rest)

/-- At most `n` rounds of the loop; `none` when they do not end it. -/
def gateLoop (cfg : Config) (timeMs : Bool) : ℕ → List Look → Option Entry
  | 0, _ => none
  | n+1, looks =>
    match (breakerWaitOpen cfg timeMs looks).bind (breakerTryEnterHalfOpen cfg timeMs) with
    | none => none
    | some (.refused, rest) => gateLoop cfg timeMs n rest
    | some (entry, _) => some entry

/-- The permit is taken in the look that grants it. -/
def afterEntry (entry : Entry) (p : Producer) : Producer :=
  match entry with
  | .permit => { p with breakerHalfOpenInflight := p.breakerHalfOpenInflight+1 }
  | _ => p

def enterPc (q : Addr) (s : Send) : Entry → Pc
  | .unguarded => .attempt (some q) { s with entered := true }
  | .permit => .attempt (some q) { s with entered := true, halfOpen := true }
  | .refused => .breakerWait q s

theorem breakerOpen_eq (hpos : 0 < cfg.breakerFailThreshold) (now : ℤ) (p : Producer) :
    breakerOpen cfg now p =
      !(decide (p.breakerOpenUntilMs = 0) || decide (now ≥ p.breakerOpenUntilMs)) := by
  rw [breakerOpen, decide_eq_true hpos, Bool.true_and, Bool.not_or, ← decide_not, ← decide_not]
  simp only [not_le, ge_iff_le, ne_eq]

/-- With a clock the step of a sender is one look. -/
theorem breakerEnter_eq (i : Input) (q : Addr) (s : Send) (p : Producer) :
    ∃ entry rest, breakerTryEnterHalfOpen cfg true [⟨i.now, p⟩] = some (entry, rest) ∧
      breakerEnter cfg i q s p = (enterPc q s entry, afterEntry entry p) := by
  by_cases hoff : cfg.breakerFailThreshold ≤ 0
  · refine ⟨.unguarded, [⟨i.now, p⟩], ?_, ?_⟩
    · simp [breakerTryEnterHalfOpen, unwatched, hoff]
    · simp [breakerEnter, hoff, enterPc, afterEntry]
  · have hopen := breakerOpen_eq (not_le.mp hoff) i.now p
    by_cases hpermit : hasPermit cfg ⟨i.now, p⟩ = true
    · refine ⟨.permit, [], ?_, ?_⟩
      · simp [breakerTryEnterHalfOpen, unwatched, hoff, hpermit]
      · have hgrant : (!breakerOpen cfg i.now p &&
            decide (p.breakerHalfOpenInflight < cfg.breakerHalfOpenMaxInflight)) = true := by
          rw [hopen, Bool.not_not]
          exact hpermit
        rw [breakerEnter, if_neg hoff, if_pos hgrant]
        rfl
    · refine ⟨.refused, [], ?_, ?_⟩
      · simp [breakerTryEnterHalfOpen, unwatched, hoff, hpermit]
      · have hgrant : ¬ (!breakerOpen cfg i.now p &&
            decide (p.breakerHalfOpenInflight < cfg.breakerHalfOpenMaxInflight)) = true := by
          rw [hopen, Bool.not_not]
          exact hpermit
        rw [breakerEnter, if_neg hoff, if_neg hgrant]
        rfl

/-- With a clock the step in front of it is the end of the wait. -/
theorem breakerWait_eq (i : Input) (q : Addr) (s : Send) (p : Producer)
    (hfree : i.addr ∉ KeyMap.live cfg.toKeyConfig p.keys) :
    (step cfg i (.breakerWait q s) p).isSome =
      (breakerWaitOpen cfg true [⟨i.now, p⟩]).isSome := by
  rw [step, if_neg hfree]
  by_cases hoff : cfg.breakerFailThreshold ≤ 0
  · have hclosed : breakerOpen cfg i.now p = false := by simp [breakerOpen, hoff]
    simp [breakerWaitOpen, unwatched, hoff, hclosed]
  · have hopen := breakerOpen_eq (not_le.mp hoff) i.now p
    have hwatched : unwatched cfg true = false := by simp [unwatched, hoff]
    rw [breakerWaitOpen, hopen, hwatched, if_neg Bool.false_ne_true]
    by_cases hu : p.breakerOpenUntilMs = 0 ∨ i.now ≥ p.breakerOpenUntilMs
    · have hdue : (decide (p.breakerOpenUntilMs = 0) || decide (i.now ≥ p.breakerOpenUntilMs)) =
          true := by simpa using hu
      rw [hdue, Bool.not_true, Bool.false_and, if_neg Bool.false_ne_true, if_pos hu]
      split <;> rfl
    · have hopen' : (decide (p.breakerOpenUntilMs = 0) || decide (i.now ≥ p.breakerOpenUntilMs)) =
          false := by simpa using hu
      rw [hopen', Bool.not_false, Bool.true_and, if_neg hu]
      cases p.stop with
      | true => rfl
      | false =>
        rw [if_pos Bool.not_false, if_neg Bool.false_ne_true, breakerWaitOpen, hwatched,
          if_neg Bool.false_ne_true]
        rfl

theorem gateLoop_unwatched (timeMs : Bool) (n : ℕ) (looks : List Look)
    (h : unwatched cfg timeMs = true) : gateLoop cfg timeMs (n+1) looks = some .unguarded := by
  have hwait : breakerWaitOpen cfg timeMs looks = some looks := by
    cases looks with
    | nil => rw [breakerWaitOpen, if_pos h]
    | cons l rest => rw [breakerWaitOpen, if_pos h]
  have htry : breakerTryEnterHalfOpen cfg timeMs looks = some (.unguarded, looks) := by
    cases looks with
    | nil => rw [breakerTryEnterHalfOpen, if_pos h]
    | cons l rest => rw [breakerTryEnterHalfOpen, if_pos h]
  rw [gateLoop, hwait, Option.bind_some, htry]

/-- A round after the stop: the first look ends the wait, the second one
decides. -/
theorem gateLoop_stopped (timeMs : Bool) (n : ℕ) (first second : Look) (rest : List Look)
    (h : unwatched cfg timeMs = false) (hstop : first.prod.stop = true) :
    gateLoop cfg timeMs (n+1) (first::second::rest) =
      if hasPermit cfg second then some .permit else gateLoop cfg timeMs n rest := by
  have hwait : breakerWaitOpen cfg timeMs (first::second::rest) = some (second::rest) := by
    rw [breakerWaitOpen, h, if_neg Bool.false_ne_true, if_pos hstop]
  rw [gateLoop, hwait, Option.bind_some, breakerTryEnterHalfOpen, h, if_neg Bool.false_ne_true]
  cases hasPermit cfg second <;> rfl

/-- As long as no look grants a permit, the stop does not end the loop. -/
theorem gateLoop_stays (timeMs : Bool) (n : ℕ) (looks : List Look)
    (h : unwatched cfg timeMs = false)
    (hlooks : ∀ l ∈ looks, l.prod.stop = true ∧ hasPermit cfg l = false) :
    gateLoop cfg timeMs n looks = none := by
  induction n generalizing looks with
  | zero => rfl
  | succ n ih =>
    match looks with
    | [] => rw [gateLoop, breakerWaitOpen, h]; rfl
    | [l] =>
      have hstop := (hlooks l List.mem_cons_self).1
      rw [gateLoop, breakerWaitOpen, h, if_neg Bool.false_ne_true, if_pos hstop,
        Option.bind_some, breakerTryEnterHalfOpen, h]
      rfl
    | first::second::rest =>
      have hfirst := hlooks first List.mem_cons_self
      have hsecond := hlooks second (List.mem_cons_of_mem _ List.mem_cons_self)
      rw [gateLoop_stopped timeMs n first second rest h hfirst.1, hsecond.2,
        if_neg Bool.false_ne_true]
      exact ih rest fun l hl =>
        hlooks l (List.mem_cons_of_mem _ (List.mem_cons_of_mem _ hl))

/-- The other limiter returns at its first look. -/
theorem rateLimitWait_stopped (bytes : ℕ) (now : ℤ) (p : Limiter) (h : p.stop = true) :
    Limiter.rateLimitWait bytes now p = (.idle, p) := if_pos h

/-- After the stop the loop ends in its first round exactly when there is no
breaker or no clock, or when the second look finds the breaker closed or due
and a permit free. -/
theorem stopped_gate_leaves_iff (cfg : Config) (timeMs : Bool) (first second : Look)
    (rest : List Look) (hstop : first.prod.stop = true) :
    (gateLoop cfg timeMs 1 (first::second::rest)).isSome = true ↔
      cfg.breakerFailThreshold ≤ 0 ∨ timeMs = false ∨
        (second.prod.breakerOpenUntilMs = 0 ∨ second.now ≥ second.prod.breakerOpenUntilMs) ∧
          second.prod.breakerHalfOpenInflight < cfg.breakerHalfOpenMaxInflight := by
  by_cases h : unwatched cfg timeMs = true
  · have hcases : cfg.breakerFailThreshold ≤ 0 ∨ timeMs = false := by simpa [unwatched] using h
    rw [gateLoop_unwatched timeMs 0 _ h]
    exact iff_of_true rfl (hcases.elim .inl fun ht => .inr (.inl ht))
  · have hoff : ¬ (cfg.breakerFailThreshold ≤ 0 ∨ timeMs = false) := by simpa [unwatched] using h
    rw [not_or] at hoff
    rw [gateLoop_stopped timeMs 0 first second rest (Bool.not_eq_true _ ▸ h) hstop,
      or_iff_right hoff.1, or_iff_right hoff.2]
    by_cases hpermit : hasPermit cfg second = true
    · rw [if_pos hpermit]
      exact iff_of_true rfl (by simpa [hasPermit] using hpermit)
    · rw [if_neg hpermit]
      exact iff_of_false Bool.false_ne_true (by simpa [hasPermit] using hpermit)

def guarded : Config := { breakerFailThreshold := 1 }

def stoppedLook (openUntil : ℤ) : Look :=
  ⟨1000, { producerCreate with stop := true, breakerOpenUntilMs := openUntil }⟩

theorem stopped_gate_leaves_closed :
    (gateLoop guarded true 1 [stoppedLook 0, stoppedLook 0]).isSome = true ↔
      guarded.breakerFailThreshold ≤ 0 ∨ true = false ∨
        ((stoppedLook 0).prod.breakerOpenUntilMs = 0 ∨
          (stoppedLook 0).now ≥ (stoppedLook 0).prod.breakerOpenUntilMs) ∧
          (stoppedLook 0).prod.breakerHalfOpenInflight < guarded.breakerHalfOpenMaxInflight :=
  stopped_gate_leaves_iff guarded true (stoppedLook 0) (stoppedLook 0) [] rfl

/-- The breaker is open for another second. -/
theorem stopped_gate_stays : ¬ ∀ (cfg : Config) (timeMs : Bool) (first second : Look)
    (rest : List Look), first.prod.stop = true → second.prod.stop = true →
      (gateLoop cfg timeMs 1 (first::second::rest)).isSome = true := by
  intro h
  have hleaves := h guarded true (stoppedLook 2000) (stoppedLook 2000) [] rfl rfl
  have hstays : (gateLoop guarded true 1 [stoppedLook 2000, stoppedLook 2000]).isSome = false := by
    decide
  rw [hstays] at hleaves
  cases hleaves

end VeTls.Sender
