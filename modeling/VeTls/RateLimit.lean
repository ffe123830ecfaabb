import VeTls.Lib.Machine
import VeTls.Lib.TokenBucket

/-!
# Rate limits

The producer and each key queue have a bucket for requests and one for bytes
with a common clock; a limit that is not positive is off. The C code counts
in `double`, here the tokens are rational. `ve_tls_rate_limit_wait` reads the
clock before it takes the lock, so its readings may come out of order.
-/

set_option autoImplicit false

namespace VeTls

open VeTls.TokenBucket

structure Tokens where
  rlLastMs : ℤ
  rlReqTokens : ℚ
  rlByteTokens : ℚ
  deriving DecidableEq, Repr

namespace Tokens

def zero : Tokens := ⟨0, 0, 0⟩

def full (rps bps now : ℤ) : Tokens :=
  ⟨now, if rps > 0 then rps else 0, if bps > 0 then bps else 0⟩

def topUp (rate dt : ℤ) (tokens : ℚ) : ℚ :=
  if rate > 0 then min (tokens+(dt : ℚ)/1000*rate) rate else tokens

def refill (rps bps now : ℤ) (b : Tokens) : Tokens :=
  if b.rlLastMs = 0 then full rps bps now
  else if now > b.rlLastMs then
    ⟨now, topUp rps (now-b.rlLastMs) b.rlReqTokens, topUp bps (now-b.rlLastMs) b.rlByteTokens⟩
  else b

def enough (rps bps : ℤ) (bytes : ℕ) (b : Tokens) : Bool :=
  !(decide (rps > 0) && decide (b.rlReqTokens < 1)) &&
    !(decide (bps > 0) && decide (b.rlByteTokens < bytes))

def take (rps bps : ℤ) (bytes : ℕ) (b : Tokens) : Tokens :=
  { b with
    rlReqTokens := if rps > 0 then b.rlReqTokens-1 else b.rlReqTokens
    rlByteTokens := if bps > 0 then b.rlByteTokens-bytes else b.rlByteTokens }

/-- The locked part that the two limiters share. -/
def reserve (rps bps : ℤ) (bytes : ℕ) (now : ℤ) (b : Tokens) : Bool × Tokens :=
  let b := refill rps bps now b
  if enough rps bps bytes b then (true, take rps bps bytes b) else (false, b)

/-- Milliseconds until the tokens that are missing have come. -/
def waitMs (rps bps : ℤ) (bytes : ℕ) (b : Tokens) : ℤ :=
  let req := if rps > 0 ∧ b.rlReqTokens < 1 then ⌊(1-b.rlReqTokens)*1000/rps⌋ else 0
  let byte := if bps > 0 ∧ b.rlByteTokens < bytes then ⌊(bytes-b.rlByteTokens)*1000/bps⌋ else 0
  max (max 10 req) byte

/-- `none` admits the request; else the time at which to try again. -/
def keyRateLimitReserve (rps bps : ℤ) (bytes : ℕ) (now : ℤ) (b : Tokens) : Option ℤ × Tokens :=
  if rps ≤ 0 ∧ bps ≤ 0 then (none, b)
  else
    let r := reserve rps bps bytes now b
    (if r.1 then none else some (now+waitMs rps bps bytes r.2), r.2)

def requests (log : List (ℤ × ℕ)) : List (ℤ × ℚ) := log.map fun e => (e.1, 1)

def payloads (log : List (ℤ × ℕ)) : List (ℤ × ℚ) := log.map fun e => (e.1, (e.2 : ℚ))

/-- The admissions of the window from `t` to `t+T`. -/
def window (t : ℤ) (T : ℕ) (log : List (ℤ × ℕ)) : List (ℤ × ℕ) :=
  log.filter fun e => decide (t ≤ e.1) && decide (e.1 ≤ t+T)

theorem requests_spent (t : ℤ) (T : ℕ) (log : List (ℤ × ℕ)) :
    spent (requests log) t (t+T) = (window t T log).length := by
  induction log with
  | nil => rfl
  | cons e log ih =>
    have hcons : spent (requests (e::log)) t (t+T) =
        (if t ≤ e.1 ∧ e.1 ≤ t+T then 1 else 0)+spent (requests log) t (t+T) := by
      simp [requests, spent]
    rw [hcons, ih]
    by_cases h : t ≤ e.1 ∧ e.1 ≤ t+T
    · simp [window, h, add_comm]
    · simp [window, h]

theorem payloads_spent (t : ℤ) (T : ℕ) (log : List (ℤ × ℕ)) :
    spent (payloads log) t (t+T) = (((window t T log).map Prod.snd).sum : ℕ) := by
  induction log with
  | nil => rfl
  | cons e log ih =>
    have hcons : spent (payloads (e::log)) t (t+T) =
        (if t ≤ e.1 ∧ e.1 ≤ t+T then (e.2 : ℚ) else 0)+spent (payloads log) t (t+T) := by
      simp [payloads, spent]
    rw [hcons, ih]
    by_cases h : t ≤ e.1 ∧ e.1 ≤ t+T
    · simp [window, h]
    · simp [window, h]

/-- The buckets that are on are bounded for the admissions in `log`. -/
structure Within (rps bps : ℤ) (b : Tokens) (log : List (ℤ × ℕ)) : Prop where
  req : 0 < rps → Bounded (rps : ℚ) b.rlLastMs b.rlReqTokens (requests log)
  byte : 0 < bps → Bounded (bps : ℚ) b.rlLastMs b.rlByteTokens (payloads log)

/-- The admissions of every window stay within the limits that are on. -/
def Limited (rps bps : ℤ) (log : List (ℤ × ℕ)) : Prop :=
  ∀ (t : ℤ) (T : ℕ),
    (0 < rps → ((window t T log).length : ℚ) ≤ rps*(1+(T : ℚ)/1000)) ∧
      (0 < bps → ((((window t T log).map Prod.snd).sum : ℕ) : ℚ) ≤ bps*(1+(T : ℚ)/1000))

variable {rps bps : ℤ}

theorem Within.limited {b : Tokens} {log : List (ℤ × ℕ)} (h : Within rps bps b log) :
    Limited rps bps log := by
  intro t T
  have hT : (0 : ℤ) ≤ T := Int.natCast_nonneg T
  constructor
  · intro hr
    have hwin := (h.req hr).window t T hT
    rw [requests_spent] at hwin
    simpa [allowance] using hwin
  · intro hb
    have hwin := (h.byte hb).window t T hT
    rw [payloads_spent] at hwin
    simpa [allowance] using hwin

theorem within_full_nil (now : ℤ) : Within rps bps (full rps bps now) [] where
  req := fun hr => by
    have hstart := Bounded.start (rps : ℚ) (by exact_mod_cast hr.le) now
    simpa [full, hr, requests] using hstart
  byte := fun hb => by
    have hstart := Bounded.start (bps : ℚ) (by exact_mod_cast hb.le) now
    simpa [full, hb, payloads] using hstart

theorem Within.later {now : ℤ} {log : List (ℤ × ℕ)} (h : Within rps bps (full rps bps now) log)
    (now' : ℤ) (hnow : now ≤ now') : Within rps bps (full rps bps now') log where
  req := fun hr => by
    have hold := h.req hr
    simp only [full, hr, gt_iff_lt, if_true] at hold ⊢
    exact hold.later (by exact_mod_cast hr.le) now' hnow
  byte := fun hb => by
    have hold := h.byte hb
    simp only [full, hb, gt_iff_lt, if_true] at hold ⊢
    exact hold.later (by exact_mod_cast hb.le) now' hnow

theorem Within.topUp {b : Tokens} {log : List (ℤ × ℕ)} (h : Within rps bps b log) (now : ℤ)
    (hnow : b.rlLastMs ≤ now) :
    Within rps bps ⟨now, topUp rps (now-b.rlLastMs) b.rlReqTokens,
      topUp bps (now-b.rlLastMs) b.rlByteTokens⟩ log where
  req := fun hr => by
    have hnew := (h.req hr).refill (by exact_mod_cast hr.le) now hnow
    simpa [Tokens.topUp, hr] using hnew
  byte := fun hb => by
    have hnew := (h.byte hb).refill (by exact_mod_cast hb.le) now hnow
    simpa [Tokens.topUp, hb] using hnew

theorem Within.take {b : Tokens} {log : List (ℤ × ℕ)} (h : Within rps bps b log) (bytes : ℕ)
    (henough : enough rps bps bytes b = true) :
    Within rps bps (take rps bps bytes b) (log++[(b.rlLastMs, bytes)]) := by
  simp only [enough, Bool.and_eq_true, Bool.not_eq_true', Bool.and_eq_false_iff,
    decide_eq_false_iff_not, not_lt] at henough
  constructor
  · intro hr
    have hone : (1 : ℚ) ≤ b.rlReqTokens := henough.1.resolve_left (by omega)
    have hnew := (h.req hr).spend (by exact_mod_cast hr.le) 1 (by norm_num) hone
    simpa [Tokens.take, hr, requests] using hnew
  · intro hb
    have hle : (bytes : ℚ) ≤ b.rlByteTokens := henough.2.resolve_left (by omega)
    have hnew := (h.byte hb).spend (by exact_mod_cast hb.le) (bytes : ℚ) (by positivity) hle
    simpa [Tokens.take, hb, payloads] using hnew

/-- What is known of a bucket: a new one stands for a full one. -/
def Known (rps bps clock : ℤ) (b : Tokens) (log : List (ℤ × ℕ)) : Prop :=
  if b.rlLastMs = 0 then Within rps bps (full rps bps clock) log
  else 0 < b.rlLastMs ∧ Within rps bps b log

theorem Known.later {clock : ℤ} {b : Tokens} {log : List (ℤ × ℕ)} (h : Known rps bps clock b log)
    (now : ℤ) (hnow : clock ≤ now) : Known rps bps now b log := by
  unfold Known at h ⊢
  split at h
  case isTrue hz =>
    rw [if_pos hz]
    exact h.later now hnow
  case isFalse hz =>
    rw [if_neg hz]
    exact h

theorem Known.limited {clock : ℤ} {b : Tokens} {log : List (ℤ × ℕ)}
    (h : Known rps bps clock b log) : Limited rps bps log := by
  unfold Known at h
  split at h
  · exact h.limited
  · exact h.2.limited

theorem refill_within {clock now : ℤ} {b : Tokens} {log : List (ℤ × ℕ)}
    (h : Known rps bps clock b log) (hclock : clock ≤ now) (hpos : 0 < now) :
    0 < (refill rps bps now b).rlLastMs ∧ Within rps bps (refill rps bps now b) log := by
  unfold Known at h
  unfold refill
  split at h
  case isTrue hz =>
    rw [if_pos hz]
    exact ⟨hpos, h.later now hclock⟩
  case isFalse hz =>
    rw [if_neg hz]
    split
    case isTrue hlt => exact ⟨hpos, h.2.topUp now hlt.le⟩
    case isFalse => exact h

/-- One reservation: what it admits is logged at the time of the bucket. -/
theorem reserve_within {clock now : ℤ} {b : Tokens} {log : List (ℤ × ℕ)} (bytes : ℕ)
    (h : Known rps bps clock b log) (hclock : clock ≤ now) (hpos : 0 < now) :
    0 < (reserve rps bps bytes now b).2.rlLastMs ∧
      Within rps bps (reserve rps bps bytes now b).2
        (if (reserve rps bps bytes now b).1 then
          log++[((reserve rps bps bytes now b).2.rlLastMs, bytes)] else log) := by
  obtain ⟨hlast, hwithin⟩ := refill_within h hclock hpos
  unfold reserve
  dsimp only
  split
  case isTrue henough => exact ⟨hlast, hwithin.take bytes henough⟩
  case isFalse => exact ⟨hlast, hwithin⟩

end Tokens

/-- The limiter of a producer, with the admissions it has given: the time of
its bucket at that moment, and the bytes. -/
structure Limiter where
  rateLimitRps : ℤ
  rateLimitBps : ℤ
  stop : Bool
  tokens : Tokens
  admitted : List (ℤ × ℕ)

namespace Limiter

inductive Pc where
  | idle
  | looping (bytes : ℕ)
  | timed (bytes : ℕ) (now : ℤ)
  deriving DecidableEq, Repr

/-- What an idle thread does, and what the clock says. -/
inductive Call where
  | wait (bytes : ℕ)
  | stop
  deriving DecidableEq, Repr

structure Input where
  call : Call
  now : ℤ
  deriving DecidableEq, Repr

def rateLimitWait (bytes : ℕ) (now : ℤ) (p : Limiter) : Pc × Limiter :=
  if p.stop then (.idle, p)
  else
    let r := p.tokens.reserve p.rateLimitRps p.rateLimitBps bytes now
    if r.1 then
      (.idle, { p with tokens := r.2, admitted := p.admitted++[(r.2.rlLastMs, bytes)] })
    else (.looping bytes, { p with tokens := r.2 })

def move (i : Input) (pc : Pc) (p : Limiter) : Option (Pc × Limiter) :=
  match pc with
  | .idle =>
    match i.call with
    | .wait bytes =>
      some (if p.rateLimitRps ≤ 0 ∧ p.rateLimitBps ≤ 0 then .idle else .looping bytes, p)
    | .stop => some (.idle, { p with stop := true })
  | .looping bytes => some (.timed bytes i.now, p)
  | .timed bytes now => some (rateLimitWait bytes now p)

def start (rps bps : ℤ) : Machine.Crew Pc Limiter :=
  ⟨⟨rps, bps, false, Tokens.zero, []⟩, fun _ => .idle⟩

structure Kept (rps bps : ℤ) (n : ℕ) (pc : ℕ → Pc) (p : Limiter) : Prop where
  rates : p.rateLimitRps = rps ∧ p.rateLimitBps = bps
  readings : ∀ i < n, ∀ bytes now, pc i = .timed bytes now → 0 < now
  known : Tokens.Known rps bps 0 p.tokens p.admitted

variable {rps bps : ℤ} {n : ℕ}

theorem Kept.update {pc : ℕ → Pc} {p : Limiter} (h : Kept rps bps n pc p) (i : ℕ) (pc' : Pc)
    (p' : Limiter) (hrps : p'.rateLimitRps = p.rateLimitRps)
    (hbps : p'.rateLimitBps = p.rateLimitBps)
    (hmine : ∀ bytes now, pc' = .timed bytes now → 0 < now)
    (hknown : Tokens.Known rps bps 0 p'.tokens p'.admitted) :
    Kept rps bps n (Function.update pc i pc') p' := by
  refine ⟨⟨hrps.trans h.rates.1, hbps.trans h.rates.2⟩, ?_, hknown⟩
  intro j hj bytes now hx
  by_cases hji : j = i
  · rw [hji, Function.update_self] at hx
    exact hmine bytes now hx
  · rw [Function.update_of_ne hji] at hx
    exact h.readings j hj bytes now hx

theorem rateLimitWait_kept {pc : ℕ → Pc} {p : Limiter} (h : Kept rps bps n pc p) (i : ℕ)
    (hi : i < n) (bytes : ℕ) (now : ℤ) (hpc : pc i = .timed bytes now) :
    Kept rps bps n (Function.update pc i (rateLimitWait bytes now p).1)
      (rateLimitWait bytes now p).2 := by
  have hpos := h.readings i hi bytes now hpc
  obtain ⟨hlast, hwithin⟩ := Tokens.reserve_within bytes h.known hpos.le hpos
  obtain ⟨rfl, rfl⟩ := h.rates
  unfold rateLimitWait
  dsimp only
  split
  case isTrue => exact h.update i .idle p rfl rfl (fun _ _ hx => nomatch hx) h.known
  case isFalse =>
    split
    case isTrue hok =>
      rw [if_pos hok] at hwithin
      refine h.update i _ _ rfl rfl (fun _ _ hx => nomatch hx) ?_
      exact (if_neg hlast.ne').mpr ⟨hlast, hwithin⟩
    case isFalse hok =>
      rw [if_neg hok] at hwithin
      refine h.update i _ _ rfl rfl (fun _ _ hx => nomatch hx) ?_
      exact (if_neg hlast.ne').mpr ⟨hlast, hwithin⟩

theorem move_kept {pc : ℕ → Pc} {p p' : Limiter} {pc' : Pc} (h : Kept rps bps n pc p) (i : ℕ)
    (hi : i < n) (a : Input) (hnow : 0 < a.now) (hm : move a (pc i) p = some (pc', p')) :
    Kept rps bps n (Function.update pc i pc') p' := by
  unfold move at hm
  cases hpc : pc i with
  | idle =>
    simp only [hpc] at hm
    split at hm
    · cases hm
      refine h.update i _ _ rfl rfl ?_ h.known
      intro bytes now hx
      split at hx <;> cases hx
    · cases hm
      exact h.update i _ _ rfl rfl (fun _ _ hx => nomatch hx) h.known
  | looping bytes =>
    simp only [hpc, Option.some.injEq, Prod.mk.injEq] at hm
    obtain ⟨rfl, rfl⟩ := hm
    refine h.update i _ _ rfl rfl ?_ h.known
    intro bytes' now' hx
    cases hx
    exact hnow
  | timed bytes now =>
    simp only [hpc, Option.some.injEq] at hm
    have hwait := rateLimitWait_kept h i hi bytes now hpc
    rwa [hm] at hwait

theorem start_kept : Kept rps bps n (start rps bps).pc (start rps bps).shared where
  rates := ⟨rfl, rfl⟩
  readings := fun _ _ _ _ hx => nomatch hx
  known := Tokens.within_full_nil 0

/-- Any number of callers, with clock readings in any order: the admissions
of every window, each counted at the time of the bucket, stay within both
limits. -/
theorem run_rate_limited (rps bps : ℤ) (hr : 0 < rps) (hb : 0 < bps) (n : ℕ)
    (acts : List (ℕ × Input)) (w : Machine.Crew Pc Limiter) (hnow : ∀ a ∈ acts, 0 < a.2.now)
    (h : Machine.run (Machine.Crew.step n move) acts (start rps bps) = some w)
    (t : ℤ) (T : ℕ) :
    ((Tokens.window t T w.shared.admitted).length : ℚ) ≤ rps*(1+(T : ℚ)/1000) ∧
      ((((Tokens.window t T w.shared.admitted).map Prod.snd).sum : ℕ) : ℚ) ≤
        bps*(1+(T : ℚ)/1000) := by
  have hkept := Machine.Crew.run_rule n move (Kept rps bps n) (fun _ a => 0 < a.2.now)
    (fun v i a pc p hi hv hpos hm => move_kept hv i hi a hpos hm) acts (start rps bps) w start_kept
    (Machine.along_of_forall _ _ acts _ hnow) h
  have hlimited : Tokens.Limited rps bps w.shared.admitted := hkept.known.limited
  exact ⟨(hlimited t T).1 hr, (hlimited t T).2 hb⟩

/-- The second caller has read the clock before the first one was let in. -/
def twoCallers : List (ℕ × Input) :=
  [(0, ⟨.wait 3, 1000⟩), (1, ⟨.wait 4, 999⟩), (1, ⟨.wait 4, 999⟩), (0, ⟨.wait 3, 1000⟩),
    (0, ⟨.wait 3, 1000⟩), (1, ⟨.wait 4, 999⟩), (1, ⟨.wait 4, 2000⟩), (1, ⟨.wait 4, 2000⟩)]

theorem twoCallers_rate_limited :
    ∃ w, Machine.run (Machine.Crew.step 2 move) twoCallers (start 1 10) = some w ∧
      (Tokens.window 1000 1000 w.shared.admitted).length = 2 ∧
      ((Tokens.window 1000 1000 w.shared.admitted).length : ℚ) ≤ 1*(1+(1000 : ℕ)/1000) := by
  have hlength : (Machine.run (Machine.Crew.step 2 move) twoCallers (start 1 10)).map
      (fun w => (Tokens.window 1000 1000 w.shared.admitted).length) = some 2 := by decide +kernel
  obtain ⟨w, hw, htwo⟩ := Option.map_eq_some_iff.mp hlength
  refine ⟨w, hw, htwo, ?_⟩
  exact_mod_cast
    (run_rate_limited 1 10 (by decide) (by decide) 2 twoCallers w (by decide) hw 1000 1000).1

end Limiter

end VeTls
