import VeTls.RateLimit
import VeTls.Pipeline.Recall

/-!
# The rate limit of a key

The buckets of a key live in its queue, as the count of its breaker does. A
run is followed here with the buckets of all queues and with what they have
admitted: key, time and bytes, oldest first. A queue that is freed takes its
buckets with it, and the next one of the key begins with full buckets.
-/

set_option autoImplicit false

namespace VeTls

open VeTls.Keys (Addr CStr KeyMap)
open VeTls.Keys.KeyMap (Tells)

namespace Tokens

variable {rps bps : ℤ}

theorem refill_last (rps bps now : ℤ) (b : Tokens) (h : b.rlLastMs ≤ now) :
    (refill rps bps now b).rlLastMs = now := by
  unfold refill
  split
  · rfl
  · split
    · rfl
    · rename_i hlt
      exact le_antisymm h (not_lt.mp hlt)

theorem reserve_last (rps bps : ℤ) (bytes : ℕ) (now : ℤ) (b : Tokens) (h : b.rlLastMs ≤ now) :
    (reserve rps bps bytes now b).2.rlLastMs = now := by
  have hrefill := refill_last rps bps now b h
  unfold reserve
  dsimp only
  split
  · exact hrefill
  · exact hrefill

/-- A bucket that has filled up again is as good as a new one. -/
theorem known_zero {clock now : ℤ} {b : Tokens} {log : List (ℤ × ℕ)}
    (h : Known rps bps clock b log) (hclock : clock ≤ now) (hpos : 0 < now)
    (hfull : refill rps bps now b = full rps bps now) : Known rps bps now zero log := by
  have hwithin := (refill_within h hclock hpos).2
  rw [hfull] at hwithin
  exact (if_pos rfl).mpr hwithin

end Tokens

/-- A pipeline with the buckets of its key queues. -/
structure Metered where
  sys : Sys
  clock : ℤ
  tokens : Addr → Tokens
  admitted : List (CStr × ℤ × ℕ)

namespace Metered

variable {st : Setup}

def start (st : Setup) : Metered := ⟨Sys.start st, 0, fun _ => Tokens.zero, []⟩

/-- The queue, the task and the time of a sender at the gate of a key. -/
def gateOf (s : Sys) : Act → Option (Addr × SendTask × ℤ)
  | .sender i input =>
    match s.senders i with
    | .gate q send => some (q, send.task, input.now)
    | _ => none
  | _ => none

def answered (tokensAt : Option ℤ) : Act → Act
  | .sender i input => .sender i { input with tokensAt }
  | a => a

def clockAfter (w : Metered) : Act → ℤ
  | .sender _ input => input.now2
  | _ => w.clock

/-- The clock is positive and does not go back. -/
def OnTime (w : Metered) : Act → Prop
  | .sender _ input => 0 < input.now ∧ w.clock ≤ input.now ∧ input.now ≤ input.now2
  | _ => True

instance (w : Metered) (a : Act) : Decidable (OnTime w a) :=
  match a with
  | .sender _ input =>
    inferInstanceAs (Decidable (0 < input.now ∧ w.clock ≤ input.now ∧ input.now ≤ input.now2))
  | .call _ _ | .writer _ _ | .worker _ _ => isTrue trivial

/-- A queue that is new comes with zeroed buckets. -/
def born (cfg : Config) (before after : Sys) (tokens : Addr → Tokens) (q : Addr) : Tokens :=
  if q ∈ KeyMap.live cfg.toKeyConfig after.prod.keys ∧
      q ∉ KeyMap.live cfg.toKeyConfig before.prod.keys then Tokens.zero
  else tokens q

def moved (st : Setup) (w : Metered) (a : Act) (tokens : Addr → Tokens)
    (log : List (CStr × ℤ × ℕ)) : Option Metered :=
  (Sys.step st w.sys a).map fun s =>
    ⟨s, clockAfter w a, born st.cfg w.sys s tokens, w.admitted++log⟩

def reserveOf (st : Setup) (w : Metered) (q : Addr) (t : SendTask) (now : ℤ) :
    Option ℤ × Tokens :=
  Tokens.keyRateLimitReserve st.cfg.keyRateLimitRps st.cfg.keyRateLimitBps (Worker.sendSize t) now
    (w.tokens q)

def admission (cfg : Config) (t : SendTask) (now : ℤ) : Option ℤ → List (CStr × ℤ × ℕ)
  | none => [(cfg.normalizeHashKey t.hashKey, now, Worker.sendSize t)]
  | some _ => []

/-- At the gate the buckets of the queue are asked first. -/
def step (st : Setup) (w : Metered) (a : Act) : Option Metered :=
  if OnTime w a then
    match gateOf w.sys a with
    | none => moved st w a w.tokens []
    | some (q, t, now) =>
      let r := reserveOf st w q t now
      moved st w (answered r.1 a) (Function.update w.tokens q r.2) (admission st.cfg t now r.1)
  else none

/-- What was admitted for one key. -/
def ofKey (key : CStr) (l : List (CStr × ℤ × ℕ)) : List (ℤ × ℕ) :=
  (l.filter fun e => decide (e.1 = key)).map Prod.snd

theorem ofKey_append (key : CStr) (l l' : List (CStr × ℤ × ℕ)) :
    ofKey key (l++l') = ofKey key l++ofKey key l' := by
  simp [ofKey]

/-- A queue is freed only when its buckets have filled up again. -/
def Refilled (st : Setup) (w : Metered) (a : Act) : Prop :=
  ∀ q ∈ Sys.freedBy st w.sys a,
    (w.tokens q).refill st.cfg.keyRateLimitRps st.cfg.keyRateLimitBps (clockAfter w a) =
      Tokens.full st.cfg.keyRateLimitRps st.cfg.keyRateLimitBps (clockAfter w a)

instance (st : Setup) (w : Metered) (a : Act) : Decidable (Refilled st w a) :=
  inferInstanceAs (Decidable (∀ q ∈ Sys.freedBy st w.sys a, _))

/-- The buckets of a key are bounded by what it was admitted. -/
def Fair (cfg : Config) (clock : ℤ) (log : List (CStr × ℤ × ℕ)) (key : CStr) (b : Tokens) : Prop :=
  b.rlLastMs ≤ clock ∧
    Tokens.Known cfg.keyRateLimitRps cfg.keyRateLimitBps clock b (ofKey key log)

structure Level (st : Setup) (w : Metered) : Prop where
  filed : Sys.Filed st w.sys
  clock : 0 ≤ w.clock
  tells : Tells st.cfg.toKeyConfig (Fair st.cfg w.clock w.admitted) Tokens.zero w.tokens
    w.sys.prod.keys

theorem born_old (before after : Sys) (tokens : Addr → Tokens) (q : Addr)
    (h : q ∈ KeyMap.live st.cfg.toKeyConfig before.prod.keys) :
    born st.cfg before after tokens q = tokens q :=
  if_neg fun hnew => hnew.2 h

theorem born_new (before after : Sys) (tokens : Addr → Tokens) (q : Addr)
    (h : q ∈ KeyMap.live st.cfg.toKeyConfig after.prod.keys)
    (hn : q ∉ KeyMap.live st.cfg.toKeyConfig before.prod.keys) :
    born st.cfg before after tokens q = Tokens.zero :=
  if_pos ⟨h, hn⟩

theorem onTime_le (w : Metered) (a : Act) (h : OnTime w a) : w.clock ≤ clockAfter w a := by
  cases a with
  | sender i input => exact h.2.1.trans h.2.2
  | call i c | writer i input | worker i input => exact le_rfl

theorem Fair.later {cfg : Config} {clock clock' : ℤ} {log : List (CStr × ℤ × ℕ)} {key : CStr}
    {b : Tokens} (h : Fair cfg clock log key b) (hle : clock ≤ clock') :
    Fair cfg clock' log key b := ⟨h.1.trans hle, h.2.later clock' hle⟩

/-- A step away from the gate leaves the buckets alone. -/
theorem level_plain {w : Metered} (hgood : Sys.Good st w.sys) (h : Level st w) (a : Act)
    (htime : OnTime w a) (hfull : Refilled st w a) (s : Sys) (hs : Sys.step st w.sys a = some s) :
    Level st ⟨s, clockAfter w a, born st.cfg w.sys s w.tokens, w.admitted⟩ := by
  have hle := onTime_le w a htime
  have htells : Tells st.cfg.toKeyConfig (Fair st.cfg (clockAfter w a) w.admitted) Tokens.zero
      w.tokens w.sys.prod.keys := h.tells.mono fun key x hx => hx.later hle
  refine ⟨Sys.filed_step w.sys s a hgood h.filed hs, h.clock.trans hle, ?_⟩
  rcases Sys.step_recalls w.sys s a hgood hs with hg | hsh | ⟨i, input, q, t, sent, _, _, _, rfl⟩
  · apply htells.grows hg
    · exact fun q hq => born_old w.sys s w.tokens q hq
    · exact fun q hq hnew => born_new w.sys s w.tokens q hq hnew
  · apply htells.shrinks hsh
    · exact fun q hq => born_old w.sys s w.tokens q (hsh.live q hq)
    · intro q hq hfree
      obtain ⟨hlast, hknown⟩ := h.tells.live q hq
      have hpos : 0 < clockAfter w a := by
        cases a with
        | sender i input => exact htime.1.trans_le htime.2.2
        | call i c | writer i input | worker i input => cases hfree
      exact ⟨hpos.le, Tokens.known_zero hknown hle hpos (hfull q hfree)⟩
  · apply htells.congr
    · show KeyMap.live _ (Sender.keyResult st.cfg input q sent w.sys.prod).keys = _
      unfold Sender.keyResult
      split <;> rfl
    · intro a _
      show ((Sender.keyResult st.cfg input q sent w.sys.prod).keys.info a).key = _
      unfold Sender.keyResult
      split
      · rfl
      · by_cases haq : a = q
        · subst haq
          rw [KeyMap.setInfo_self]
          split <;> rfl
        · rw [KeyMap.setInfo_other q a _ _ haq]
    · exact fun q hq => born_old w.sys _ w.tokens q hq

/-- What a reservation leaves behind is fair to the key it was made for. -/
theorem fair_reserve {w : Metered} (hon : 0 < st.cfg.keyRateLimitRps ∨ 0 < st.cfg.keyRateLimitBps)
    (q : Addr) (t : SendTask) (now later : ℤ) (hpos : 0 < now) (hclock : w.clock ≤ now)
    (hle : now ≤ later)
    (h : Fair st.cfg w.clock w.admitted (st.cfg.normalizeHashKey t.hashKey) (w.tokens q)) :
    Fair st.cfg later (w.admitted++admission st.cfg t now (reserveOf st w q t now).1)
      (st.cfg.normalizeHashKey t.hashKey) (reserveOf st w q t now).2 := by
  obtain ⟨hlast, hknown⟩ := h
  have hnow := Tokens.reserve_last st.cfg.keyRateLimitRps st.cfg.keyRateLimitBps
    (Worker.sendSize t) now (w.tokens q) (hlast.trans hclock)
  obtain ⟨hnew, hwithin⟩ := Tokens.reserve_within (Worker.sendSize t) hknown hclock hpos
  unfold reserveOf Tokens.keyRateLimitReserve
  rw [if_neg (by omega)]
  dsimp only
  refine ⟨hnow.le.trans hle, ?_⟩
  unfold Tokens.Known
  rw [if_neg hnew.ne']
  refine ⟨hnew, ?_⟩
  rw [ofKey_append]
  split at hwithin
  case isTrue hok =>
    rw [hnow] at hwithin
    rw [if_pos hok]
    simpa [admission, ofKey] using hwithin
  case isFalse hok =>
    rw [if_neg hok]
    simpa [admission, ofKey] using hwithin

theorem fair_other {cfg : Config} {clock : ℤ} {log : List (CStr × ℤ × ℕ)} {key : CStr} {b : Tokens}
    (t : SendTask) (now : ℤ) (tokensAt : Option ℤ) (hne : cfg.normalizeHashKey t.hashKey ≠ key)
    (h : Fair cfg clock log key b) : Fair cfg clock (log++admission cfg t now tokensAt) key b := by
  have hsame : ofKey key (log++admission cfg t now tokensAt) = ofKey key log := by
    rw [ofKey_append]
    cases tokensAt with
    | none => simp [admission, ofKey, hne]
    | some next => simp [admission, ofKey]
  exact ⟨h.1, by rw [hsame]; exact h.2⟩

theorem gateOf_some (s : Sys) (a : Act) (q : Addr) (t : SendTask) (now : ℤ)
    (h : gateOf s a = some (q, t, now)) :
    ∃ i input send, a = .sender i input ∧ s.senders i = .gate q send ∧ send.task = t ∧
      input.now = now := by
  cases a with
  | sender i input =>
    unfold gateOf at h
    dsimp only at h
    split at h
    · rename_i q' send hpc
      cases h
      exact ⟨i, input, send, rfl, hpc, rfl, rfl⟩
    · cases h
  | call i c | writer i input | worker i input => cases h

/-- At the gate the sender has the queue of its task's key, and asks the
buckets of that queue. -/
theorem level_gate {w : Metered} (hgood : Sys.Good st w.sys) (h : Level st w)
    (hon : 0 < st.cfg.keyRateLimitRps ∨ 0 < st.cfg.keyRateLimitBps) (i : ℕ)
    (input : Sender.Input) (q : Addr) (send : Send) (hpc : w.sys.senders i = .gate q send)
    (htime : OnTime w (.sender i input)) (s : Sys)
    (hs : Sys.step st w.sys
      (answered (reserveOf st w q send.task input.now).1 (.sender i input)) = some s) :
    Level st ⟨s, input.now2, born st.cfg w.sys s (Function.update w.tokens q
      (reserveOf st w q send.task input.now).2),
      w.admitted++admission st.cfg send.task input.now
        (reserveOf st w q send.task input.now).1⟩ := by
  have hle := onTime_le w (.sender i input) htime
  have hfiled := Sys.filed_step w.sys s _ hgood h.filed hs
  have hsame : i < st.cfg.senderCount ∧ s.prod = w.sys.prod := by
    simp only [answered, Sys.step, hpc] at hs
    split at hs
    · rename_i hi
      obtain ⟨r, hr, rfl⟩ := Option.map_eq_some_iff.mp hs
      unfold Sender.step at hr
      split at hr
      · cases hr
      · obtain rfl := Option.some.inj hr
        exact ⟨hi, rfl⟩
    · cases hs
  obtain ⟨hi, hprod⟩ := hsame
  have hlive : q ∈ KeyMap.live st.cfg.toKeyConfig w.sys.prod.keys :=
    ((hgood.held q).mpr ⟨i, hi, by rw [hpc]; rfl⟩).1
  have hname := h.filed.hands i hi q send.task (by rw [hpc]; rfl) (by rw [hpc]; rfl)
  refine ⟨hfiled, h.clock.trans hle, ?_⟩
  dsimp only
  rw [hprod]
  constructor
  · intro a ha
    rw [born_old w.sys s _ a ha]
    by_cases haq : a = q
    · subst haq
      have hfair := h.tells.live a hlive
      rw [← hname] at hfair ⊢
      rw [Function.update_self]
      exact fair_reserve hon a send.task input.now input.now2 htime.1 htime.2.1 htime.2.2 hfair
    · rw [Function.update_of_ne haq]
      apply fair_other
      · rw [hname]
        exact fun hkey => haq (hgood.sound.hashed.key a q ha hlive hkey.symm)
      · exact (h.tells.live a ha).later hle
  · intro key hnone
    apply fair_other
    · rw [hname]
      exact hnone q hlive
    · exact (h.tells.absent key hnone).later hle

theorem level_step (hon : 0 < st.cfg.keyRateLimitRps ∨ 0 < st.cfg.keyRateLimitBps)
    (w w' : Metered) (a : Act) (hgood : Sys.Good st w.sys) (h : Level st w)
    (hfull : Refilled st w a) (hstep : step st w a = some w') :
    Sys.Good st w'.sys ∧ Level st w' := by
  unfold step at hstep
  split at hstep
  case isFalse => cases hstep
  case isTrue htime =>
    split at hstep
    · obtain ⟨s, hs, rfl⟩ := Option.map_eq_some_iff.mp hstep
      rw [List.append_nil]
      exact ⟨Sys.good_step w.sys s a hgood hs, level_plain hgood h a htime hfull s hs⟩
    · rename_i q t now hgate
      obtain ⟨i, input, send, rfl, hpc, rfl, rfl⟩ := gateOf_some w.sys a q t now hgate
      obtain ⟨s, hs, rfl⟩ := Option.map_eq_some_iff.mp hstep
      exact ⟨Sys.good_step w.sys s _ hgood hs, level_gate hgood h hon i input q send hpc htime s hs⟩

theorem level_start (st : Setup) : Level st (start st) := by
  refine ⟨Sys.filed_start st, le_rfl, ⟨fun q hq => ?_, fun key _ => ⟨le_rfl, ?_⟩⟩⟩
  · simp [start, Sys.start, producerCreate, KeyMap.live, KeyMap.empty] at hq
  · exact (if_pos rfl).mpr (Tokens.within_full_nil 0)

/-- The key of a fair bucket, whether it has a queue or not, was admitted no
more than its limits allow. -/
theorem Level.limited {w : Metered} (h : Level st w) (key : CStr) :
    Tokens.Limited st.cfg.keyRateLimitRps st.cfg.keyRateLimitBps (ofKey key w.admitted) := by
  by_cases hq : ∃ q ∈ KeyMap.live st.cfg.toKeyConfig w.sys.prod.keys,
      (w.sys.prod.keys.info q).key = key
  · obtain ⟨q, hlive, rfl⟩ := hq
    exact (h.tells.live q hlive).2.limited
  · have habsent := h.tells.absent key fun q hlive hkey => hq ⟨q, hlive, hkey⟩
    exact habsent.2.limited

/-- With queues freed only when their buckets are full again, what is
admitted for a key in any window stays within its limits. -/
theorem run_key_rate_limited (st : Setup) (acts : List Act) (w : Metered)
    (hon : 0 < st.cfg.keyRateLimitRps ∨ 0 < st.cfg.keyRateLimitBps)
    (hc : Machine.Along (step st) (Refilled st) acts (start st))
    (h : Machine.run (step st) acts (start st) = some w) (key : CStr) :
    Tokens.Limited st.cfg.keyRateLimitRps st.cfg.keyRateLimitBps (ofKey key w.admitted) := by
  have hall := Machine.run_invariant (step st) (fun w => Sys.Good st w.sys ∧ Level st w)
    (Refilled st) (fun w a w' hi hfull hs => level_step hon w w' a hi.1 hi.2 hfull hs)
    acts (start st) w ⟨Sys.good_start st, level_start st⟩ hc h
  exact hall.2.limited key

def sentAt (now : ℤ) : Act := .sender 0 ⟨now, now, 7, none, .sent⟩

def onePerSecond (ttl : ℤ) : Setup :=
  ⟨{ keyQueueBucketCount := 1, keyRateLimitRps := 1, keyQueueIdleTtlMs := ttl }, 1, 0⟩

/-- Two batches of a key: the second one has to wait for its token. -/
def heldUp : List Act :=
  Sys.packKeyed 9++List.replicate 14 (sentAt 1)++Sys.packKeyed 10++List.replicate 10 (sentAt 1)++
    List.replicate 2 (sentAt 1001)

theorem heldUp_rate_limited :
    ∃ w, Machine.run (step (onePerSecond 5000)) heldUp (start (onePerSecond 5000)) = some w ∧
      ofKey [75] w.admitted = [(1, 14), (1001, 14)] ∧ Tokens.Limited 1 0 (ofKey [75] w.admitted) := by
  have hlog : (Machine.run (step (onePerSecond 5000)) heldUp (start (onePerSecond 5000))).map
      (fun w => ofKey [75] w.admitted) = some [(1, 14), (1001, 14)] := by decide +kernel
  obtain ⟨w, hw, htwo⟩ := Option.map_eq_some_iff.mp hlog
  exact ⟨w, hw, htwo, run_key_rate_limited (onePerSecond 5000) heldUp w (by decide)
    (by decide +kernel) hw [75]⟩

/-- Queues are not kept: the second batch finds a new queue with full buckets
in the same millisecond. -/
theorem renewed_rate_exceeded : ¬ ∀ (st : Setup) (acts : List Act) (w : Metered),
    0 < st.cfg.keyRateLimitRps ∨ 0 < st.cfg.keyRateLimitBps →
      Machine.run (step st) acts (start st) = some w →
        ∀ key, Tokens.Limited st.cfg.keyRateLimitRps st.cfg.keyRateLimitBps
          (ofKey key w.admitted) := by
  intro h
  have hlog : (Machine.run (step (onePerSecond 0)) (Sys.packKeyed 9++List.replicate 14 (sentAt 1)++
      Sys.packKeyed 9++List.replicate 6 (sentAt 1)) (start (onePerSecond 0))).map
      (fun w => ofKey [75] w.admitted) = some [(1, 14), (1, 14)] := by decide +kernel
  obtain ⟨w, hw, htwo⟩ := Option.map_eq_some_iff.mp hlog
  have hlimited := h (onePerSecond 0) _ w (by decide) hw [75]
  rw [htwo] at hlimited
  have hone := (hlimited 1 0).1 (by decide)
  norm_num [Tokens.window, onePerSecond] at hone

end Metered

end VeTls
