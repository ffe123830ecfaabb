import VeTls.Pipeline.Reclaim

/-!
# Half-open permits

A sender takes a permit of the breaker before its first attempt and returns
it after its last. A retry passes the gate of the key again, and a gate that
refuses then puts the batch back in its queue: the flags of the send are
forgotten there, and the permit with them.
-/

set_option autoImplicit false

namespace VeTls

open VeTls.Keys (Addr CStr KeyMap)
open VeTls.Threads (total total_update)

namespace Sender

/-- The send a sender is busy with. -/
def trying : Pc → Option Send
  | .gate _ s | .breakerWait _ s | .breakerEnter _ s | .attempt _ s | .report _ s _
  | .breakerResult _ s _ => some s
  | _ => none

/-- The sender is between entering half-open and leaving it. -/
def permit (pc : Pc) : Bool := (trying pc).any Send.halfOpen

/-- Before the breaker and in a fast sender there is no permit. -/
def outside : Pc → Bool
  | .breakerWait _ _ | .breakerEnter _ _ | .attempt none _ | .report none _ _ => true
  | _ => false

/-- A send with a permit has entered the breaker. -/
def Steady (pc : Pc) : Prop :=
  ∀ s, trying pc = some s → s.halfOpen = true → s.entered = true ∧ outside pc = false

/-- The gate of the key lets a send with a permit pass. -/
def Passes (cfg : Config) (i : Input) (p : Producer) : Pc → Prop
  | .gate q s => s.halfOpen = true →
      (keyBreakerAllow cfg i.now q p && i.tokensAt.isNone) = true
  | _ => True

instance (cfg : Config) (i : Input) (p : Producer) (pc : Pc) : Decidable (Passes cfg i p pc) :=
  match pc with
  | .gate q s => inferInstanceAs (Decidable (s.halfOpen = true →
      (keyBreakerAllow cfg i.now q p && i.tokensAt.isNone) = true))
  | .top | .popSendQueue _ | .moving _ | .pushing _ | .counting _ | .keyDrop _ | .dropRelease _
  | .stopCheck | .exitPop _ | .exitCheck _ | .requeue _ _ _ | .breakerWait _ _ | .breakerEnter _ _
  | .attempt _ _ | .report _ _ _ | .breakerResult _ _ _ | .keyResult _ _ _ | .release _ _
  | .finish _ | .uncount | .exited => isTrue trivial

/-- Another place with the same permit, and the counter as it was. -/
structure Carries (pc : Pc) (p : Producer) (r : Pc × Producer) : Prop where
  steady : Steady r.1
  count : r.2.breakerHalfOpenInflight+(permit pc).toNat =
    p.breakerHalfOpenInflight+(permit r.1).toNat

theorem steady_of_none (pc : Pc) (h : trying pc = none) : Steady pc := by
  intro s hs
  simp [h] at hs

theorem permit_of_none (pc : Pc) (h : trying pc = none) : permit pc = false := by
  rw [permit, h]
  rfl

theorem steady_fresh (pc : Pc) (t : SendTask) (now : ℤ) (h : trying pc = some (firstSend t now)) :
    Steady pc := by
  intro s hs hh
  rw [h] at hs
  obtain rfl := Option.some.inj hs
  simp [firstSend] at hh

/-- Both places are without a send. -/
theorem Carries.idle {pc : Pc} {p : Producer} {r : Pc × Producer} (h : permit pc = false)
    (h' : trying r.1 = none) (hp : r.2.breakerHalfOpenInflight = p.breakerHalfOpenInflight) :
    Carries pc p r := by
  apply Carries.mk (steady_of_none r.1 h')
  rw [h, permit_of_none r.1 h', hp]

/-- The send goes on with the flags it has. -/
theorem Carries.same {pc : Pc} {p : Producer} {r : Pc × Producer} (s s' : Send)
    (h : trying pc = some s) (h' : trying r.1 = some s') (hs : Steady pc)
    (hflags : s'.halfOpen = s.halfOpen ∧ s'.entered = s.entered)
    (henter : s.halfOpen = true → outside r.1 = false)
    (hp : r.2.breakerHalfOpenInflight = p.breakerHalfOpenInflight) : Carries pc p r := by
  constructor
  · intro x hx hh
    rw [h'] at hx
    obtain rfl := Option.some.inj hx
    rw [hflags.1] at hh
    rw [hflags.2]
    exact ⟨(hs s h hh).1, henter hh⟩
  · rw [permit, permit, h, h', Option.any_some, Option.any_some, hflags.1, hp]

theorem top_carries (i : Input) (p : Producer) : Carries .top p (top i p) := by
  unfold top
  dsimp only
  split
  · exact .idle rfl rfl rfl
  · split
    · exact .idle rfl rfl rfl
    · exact ⟨steady_fresh _ _ _ rfl, rfl⟩

theorem idleCleanup_count (cfg : Config) (i : Input) (p : Producer) :
    (idleCleanup cfg i p).breakerHalfOpenInflight = p.breakerHalfOpenInflight := by
  unfold idleCleanup
  split <;> rfl

theorem pop_carries (cfg : Config) (block : Bool) (p : Producer) (r : Pc × Producer)
    (h : popSendQueue cfg block p = some r) : Carries (.popSendQueue block) p r := by
  unfold popSendQueue at h
  split at h
  · obtain rfl := Option.some.inj h
    exact .idle rfl rfl rfl
  · split at h
    · simp at h
    · split at h
      · obtain rfl := Option.some.inj h
        exact .idle rfl rfl rfl
      · obtain rfl := Option.some.inj h
        exact .idle rfl rfl rfl

theorem stopping_carries (cfg : Config) (i : Input) (p : Producer) :
    Carries .stopCheck p (stopCheck cfg i p) := by
  unfold stopCheck
  split
  · exact .idle rfl rfl rfl
  · exact .idle rfl rfl (idleCleanup_count cfg i p)

theorem exiting_carries (cfg : Config) (i : Input) (pending : Bool) (p : Producer) :
    Carries (.exitPop pending) p (exitPop pending p) ∧
      Carries (.exitCheck pending) p (exitCheck cfg i pending p) := by
  constructor
  · unfold exitPop
    split <;> exact .idle rfl rfl rfl
  · unfold exitCheck
    split
    · exact .idle rfl rfl (idleCleanup_count cfg i p)
    · exact .idle rfl rfl rfl

theorem gate_carries (cfg : Config) (i : Input) (q : Addr) (s : Send) (p : Producer)
    (hs : Steady (.gate q s)) (hpass : Passes cfg i p (.gate q s)) :
    Carries (.gate q s) p (gate cfg i q s p, p) := by
  unfold gate
  dsimp only
  split
  · split
    · exact .same s s rfl rfl hs ⟨rfl, rfl⟩ (fun _ => rfl) rfl
    · rename_i he
      refine .same s s rfl rfl hs ⟨rfl, rfl⟩ (fun hh => ?_) rfl
      exact absurd (hs s rfl hh).1 he
  · rename_i hrefuse
    have hfree : s.halfOpen = false := by
      by_contra hh
      exact hrefuse (hpass (by simpa using hh))
    exact .idle hfree rfl rfl

theorem enter_carries (cfg : Config) (i : Input) (q : Addr) (s : Send) (p : Producer)
    (hs : Steady (.breakerEnter q s)) (ht : 0 < cfg.breakerFailThreshold) :
    Carries (.breakerEnter q s) p (breakerEnter cfg i q s p) := by
  have hfree : s.halfOpen = false := by
    by_contra hh
    have hx := (hs s rfl (by simpa using hh)).2
    simp [outside] at hx
  unfold breakerEnter
  rw [if_neg (by omega)]
  split
  · constructor
    · intro x hx hh
      obtain rfl := Option.some.inj hx
      exact ⟨rfl, rfl⟩
    · simp [permit, trying, hfree]
  · exact .same s s rfl rfl hs ⟨rfl, rfl⟩ (fun hh => by simp [hfree] at hh) rfl

theorem attempt_carries (cfg : Config) (i : Input) (q : Option Addr) (s : Send) (p : Producer)
    (hs : Steady (.attempt q s)) : Carries (.attempt q s) p (attempt cfg i q s p) := by
  have hq : ∀ sent, s.halfOpen = true → outside (.report q s sent) = false := by
    intro sent hh
    have hx := (hs s rfl hh).2
    cases q with
    | none => simp [outside] at hx
    | some q => rfl
  unfold attempt
  split
  · exact .same s s rfl rfl hs ⟨rfl, rfl⟩ (hq false) rfl
  · exact .same s s rfl rfl hs ⟨rfl, rfl⟩ (hq true) rfl
  · split
    · cases q with
      | none =>
        refine .same s { s with attempt := s.attempt+1 } rfl rfl hs ⟨rfl, rfl⟩ (fun hh => ?_) rfl
        exact absurd (hq false hh) (by simp [outside])
      | some q =>
        exact .same s { s with attempt := s.attempt+1 } rfl rfl hs ⟨rfl, rfl⟩ (fun _ => rfl) rfl
    · exact .same s s rfl rfl hs ⟨rfl, rfl⟩ (hq false) rfl

/-- Only the sender with the permit returns it. -/
theorem breakerResult_count (cfg : Config) (i : Input) (s : Send) (sent : Bool) (p : Producer)
    (ht : 0 < cfg.breakerFailThreshold) (he : s.halfOpen = true → s.entered = true)
    (hle : (s.halfOpen.toNat : ℤ) ≤ p.breakerHalfOpenInflight) :
    (breakerResult cfg i s sent p).breakerHalfOpenInflight+s.halfOpen.toNat =
      p.breakerHalfOpenInflight := by
  unfold breakerResult
  cases hh : s.halfOpen with
  | false =>
    split
    · simp
    · cases sent <;> simp
  | true =>
    rw [hh] at hle
    have hpos : p.breakerHalfOpenInflight > 0 := by
      simp only [Bool.toNat_true, Nat.cast_one] at hle
      omega
    rw [if_neg (by simp [he hh, ht])]
    cases sent <;> simp [hpos]

theorem result_carries (cfg : Config) (i : Input) (q : Addr) (s : Send) (sent : Bool)
    (p : Producer) (hs : Steady (.breakerResult q s sent)) (ht : 0 < cfg.breakerFailThreshold)
    (hle : ((permit (.breakerResult q s sent)).toNat : ℤ) ≤ p.breakerHalfOpenInflight) :
    Carries (.breakerResult q s sent) p (.keyResult q s.task sent, breakerResult cfg i s sent p) := by
  constructor
  · exact steady_of_none _ rfl
  · have hcount := breakerResult_count cfg i s sent p ht (fun hh => (hs s rfl hh).1) hle
    have hp : permit (.breakerResult q s sent) = s.halfOpen := rfl
    have hn : permit (.keyResult q s.task sent) = false := rfl
    rw [hp, hn]
    simpa using hcount

/-- One step of a sender keeps the counter equal to the permits. -/
theorem step_carries (cfg : Config) (i : Input) (pc : Pc) (p : Producer) (r : Pc × Producer)
    (ht : 0 < cfg.breakerFailThreshold) (hs : Steady pc) (hpass : Passes cfg i p pc)
    (hle : ((permit pc).toNat : ℤ) ≤ p.breakerHalfOpenInflight)
    (h : step cfg i pc p = some r) : Carries pc p r := by
  unfold step at h
  split at h
  · simp at h
  cases pc with
  | top =>
    obtain rfl := Option.some.inj h
    exact top_carries i p
  | popSendQueue block => exact pop_carries cfg block p r h
  | moving t =>
    obtain rfl := Option.some.inj h
    refine .idle rfl ?_ rfl
    dsimp only
    split <;> rfl
  | pushing t =>
    obtain rfl := Option.some.inj h
    refine .idle rfl ?_ rfl
    unfold pushing
    dsimp only
    split <;> rfl
  | counting t =>
    obtain rfl := Option.some.inj h
    exact ⟨steady_fresh _ _ _ rfl, rfl⟩
  | stopCheck =>
    obtain rfl := Option.some.inj h
    exact stopping_carries cfg i p
  | exitPop pending =>
    obtain rfl := Option.some.inj h
    exact (exiting_carries cfg i pending p).1
  | exitCheck pending =>
    obtain rfl := Option.some.inj h
    exact (exiting_carries cfg i pending p).2
  | gate q s =>
    obtain rfl := Option.some.inj h
    exact gate_carries cfg i q s p hs hpass
  | breakerWait q s =>
    dsimp only at h
    split at h
    · simp at h
    · obtain rfl := Option.some.inj h
      refine .same s s rfl rfl hs ⟨rfl, rfl⟩ (fun hh => ?_) rfl
      have hx := (hs s rfl hh).2
      simp [outside] at hx
  | breakerEnter q s =>
    obtain rfl := Option.some.inj h
    exact enter_carries cfg i q s p hs ht
  | attempt q s =>
    obtain rfl := Option.some.inj h
    exact attempt_carries cfg i q s p hs
  | report q s sent =>
    obtain rfl := Option.some.inj h
    cases q with
    | none =>
      have hfree : s.halfOpen = false := by
        by_contra hh
        have hx := (hs s rfl (by simpa using hh)).2
        simp [outside] at hx
      exact .idle hfree rfl rfl
    | some q => exact .same s s rfl rfl hs ⟨rfl, rfl⟩ (fun _ => rfl) rfl
  | breakerResult q s sent =>
    obtain rfl := Option.some.inj h
    exact result_carries cfg i q s sent p hs ht hle
  | keyResult q t sent =>
    obtain rfl := Option.some.inj h
    refine .idle rfl rfl ?_
    show (keyResult cfg i q sent p).breakerHalfOpenInflight = _
    unfold keyResult
    split <;> rfl
  | release q t =>
    obtain rfl := Option.some.inj h
    cases q <;> exact .idle rfl rfl rfl
  | exited => simp at h
  | _ =>
    obtain rfl := Option.some.inj h
    exact .idle rfl rfl rfl

end Sender

/-- Failures in a row, the end of the open time, and permits. -/
def Producer.breaker (p : Producer) : ℤ × ℤ × ℤ :=
  (p.breakerConsecutiveFailures, p.breakerOpenUntilMs, p.breakerHalfOpenInflight)

theorem Writer.Move.breaker {cfg : Config} {me : ℕ} {src : Writer.Pc} {a b : Writer × Producer}
    (h : Writer.Move cfg me src a b) : b.2.breaker = a.2.breaker := by
  cases h with
  | quiet w w' p p' hq =>
    obtain ⟨f, n, k, l, _, _, rfl⟩ := hq
    rfl
  | append w w' p kv flush b hkv hown hpc hadd hb hr' =>
    dsimp only
    rw [Writer.settleTls_eq]
    rfl
  | store w w' p p' kv old b hkv hb hr hr' hs hf =>
    obtain ⟨d, m, l, n, f, rfl⟩ := hf.frame
    rfl
  | openSlot w p p' old b hr hf =>
    obtain ⟨d, m, l, n, f, rfl⟩ := hf.frame
    rfl
  | _ => rfl

theorem Writer.Loss.breaker {cfg : Config} {me : ℕ} {a b : Writer × Producer}
    (h : Writer.Loss cfg me a b) : b.2.breaker = a.2.breaker := by
  cases h with
  | leave w w' p hp hr hr' =>
    dsimp only
    rw [Writer.leaveBatch_eq]
    rfl
  | _ => rfl

theorem Worker.Move.breaker {cfg : Config} {a b : Worker × Producer} (h : Worker.Move cfg a b) :
    b.2.breaker = a.2.breaker := by
  cases h with
  | idle w w' p p' hq =>
    obtain ⟨f, n, k, l, _, _, rfl⟩ := hq
    rfl
  | merge w p p' t rest old b hi hf =>
    obtain ⟨d, m, l, n, f, rfl⟩ := hf.frame
    rfl
  | sealUp w p p' b hf =>
    obtain ⟨d, m, l, n, f, rfl⟩ := hf.frame
    rfl
  | _ => rfl

namespace Sys

variable {st : Setup}

/-- The counter is the number of senders with a permit. -/
structure Permits (st : Setup) (s : Sys) : Prop where
  steady : ∀ i, Sender.Steady (s.senders i)
  count : s.prod.breakerHalfOpenInflight =
    (total st.cfg.senderCount s.senders fun pc => (Sender.permit pc).toNat : ℕ)

/-- A step of another thread leaves the breaker and the senders alone. -/
theorem breaker_frame (s s' : Sys) (a : Act) (hgood : Good st s) (ha : asSender a = none)
    (h : step st s a = some s') : s'.senders = s.senders ∧ s'.prod.breaker = s.prod.breaker := by
  refine step_rule (fun t => t.senders = s.senders ∧ t.prod.breaker = s.prod.breaker)
    s s' a hgood ⟨rfl, rfl⟩ ?_ ?_ ?_ ?_ ?_ h
  · intro t i r _ _ hI hm
    exact ⟨hI.1, hm.breaker.trans hI.2⟩
  · exact fun i r _ _ hl => ⟨rfl, hl.breaker⟩
  · intro t i r _ _ hI hm
    exact ⟨hI.1, hm.breaker.trans hI.2⟩
  · rintro i r _ _ ⟨j, now, _, rfl⟩
    exact ⟨rfl, rfl⟩
  · rintro i r _ ⟨input, rfl⟩ _
    simp [asSender] at ha

/-- The gate of a key does not refuse a send that has a permit. -/
def GatePasses (st : Setup) (s : Sys) : Act → Prop
  | .sender i input => Sender.Passes st.cfg input s.prod (s.senders i)
  | _ => True

instance (st : Setup) (s : Sys) (a : Act) : Decidable (GatePasses st s a) :=
  match a with
  | .sender i input => inferInstanceAs (Decidable (Sender.Passes st.cfg input s.prod (s.senders i)))
  | .call _ _ | .writer _ _ | .worker _ _ => isTrue trivial

theorem permits_step (s s' : Sys) (a : Act) (ht : 0 < st.cfg.breakerFailThreshold)
    (hgood : Good st s) (hi : Permits st s) (ha : GatePasses st s a)
    (h : step st s a = some s') : Permits st s' := by
  cases a with
  | sender i input =>
    simp only [step] at h
    split at h
    · rename_i hlt
      obtain ⟨r, hr, rfl⟩ := Option.map_eq_some_iff.mp h
      have hle := Threads.le_total st.cfg.senderCount i hlt s.senders
        fun pc => (Sender.permit pc).toNat
      have hup := total_update st.cfg.senderCount i hlt s.senders
        (fun pc => (Sender.permit pc).toNat) r.1
      have hcount := hi.count
      have hc := Sender.step_carries st.cfg input (s.senders i) s.prod r ht (hi.steady i) ha
        (by omega) hr
      refine ⟨forall_update _ s.senders i r.1 hi.steady hc.steady, ?_⟩
      have hnew := hc.count
      show r.2.breakerHalfOpenInflight = (total _ (Function.update s.senders i r.1) _ : ℕ)
      omega
    · simp at h
  | _ =>
    obtain ⟨hs, hp⟩ := breaker_frame s s' _ hgood rfl h
    have hcount : s'.prod.breakerHalfOpenInflight = s.prod.breakerHalfOpenInflight :=
      congrArg (fun b => b.2.2) hp
    exact ⟨by rw [hs]; exact hi.steady, by rw [hs, hcount]; exact hi.count⟩

theorem permits_start (st : Setup) : Permits st (start st) := by
  have hnone : ∀ i, Sender.trying ((start st).senders i) = none := by
    intro i
    simp only [start, Sender.start]
    split <;> rfl
  constructor
  · exact fun i => Sender.steady_of_none _ (hnone i)
  · rw [Threads.total_eq_zero _ (start st).senders _
      fun i => by rw [Sender.permit_of_none _ (hnone i)]; rfl]
    rfl

/-- In every run in which no gate refuses a send that has a permit, the
half-open counter is the number of senders between entering half-open and
leaving it, and it is zero when no sender is busy with a batch. -/
theorem run_permits_conserved (st : Setup) (acts : List Act) (s : Sys)
    (ht : 0 < st.cfg.breakerFailThreshold) (hc : Along st (GatePasses st) acts (start st))
    (h : run st acts (start st) = some s) :
    s.prod.breakerHalfOpenInflight =
        (total st.cfg.senderCount s.senders fun pc => (Sender.permit pc).toNat : ℕ) ∧
      ((∀ i < st.cfg.senderCount, Sender.trying (s.senders i) = none) →
        s.prod.breakerHalfOpenInflight = 0) := by
  have hp := (run_rule (Permits st) (GatePasses st)
    (fun s a s' hgood hi ha hs => permits_step s s' a ht hgood hi ha hs) acts (start st) s
    (good_start st) (permits_start st) hc h).2
  refine ⟨hp.count, fun hn => ?_⟩
  have hz : total st.cfg.senderCount s.senders (fun pc => (Sender.permit pc).toNat) = 0 := by
    apply Finset.sum_eq_zero
    intro i hi
    simp [Sender.permit_of_none _ (hn i (Finset.mem_range.mp hi))]
  rw [hp.count, hz]
  rfl

def oneTrial : Setup :=
  ⟨{ keyQueueBucketCount := 1, breakerFailThreshold := 1, keyRateLimitRps := 1 }, 1, 0⟩

/-- A log of a key is packed, its batch enters half-open, and the first
attempt fails. -/
def failOnce : List Act :=
  [.call 0 (.addKv keyLog [75] true), .writer 0 ⟨1, 1, 9⟩]++
    List.replicate 8 (.worker 0 ⟨1, 1, [8], none, none⟩)++
    List.replicate 9 (.sender 0 ⟨1, 1, 8, none, .failed true⟩)

theorem failOnce_permits_conserved :
    ∃ s, run oneTrial failOnce (start oneTrial) = some s ∧
      s.prod.breakerHalfOpenInflight = 1 ∧ s.prod.breakerHalfOpenInflight =
        (total oneTrial.cfg.senderCount s.senders fun pc => (Sender.permit pc).toNat : ℕ) :=
  ⟨_, rfl, by decide, (run_permits_conserved oneTrial failOnce _ (by decide) (by decide +kernel)
    rfl).1⟩

/-- Before the second attempt the key's token bucket has no token. -/
def refusedAfter : List Act :=
  failOnce++[.sender 0 ⟨201, 201, 8, some 1001, .sent⟩,
    .sender 0 ⟨201, 201, 8, none, .sent⟩]

theorem refusedAfter_leaks : ¬ ∀ (st : Setup) (acts : List Act) (s : Sys),
    0 < st.cfg.breakerFailThreshold → run st acts (start st) = some s →
      s.prod.breakerHalfOpenInflight =
          (total st.cfg.senderCount s.senders fun pc => (Sender.permit pc).toNat : ℕ) ∧
        ((∀ i < st.cfg.senderCount, Sender.trying (s.senders i) = none) →
          s.prod.breakerHalfOpenInflight = 0) := by
  intro h
  have hleak : ∃ s, run oneTrial refusedAfter (start oneTrial) = some s ∧
      (∀ i < oneTrial.cfg.senderCount, Sender.trying (s.senders i) = none) ∧
      s.prod.breakerHalfOpenInflight = 1 := ⟨_, rfl, by decide, by decide⟩
  obtain ⟨s, hs, hn, hp⟩ := hleak
  have hz := (h oneTrial refusedAfter s (by decide) hs).2 hn
  omega

end Sys

end VeTls
