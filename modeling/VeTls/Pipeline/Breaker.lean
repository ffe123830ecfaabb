import VeTls.Lib.Machine
import VeTls.Pipeline.Permits

/-!
# The gate of the breaker

A run of the pipeline is written down with the results that the breaker of
the producer has counted, newest first. The breaker is closed while fewer
failures than its threshold follow the last success. The gate tests the
half-open limit in a closed breaker as well.
-/

set_option autoImplicit false

namespace VeTls

open VeTls.Keys (Addr CStr KeyMap)

variable {cfg : Config}

namespace Sender

/-- Nothing is counted and the breaker neither opens nor closes. -/
def Uncounted (p p' : Producer) : Prop :=
  p'.breakerConsecutiveFailures = p.breakerConsecutiveFailures ∧
    p'.breakerOpenUntilMs = p.breakerOpenUntilMs

theorem idleCleanup_uncounted (i : Input) (p : Producer) : Uncounted p (idleCleanup cfg i p) := by
  unfold idleCleanup
  split <;> exact ⟨rfl, rfl⟩

theorem top_uncounted (i : Input) (p : Producer) : Uncounted p (top i p).2 := by
  unfold top
  dsimp only
  split
  · exact ⟨rfl, rfl⟩
  · split <;> exact ⟨rfl, rfl⟩

theorem pop_uncounted (block : Bool) (p : Producer) (r : Pc × Producer)
    (h : popSendQueue cfg block p = some r) : Uncounted p r.2 := by
  unfold popSendQueue at h
  split at h
  · obtain rfl := Option.some.inj h
    exact ⟨rfl, rfl⟩
  · split at h
    · cases h
    · split at h
      · obtain rfl := Option.some.inj h
        exact ⟨rfl, rfl⟩
      · obtain rfl := Option.some.inj h
        exact ⟨rfl, rfl⟩

theorem enter_uncounted (i : Input) (q : Addr) (s : Send) (p : Producer) :
    Uncounted p (breakerEnter cfg i q s p).2 := by
  unfold breakerEnter
  split
  · exact ⟨rfl, rfl⟩
  · split <;> exact ⟨rfl, rfl⟩

theorem attempt_uncounted (i : Input) (q : Option Addr) (s : Send) (p : Producer) :
    Uncounted p (attempt cfg i q s p).2 := by
  unfold attempt
  split <;> exact ⟨rfl, rfl⟩

/-- Only the step after a batch is reported counts its result. -/
theorem step_uncounted (i : Input) (pc : Pc) (p : Producer) (r : Pc × Producer)
    (hpc : ∀ q s sent, pc ≠ .breakerResult q s sent) (h : step cfg i pc p = some r) :
    Uncounted p r.2 := by
  unfold step at h
  split at h
  · cases h
  cases pc with
  | top =>
    obtain rfl := Option.some.inj h
    exact top_uncounted i p
  | popSendQueue block => exact pop_uncounted block p r h
  | stopCheck =>
    obtain rfl := Option.some.inj h
    unfold stopCheck
    split
    · exact ⟨rfl, rfl⟩
    · exact idleCleanup_uncounted i p
  | exitPop pending =>
    obtain rfl := Option.some.inj h
    unfold exitPop
    split <;> exact ⟨rfl, rfl⟩
  | exitCheck pending =>
    obtain rfl := Option.some.inj h
    unfold exitCheck
    split
    · exact idleCleanup_uncounted i p
    · exact ⟨rfl, rfl⟩
  | breakerWait q s =>
    dsimp only at h
    split at h
    · cases h
    · obtain rfl := Option.some.inj h
      exact ⟨rfl, rfl⟩
  | breakerEnter q s =>
    obtain rfl := Option.some.inj h
    exact enter_uncounted i q s p
  | attempt q s =>
    obtain rfl := Option.some.inj h
    exact attempt_uncounted i q s p
  | breakerResult q s sent => exact absurd rfl (hpc q s sent)
  | keyResult q t sent =>
    obtain rfl := Option.some.inj h
    show Uncounted p (keyResult cfg i q sent p)
    unfold keyResult
    split <;> exact ⟨rfl, rfl⟩
  | exited => cases h
  | _ =>
    obtain rfl := Option.some.inj h
    exact ⟨rfl, rfl⟩

end Sender

/-- A pipeline with the results its breaker has counted, the newest first. -/
structure Judged where
  sys : Sys
  results : List Bool

namespace Judged

variable {st : Setup}

def start (st : Setup) : Judged := ⟨Sys.start st, []⟩

/-- The result of a batch that went through the gate. -/
def countedBy (s : Sys) : Act → List Bool
  | .sender i _ =>
    match s.senders i with
    | .breakerResult _ send sent => if send.entered then [sent] else []
    | _ => []
  | _ => []

def step (st : Setup) (w : Judged) (a : Act) : Option Judged :=
  (Sys.step st w.sys a).map fun s => ⟨s, countedBy w.sys a++w.results⟩

/-- The failures since the last success. -/
def streak (results : List Bool) : ℕ := (results.takeWhile fun sent => !sent).length

/-- The breaker has not opened since the last success. -/
def Closed (cfg : Config) (results : List Bool) : Prop := streak results < cfg.breakerFailThreshold

instance (cfg : Config) (results : List Bool) : Decidable (Closed cfg results) :=
  inferInstanceAs (Decidable (_ < _))

/-- While the breaker is closed, a sender does not wait before the gate and
passes the gate. -/
def Admits (st : Setup) (w : Judged) : Prop :=
  Closed st.cfg w.results → ∀ i < st.cfg.senderCount, ∀ input : Sender.Input,
    input.addr ∉ KeyMap.live st.cfg.toKeyConfig w.sys.prod.keys → ∀ q send,
      (w.sys.senders i = .breakerWait q send →
        Sender.step st.cfg input (w.sys.senders i) w.sys.prod =
          some (.breakerEnter q send, w.sys.prod)) ∧
      (w.sys.senders i = .breakerEnter q send →
        ∃ send' p, Sender.step st.cfg input (w.sys.senders i) w.sys.prod =
          some (.attempt (some q) send', p))

/-- A sender that comes to the gate of the closed breaker finds fewer senders
in flight than may be when it is half-open. -/
def Room (st : Setup) (w : Judged) : Prop :=
  Closed st.cfg w.results → ∀ i < st.cfg.senderCount, ∀ q send,
    w.sys.senders i = .breakerEnter q send →
      w.sys.prod.breakerHalfOpenInflight < st.cfg.breakerHalfOpenMaxInflight

/-- The breaker knows the results. -/
structure Tallied (cfg : Config) (p : Producer) (results : List Bool) : Prop where
  failures : p.breakerConsecutiveFailures = streak results
  closed : Closed cfg results → p.breakerOpenUntilMs = 0

theorem Tallied.uncounted {p p' : Producer} {results : List Bool} (h : Tallied cfg p results)
    (hu : Sender.Uncounted p p') : Tallied cfg p' results :=
  ⟨hu.1.trans h.failures, fun hc => hu.2.trans (h.closed hc)⟩

theorem streak_sent (results : List Bool) : streak (true::results) = 0 := rfl

theorem streak_failed (results : List Bool) : streak (false::results) = streak results+1 := rfl

theorem tallied_result (input : Sender.Input) (send : Send) (sent : Bool) (p : Producer)
    (results : List Bool) (hpos : 0 < cfg.breakerFailThreshold) (h : Tallied cfg p results) :
    Tallied cfg (Sender.breakerResult cfg input send sent p)
      ((if send.entered then [sent] else [])++results) := by
  unfold Sender.breakerResult
  cases he : send.entered with
  | false => exact h
  | true =>
    rw [if_neg (by simp [hpos])]
    have hsame : ∀ b : Bool, Tallied cfg (if b then
        { p with breakerHalfOpenInflight := p.breakerHalfOpenInflight-1 } else p) results := by
      intro b
      cases b <;> exact ⟨h.failures, h.closed⟩
    specialize hsame (send.halfOpen && decide (p.breakerHalfOpenInflight > 0))
    dsimp only
    generalize (if (send.halfOpen && decide (p.breakerHalfOpenInflight > 0)) = true then
      { p with breakerHalfOpenInflight := p.breakerHalfOpenInflight-1 } else p) = p' at hsame
    cases sent with
    | true => exact ⟨rfl, fun _ => rfl⟩
    | false =>
      have hcount := hsame.failures
      show Tallied cfg { p' with breakerConsecutiveFailures := _, breakerOpenUntilMs := _ }
        (false::results)
      constructor
      · show p'.breakerConsecutiveFailures+1 = _
        rw [streak_failed, hcount]
        push_cast
        rfl
      · intro hc
        unfold Closed at hc
        rw [streak_failed] at hc
        push_cast at hc
        show (if p'.breakerConsecutiveFailures+1 ≥ cfg.breakerFailThreshold then _ else _) = _
        rw [if_neg (by omega)]
        apply hsame.closed
        unfold Closed
        omega

theorem step_some (w w' : Judged) (a : Act) (h : step st w a = some w') :
    Sys.step st w.sys a = some w'.sys ∧ w'.results = countedBy w.sys a++w.results := by
  obtain ⟨s, hs, rfl⟩ := Option.map_eq_some_iff.mp h
  exact ⟨hs, rfl⟩

theorem tallied_step (w w' : Judged) (a : Act) (hpos : 0 < st.cfg.breakerFailThreshold)
    (hgood : Sys.Good st w.sys) (hi : Tallied st.cfg w.sys.prod w.results)
    (h : step st w a = some w') : Tallied st.cfg w'.sys.prod w'.results := by
  obtain ⟨hs, hresults⟩ := step_some w w' a h
  rw [hresults]
  cases a with
  | sender i input =>
    simp only [Sys.step] at hs
    split at hs
    · obtain ⟨r, hr, hset⟩ := Option.map_eq_some_iff.mp hs
      have hprod : w'.sys.prod = r.2 := by rw [← hset]; rfl
      rw [hprod]
      cases hpc : w.sys.senders i with
      | breakerResult q send sent =>
        rw [hpc] at hr
        unfold Sender.step at hr
        split at hr
        · cases hr
        · obtain rfl := Option.some.inj hr
          have hnew := tallied_result input send sent w.sys.prod w.results hpos hi
          simpa only [countedBy, hpc] using hnew
      | _ =>
        have hnone : countedBy w.sys (.sender i input) = [] := by
          simp only [countedBy, hpc]
        rw [hnone]
        apply hi.uncounted
        apply Sender.step_uncounted input _ w.sys.prod r _ hr
        intro q s sent hx
        rw [hpc] at hx
        cases hx
    · cases hs
  | call i c | writer i input | worker i input =>
    obtain ⟨-, hp⟩ := Sys.breaker_frame w.sys w'.sys _ hgood rfl hs
    exact hi.uncounted ⟨congrArg (fun b => b.1) hp, congrArg (fun b => b.2.1) hp⟩

/-- A closed breaker has no deadline, and its gate tests the permits alone. -/
theorem admits_iff_room (w : Judged) (hpos : 0 < st.cfg.breakerFailThreshold)
    (h : Tallied st.cfg w.sys.prod w.results) : Admits st w ↔ Room st w := by
  have hopen : Closed st.cfg w.results → ∀ now, Sender.breakerOpen st.cfg now w.sys.prod = false := by
    intro hc now
    unfold Sender.breakerOpen
    rw [h.closed hc]
    simp
  constructor
  · intro hadmits hc i hi q send hpc
    obtain ⟨addr, hfresh⟩ := Infinite.exists_notMem_finset
      (KeyMap.live st.cfg.toKeyConfig w.sys.prod.keys).toFinset
    have hlive : addr ∉ KeyMap.live st.cfg.toKeyConfig w.sys.prod.keys := by
      simpa using hfresh
    obtain ⟨send', p, hstep⟩ :=
      (hadmits hc i hi ⟨0, 0, addr, none, .sent⟩ hlive q send).2 hpc
    rw [hpc, Sender.step, if_neg hlive] at hstep
    by_contra hfull
    rw [Sender.breakerEnter, if_neg (not_le.mpr hpos), hopen hc,
      if_neg (by simpa using hfull)] at hstep
    cases hstep
  · intro hroom hc i hi input hlive q send
    constructor
    · intro hpc
      rw [hpc, Sender.step, if_neg hlive]
      rw [hopen hc]
      rfl
    · intro hpc
      have hfree := hroom hc i hi q send hpc
      rw [hpc, Sender.step, if_neg hlive]
      rw [Sender.breakerEnter, if_neg (not_le.mpr hpos), hopen hc, if_pos (by simpa using hfree)]
      exact ⟨_, _, rfl⟩

/-- In every state that a run reaches with the breaker closed its deadline is
zero, and every sender at the gate is admitted at once exactly when fewer
senders than the half-open limit are in flight. -/
theorem run_closed_breaker_admits (st : Setup) (acts : List Act) (w : Judged)
    (hpos : 0 < st.cfg.breakerFailThreshold)
    (h : Machine.run (step st) acts (start st) = some w) :
    (Closed st.cfg w.results → w.sys.prod.breakerOpenUntilMs = 0) ∧
      (Admits st w ↔ Room st w) := by
  have hstart : Tallied st.cfg (start st).sys.prod (start st).results :=
    ⟨rfl, fun _ => rfl⟩
  have hall := Machine.run_invariant (step st)
    (fun w => Sys.Good st w.sys ∧ Tallied st.cfg w.sys.prod w.results) (fun _ _ => True)
    (fun w a w' hi _ hs => ⟨Sys.good_step w.sys w'.sys a hi.1 (step_some w w' a hs).1,
      tallied_step w w' a hpos hi.1 hi.2 hs⟩)
    acts (start st) w ⟨Sys.good_start st, hstart⟩
    (Machine.along_of_forall (step st) (fun _ => True) acts (start st) fun _ _ => trivial) h
  exact ⟨hall.2.closed, admits_iff_room w hpos hall.2⟩

def twoSenders : Setup :=
  ⟨{ keyQueueBucketCount := 1, breakerFailThreshold := 1, sendThreadCount := 2 }, 1, 0⟩

def packedAs (key : CStr) (addr : Addr) : List Act :=
  [.call 0 (.addKv Sys.keyLog key true), .writer 0 ⟨1, 1, addr⟩]++
    List.replicate 8 (.worker 0 ⟨1, 1, [8], none, none⟩)

/-- One sender is about to send the batch of its key when the other comes to
the gate with the batch of another key. -/
def secondInLine : List Act :=
  packedAs [75] 9++List.replicate 8 (.sender 0 ⟨1, 1, 8, none, .sent⟩)++
    packedAs [76] 10++List.replicate 7 (.sender 1 ⟨1, 1, 8, none, .sent⟩)

/-- The first sender has come to the gate. -/
def firstInLine : List Act :=
  packedAs [75] 9++List.replicate 7 (.sender 0 ⟨1, 1, 8, none, .sent⟩)

theorem firstInLine_admitted :
    ∃ w, Machine.run (step twoSenders) firstInLine (start twoSenders) = some w ∧
      Closed twoSenders.cfg w.results ∧ w.sys.prod.breakerHalfOpenInflight = 0 ∧
      (Closed twoSenders.cfg w.results → w.sys.prod.breakerOpenUntilMs = 0) ∧
      (Admits twoSenders w ↔ Room twoSenders w) :=
  ⟨_, rfl, by decide, rfl, run_closed_breaker_admits twoSenders firstInLine _ (by decide) rfl⟩

/-- The breaker has counted no result, and the second sender is refused. -/
theorem secondInLine_refused : ¬ ∀ (st : Setup) (acts : List Act) (w : Judged),
    0 < st.cfg.breakerFailThreshold → Machine.run (step st) acts (start st) = some w →
      Admits st w := by
  intro h
  have hrun : ∃ w, Machine.run (step twoSenders) secondInLine (start twoSenders) = some w ∧
      Closed twoSenders.cfg w.results ∧ ∃ q send, w.sys.senders 1 = .breakerEnter q send ∧
        8 ∉ KeyMap.live twoSenders.cfg.toKeyConfig w.sys.prod.keys ∧
        Sender.step twoSenders.cfg ⟨1, 1, 8, none, .sent⟩ (w.sys.senders 1) w.sys.prod =
          some (.breakerWait q send, w.sys.prod) :=
    ⟨_, rfl, by decide, _, _, rfl, by decide, rfl⟩
  obtain ⟨w, hw, hclosed, q, send, hpc, hlive, hwait⟩ := hrun
  obtain ⟨send', p, hstep⟩ := (h twoSenders secondInLine w (by decide) hw hclosed 1 (by decide)
    ⟨1, 1, 8, none, .sent⟩ hlive q send).2 hpc
  rw [hwait] at hstep
  cases hstep

end Judged

end VeTls
