import VeTls.Lib.Machine
import VeTls.Pipeline.Reclaim

/-!
# The packers' wait for the budget

A worker that reserves bytes for a body or for compression waits in the same
loop as a writer, and the loop turns everybody away once the producer no
longer accepts. `since` is when each worker's current reservation began.
-/

set_option autoImplicit false

namespace VeTls

structure Timed where
  sys : Sys
  since : ℕ → ℤ

namespace Worker

/-- The job for which a worker is inside a reservation. -/
def reserving : Pc → Option Job
  | .scratchLock job => if compressScratchBound job.task.bodySize = 2^64-1 then none else some job
  | .scratchWait job _ | .sendLock job | .sendWait job _ => some job
  | _ => none

def waiting : Pc → Option ℤ
  | .scratchWait _ deadline | .sendWait _ deadline => some deadline
  | _ => none

def need : Pc → ℕ
  | .scratchLock job | .scratchWait job _ => compressScratchBound job.task.bodySize
  | .sendLock job | .sendWait job _ => sendTaskMemoryBytes job.task
  | _ => 0

/-- The last clock reading of a round of the wait. -/
def reading (i : Input) (pc : Pc) : ℤ := if (waiting pc).isSome then i.now else i.now2

def deadlineOf (cfg : Config) (since : ℤ) : ℤ :=
  if cfg.bufferFullBlockTimeoutMs > 0 ∧ since > 0 then since+cfg.bufferFullBlockTimeoutMs else 0

/-- What a round of the wait ends with. -/
inductive Waits (cfg : Config) (p : Producer) (deadline now : ℤ) : Wait → Prop
  | ok : Waits cfg p deadline now (.rc .ok)
  | block : Waits cfg p deadline now (.block deadline)
  | closed (h : p.stop = true ∨ p.accepting = false) : Waits cfg p deadline now (.rc .closed)
  | timeout (h : 0 < deadline) (hnow : deadline ≤ now) : Waits cfg p deadline now (.rc .timeout)

theorem waitLoop_waits (cfg : Config) (p : Producer) (need : ℕ) (deadline now : ℤ) :
    Waits cfg p deadline now (waitLoop cfg p need true deadline now).1 := by
  unfold waitLoop
  split
  case isTrue h =>
    apply Waits.closed
    simpa using h
  case isFalse =>
    split
    case isTrue => exact .ok
    case isFalse =>
      split
      case isTrue h => exact .timeout h.1 (by omega)
      case isFalse => exact .block

theorem waitBufferSpaceLocked_waits (cfg : Config) (p : Producer) (need : ℕ) (now now2 : ℤ)
    (hb : cfg.bufferFullPolicy = .block) :
    (waitBufferSpaceLocked cfg p need true now now2).1 = .rc .ok ∨
      (hasBufferSpaceLocked cfg p need true = false ∧
        Waits cfg p (deadlineOf cfg now) now2 (waitBufferSpaceLocked cfg p need true now now2).1) := by
  unfold waitBufferSpaceLocked
  split
  case isTrue => exact .inl rfl
  case isFalse =>
    split
    case isTrue => exact .inl rfl
    case isFalse hfull =>
      rw [if_neg (not_not.mpr hb)]
      exact .inr ⟨by simpa using hfull, waitLoop_waits cfg p need _ now2⟩

/-- Where the outcome of a wait leads. -/
def outcome (job : Job) (go : Pc) (again : ℤ → Pc) : Wait → Pc
  | .block deadline => again deadline
  | .rc .ok => go
  | .rc _ => .drop job

theorem scratchAdmit_pc (job : Job) (w : Worker) (r : Wait × Producer) :
    (scratchAdmit job w r).1.pc = outcome job (.compress job) (.scratchWait job) r.1 := by
  obtain ⟨r | d, p⟩ := r
  · cases r <;> rfl
  · rfl

theorem sendAdmit_pc (i : Input) (job : Job) (w : Worker) (r : Wait × Producer) :
    (sendAdmit i job w r).1.pc = outcome job (.push job i.now) (.sendWait job) r.1 := by
  obtain ⟨r | d, p⟩ := r
  · cases r <;> rfl
  · rfl

/-- How a round of a reservation ends for the worker. -/
inductive Round (cfg : Config) (i : Input) (job : Job) (pc : Pc) (p : Producer) (pc' : Pc) : Prop
  | admitted (h : waiting pc' = none) (hdrop : pc' ≠ .drop job)
  | waits (h : waiting pc' = some ((waiting pc).getD (deadlineOf cfg i.now)))
      (hdrop : pc' ≠ .drop job)
  | closed (h : pc' = .drop job) (hwhy : p.stop = true ∨ p.accepting = false)
      (hfull : (waiting pc).isNone → hasBufferSpaceLocked cfg p (need pc) true = false)
  | timeout (h : pc' = .drop job) (hpos : 0 < (waiting pc).getD (deadlineOf cfg i.now))
      (hover : (waiting pc).getD (deadlineOf cfg i.now) ≤ reading i pc)

theorem outcome_round (cfg : Config) (i : Input) (job : Job) (pc go : Pc) (again : ℤ → Pc)
    (p : Producer) (r : Wait) (hgo : waiting go = none ∧ go ≠ .drop job)
    (hagain : ∀ d, waiting (again d) = some d ∧ again d ≠ .drop job)
    (hfull : (waiting pc).isNone → hasBufferSpaceLocked cfg p (need pc) true = false)
    (hw : Waits cfg p ((waiting pc).getD (deadlineOf cfg i.now)) (reading i pc) r) :
    Round cfg i job pc p (outcome job go again r) := by
  cases hw with
  | ok => exact .admitted hgo.1 hgo.2
  | block => exact .waits (hagain _).1 (hagain _).2
  | closed hc => exact .closed rfl hc hfull
  | timeout hpos hover => exact .timeout rfl hpos hover

/-- The first round of a reservation. -/
theorem lock_round (cfg : Config) (hb : cfg.bufferFullPolicy = .block) (i : Input) (job : Job)
    (pc go : Pc) (again : ℤ → Pc) (p : Producer) (hpc : waiting pc = none)
    (hgo : waiting go = none ∧ go ≠ .drop job)
    (hagain : ∀ d, waiting (again d) = some d ∧ again d ≠ .drop job) :
    Round cfg i job pc p
      (outcome job go again (waitBufferSpaceLocked cfg p (need pc) true i.now i.now2).1) := by
  rcases waitBufferSpaceLocked_waits cfg p (need pc) i.now i.now2 hb with hok | ⟨hfull, hw⟩
  · rw [hok]
    exact .admitted hgo.1 hgo.2
  · apply outcome_round cfg i job pc go again p _ hgo hagain (fun _ => hfull)
    rw [reading, hpc]
    exact hw

/-- A later round. -/
theorem again_round (cfg : Config) (i : Input) (job : Job) (pc go : Pc) (again : ℤ → Pc)
    (p : Producer) (deadline : ℤ) (hpc : waiting pc = some deadline)
    (hgo : waiting go = none ∧ go ≠ .drop job)
    (hagain : ∀ d, waiting (again d) = some d ∧ again d ≠ .drop job) :
    Round cfg i job pc p (outcome job go again (waitLoop cfg p (need pc) true deadline i.now).1) := by
  apply outcome_round cfg i job pc go again p _ hgo hagain
  · rw [hpc]
    exact fun hx => nomatch hx
  · rw [reading, hpc]
    exact waitLoop_waits cfg p (need pc) deadline i.now

theorem step_round (cfg : Config) (hb : cfg.bufferFullPolicy = .block) (i : Input) (job : Job)
    (w w' : Worker) (p p' : Producer) (hr : reserving w.pc = some job)
    (h : step cfg i w p = some (w', p')) : Round cfg i job w.pc p w'.pc := by
  have hgo : waiting (.compress job) = none ∧ Pc.compress job ≠ .drop job :=
    ⟨rfl, fun hx => nomatch hx⟩
  have hgo' : waiting (.push job i.now) = none ∧ Pc.push job i.now ≠ .drop job :=
    ⟨rfl, fun hx => nomatch hx⟩
  have hagain : ∀ d, waiting (.scratchWait job d) = some d ∧ Pc.scratchWait job d ≠ .drop job :=
    fun _ => ⟨rfl, fun hx => nomatch hx⟩
  have hagain' : ∀ d, waiting (.sendWait job d) = some d ∧ Pc.sendWait job d ≠ .drop job :=
    fun _ => ⟨rfl, fun hx => nomatch hx⟩
  obtain ⟨pc, rest⟩ := w
  cases pc with
  | scratchLock job' =>
    simp only [reserving] at hr
    split at hr
    case isTrue => cases hr
    case isFalse hbound =>
      cases hr
      simp only [step, hbound, if_false, Option.some.injEq] at h
      rw [show w'.pc = _ from congrArg (fun r => r.1.pc) h.symm, scratchAdmit_pc]
      exact lock_round cfg hb i job (.scratchLock job) _ _ p rfl hgo hagain
  | scratchWait job' deadline =>
    cases hr
    simp only [step, Option.some.injEq] at h
    rw [show w'.pc = _ from congrArg (fun r => r.1.pc) h.symm, scratchAdmit_pc]
    exact again_round cfg i job (.scratchWait job deadline) _ _ p deadline rfl hgo hagain
  | sendLock job' =>
    cases hr
    simp only [step, Option.some.injEq] at h
    rw [show w'.pc = _ from congrArg (fun r => r.1.pc) h.symm, sendAdmit_pc]
    exact lock_round cfg hb i job (.sendLock job) _ _ p rfl hgo' hagain'
  | sendWait job' deadline =>
    cases hr
    simp only [step, Option.some.injEq] at h
    rw [show w'.pc = _ from congrArg (fun r => r.1.pc) h.symm, sendAdmit_pc]
    exact again_round cfg i job (.sendWait job deadline) _ _ p deadline rfl hgo' hagain'
  | _ => cases hr

theorem body_waiting (cfg : Config) (i : Input) (haveAny haveIngress : Bool) (w : Worker)
    (p : Producer) (r : Worker × Producer) (h : body cfg i haveAny haveIngress w p = some r) :
    waiting r.1.pc = none := by
  unfold body at h
  split at h
  · cases h
    rfl
  · obtain ⟨p', _, h⟩ := Option.bind_eq_some_iff.mp h
    cases h
    rfl

theorem prepared_waiting (cfg : Config) (job : Job) : waiting (prepared cfg job) = none := by
  unfold prepared
  split
  · rfl
  · split <;> rfl

theorem next_waiting (cfg : Config) (w : Worker) : waiting (next cfg w).pc = none := by
  unfold next
  split <;> rfl

theorem done_waiting (job : Job) (w : Worker) : waiting (done job w).pc = none := by
  unfold done
  split <;> rfl

/-- Only a reservation leads to a wait. -/
theorem step_not_waiting (cfg : Config) (i : Input) (w w' : Worker) (p p' : Producer)
    (hr : reserving w.pc = none) (h : step cfg i w p = some (w', p')) : waiting w'.pc = none := by
  obtain ⟨pc, rest⟩ := w
  cases pc with
  | top =>
    simp only [step, top] at h
    split at h
    · split at h
      · cases h
      · split at h
        · split at h
          · cases h
            rfl
          · exact body_waiting cfg i _ _ _ p _ h
        · cases h
          rfl
    · exact body_waiting cfg i _ _ _ p _ h
  | timed haveIngress => exact body_waiting cfg i _ _ _ p _ h
  | pop =>
    simp only [step, pop, Option.some.injEq] at h
    split at h
    · cases h
      exact next_waiting cfg _
    · cases h
      rfl
  | prepare job =>
    cases h
    simp only [prepare]
    split
    · rfl
    · split
      · exact prepared_waiting cfg job
      · split
        · split
          · exact prepared_waiting cfg _
          · rfl
        · rfl
  | scratchLock job =>
    simp only [reserving] at hr
    split at hr
    case isTrue hbound =>
      simp only [step, hbound, if_true, Option.some.injEq, Prod.mk.injEq] at h
      rw [← h.1]
      rfl
    case isFalse => cases hr
  | compress job =>
    cases h
    simp only [compressDone]
    split
    · split
      · exact prepared_waiting cfg _
      · rfl
    · rfl
  | keyReserve job =>
    simp only [step] at h
    split at h
    · cases h
    · split at h
      · cases h
      · simp only [keyReserve, Option.some.injEq, Prod.mk.injEq] at h
        rw [← h.1]
        dsimp only
        split <;> rfl
  | push job start =>
    simp only [step, sendQueuePush, Option.some.injEq] at h
    split at h
    · cases h
      rfl
    · split at h
      · split at h
        · cases h
          rfl
        · split at h
          · cases h
            rfl
          · cases h
            rfl
      · cases h
        exact done_waiting job _
  | unreserve job =>
    cases h
    rfl
  | drop job =>
    cases h
    exact done_waiting job _
  | release bytes =>
    cases h
    exact next_waiting cfg _
  | finish =>
    cases h
    rfl
  | exited => cases h
  | scratchWait _ _ | sendLock _ | sendWait _ _ => cases hr

end Worker

namespace Timed

open Worker (reserving waiting need reading deadlineOf)

/-- A reservation begins where the worker takes the mutex for it. -/
def began (s : Sys) (since : ℕ → ℤ) : Act → ℕ → ℤ
  | .worker i input =>
    if (waiting (s.workers i).pc).isSome then since else Function.update since i input.now
  | _ => since

def step (st : Setup) (t : Timed) (a : Act) : Option Timed :=
  (Sys.step st t.sys a).map fun s => ⟨s, began t.sys t.since a⟩

def start (st : Setup) : Timed := ⟨Sys.start st, fun _ => 0⟩

/-- The worker `i` is refused in this step. -/
def Refused (t t' : Timed) (i : ℕ) : Prop :=
  ∃ job, reserving (t.sys.workers i).pc = some job ∧ (t'.sys.workers i).pc = .drop job

/-- The time of the reservation is over at `now`. -/
def Elapsed (cfg : Config) (since now : ℤ) : Prop :=
  0 < cfg.bufferFullBlockTimeoutMs ∧ since+cfg.bufferFullBlockTimeoutMs ≤ now

/-- A worker is refused only when its time is over or the producer stopped. -/
def Patient (st : Setup) (t : Timed) : Act → Prop
  | .worker i input => ∀ t', step st t (.worker i input) = some t' → Refused t t' i →
      t.sys.prod.stop = true ∨
        Elapsed st.cfg (t'.since i) (reading input (t.sys.workers i).pc)
  | _ => True

/-- A worker that finds no room at first, or that looks again, finds the
producer still accepting. -/
def Meets (st : Setup) (t : Timed) : Act → Prop
  | .worker i _ => (reserving (t.sys.workers i).pc).isSome →
      t.sys.prod.stop = true ∨ t.sys.prod.accepting = true ∨
        ((waiting (t.sys.workers i).pc).isNone ∧
          hasBufferSpaceLocked st.cfg t.sys.prod (need (t.sys.workers i).pc) true = true)
  | _ => True

instance (st : Setup) (t : Timed) (a : Act) : Decidable (Meets st t a) :=
  match a with
  | .worker i _ => inferInstanceAs (Decidable ((reserving (t.sys.workers i).pc).isSome →
      t.sys.prod.stop = true ∨ t.sys.prod.accepting = true ∨
        ((waiting (t.sys.workers i).pc).isNone ∧
          hasBufferSpaceLocked st.cfg t.sys.prod (need (t.sys.workers i).pc) true = true)))
  | .call _ _ | .writer _ _ | .sender _ _ => isTrue trivial

/-- Every waiting worker has the deadline of its reservation. -/
def Dated (st : Setup) (t : Timed) : Prop :=
  ∀ i deadline, waiting (t.sys.workers i).pc = some deadline → deadline = deadlineOf st.cfg (t.since i)

variable {st : Setup}

theorem step_worker (t t' : Timed) (i : ℕ) (input : Worker.Input)
    (h : step st t (.worker i input) = some t') :
    ∃ r, Worker.step st.cfg input (t.sys.workers i) t.sys.prod = some r ∧
      t'.sys.workers = Function.update t.sys.workers i r.1 ∧
      t'.since = if (waiting (t.sys.workers i).pc).isSome then t.since
        else Function.update t.since i input.now := by
  unfold step at h
  obtain ⟨s, hs, rfl⟩ := Option.map_eq_some_iff.mp h
  simp only [Sys.step] at hs
  split at hs
  · obtain ⟨r, hr, rfl⟩ := Option.map_eq_some_iff.mp hs
    exact ⟨r, hr, rfl, rfl⟩
  · cases hs

/-- The deadline of a round is the one of the reservation. -/
theorem deadline_since (t t' : Timed) (i : ℕ) (input : Worker.Input) (hd : Dated st t)
    (h : step st t (.worker i input) = some t') :
    (waiting (t.sys.workers i).pc).getD (deadlineOf st.cfg input.now) =
      deadlineOf st.cfg (t'.since i) := by
  obtain ⟨r, _, _, hsince⟩ := step_worker t t' i input h
  rw [hsince]
  cases hw : waiting (t.sys.workers i).pc with
  | none => simp
  | some deadline => simpa using hd i deadline hw

theorem other_workers (t t' : Timed) (a : Act) (ha : ∀ i input, a ≠ .worker i input)
    (h : step st t a = some t') : t'.sys.workers = t.sys.workers ∧ t'.since = t.since := by
  unfold step at h
  obtain ⟨s, hs, rfl⟩ := Option.map_eq_some_iff.mp h
  cases a with
  | worker i input => exact absurd rfl (ha i input)
  | call i c | writer i input | sender i input =>
    simp only [Sys.step] at hs
    split at hs
    · obtain ⟨r, _, rfl⟩ := Option.map_eq_some_iff.mp hs
      exact ⟨rfl, rfl⟩
    · cases hs

theorem dated_step (hb : st.cfg.bufferFullPolicy = .block) (t t' : Timed) (a : Act)
    (hd : Dated st t) (h : step st t a = some t') : Dated st t' := by
  cases a with
  | call i c | writer i input | sender i input =>
    obtain ⟨hw, hs⟩ := other_workers t t' _ (by simp) h
    unfold Dated
    rw [hw, hs]
    exact hd
  | worker i input =>
    have hdeadline := deadline_since t t' i input hd h
    obtain ⟨r, hr, hworkers, hsince⟩ := step_worker t t' i input h
    intro j deadline hj
    rw [hworkers] at hj
    by_cases hji : j = i
    · subst hji
      rw [Function.update_self] at hj
      rw [← hdeadline]
      cases hres : reserving (t.sys.workers j).pc with
      | none =>
        rw [Worker.step_not_waiting st.cfg input _ r.1 _ r.2 hres hr] at hj
        cases hj
      | some job =>
        cases Worker.step_round st.cfg hb input job _ r.1 _ r.2 hres hr with
        | admitted hnone =>
          rw [hnone] at hj
          cases hj
        | waits hwait =>
          rw [hwait] at hj
          exact (Option.some.inj hj).symm
        | closed hdrop | timeout hdrop =>
          rw [hdrop] at hj
          cases hj
    · rw [Function.update_of_ne hji] at hj
      rw [hd j deadline hj, hsince]
      split
      · rfl
      · rw [Function.update_of_ne hji]

theorem patient_of_meets (hb : st.cfg.bufferFullPolicy = .block) (t : Timed) (a : Act)
    (hd : Dated st t) (hm : Meets st t a) : Patient st t a := by
  cases a with
  | call i c | writer i input | sender i input => trivial
  | worker i input =>
    rintro t' h ⟨job, hres, hdrop⟩
    have hdeadline := deadline_since t t' i input hd h
    obtain ⟨r, hr, hworkers, _⟩ := step_worker t t' i input h
    rw [hworkers, Function.update_self] at hdrop
    cases Worker.step_round st.cfg hb input job _ r.1 _ r.2 hres hr with
    | admitted _ hne => exact absurd hdrop hne
    | waits _ hne => exact absurd hdrop hne
    | closed _ hwhy hfull =>
      rcases hwhy with hstop | hnot
      · exact .inl hstop
      · rcases hm (by simp [hres]) with hstop | haccepting | ⟨hnone, hroom⟩
        · exact .inl hstop
        · rw [hnot] at haccepting
          cases haccepting
        · rw [hfull hnone] at hroom
          cases hroom
    | timeout _ hpos hover =>
      rw [hdeadline] at hpos hover
      unfold deadlineOf at hpos hover
      split at hpos
      case isTrue hx =>
        rw [if_pos hx] at hover
        exact .inr ⟨hx.1, hover⟩
      case isFalse => exact absurd hpos (lt_irrefl 0)

theorem dated_start (st : Setup) : Dated st (start st) := by
  intro i deadline h
  cases h

/-- In every run in which a worker that waits for the budget finds the
producer still accepting, a worker's reservation is refused only when its
time is over or the producer has stopped. -/
theorem run_packers_patient (st : Setup) (hb : st.cfg.bufferFullPolicy = .block) (acts : List Act)
    (hc : Machine.Along (step st) (Meets st) acts (start st)) :
    Machine.Along (step st) (Patient st) acts (start st) :=
  Machine.along_of_invariant (step st) (Dated st) (Meets st) (Patient st)
    (fun t a t' hd _ h => dated_step hb t t' a hd h)
    (fun t a hd hm => patient_of_meets hb t a hd hm) acts (start st) (dated_start st) hc

/-- A budget of 56 bytes, half of it for the writers, and five milliseconds
to wait for it. -/
def tight : Setup :=
  ⟨{ keyQueueBucketCount := 1, orderedSend := true, bufferFullPolicy := .block,
     bufferFullBlockTimeoutMs := 5, compressNone := true, maxBufferBytes := 56 }, 2, 0⟩

/-- A batch of one log waits to be sent, and a worker with a batch of two
waits for its bytes since the time 1. -/
def crowded : List Act :=
  [.call 0 (.addKv Sys.keyLog [75] true), .writer 0 ⟨1, 1, 9⟩]++
    List.replicate 8 (.worker 0 ⟨1, 1, [8], none, none⟩)++
    [.call 0 (.addKv Sys.keyLog [75] false), .writer 0 ⟨1, 1, 7⟩,
      .call 0 (.addKv Sys.keyLog [75] true), .writer 0 ⟨1, 1, 7⟩]++
    List.replicate 5 (.worker 0 ⟨1, 1, [8], none, none⟩)

def looksAt (now : ℤ) : Act := .worker 0 ⟨now, now, [8], none, none⟩

theorem crowded_patient :
    Machine.Along (step tight) (Patient tight) (crowded++[looksAt 6]) (start tight) :=
  run_packers_patient tight rfl (crowded++[looksAt 6]) (by decide +kernel)

/-- Another thread begins to close, and the worker is refused although only
one of its five milliseconds is over. -/
theorem closing_not_patient :
    ¬ Machine.Along (step tight) (Patient tight)
      (crowded++[.call 1 (.close 100), .writer 1 ⟨2, 2, 7⟩]++[looksAt 2]) (start tight) := by
  intro h
  have hlast := Machine.along_last (step tight) (Patient tight)
    (crowded++[.call 1 (.close 100), .writer 1 ⟨2, 2, 7⟩]) (looksAt 2) (start tight) _ h rfl
  rcases hlast _ rfl ⟨_, rfl, rfl⟩ with hstop | helapsed
  · cases hstop
  · exact absurd helapsed.2 (by decide)

end Timed

end VeTls
