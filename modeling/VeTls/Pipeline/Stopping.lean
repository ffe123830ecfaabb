import VeTls.Fleet
import VeTls.Pipeline.Once
import VeTls.Pipeline.Recall
import VeTls.Pipeline.Shut

/-!
# Requests after the stop

A close sets `stop` when its drain test succeeds, a destroy at once. The loop
of a sender does not look at `stop`: a request that fails may be followed by
another one. A run is written down with the requests of each sender.
-/

set_option autoImplicit false

namespace VeTls

open VeTls.Keys (Addr CStr KeyMap)
open VeTls.Keys.KeyMap (Sound Held live ring)
open VeTls.Threads (total)

variable {cfg : Config}

/-- The callback of the batch has been called. -/
def CalledBack (p : Producer) (b : Batch) : Prop := ∃ r ∈ p.done, r.batch = some b

instance (p : Producer) (b : Batch) : Decidable (CalledBack p b) :=
  inferInstanceAs (Decidable (∃ r ∈ p.done, r.batch = some b))

theorem CalledBack.mono {p p' : Producer} {b : Batch} (h : CalledBack p b)
    (hd : ∃ l, p'.done = p.done++l) : CalledBack p' b := by
  obtain ⟨r, hr, hb⟩ := h
  obtain ⟨l, hl⟩ := hd
  refine ⟨r, ?_, hb⟩
  rw [hl]
  exact List.mem_append_left l hr

namespace Sender

/-- The batch whose callback the sender is going to call. -/
def reporting : Pc → Option Batch
  | .report _ s _ => some s.task.batch
  | _ => none

/-- The batch waits in the queue of a key. -/
def Queued (cfg : Config) (p : Producer) (b : Batch) : Prop :=
  ∃ k, ∃ t ∈ ring cfg.toKeyConfig p.keys k, t.batch = b

def Sends (b : Batch) (pc : Pc) : Prop := ∃ t, sending pc = some t ∧ t.batch = b

/-- No request that may be repeated fails. -/
def Concludes (cfg : Config) (i : Input) : Pc → Prop
  | .attempt _ s => i.outcome = .failed true → mayRetry cfg s i.now = false
  | _ => True

instance (cfg : Config) (i : Input) (pc : Pc) : Decidable (Concludes cfg i pc) :=
  match pc with
  | .attempt _ s =>
    inferInstanceAs (Decidable (i.outcome = .failed true → mayRetry cfg s i.now = false))
  | .top | .popSendQueue _ | .moving _ | .pushing _ | .counting _ | .keyDrop _ | .dropRelease _
  | .stopCheck | .exitPop _ | .exitCheck _ | .gate _ _ | .requeue _ _ _ | .breakerWait _ _
  | .breakerEnter _ _ | .report _ _ _ | .breakerResult _ _ _ | .keyResult _ _ _ | .release _ _
  | .finish _ | .uncount | .exited => isTrue trivial

theorem calledBack_report (s : Send) (sent : Bool) (p : Producer) :
    CalledBack (VeTls.report (taskReport s.task sent) p) s.task.batch :=
  ⟨taskReport s.task sent, List.mem_append_right _ (List.mem_singleton.mpr rfl), rfl⟩

theorem Queued.congr {p : Producer} {m : KeyMap SendTask Builder} {b : Batch}
    (h : Queued cfg p b) (hr : ∀ k, ring cfg.toKeyConfig m k = ring cfg.toKeyConfig p.keys k) :
    Queued cfg { p with keys := m } b := by
  obtain ⟨k, t, ht, hb⟩ := h
  refine ⟨k, t, ?_, hb⟩
  rw [hr k]
  exact ht

/-- A batch in the queue of its key or on its way to the server stays there
until it is called back. -/
theorem Move.onward {x y : Pc × Producer} (h : Move cfg x y) (b : Batch)
    (hb : Queued cfg x.2 b ∨ Sends b x.1) :
    CalledBack y.2 b ∨ Queued cfg y.2 b ∨ Sends b y.1 := by
  have stay : ∀ {pc pc' : Pc} {p p' : Producer}, Queued cfg p b ∨ Sends b pc →
      (Queued cfg p b → Queued cfg p' b) → sending pc' = sending pc →
      CalledBack p' b ∨ Queued cfg p' b ∨ Sends b pc' := by
    intro pc pc' p p' hb hq hs
    rcases hb with hb | ⟨t, ht, hb⟩
    · exact .inr (.inl (hq hb))
    · exact .inr (.inr ⟨t, hs.trans ht, hb⟩)
  cases h with
  | idle pc pc' p p' ha hsame =>
    obtain ⟨_, _, _, _, rfl⟩ := ha
    exact stay hb id hsame.sending
  | keyed pc pc' p m hk hsame => exact stay hb (fun h => h.congr hk.ring) hsame.sending
  | take p q t rest now m hfree hring he =>
    rcases hb with ⟨k, x, hx, hb⟩ | ⟨x, hx, _⟩
    · by_cases hk : k = (m.info q).key
      · rw [hk, hring] at hx
        rcases List.mem_cons.mp hx with rfl | hx
        · exact .inr (.inr ⟨x, rfl, hb⟩)
        · refine .inr (.inl ⟨k, x, ?_, hb⟩)
          show x ∈ ring cfg.toKeyConfig m k
          rw [he.ring k, if_pos hk]
          exact hx
      · refine .inr (.inl ⟨k, x, ?_, hb⟩)
        show x ∈ ring cfg.toKeyConfig m k
        rw [he.ring k, if_neg hk]
        exact hx
    · cases hx
  | pop pc p t rest hpop hq =>
    have hnone : sending pc = none := by
      rcases hpop with ⟨x, rfl⟩ | ⟨x, rfl⟩ <;> rfl
    exact stay hb id hnone.symm
  | move p t =>
    refine stay hb id ?_
    split <;> rfl
  | put p t m he =>
    rcases hb with ⟨k, x, hx, hb⟩ | ⟨x, hx, _⟩
    · refine .inr (.inl ⟨k, x, ?_, hb⟩)
      show x ∈ ring cfg.toKeyConfig m k
      rw [he.ring k]
      split
      · exact List.mem_append_left _ hx
      · exact hx
    · cases hx
  | count p t now =>
    rcases hb with hb | ⟨x, hx, _⟩
    · exact .inr (.inl hb)
    · cases hx
  | release pc pc' p t hsame => exact stay hb id hsame.sending
  | requeue p q t next m he =>
    rcases hb with ⟨k, x, hx, hb⟩ | ⟨x, hx, hb⟩
    · refine .inr (.inl ⟨k, x, ?_, hb⟩)
      show x ∈ ring cfg.toKeyConfig m k
      rw [he.ring k]
      split
      · exact List.mem_cons_of_mem _ hx
      · exact hx
    · obtain rfl := Option.some.inj hx
      refine .inr (.inl ⟨(p.keys.info q).key, t, ?_, hb⟩)
      show t ∈ ring cfg.toKeyConfig m (p.keys.info q).key
      rw [he.ring, if_pos rfl]
      exact List.mem_cons_self
  | attempt pc' p q s hsame => exact stay hb id hsame.sending
  | report p q s sent =>
    rcases hb with hb | ⟨x, hx, rfl⟩
    · exact .inr (.inl hb)
    · obtain rfl := Option.some.inj hx
      exact .inl (calledBack_report s sent p)
  | finish p q m gone he => exact stay hb (fun h => h.congr he.ring) rfl
  | cleanup pc pc' p next m gone hsame he =>
    exact stay hb (fun ⟨k, t, ht, hb⟩ => ⟨k, t, by rw [he.ring k]; exact ht, hb⟩) hsame.sending
  | _ => exact stay hb id rfl

/-- Only an attempt makes a request, and its sender still has the batch. -/
theorem Move.requested {x y : Pc × Producer} (h : Move cfg x y) (b : Batch)
    (hb : b ∈ y.2.attempts) : b ∈ x.2.attempts ∨ Sends b y.1 := by
  cases h with
  | idle pc pc' p p' ha hsame =>
    obtain ⟨_, _, _, _, rfl⟩ := ha
    exact .inl hb
  | attempt pc' p q s hsame =>
    rcases List.mem_append.mp hb with hb | hb
    · exact .inl hb
    · exact .inr ⟨s.task, hsame.sending, (List.mem_singleton.mp hb).symm⟩
  | _ => exact .inl hb

/-- A sender that is about to report does so. -/
theorem step_reports (i : Input) (pc : Pc) (p : Producer) (r : Pc × Producer) (b : Batch)
    (hb : reporting pc = some b) (h : step cfg i pc p = some r) : CalledBack r.2 b := by
  cases pc with
  | report q s sent =>
    unfold step at h
    split at h
    · cases h
    · obtain rfl := Option.some.inj h
      obtain rfl := Option.some.inj hb
      exact calledBack_report s sent p
  | _ => cases hb

/-- A request that is not to be repeated is followed by the report. -/
theorem attempt_concludes (i : Input) (q : Option Addr) (s : Send) (p : Producer)
    (hc : Concludes cfg i (.attempt q s)) (b : Batch) (hb : b ∈ (attempt cfg i q s p).2.attempts) :
    b ∈ p.attempts ∨ reporting (attempt cfg i q s p).1 = some b := by
  have hnew : b ∈ (attempted s.task p).attempts → b ∈ p.attempts ∨ s.task.batch = b := by
    intro hx
    rcases List.mem_append.mp hx with hx | hx
    · exact .inl hx
    · exact .inr (List.mem_singleton.mp hx).symm
  unfold attempt at hb ⊢
  split at hb
  · exact .inl hb
  · exact (hnew hb).imp_right fun hx => congrArg some hx
  · rename_i retryable hout
    dsimp only at hb ⊢
    have hstop : (retryable && mayRetry cfg s i.now) = false := by
      cases retryable with
      | false => rfl
      | true => exact hc hout
    rw [hstop]
    exact (hnew hb).imp_right fun hx => congrArg some hx

end Sender

namespace Sys

variable {st : Setup}

/-- No batch that has been requested will be requested again: its callback
has been called or comes next. -/
def Concluded (st : Setup) (s : Sys) : Prop :=
  ∀ b ∈ s.prod.attempts, CalledBack s.prod b ∨
    ∃ i < st.cfg.senderCount, Sender.reporting (s.senders i) = some b

instance (st : Setup) (s : Sys) : Decidable (Concluded st s) :=
  inferInstanceAs (Decidable (∀ b ∈ s.prod.attempts, _))

/-- Every batch that has been requested is behind the send queue. -/
def Past (st : Setup) (s : Sys) : Prop :=
  ∀ b ∈ s.prod.attempts, CalledBack s.prod b ∨ Sender.Queued st.cfg s.prod b ∨
    ∃ i < st.cfg.senderCount, Sender.Sends b (s.senders i)

/-- What the steps of other threads do to the requests. -/
structure Beside (st : Setup) (s s' : Sys) : Prop where
  senders : s'.senders = s.senders
  attempts : s'.prod.attempts = s.prod.attempts
  done : ∃ l, s'.prod.done = s.prod.done++l
  ring : ∀ k, ring st.cfg.toKeyConfig s'.prod.keys k = ring st.cfg.toKeyConfig s.prod.keys k

theorem Beside.trans {s₁ s₂ s₃ : Sys} (h : Beside st s₁ s₂) (h' : Beside st s₂ s₃) :
    Beside st s₁ s₃ := by
  obtain ⟨l, hl⟩ := h.done
  obtain ⟨l', hl'⟩ := h'.done
  refine ⟨h'.senders.trans h.senders, h'.attempts.trans h.attempts, ⟨l++l', ?_⟩,
    fun k => (h'.ring k).trans (h.ring k)⟩
  rw [hl', hl, List.append_assoc]

theorem Beside.writer {s : Sys} {p : Producer} (i : ℕ) (w : Writer)
    (hf : Writer.Frame st.cfg s.prod p) : Beside st s (s.setWriter i (w, p)) := by
  obtain ⟨l, hl, _⟩ := hf.done
  exact ⟨rfl, hf.attempts, ⟨l, hl⟩, hf.ring⟩

theorem Beside.concluded {s s' : Sys} (hb : Beside st s s') (h : Concluded st s) :
    Concluded st s' := by
  intro b hin
  rw [hb.attempts] at hin
  rw [hb.senders]
  exact (h b hin).imp_left fun hc => hc.mono hb.done

theorem Beside.past {s s' : Sys} (hb : Beside st s s') (h : Past st s) : Past st s' := by
  intro b hin
  rw [hb.attempts] at hin
  rw [hb.senders]
  rcases h b hin with hc | ⟨k, t, ht, htb⟩ | hs
  · exact .inl (hc.mono hb.done)
  · refine .inr (.inl ⟨k, t, ?_, htb⟩)
    rw [hb.ring k]
    exact ht
  · exact .inr (.inr hs)

theorem step_beside (s s' : Sys) (a : Act) (hgood : Good st s) (ha : asSender a = none)
    (h : step st s a = some s') : Beside st s s' := by
  refine step_rule (Beside st s) s s' a hgood ⟨rfl, rfl, ⟨[], by simp⟩, fun _ => rfl⟩
    ?_ ?_ ?_ ?_ ?_ h
  · exact fun t i r _ hc hI hm => hI.trans (.writer i r.1 (hm.frame hc.sound))
  · exact fun i r _ _ hl => .writer i r.1 (hl.frame hgood.sound)
  · intro t i r _ hc hI hm
    have hf := hm.frame hc.sound
    obtain ⟨l, hl, _⟩ := (hm.trade ⟨[], false, 0, [], 0, 0, 0⟩).done
    exact hI.trans ⟨rfl, hf.attempts, ⟨l, hl⟩, hf.ring⟩
  · rintro i r _ _ ⟨j, now, _, rfl⟩
    exact ⟨rfl, rfl, ⟨[], (List.append_nil _).symm⟩, fun _ => rfl⟩
  · rintro i r _ ⟨input, rfl⟩ _
    cases ha

/-- The step of a sender, in the terms of its moves. -/
theorem past_step (s s' : Sys) (a : Act) (hgood : Good st s) (hp : Past st s)
    (h : step st s a = some s') : Past st s' := by
  cases a with
  | sender i input =>
    obtain ⟨hi, r, hr, hm, rfl⟩ := sender_move s s' i input hgood h
    obtain ⟨l, hl, _⟩ := (hm.trade ⟨[], false, 0, [], 0, 0, 0⟩ hgood.sound).done
    have mine : ∀ b, Sender.Sends b r.1 →
        ∃ j < st.cfg.senderCount, Sender.Sends b ((s.setSender i r).senders j) := by
      intro b hs
      refine ⟨i, hi, ?_⟩
      rw [senders_self]
      exact hs
    have onward : ∀ b, Sender.Queued st.cfg s.prod b ∨ Sender.Sends b (s.senders i) →
        CalledBack r.2 b ∨ Sender.Queued st.cfg r.2 b ∨
          ∃ j < st.cfg.senderCount, Sender.Sends b ((s.setSender i r).senders j) :=
      fun b hb => (hm.onward b hb).imp_right fun hx => hx.imp_right (mine b)
    intro b hb
    rcases hm.requested b hb with hold | hs
    · rcases hp b hold with hc | hq | ⟨j, hj, hs⟩
      · exact .inl (hc.mono ⟨l, hl⟩)
      · exact onward b (.inl hq)
      · by_cases hji : j = i
        · subst hji
          exact onward b (.inr hs)
        · refine .inr (.inr ⟨j, hj, ?_⟩)
          rw [senders_other s i j r hji]
          exact hs
    · exact .inr (.inr (mine b hs))
  | call i c | writer i input | worker i input =>
    exact (step_beside s s' _ hgood rfl h).past hp

/-- With the drain test passed there is no key queue with a task and no
sender behind one. -/
theorem Past.concluded {s : Sys} (h : Past st s) (hgood : Good st s) (ha : Accounts st s)
    (hd : Drained st s.prod) : Concluded st s := by
  intro b hb
  rcases h b hb with hc | ⟨k, t, ht, _⟩ | ⟨i, hi, t, ht, _⟩
  · exact .inl hc
  · unfold ring at ht
    split at ht
    · rename_i q hfind
      rw [(hd.keys q (List.mem_of_find?_eq_some hfind)).1] at ht
      cases ht
    · cases ht
  · have hw : Sender.window (s.senders i) = none := by
      generalize s.senders i = pc at ht
      cases pc with
      | moving t | pushing t | counting t | keyDrop t => cases ht
      | _ => rfl
    have hhand := hd.hand hgood ha i hi hw
    rw [Sender.hand, hw, Option.none_or, ht] at hhand
    cases hhand

/-- The condition on a sender's step once `stop` is set. -/
def ConcludesNow (st : Setup) (s : Sys) : Act → Prop
  | .sender i input => Sender.Concludes st.cfg input (s.senders i)
  | _ => True

instance (st : Setup) (s : Sys) (a : Act) : Decidable (ConcludesNow st s a) :=
  match a with
  | .sender i input => inferInstanceAs (Decidable (Sender.Concludes st.cfg input (s.senders i)))
  | .call _ _ | .writer _ _ | .worker _ _ => isTrue trivial

theorem concluded_step (s s' : Sys) (a : Act) (hgood : Good st s) (hp : Concluded st s)
    (hc : ConcludesNow st s a) (h : step st s a = some s') : Concluded st s' := by
  cases a with
  | sender i input =>
    obtain ⟨hi, r, hr, hm, rfl⟩ := sender_move s s' i input hgood h
    obtain ⟨l, hl, _⟩ := (hm.trade ⟨[], false, 0, [], 0, 0, 0⟩ hgood.sound).done
    have hnew : ∀ b ∈ r.2.attempts, b ∈ s.prod.attempts ∨ Sender.reporting r.1 = some b := by
      intro b hb
      cases hpc : s.senders i with
      | attempt q x =>
        rw [hpc, Sender.step] at hr
        split at hr
        · cases hr
        · obtain rfl := Option.some.inj hr
          have hlast : Sender.Concludes st.cfg input (s.senders i) := hc
          rw [hpc] at hlast
          exact Sender.attempt_concludes input q x s.prod hlast b hb
      | _ =>
        rw [hpc] at hm
        left
        cases hm with
        | idle pc pc' p p' ha =>
          obtain ⟨_, _, _, _, rfl⟩ := ha
          exact hb
        | _ => exact hb
    intro b hb
    rcases hnew b hb with hold | hrep
    · rcases hp b hold with hcb | ⟨j, hj, hrep⟩
      · exact .inl (hcb.mono ⟨l, hl⟩)
      · by_cases hji : j = i
        · subst hji
          exact .inl (Sender.step_reports input _ _ r b hrep hr)
        · refine .inr ⟨j, hj, ?_⟩
          rw [senders_other s i j r hji]
          exact hrep
    · refine .inr ⟨i, hi, ?_⟩
      rw [senders_self]
      exact hrep
  | call i c | writer i input | worker i input =>
    exact (step_beside s s' _ hgood rfl h).concluded hp

/-- A batch that a sender may still request has not been requested. -/
theorem Concluded.unrequested {s : Sys} (h : Concluded st s) (ha : Accounts st s)
    (hn : Numbered s.prod) (i : ℕ) (hi : i < st.cfg.senderCount) (q : Option Addr) (x : Send)
    (hpc : s.senders i = .attempt q x) : x.task.batch ∉ s.prod.attempts := by
  intro hin
  have htaken := ha.taken x.task.batch
  have hone := List.nodup_iff_count_le_one.mp hn.taken_nodup x.task.batch
  have hmine : Sender.handHits x.task.batch (s.senders i) = 1 := by
    rw [hpc]
    exact if_pos rfl
  rcases h _ hin with ⟨r, hr, hb⟩ | ⟨j, hj, hrep⟩
  · have hrep : 0 < reports x.task.batch s.prod :=
      List.countP_pos_iff.mpr ⟨r, hr, decide_eq_true hb⟩
    have hle := Threads.le_total st.cfg.senderCount i hi s.senders (Sender.handHits x.task.batch)
    omega
  · have hji : i ≠ j := by
      rintro rfl
      rw [hpc] at hrep
      cases hrep
    have hother : Sender.handHits x.task.batch (s.senders j) = 1 := by
      cases hpcj : s.senders j with
      | report q' y sent =>
        rw [hpcj] at hrep
        exact if_pos (Option.some.inj hrep)
      | _ =>
        rw [hpcj] at hrep
        cases hrep
    have hle := Threads.add_le_total st.cfg.senderCount i j hi hj hji s.senders
      (Sender.handHits x.task.batch)
    omega

end Sys

/-- A pipeline with a thread that destroys it, and its history: the requests
each sender has made. -/
structure Stopping where
  sys : Sys
  destroyer : Option (ℕ × Stage)
  requests : List (ℕ × Batch)

namespace Stopping

variable {st : Setup}

inductive Act where
  | own (a : VeTls.Act)
  | destroy (i : ℕ)
  | destroying
  deriving DecidableEq, Repr

def start (st : Setup) : Stopping := ⟨Sys.start st, none, []⟩

/-- The request a step makes, with its sender. -/
def requestsIn (s : Sys) : VeTls.Act → List (ℕ × Batch)
  | .sender i input =>
    match s.senders i with
    | .attempt _ x => if input.outcome = .noCredentials then [] else [(i, x.task.batch)]
    | _ => []
  | _ => []

def calls (i : ℕ) : VeTls.Act → Bool
  | .call j _ => decide (j = i)
  | _ => false

/-- The steps of a destroy up to its wait for the threads; what it frees
after that is no sender's any more. -/
def destroyStep (st : Setup) (i : ℕ) (w : Stopping) : Stage → Option Stopping
  | .batch =>
    if (w.sys.writers i).batch.producer = some st.me then
      some { w with
        sys := w.sys.setWriter i ({ w.sys.writers i with batch := ⟨none, none⟩ },
          Writer.leaveBatch st.me (w.sys.writers i).batch w.sys.prod)
        destroyer := some (i, .sendQueue) }
    else some { w with destroyer := some (i, .sendQueue) }
  | .sendQueue => some { w with
      sys := { w.sys with prod := { w.sys.prod with sendQueueStop := true } }
      destroyer := some (i, .join) }
  | .join => none

def step (st : Setup) (w : Stopping) : Act → Option Stopping
  | .own a =>
    if w.destroyer.any (fun d => calls d.1 a) then none
    else (Sys.step st w.sys a).map fun s =>
      { w with sys := s, requests := w.requests++requestsIn w.sys a }
  | .destroy i =>
    if i < st.writerCount ∧ (w.sys.writers i).pc = .idle ∧ w.destroyer = none then
      some { w with
        sys := { w.sys with prod := Fleet.stopNow w.sys.prod }
        destroyer := some (i, .batch) }
    else none
  | .destroying => w.destroyer.bind fun d => destroyStep st d.1 w d.2

/-- The step is no request for a batch after the stop that its sender has
requested before. -/
def NoRetry (st : Setup) (w : Stopping) : Act → Prop
  | .own a => w.sys.prod.stop = true → ∀ x ∈ requestsIn w.sys a, x.1 < st.cfg.senderCount →
      x ∉ w.requests
  | _ => True

instance (st : Setup) (w : Stopping) (a : Act) : Decidable (NoRetry st w a) :=
  match a with
  | .own a => inferInstanceAs (Decidable (w.sys.prod.stop = true → ∀ x ∈ requestsIn w.sys a, _))
  | .destroy _ | .destroying => isTrue trivial

/-- A destroy begins when no batch that has been requested waits for another
request, and no request that may be repeated fails after the stop. -/
def Ends (st : Setup) (w : Stopping) : Act → Prop
  | .own a => w.sys.prod.stop = true → Sys.ConcludesNow st w.sys a
  | .destroy _ => Sys.Concluded st w.sys
  | .destroying => True

instance (st : Setup) (w : Stopping) (a : Act) : Decidable (Ends st w a) :=
  match a with
  | .own a => inferInstanceAs (Decidable (w.sys.prod.stop = true → Sys.ConcludesNow st w.sys a))
  | .destroy _ => inferInstanceAs (Decidable (Sys.Concluded st w.sys))
  | .destroying => isTrue trivial

structure Inv (st : Setup) (w : Stopping) : Prop where
  good : Sys.Good st w.sys
  accounts : Sys.Accounts st w.sys
  numbered : Numbered w.sys.prod
  past : Sys.Past st w.sys
  concluded : w.sys.prod.stop = true → Sys.Concluded st w.sys
  requests : ∀ x ∈ w.requests, x.2 ∈ w.sys.prod.attempts
  idle : ∀ d, w.destroyer = some d → (w.sys.writers d.1).pc = .idle

/-- None of this is about the flags or the batch that a destroy touches. -/
theorem Inv.flags {w : Stopping} (h : Inv st w) (accepting closing stop sendStop : Bool) (tls : ℕ)
    (f : ℕ → Writer) (d : Option (ℕ × Stage)) (hstop : stop = true → Sys.Concluded st w.sys)
    (hf : ∀ i, Writer.Ok st.cfg st.me (f i)) (hd : ∀ x, d = some x → (f x.1).pc = .idle) :
    Inv st { w with
      sys := { w.sys with
        writers := f
        prod := { w.sys.prod with
          accepting, closing, stop, sendQueueStop := sendStop, tlsBytes := tls } }
      destroyer := d } where
  good := ⟨⟨h.good.sound, h.good.held, h.good.alone⟩, hf, h.good.workers⟩
  accounts := ⟨h.accounts.taken, h.accounts.faithful, h.accounts.flushing, h.accounts.counted⟩
  numbered := ⟨h.numbered.raw, h.numbered.sealedUp⟩
  past := h.past
  concluded := hstop
  requests := h.requests
  idle := hd

/-- The thread that destroys the producer is in no other call. -/
theorem idle_step (s s' : Sys) (a : VeTls.Act) (i : ℕ) (hi : (s.writers i).pc = .idle)
    (ha : calls i a = false) (h : Sys.step st s a = some s') : (s'.writers i).pc = .idle := by
  cases a with
  | call j c =>
    have hne : i ≠ j := fun he => of_decide_eq_false ha he.symm
    simp only [Sys.step] at h
    split at h
    · obtain ⟨r, -, rfl⟩ := Option.map_eq_some_iff.mp h
      show (Function.update s.writers j r.1 i).pc = .idle
      rw [Function.update_of_ne hne]
      exact hi
    · cases h
  | writer j input =>
    simp only [Sys.step] at h
    split at h
    · obtain ⟨r, hr, rfl⟩ := Option.map_eq_some_iff.mp h
      have hne : i ≠ j := by
        rintro rfl
        unfold Writer.go at hr
        split at hr
        · cases hr
        · rw [hi] at hr
          cases hr
      show (Function.update s.writers j r.1 i).pc = .idle
      rw [Function.update_of_ne hne]
      exact hi
    · cases h
  | worker j input | sender j input =>
    simp only [Sys.step] at h
    split at h
    · obtain ⟨r, -, rfl⟩ := Option.map_eq_some_iff.mp h
      exact hi
    · cases h

/-- The requests of a step are among the attempts after it. -/
theorem requestsIn_attempts (s s' : Sys) (a : VeTls.Act) (hgood : Sys.Good st s)
    (h : Sys.step st s a = some s') :
    (∀ b ∈ s.prod.attempts, b ∈ s'.prod.attempts) ∧
      ∀ x ∈ requestsIn s a, x.2 ∈ s'.prod.attempts := by
  cases a with
  | sender i input =>
    obtain ⟨-, r, hr, hm, rfl⟩ := Sys.sender_move s s' i input hgood h
    constructor
    · intro b hb
      show b ∈ r.2.attempts
      generalize s.senders i = pc at hm
      cases hm with
      | idle pc pc' p p' ha =>
        obtain ⟨_, _, _, _, rfl⟩ := ha
        exact hb
      | attempt pc' p q x => exact List.mem_append_left _ hb
      | _ => exact hb
    · intro x hx
      unfold requestsIn at hx
      cases hpc : s.senders i with
      | attempt q y =>
        simp only [hpc] at hx
        split at hx
        · cases hx
        · rename_i hout
          obtain rfl := List.mem_singleton.mp hx
          rw [hpc, Sender.step] at hr
          split at hr
          · cases hr
          · obtain rfl := Option.some.inj hr
            show y.task.batch ∈ (Sender.attempt st.cfg input q y s.prod).2.attempts
            unfold Sender.attempt
            split
            · rename_i hno
              exact absurd hno hout
            · exact List.mem_append_right _ (List.mem_singleton.mpr rfl)
            · exact List.mem_append_right _ (List.mem_singleton.mpr rfl)
      | _ =>
        simp only [hpc] at hx
        cases hx
  | call i c | writer i input | worker i input =>
    have hb := Sys.step_beside s s' _ hgood rfl h
    refine ⟨fun b hin => ?_, nofun⟩
    rw [hb.attempts]
    exact hin

/-- A close that sets `stop` has found every requested batch reported. -/
theorem concluded_own {s s' : Sys} {a : VeTls.Act} (hgood : Sys.Good st s)
    (hacc : Sys.Accounts st s) (hpast : Sys.Past st s)
    (hstop : s.prod.stop = true → Sys.Concluded st s)
    (ha : s.prod.stop = true → Sys.ConcludesNow st s a) (hs' : s'.prod.stop = true)
    (h : Sys.step st s a = some s') : Sys.Concluded st s' := by
  cases hs : s.prod.stop with
  | true => exact Sys.concluded_step s s' a hgood (hstop hs) (ha hs) h
  | false =>
    obtain ⟨hd, -⟩ := Sys.stop_drained s s' a hgood hs hs' h
    have hall := hpast.concluded hgood hacc (Sys.isDrainedLocked_drained s.prod hd)
    cases a with
    | sender i input =>
      obtain ⟨-, r, -, hm, rfl⟩ := Sys.sender_move s s' i input hgood h
      have hsame := hm.rests.2
      dsimp only at hsame
      have hset : r.2.stop = true := hs'
      rw [hsame, hs] at hset
      cases hset
    | call i c | writer i input | worker i input =>
      exact (Sys.step_beside s s' _ hgood rfl h).concluded hall

theorem inv_destroyStep (i : ℕ) (stage : Stage) (w w' : Stopping) (hi : Inv st w)
    (hd : w.destroyer = some (i, stage)) (h : destroyStep st i w stage = some w') : Inv st w' := by
  have hidle : (w.sys.writers i).pc = .idle := hi.idle (i, stage) hd
  cases stage with
  | batch =>
    simp only [destroyStep] at h
    split at h
    · obtain rfl := Option.some.inj h
      rw [Writer.leaveBatch_eq]
      refine hi.flags w.sys.prod.accepting w.sys.prod.closing w.sys.prod.stop
        w.sys.prod.sendQueueStop _ _ _ hi.concluded ?_ ?_
      · exact Sys.forall_update _ _ i _ hi.good.writers
          (Writer.ok_unbatched _ (by dsimp only; rw [hidle]; rfl))
      · rintro x hx
        obtain rfl := Option.some.inj hx
        show (Function.update w.sys.writers i _ i).pc = .idle
        rw [Function.update_self]
        exact hidle
    · obtain rfl := Option.some.inj h
      refine ⟨hi.good, hi.accounts, hi.numbered, hi.past, hi.concluded, hi.requests, ?_⟩
      rintro x hx
      obtain rfl := Option.some.inj hx
      exact hidle
  | sendQueue =>
    obtain rfl := Option.some.inj h
    refine hi.flags w.sys.prod.accepting w.sys.prod.closing w.sys.prod.stop true _ _ _
      hi.concluded hi.good.writers ?_
    rintro x hx
    obtain rfl := Option.some.inj hx
    exact hidle
  | join => cases h

theorem inv_step (w w' : Stopping) (a : Act) (hi : Inv st w) (ha : Ends st w a)
    (h : step st w a = some w') : Inv st w' := by
  cases a with
  | own a =>
    simp only [step] at h
    split at h
    · cases h
    · rename_i hcall
      obtain ⟨s, hs, rfl⟩ := Option.map_eq_some_iff.mp h
      obtain ⟨hold, hnew⟩ := requestsIn_attempts w.sys s a hi.good hs
      refine ⟨Sys.good_step _ _ a hi.good hs, Sys.accounts_step _ _ a hi.good hi.accounts hs,
        Sys.numbered_step _ _ a hi.good hi.numbered hs, Sys.past_step _ _ a hi.good hi.past hs,
        fun hs' => concluded_own hi.good hi.accounts hi.past hi.concluded ha hs' hs, ?_, ?_⟩
      · intro x hx
        rcases List.mem_append.mp hx with hx | hx
        · exact hold x.2 (hi.requests x hx)
        · exact hnew x hx
      · intro d hd
        have hnone : calls d.1 a = false := by
          simpa [show w.destroyer = some d from hd] using hcall
        exact idle_step w.sys s a d.1 (hi.idle d hd) hnone hs
  | destroy i =>
    simp only [step] at h
    split at h
    · rename_i hguard
      obtain rfl := Option.some.inj h
      refine hi.flags false false true w.sys.prod.sendQueueStop w.sys.prod.tlsBytes w.sys.writers _
        (fun _ => ha) hi.good.writers ?_
      rintro x hx
      obtain rfl := Option.some.inj hx
      exact hguard.2.1
    · cases h
  | destroying =>
    obtain ⟨d, hd, hstep⟩ := Option.bind_eq_some_iff.mp h
    exact inv_destroyStep d.1 d.2 w w' hi hd hstep

theorem inv_start (st : Setup) : Inv st (start st) :=
  ⟨Sys.good_start st, Sys.accounts_start st, Sys.numbered_start st, nofun, nofun, nofun, nofun⟩

/-- What a sender requests after the stop nobody has requested before. -/
theorem Inv.noRetry {w : Stopping} (h : Inv st w) (a : Act) : NoRetry st w a := by
  cases a with
  | own a =>
    intro hs x hx hlt hin
    cases a with
    | sender i input =>
      unfold requestsIn at hx
      cases hpc : w.sys.senders i with
      | attempt q y =>
        simp only [hpc] at hx
        split at hx
        · cases hx
        · obtain rfl := List.mem_singleton.mp hx
          exact (h.concluded hs).unrequested h.accounts h.numbered i hlt q y hpc (h.requests _ hin)
      | _ =>
        simp only [hpc] at hx
        cases hx
    | call i c | writer i input | worker i input => cases hx
  | destroy i => trivial
  | destroying => trivial

/-- In every run in which a destroy begins with no requested batch waiting
for another request, and in which no request fails after the stop that may be
repeated, no sender requests a batch again after the stop. -/
theorem run_retries_stop (st : Setup) (acts : List Act)
    (hc : Machine.Along (step st) (Ends st) acts (start st)) :
    Machine.Along (step st) (NoRetry st) acts (start st) :=
  Machine.along_of_invariant (step st) (Inv st) (Ends st) (NoRetry st)
    (fun w a w' hi ha h => inv_step w w' a hi ha h) (fun _ a hi _ => hi.noRetry a) acts (start st)
    (inv_start st) hc

def packed : List VeTls.Act :=
  [.call 0 (.addRaw ⟨5, 0, false, [1, 2, 3], true⟩), .writer 0 ⟨1, 1, 9⟩, .writer 0 ⟨1, 1, 9⟩]++
    List.replicate 7 (.worker 0 ⟨1, 1, [8], none, none⟩)

def sends (outcome : Outcome) : Act := .own (.sender 0 ⟨1, 1, 8, none, outcome⟩)

/-- The first batch is sent with its second request. The producer is
destroyed before its callback, and the second batch is requested once. -/
def lastRequests : List Act :=
  packed.map .own++packed.map .own++List.replicate 3 (sends .sent)++
    [sends (.failed true), sends .sent, .destroy 0, .destroying, .destroying]++
    List.replicate 6 (sends .sent)++[sends (.failed false)]

theorem lastRequests_stop :
    (∃ w, Machine.run (step Sys.oneFast) lastRequests (start Sys.oneFast) = some w ∧
      w.sys.prod.stop = true ∧ w.requests.length = 3) ∧
      Machine.Along (step Sys.oneFast) (NoRetry Sys.oneFast) lastRequests (start Sys.oneFast) :=
  ⟨⟨_, rfl, by decide, by decide⟩,
    run_retries_stop Sys.oneFast lastRequests (by decide +kernel)⟩

/-- A sender waits after a failed request when the producer is destroyed, and
makes the next request. -/
def requestsOn : List Act :=
  packed.map .own++List.replicate 3 (sends .sent)++
    [sends (.failed true), .destroy 0, sends .sent]

theorem requestsOn_retries : ¬ ∀ (st : Setup) (acts : List Act),
    Machine.Along (step st) (NoRetry st) acts (start st) := by
  intro h
  have hrun := h Sys.oneFast requestsOn
  revert hrun
  decide +kernel

end Stopping

end VeTls
