import VeTls.Pipeline.Once
import VeTls.Pipeline.Permits

/-!
# The number of attempts

The counter of attempts belongs to the visit of one sender. A batch that the
gate of its key puts back is counted from one again on its next visit. What
a sender has left of the attempts of its batch, and all of them once it has
reported the batch, bounds the attempts made.
-/

set_option autoImplicit false

namespace VeTls

open VeTls.Keys (Addr CStr KeyMap)
open VeTls.Keys.KeyMap (load weight)
open VeTls.Threads (total total_update)

namespace Sender

/-- The send whose next attempt is counted already. -/
def upcoming : Pc → Option Send
  | .gate _ s | .breakerWait _ s | .breakerEnter _ s | .attempt _ s => some s
  | _ => none

def InRange (n : ℕ) (pc : Pc) : Prop := ∀ s, upcoming pc = some s → 1 ≤ s.attempt ∧ s.attempt ≤ n

/-- The attempts of `b` that a sender answers for. -/
def spentOn (n : ℕ) (b : Batch) : Pc → ℕ
  | .gate _ s | .breakerWait _ s | .breakerEnter _ s | .attempt _ s =>
    (s.attempt-1).toNat*hits b s.task
  | .report _ s _ => n*hits b s.task
  | _ => 0

theorem spentOn_le (n : ℕ) (b : Batch) (pc : Pc) (h : InRange n pc) :
    spentOn n b pc ≤ n*handHits b pc := by
  have hrange : ∀ s, upcoming pc = some s → (s.attempt-1).toNat*hits b s.task ≤ n*hits b s.task := by
    intro s hs
    have := h s hs
    apply Nat.mul_le_mul_right
    omega
  cases pc with
  | gate q s | breakerWait q s | breakerEnter q s | attempt q s => exact hrange s rfl
  | report q s sent => exact le_rfl
  | _ => exact Nat.zero_le _

/-- A gate that refuses refuses a first attempt. -/
def PassesAgain (cfg : Config) (i : Input) (p : Producer) : Pc → Prop
  | .gate q s => 1 < s.attempt → (keyBreakerAllow cfg i.now q p && i.tokensAt.isNone) = true
  | _ => True

instance (cfg : Config) (i : Input) (p : Producer) (pc : Pc) :
    Decidable (PassesAgain cfg i p pc) :=
  match pc with
  | .gate q s => inferInstanceAs (Decidable (1 < s.attempt →
      (keyBreakerAllow cfg i.now q p && i.tokensAt.isNone) = true))
  | .top | .popSendQueue _ | .moving _ | .pushing _ | .counting _ | .keyDrop _ | .dropRelease _
  | .stopCheck | .exitPop _ | .exitCheck _ | .requeue _ _ _ | .breakerWait _ _ | .breakerEnter _ _
  | .attempt _ _ | .report _ _ _ | .breakerResult _ _ _ | .keyResult _ _ _ | .release _ _
  | .finish _ | .uncount | .exited => isTrue trivial

/-- What a step adds to the attempts of a batch is answered for. -/
structure Answers (n : ℕ) (pc : Pc) (p : Producer) (r : Pc × Producer) : Prop where
  range : InRange n r.1
  count : ∀ b, r.2.attempts.count b+spentOn n b pc+n*reports b p ≤
    p.attempts.count b+spentOn n b r.1+n*reports b r.2

theorem Answers.idle {n : ℕ} {pc : Pc} {p : Producer} {r : Pc × Producer}
    (hpc : ∀ b, spentOn n b pc = 0) (hr : upcoming r.1 = none)
    (ha : r.2.attempts = p.attempts) (hd : r.2.done = p.done) : Answers n pc p r := by
  constructor
  · intro s hs
    rw [hr] at hs
    cases hs
  · intro b
    rw [ha, hpc b, reports, reports, hd]
    omega

/-- The send goes on with the same attempt. -/
theorem Answers.same {n : ℕ} {pc : Pc} {p : Producer} {r : Pc × Producer} (s s' : Send)
    (hrange : InRange n pc) (hs : upcoming pc = some s) (hs' : upcoming r.1 = some s')
    (ht : s'.task = s.task) (hn : s'.attempt = s.attempt) (ha : r.2.attempts = p.attempts)
    (hd : r.2.done = p.done) : Answers n pc p r := by
  have hspent : ∀ pc s, upcoming pc = some s →
      ∀ b, spentOn n b pc = (s.attempt-1).toNat*hits b s.task := by
    intro pc s h b
    cases pc with
    | gate q x | breakerWait q x | breakerEnter q x | attempt q x =>
      cases h
      rfl
    | _ => cases h
  constructor
  · intro x hx
    rw [hs'] at hx
    cases hx
    rw [hn]
    exact hrange s hs
  · intro b
    rw [hspent pc s hs b, hspent r.1 s' hs' b, ht, hn, ha, reports, reports, hd]

theorem firstSend_answers {n : ℕ} (hn : 0 < n) {pc : Pc} {p : Producer} {r : Pc × Producer}
    (t : SendTask) (now : ℤ) (hpc : ∀ b, spentOn n b pc = 0)
    (hr : upcoming r.1 = some (firstSend t now)) (ha : r.2.attempts = p.attempts)
    (hd : r.2.done = p.done) : Answers n pc p r := by
  constructor
  · intro s hs
    rw [hr] at hs
    cases hs
    refine ⟨le_rfl, ?_⟩
    show (1 : ℤ) ≤ n
    omega
  · intro b
    rw [ha, hpc b, reports, reports, hd]
    omega

theorem gate_answers (cfg : Config) (i : Input) (n : ℕ) (q : Addr) (s : Send) (p : Producer)
    (hrange : InRange n (.gate q s)) (hpass : PassesAgain cfg i p (.gate q s)) :
    Answers n (.gate q s) p (gate cfg i q s p, p) := by
  unfold gate
  dsimp only
  split
  · split
    · exact .same s s hrange rfl rfl rfl rfl rfl rfl
    · exact .same s s hrange rfl rfl rfl rfl rfl rfl
  · rename_i hrefuse
    have hone : s.attempt ≤ 1 := by
      by_contra hx
      exact hrefuse (hpass (by omega))
    refine .idle (fun b => ?_) rfl rfl rfl
    show (s.attempt-1).toNat*hits b s.task = 0
    rw [Int.toNat_of_nonpos (by omega), Nat.zero_mul]

theorem attempt_answers (cfg : Config) (i : Input) (n : ℕ) (hn : cfg.retryMaxAttempts = n)
    (hpos : 0 < n) (q : Option Addr) (s : Send) (p : Producer)
    (hrange : InRange n (.attempt q s)) : Answers n (.attempt q s) p (attempt cfg i q s p) := by
  obtain ⟨hlow, hhigh⟩ := hrange s rfl
  have hle : (s.attempt-1).toNat+1 ≤ n := by omega
  have hcount : ∀ b, (attempted s.task p).attempts.count b = p.attempts.count b+hits b s.task := by
    intro b
    show (p.attempts++[s.task.batch]).count b = _
    rw [List.count_append, List.count_singleton]
    unfold hits
    simp
  have hreport : ∀ sent p', p'.done = p.done →
      (∀ b, p'.attempts.count b ≤ p.attempts.count b+hits b s.task) →
      Answers n (.attempt q s) p (.report q s sent, p') := by
    intro sent p' hd ha
    refine ⟨fun x hx => (nomatch hx), fun b => ?_⟩
    have hb := ha b
    have hmul : ((s.attempt-1).toNat+1)*hits b s.task ≤ n*hits b s.task :=
      Nat.mul_le_mul_right _ hle
    show p'.attempts.count b+(s.attempt-1).toNat*hits b s.task+n*reports b p ≤
      p.attempts.count b+n*hits b s.task+n*reports b p'
    rw [reports, reports, hd]
    rw [Nat.add_mul] at hmul
    omega
  unfold attempt
  split
  · exact hreport false p rfl fun b => Nat.le_add_right _ _
  · exact hreport true _ rfl fun b => (hcount b).le
  · split
    case isTrue hretry =>
      have hmore : s.attempt < n := by
        simp only [mayRetry, Bool.and_eq_true, Bool.not_eq_true', Bool.and_eq_false_iff,
          decide_eq_false_iff_not, hn] at hretry
        rcases hretry.2.1 with hx | hx <;> omega
      constructor
      · intro x hx
        cases q <;> cases hx <;> exact ⟨by simp only; omega, by simp only; omega⟩
      · intro b
        have hspent : spentOn n b (again s q) = (s.attempt-1).toNat*hits b s.task+hits b s.task := by
          have hsucc : (s.attempt+1-1).toNat = (s.attempt-1).toNat+1 := by omega
          cases q <;>
          · show (s.attempt+1-1).toNat*hits b s.task = _
            rw [hsucc, Nat.add_mul, Nat.one_mul]
        rw [hspent, hcount]
        show _+(s.attempt-1).toNat*hits b s.task+n*reports b p ≤ _+n*reports b p
        omega
    case isFalse => exact hreport false _ rfl fun b => (hcount b).le

theorem step_answers (cfg : Config) (i : Input) (n : ℕ) (hn : cfg.retryMaxAttempts = n)
    (hpos : 0 < n) (pc : Pc) (p : Producer) (r : Pc × Producer) (hrange : InRange n pc)
    (hpass : PassesAgain cfg i p pc) (h : step cfg i pc p = some r) : Answers n pc p r := by
  unfold step at h
  split at h
  · cases h
  cases pc with
  | top =>
    obtain rfl := Option.some.inj h
    unfold top
    dsimp only
    split
    · exact .idle (fun _ => rfl) rfl rfl rfl
    · split
      · exact .idle (fun _ => rfl) rfl rfl rfl
      · exact firstSend_answers hpos _ _ (fun _ => rfl) rfl rfl rfl
  | popSendQueue block =>
    simp only [popSendQueue] at h
    split at h
    · obtain rfl := Option.some.inj h
      exact .idle (fun _ => rfl) rfl rfl rfl
    · split at h
      · cases h
      · split at h
        · obtain rfl := Option.some.inj h
          exact .idle (fun _ => rfl) rfl rfl rfl
        · obtain rfl := Option.some.inj h
          exact .idle (fun _ => rfl) rfl rfl rfl
  | moving t =>
    obtain rfl := Option.some.inj h
    refine .idle (fun _ => rfl) ?_ rfl rfl
    dsimp only
    split <;> rfl
  | pushing t =>
    obtain rfl := Option.some.inj h
    refine .idle (fun _ => rfl) ?_ rfl rfl
    unfold pushing
    dsimp only
    split <;> rfl
  | counting t =>
    obtain rfl := Option.some.inj h
    exact firstSend_answers hpos t i.now (fun _ => rfl) rfl rfl rfl
  | keyDrop t =>
    obtain rfl := Option.some.inj h
    refine ⟨fun x hx => (nomatch hx), fun b => ?_⟩
    have hsame : (VeTls.report (taskReport t false) p).attempts = p.attempts := rfl
    dsimp only
    rw [report_task, hsame, Nat.mul_add]
    show _+0+_ ≤ _+0+_
    omega
  | stopCheck =>
    obtain rfl := Option.some.inj h
    unfold stopCheck
    split
    · exact .idle (fun _ => rfl) rfl rfl rfl
    · refine .idle (fun _ => rfl) rfl ?_ ?_
      · unfold idleCleanup
        dsimp only
        split <;> rfl
      · unfold idleCleanup
        dsimp only
        split <;> rfl
  | exitPop pending =>
    obtain rfl := Option.some.inj h
    unfold exitPop
    split <;> exact .idle (fun _ => rfl) rfl rfl rfl
  | exitCheck pending =>
    obtain rfl := Option.some.inj h
    unfold exitCheck
    split
    · refine .idle (fun _ => rfl) rfl ?_ ?_
      · unfold idleCleanup
        dsimp only
        split <;> rfl
      · unfold idleCleanup
        dsimp only
        split <;> rfl
    · exact .idle (fun _ => rfl) rfl rfl rfl
  | gate q s =>
    obtain rfl := Option.some.inj h
    exact gate_answers cfg i n q s p hrange hpass
  | breakerWait q s =>
    dsimp only at h
    split at h
    · cases h
    · obtain rfl := Option.some.inj h
      exact .same s s hrange rfl rfl rfl rfl rfl rfl
  | breakerEnter q s =>
    obtain rfl := Option.some.inj h
    unfold breakerEnter
    split
    · exact .same s { s with entered := true } hrange rfl rfl rfl rfl rfl rfl
    · split
      · exact .same s { s with entered := true, halfOpen := true } hrange rfl rfl rfl rfl rfl rfl
      · exact .same s s hrange rfl rfl rfl rfl rfl rfl
  | attempt q s =>
    obtain rfl := Option.some.inj h
    exact attempt_answers cfg i n hn hpos q s p hrange
  | report q s sent =>
    obtain rfl := Option.some.inj h
    have hup : upcoming (reported s sent q) = none := by cases q <;> rfl
    refine ⟨fun x hx => absurd (hup.symm.trans hx) nofun, fun b => ?_⟩
    have hzero : spentOn n b (reported s sent q) = 0 := by cases q <;> rfl
    dsimp only
    rw [report_task, hzero, Nat.mul_add]
    show _+n*hits b s.task+_ ≤ _+0+_
    have hsame : (VeTls.report (taskReport s.task sent) p).attempts = p.attempts := rfl
    rw [hsame]
    omega
  | breakerResult q s sent =>
    obtain rfl := Option.some.inj h
    obtain ⟨_, _, _, _, ha⟩ := @breakerResult_aside cfg i s sent p
    rw [ha]
    exact .idle (fun _ => rfl) rfl rfl rfl
  | keyResult q t sent =>
    obtain rfl := Option.some.inj h
    unfold keyResult
    split <;> exact .idle (fun _ => rfl) rfl rfl rfl
  | release q t =>
    obtain rfl := Option.some.inj h
    cases q <;> exact .idle (fun _ => rfl) rfl rfl rfl
  | exited => cases h
  | _ =>
    obtain rfl := Option.some.inj h
    exact .idle (fun _ => rfl) rfl rfl rfl

end Sender

theorem Writer.Frame.reports_eq {cfg : Config} {p p' : Producer} (h : Writer.Frame cfg p p')
    (b : Batch) : reports b p' = reports b p := by
  obtain ⟨l, hl, hnone⟩ := h.done
  rw [reports, hl, List.countP_append, reports_none b l hnone, reports, Nat.add_zero]

theorem Worker.Move.reports_le {cfg : Config} {a c : Worker × Producer} (h : Worker.Move cfg a c)
    (b : Batch) : reports b a.2 ≤ reports b c.2 := by
  obtain ⟨l, hl, _⟩ := (h.trade b).done
  rw [reports, reports, hl, List.countP_append]
  exact Nat.le_add_right _ _

namespace Sys

variable {st : Setup}

/-- The attempts of every batch are answered for by its reports and by the
senders. -/
structure Answered (st : Setup) (n : ℕ) (s : Sys) : Prop where
  range : ∀ i, Sender.InRange n (s.senders i)
  count : ∀ b, s.prod.attempts.count b ≤
    n*reports b s.prod+total st.cfg.senderCount s.senders (Sender.spentOn n b)

theorem Answered.keep {n : ℕ} {s s' : Sys} (h : Answered st n s) (hs : s'.senders = s.senders)
    (ha : s'.prod.attempts = s.prod.attempts) (hr : ∀ b, reports b s.prod ≤ reports b s'.prod) :
    Answered st n s' := by
  constructor
  · rw [hs]
    exact h.range
  · intro b
    rw [hs, ha]
    have hmul := Nat.mul_le_mul_left n (hr b)
    have hold := h.count b
    omega

/-- A gate refuses no batch that has been attempted on this visit. -/
def RetriesPass (st : Setup) (s : Sys) : Act → Prop
  | .sender i input => Sender.PassesAgain st.cfg input s.prod (s.senders i)
  | _ => True

instance (st : Setup) (s : Sys) (a : Act) : Decidable (RetriesPass st s a) :=
  match a with
  | .sender i input =>
    inferInstanceAs (Decidable (Sender.PassesAgain st.cfg input s.prod (s.senders i)))
  | .call _ _ | .writer _ _ | .worker _ _ => isTrue trivial

/-- Other threads neither attempt nor take back a report. -/
theorem answered_frame (n : ℕ) (s s' : Sys) (a : Act) (hgood : Good st s) (hi : Answered st n s)
    (ha : asSender a = none) (h : step st s a = some s') : Answered st n s' := by
  refine step_rule (Answered st n) s s' a hgood hi ?_ ?_ ?_ ?_ ?_ h
  · intro t i r _ hc hI hm
    have hf := hm.frame hc.sound
    exact hI.keep rfl hf.attempts fun b => (hf.reports_eq b).ge
  · intro i r _ _ hl
    have hf := hl.frame hgood.sound
    exact hi.keep rfl hf.attempts fun b => (hf.reports_eq b).ge
  · intro t i r _ hc hI hm
    exact hI.keep rfl (hm.frame hc.sound).attempts fun b => hm.reports_le b
  · rintro i r _ _ ⟨j, now, _, rfl⟩
    exact hi.keep rfl rfl fun _ => le_rfl
  · rintro i r _ ⟨input, rfl⟩ _
    cases ha

theorem answered_step (n : ℕ) (hn : st.cfg.retryMaxAttempts = n) (hpos : 0 < n) (s s' : Sys)
    (a : Act) (hgood : Good st s) (hi : Answered st n s) (ha : RetriesPass st s a)
    (h : step st s a = some s') : Answered st n s' := by
  cases a with
  | sender i input =>
    simp only [step] at h
    split at h
    · rename_i hlt
      obtain ⟨r, hr, rfl⟩ := Option.map_eq_some_iff.mp h
      have hans := Sender.step_answers st.cfg input n hn hpos (s.senders i) s.prod r (hi.range i) ha hr
      refine ⟨forall_update _ s.senders i r.1 hi.range hans.range, fun b => ?_⟩
      have hup := total_update st.cfg.senderCount i hlt s.senders (Sender.spentOn n b) r.1
      have hold := hi.count b
      have hnew := hans.count b
      show r.2.attempts.count b ≤
        n*reports b r.2+total _ (Function.update s.senders i r.1) (Sender.spentOn n b)
      omega
    · cases h
  | call i c | writer i input | worker i input => exact answered_frame n s s' _ hgood hi rfl h

theorem answered_start (st : Setup) (n : ℕ) : Answered st n (start st) := by
  refine ⟨fun i x hx => ?_, fun b => Nat.zero_le _⟩
  simp only [start, Sender.start] at hx
  split at hx <;> cases hx

theorem total_spentOn_le (n : ℕ) (s : Sys) (h : Answered st n s) (b : Batch) :
    total st.cfg.senderCount s.senders (Sender.spentOn n b) ≤
      n*total st.cfg.senderCount s.senders (Sender.handHits b) := by
  unfold total
  rw [Finset.mul_sum]
  exact Finset.sum_le_sum fun i _ => Sender.spentOn_le n b _ (h.range i)

/-- In every run in which a gate refuses no batch that the sender has
attempted already, no batch is attempted more often than the retry policy
says. -/
theorem run_attempts_bounded (st : Setup) (acts : List Act) (s : Sys)
    (hpos : 0 < st.cfg.retryMaxAttempts) (hc : Along st (RetriesPass st) acts (start st))
    (h : run st acts (start st) = some s) (b : Batch) :
    (s.prod.attempts.count b : ℤ) ≤ st.cfg.retryMaxAttempts := by
  obtain ⟨n, hn⟩ := Int.eq_ofNat_of_zero_le hpos.le
  have hpos' : 0 < n := by omega
  obtain ⟨_, ha, hnum, hans⟩ := run_rule
    (fun s => Accounts st s ∧ Numbered s.prod ∧ Answered st n s) (RetriesPass st)
    (fun s a s' hgood hi hpass hs => ⟨accounts_step s s' a hgood hi.1 hs,
      numbered_step s s' a hgood hi.2.1 hs, answered_step n hn hpos' s s' a hgood hi.2.2 hpass hs⟩)
    acts (start st) s (good_start st) ⟨accounts_start st, numbered_start st, answered_start st n⟩
    hc h
  have htaken := ha.taken b
  have hone := List.nodup_iff_count_le_one.mp hnum.taken_nodup b
  have hspent := total_spentOn_le n s hans b
  have hcount := hans.count b
  have hplaces : reports b s.prod+total st.cfg.senderCount s.senders (Sender.handHits b) ≤ 1 := by
    omega
  have hmul := Nat.mul_le_mul_left n hplaces
  rw [Nat.mul_add, Nat.mul_one] at hmul
  omega

def twoTries : Setup :=
  ⟨{ keyQueueBucketCount := 1, retryMaxAttempts := 2, keyRateLimitRps := 1 }, 1, 0⟩

def fails (now : ℤ) : Act := .sender 0 ⟨now, now, 8, none, .failed true⟩

/-- A log of a key is packed, and the first attempt of its batch fails. -/
def firstTry : List Act :=
  [.call 0 (.addKv keyLog [75] true), .writer 0 ⟨1, 1, 9⟩]++
    List.replicate 8 (.worker 0 ⟨1, 1, [8], none, none⟩)++List.replicate 9 (fails 1)

/-- The second attempt fails as well and is the last one. -/
theorem firstTry_attempts_bounded :
    ∃ s, run twoTries (firstTry++[fails 2, fails 2]) (start twoTries) = some s ∧
      s.prod.attempts.length = 2 ∧ ∀ b, (s.prod.attempts.count b : ℤ) ≤ 2 :=
  ⟨_, rfl, rfl, run_attempts_bounded twoTries (firstTry++[fails 2, fails 2]) _ (by decide)
    (by decide +kernel) rfl⟩

/-- The bucket of the key has no token for the second attempt. The batch goes
back to its queue, and two more attempts are made on the next visit. -/
theorem requeued_attempts_exceed : ¬ ∀ (st : Setup) (acts : List Act) (s : Sys),
    0 < st.cfg.retryMaxAttempts → run st acts (start st) = some s →
      ∀ b, (s.prod.attempts.count b : ℤ) ≤ st.cfg.retryMaxAttempts := by
  intro h
  have hthree : ∃ s, run twoTries (firstTry++[.sender 0 ⟨201, 201, 8, some 1001, .sent⟩, fails 201]++
      List.replicate 7 (fails 1001)) (start twoTries) = some s ∧
      ∃ b, s.prod.attempts = [b, b, b] := ⟨_, rfl, _, rfl⟩
  obtain ⟨s, hs, b, hb⟩ := hthree
  have hle := h twoTries _ s (by decide) hs b
  rw [hb] at hle
  simp only [List.count_cons_self, List.count_nil] at hle
  exact absurd hle (by decide)

end Sys

end VeTls
