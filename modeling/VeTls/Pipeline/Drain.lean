import VeTls.Pipeline.Custody
import VeTls.Pipeline.Reclaim

/-!
# The drain test

The test looks at the queues, at the count of workers in a round, at the
count of fast senders and at the flags of the key queues, all at one moment.
A sender that has popped a task from the send queue, and has neither counted
it nor put it in the queue of its key, is in none of these.
-/

set_option autoImplicit false

namespace VeTls.Sys

open VeTls.Keys (Addr CStr KeyMap)
open VeTls.Keys.KeyMap (Held ring live load weight)
open VeTls.Threads (total)

variable {st : Setup}

/-- What the drain test found, list by list. -/
structure Drained (st : Setup) (p : Producer) : Prop where
  queue : p.queue = []
  ingressQueue : p.ingressQueue = []
  workers : p.workerFlushingCount = 0
  sealedList : p.sealedList = []
  sendQueue : p.sendQueue = []
  fast : p.fastInflight = 0
  default : builderLogs p.defaultBuilder = false
  keys : ∀ q ∈ live st.cfg.toKeyConfig p.keys, p.keys.tasks q = [] ∧
    (p.keys.info q).inflight = false ∧ builderLogs (p.keys.info q).builder = false

theorem isDrainedLocked_drained (p : Producer) (h : isDrainedLocked st.cfg p = true) :
    Drained st p := by
  simp only [isDrainedLocked, Bool.and_eq_true, List.isEmpty_iff, decide_eq_true_eq,
    Bool.not_eq_true', List.all_eq_true] at h
  obtain ⟨⟨⟨⟨⟨⟨⟨h₁, h₂⟩, h₃⟩, h₄⟩, h₅⟩, h₆⟩, h₇⟩, h₈⟩ := h
  exact ⟨h₁, h₂, h₃, h₄, h₅, h₆, h₇, fun q hq => ⟨(h₈ q hq).1.1, (h₈ q hq).1.2, (h₈ q hq).2⟩⟩

/-- The callback of the batch has been called for all its logs. -/
def Reported (p : Producer) (b : Batch) : Prop := ∃ r ∈ p.done, r.batch = some b ∧ r.ids = b.ids

theorem reported_of_reports {p : Producer} (hf : ∀ r ∈ p.done, r.Faithful) (b : Batch)
    (h : 0 < reports b p) : Reported p b := by
  obtain ⟨r, hr, hb⟩ := List.countP_pos_iff.mp h
  have hb' : r.batch = some b := of_decide_eq_true hb
  exact ⟨r, hr, hb', (hf r hr b hb').2.2.2⟩

/-- No thread has a batch whose callback is still to come, and no builder
went with its key queue. -/
structure Settled (st : Setup) (s : Sys) : Prop where
  workers : ∀ i < st.cfg.workerCount, Worker.jobs st.cfg (s.workers i) = []
  senders : ∀ i < st.cfg.senderCount, Sender.hand (s.senders i) = none
  taken : ∀ b ∈ s.prod.taken, Reported s.prod b
  freed : ∀ i ∈ s.prod.keys.freed, NoLogs i.builder

theorem Drained.jobs {s : Sys} (hd : Drained st s.prod) (hgood : Good st s)
    (ha : Accounts st s) (i : ℕ) (hi : i < st.cfg.workerCount) :
    Worker.jobs st.cfg (s.workers i) = [] := by
  have hz := Threads.eq_zero_of_total st.cfg.workerCount i hi s.workers
    (fun w => (Worker.flushing w.pc).toNat) (by rw [← ha.flushing]; exact hd.workers)
  have hok := hgood.workers i
  unfold Worker.Ok at hok
  cases hpc : (s.workers i).pc <;>
    simp_all [Worker.flushing, Worker.jobs, Worker.job]

/-- A sender outside the window is seen by the test if it has a task. -/
theorem Drained.hand {s : Sys} (hd : Drained st s.prod) (hgood : Good st s)
    (ha : Accounts st s) (i : ℕ) (hi : i < st.cfg.senderCount)
    (hw : Sender.window (s.senders i) = none) : Sender.hand (s.senders i) = none := by
  have hz := Threads.eq_zero_of_total st.cfg.senderCount i hi s.senders
    (fun pc => (Sender.counted pc).toNat) (by rw [← ha.counted]; exact hd.fast)
  have hq : Sender.queue (s.senders i) = none := by
    cases hq : Sender.queue (s.senders i) with
    | none => rfl
    | some q =>
      obtain ⟨hlive, hin⟩ := (hgood.held q).mpr ⟨i, hi, hq⟩
      have hf := (hd.keys q hlive).2.1
      simp [hin] at hf
  rw [Sender.hand, hw, Option.none_or]
  cases hpc : s.senders i with
  | attempt q x => cases q <;> simp_all [Sender.counted, Sender.queue]
  | report q x sent => cases q <;> simp_all [Sender.counted, Sender.queue]
  | _ => simp_all [Sender.queue, Sender.sending]

theorem Drained.settled {s : Sys} (hd : Drained st s.prod) (hgood : Good st s)
    (ha : Accounts st s) (hw : ∀ i < st.cfg.senderCount, Sender.window (s.senders i) = none)
    (hf : ∀ i ∈ s.prod.keys.freed, NoLogs i.builder) : Settled st s := by
  have hjobs := fun i hi => hd.jobs hgood ha i hi
  have hhand := fun i hi => hd.hand hgood ha i hi (hw i hi)
  refine ⟨hjobs, hhand, fun b hb => ?_, hf⟩
  have hworkers : total st.cfg.workerCount s.workers
      (fun w => (Worker.jobs st.cfg w).count b) = 0 :=
    Finset.sum_eq_zero fun i hi => by simp [hjobs i (Finset.mem_range.mp hi)]
  have hsenders : total st.cfg.senderCount s.senders (Sender.handHits b) = 0 :=
    Finset.sum_eq_zero fun i hi => by
      rw [Sender.handHits, hhand i (Finset.mem_range.mp hi)]; rfl
  have hload : load st.cfg.toKeyConfig (hits b) s.prod.keys = 0 := by
    simp only [load, List.sum_eq_zero_iff, List.forall_mem_map]
    intro q hq
    rw [(hd.keys q hq).1]
    rfl
  have hcount := ha.taken b
  rw [hworkers, hsenders, hload, hd.sendQueue] at hcount
  have hpos := List.count_pos_iff.mpr hb
  exact reported_of_reports ha.faithful b (by simpa [weight, hcount] using hpos)

/-- In every state a run reaches, a drain test that succeeds means that all
batches taken have had their callback exactly if no sender is in the window
between the send queue and its own count or the queue of the key. -/
theorem drained_settled_iff (st : Setup) (acts : List Act) (s : Sys)
    (h : run st acts (start st) = some s) (hd : isDrainedLocked st.cfg s.prod = true) :
    Settled st s ↔ (∀ i < st.cfg.senderCount, Sender.window (s.senders i) = none) ∧
      ∀ i ∈ s.prod.keys.freed, NoLogs i.builder := by
  obtain ⟨hgood, ha⟩ := run_rule (Accounts st) (fun _ _ => True)
    (fun s a s' hgood hi _ hs => accounts_step s s' a hgood hi hs) acts (start st) s
    (good_start st) (accounts_start st) (along_forall acts _ fun _ _ => trivial) h
  constructor
  · intro hs
    refine ⟨fun i hi => ?_, hs.freed⟩
    have hh := hs.senders i hi
    rw [Sender.hand, Option.or_eq_none_iff] at hh
    exact hh.1
  · rintro ⟨hw, hf⟩
    exact (isDrainedLocked_drained s.prod hd).settled hgood ha hw hf

def oneFast : Setup := ⟨{ keyQueueBucketCount := 1 }, 1, 0⟩

/-- A raw log is added and packed, and a sender pops it. -/
def popOne : List Act :=
  [.call 0 (.addRaw ⟨5, 0, false, [1, 2, 3], true⟩), .writer 0 ⟨1, 1, 9⟩, .writer 0 ⟨1, 1, 9⟩]++
    List.replicate 7 (.worker 0 ⟨1, 1, [8], none, none⟩)++[.sender 0 ⟨1, 1, 8, none, .sent⟩]

def sentOne : List Act := popOne++List.replicate 6 (.sender 0 ⟨1, 1, 8, none, .sent⟩)

theorem sentOne_drained_settled :
    ∃ s, run oneFast sentOne (start oneFast) = some s ∧
      isDrainedLocked oneFast.cfg s.prod = true ∧ s.prod.taken.length = 1 ∧ Settled oneFast s :=
  ⟨_, rfl, by decide, by decide, (drained_settled_iff oneFast sentOne _ rfl (by decide)).mpr
    ⟨by decide, by decide⟩⟩

/-- The test succeeds while the sender has the task. -/
theorem popOne_drained_unsettled : ¬ ∀ (st : Setup) (acts : List Act) (s : Sys),
    run st acts (start st) = some s → isDrainedLocked st.cfg s.prod = true → Settled st s := by
  intro h
  have hhand : ∃ s, run oneFast popOne (start oneFast) = some s ∧
      isDrainedLocked oneFast.cfg s.prod = true ∧ Sender.hand (s.senders 0) ≠ none :=
    ⟨_, rfl, by decide, by decide⟩
  obtain ⟨s, hs, hd, hn⟩ := hhand
  exact hn ((h oneFast popOne s hs hd).senders 0 (by decide))

end VeTls.Sys
