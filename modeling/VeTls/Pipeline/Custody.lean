import VeTls.Keys.Load
import VeTls.Pipeline.Runs

/-!
# Who has a batch

A batch a worker has taken is with a worker, in the send queue, in the queue
of its key or with a sender until its callback has been called, and it is in
one place at a time: the number of times it was taken is the number of
places it is in plus the number of its reports. The two counters the drain
test reads are the numbers of workers in a round and of fast senders with a
task.
-/

set_option autoImplicit false

namespace VeTls

open VeTls.Keys (Addr CStr KeyMap)
open VeTls.Keys.KeyMap (Keeps Effect Sound Held ring load weight load_change load_same)
open VeTls.Threads (total total_update total_same)

/-- The task of a sender that has not been reported. -/
def Sender.hand (pc : Sender.Pc) : Option SendTask := (window pc).or (sending pc)

/-- A report for a batch says what the batch says of itself. -/
def Report.Faithful (r : Report) : Prop :=
  ∀ b, r.batch = some b →
    r.startId = b.startId ∧ r.endId = b.endId ∧ r.bytes = b.bytes ∧ r.ids = b.ids

def reports (b : Batch) (p : Producer) : ℕ := p.done.countP fun r => decide (r.batch = some b)

def hits (b : Batch) (t : SendTask) : ℕ := if t.batch = b then 1 else 0

def Sender.handHits (b : Batch) (pc : Sender.Pc) : ℕ := ((hand pc).map (hits b)).getD 0

theorem reports_append (b : Batch) (p : Producer) (l : List Report) :
    reports b { p with done := p.done++l } =
      reports b p+l.countP fun r => decide (r.batch = some b) := by
  rw [reports, List.countP_append, reports]

theorem reports_none (b : Batch) (l : List Report) (h : ∀ r ∈ l, r.batch = none) :
    (l.countP fun r => decide (r.batch = some b)) = 0 := by
  rw [List.countP_eq_zero]
  intro r hr
  simp [h r hr]

theorem report_task (b : Batch) (t : SendTask) (sent : Bool) (p : Producer) :
    reports b (report (Sender.taskReport t sent) p) = reports b p+hits b t := by
  rw [report, reports_append, List.countP_singleton]
  simp [Sender.taskReport, hits]

@[simp] theorem report_sendQueue (r : Report) (p : Producer) :
    (report r p).sendQueue = p.sendQueue := rfl

@[simp] theorem report_keys (r : Report) (p : Producer) : (report r p).keys = p.keys := rfl

theorem taskReport_faithful (t : SendTask) (sent : Bool) : (Sender.taskReport t sent).Faithful := by
  intro b hb
  obtain rfl := Option.some.inj hb
  exact ⟨rfl, rfl, rfl, rfl⟩

theorem faithful_none (r : Report) (h : r.batch = none) : r.Faithful := by
  intro b hb
  simp [h] at hb

/-- What a move does to the places of the batch `b` a worker knows of. -/
structure Worker.Trade (cfg : Config) (b : Batch) (x y : Worker × Producer) : Prop where
  sendQueue : y.2.sendQueue = x.2.sendQueue
  done : ∃ l, y.2.done = x.2.done++l ∧ ∀ r ∈ l, r.Faithful
  count : y.2.taken.count b+(Worker.jobs cfg x.1).count b+reports b x.2 =
    x.2.taken.count b+(Worker.jobs cfg y.1).count b+reports b y.2

theorem Worker.Trade.still {cfg : Config} {b : Batch} {x y : Worker × Producer}
    (hj : Worker.jobs cfg y.1 = Worker.jobs cfg x.1) (hs : y.2.sendQueue = x.2.sendQueue)
    (hd : y.2.done = x.2.done) (ht : y.2.taken = x.2.taken) : Worker.Trade cfg b x y :=
  ⟨hs, ⟨[], by simp [hd], by simp⟩, by rw [hj, ht, reports, reports, hd]⟩

theorem done_jobs (cfg : Config) (j : Job) (w : Worker) (hj : Worker.job w.pc = some j) :
    Worker.jobs cfg w = j.task.batch::Worker.jobs cfg (Worker.done j w) := by
  have hd : Worker.job (Worker.done j w).pc = none ∧
      (Worker.done j w).sealedRest = w.sealedRest := by
    unfold Worker.done
    split <;> exact ⟨rfl, rfl⟩
  simp [Worker.jobs, hj, hd.1, hd.2]

/-- Another place in the program with the same job, or without one. -/
theorem jobs_at (cfg : Config) (w : Worker) (pc : Worker.Pc)
    (h : Worker.job pc = Worker.job w.pc) : Worker.jobs cfg { w with pc := pc } =
      Worker.jobs cfg w := by
  simp only [Worker.jobs, h]

theorem Worker.Move.trade {cfg : Config} (b : Batch) {x y : Worker × Producer}
    (h : Worker.Move cfg x y) : Worker.Trade cfg b x y := by
  cases h with
  | idle w w' p p' hq hsame =>
    obtain ⟨f, n, k, l, _, hl, rfl⟩ := hq
    refine ⟨rfl, ⟨l, rfl, fun r hr => faithful_none r (hl r hr)⟩, ?_⟩
    have hr := reports_append b p l
    rw [reports_none b l hl] at hr
    simp only [hsame.jobs, reports] at hr ⊢
    omega
  | keyed w p m hk => exact .still rfl rfl rfl rfl
  | skip w p t rest hi he => exact .still rfl rfl rfl rfl
  | refuse w p t rest hi =>
    refine ⟨rfl, ⟨_, rfl, ?_⟩, ?_⟩
    · intro r hr
      rw [List.mem_singleton.mp hr]
      exact faithful_none _ rfl
    · rw [Worker.dropRange, report, reports_append, reports_none b _ (by simp)]
      rfl
  | merge w p p' t rest old b' hi hf he =>
    obtain ⟨d, m, l, n, f, rfl⟩ := hf.frame
    exact .still rfl rfl rfl rfl
  | begin w p hf hr =>
    have hj : Worker.jobs cfg w = [] := by
      cases hpc : w.pc <;> simp_all [Worker.flushing, Worker.jobs, Worker.job]
    exact .still hj.symm rfl rfl rfl
  | sealUp w p p' b' hf =>
    obtain ⟨d, m, l, n, f, rfl⟩ := hf.frame
    exact .still rfl rfl rfl rfl
  | take p =>
    refine ⟨rfl, ⟨[], by simp [Worker.takeSealed], by simp⟩, ?_⟩
    simp only [Worker.takeSealed, Worker.jobs, Worker.job, List.count_append, reports,
      Option.toList_none, List.map_nil, List.nil_append, List.count_nil]
    omega
  | rawPop w p item rest hpc hi =>
    refine ⟨rfl, ⟨[], by simp, by simp⟩, ?_⟩
    have hj : Worker.jobs cfg { w with pc := .prepare ⟨rawToSendTask item, none⟩ } =
        Worker.rawBatch item::Worker.jobs cfg w := by
      simp [Worker.jobs, Worker.job, hpc, SendTask.batch, rawToSendTask, Worker.rawBatch]
    simp only [hj, List.count_append, List.count_cons, List.count_nil, reports]
    omega
  | scratchReserve w w' p bytes hsame hsp => exact .still hsame.jobs rfl rfl rfl
  | scratchRelease w w' p bytes hsame => exact .still hsame.jobs rfl rfl rfl
  | sendReserve w p j now hpc hsp =>
    refine .still (jobs_at cfg w _ ?_) rfl rfl rfl
    rcases hpc with hpc | ⟨d, hpc⟩ <;> (rw [hpc]; rfl)
  | unreserve w p j hpc => exact .still (jobs_at cfg w _ (by rw [hpc]; rfl)) rfl rfl rfl
  | drop w p j hpc =>
    refine ⟨rfl, ⟨_, rfl, ?_⟩, ?_⟩
    · intro r hr
      rw [List.mem_singleton.mp hr]
      exact taskReport_faithful j.task false
    · have hr : reports b (Worker.dropTask j.task p) = reports b p+hits b j.task :=
        report_task b j.task false p
      have hc : (Worker.jobs cfg w).count b =
          (Worker.jobs cfg (Worker.done j w)).count b+hits b j.task := by
        rw [done_jobs cfg j w (by rw [hpc]; rfl), List.count_cons]
        simp [hits]
      rw [hr, hc]
      simp only [Worker.dropTask, report]
      omega
  | release w p bytes hpc =>
    refine .still ?_ rfl rfl rfl
    rw [(Worker.next_same w).jobs]
    exact jobs_at cfg w _ (by rw [hpc]; rfl)
  | finish w p hpc => exact .still (jobs_at cfg w _ (by rw [hpc]; rfl)) rfl rfl rfl

/-- The number a round adds to the count, before and after a move. -/
theorem Worker.Move.flushing {cfg : Config} {a b : Worker × Producer} (h : Worker.Move cfg a b)
    (hle : (Worker.flushing a.1.pc).toNat ≤ a.2.workerFlushingCount) :
    b.2.workerFlushingCount+(Worker.flushing a.1.pc).toNat =
      a.2.workerFlushingCount+(Worker.flushing b.1.pc).toNat := by
  cases h with
  | idle w w' p p' hq hsame =>
    obtain ⟨f, n, k, l, _, _, rfl⟩ := hq
    rw [hsame.flushing]
  | merge w p p' t rest old b hin hfill hext =>
    obtain ⟨d, m, l, n, f, rfl⟩ := hfill.frame
    rfl
  | sealUp w p p' b hfill =>
    obtain ⟨d, m, l, n, f, rfl⟩ := hfill.frame
    rfl
  | take p => rfl
  | rawPop w p item rest hpc hin =>
    rw [hpc]
    rfl
  | keyed w p m hk => rfl
  | skip w p t rest hin he => rfl
  | refuse w p t rest hin => rfl
  | begin w p hf hr =>
    rw [hf]
    rfl
  | scratchReserve w w' p bytes hsame hsp => rw [hsame.flushing]
  | scratchRelease w w' p bytes hsame =>
    rw [hsame.flushing]
    rfl
  | sendReserve w p j now hpc hsp => rcases hpc with hpc | ⟨d, hpc⟩ <;> (rw [hpc]; rfl)
  | unreserve w p j hpc =>
    rw [hpc]
    rfl
  | drop w p j hpc =>
    have hd : Worker.flushing (Worker.done j w).pc = true := by
      unfold Worker.done
      split <;> rfl
    rw [hpc, hd]
    rfl
  | release w p bytes hpc =>
    rw [(@Worker.next_same cfg w).flushing, hpc]
    rfl
  | finish w p hpc =>
    rw [hpc] at hle ⊢
    exact Nat.sub_add_cancel hle

theorem Sender.Move.counted {cfg : Config} {a b : Sender.Pc × Producer} (h : Sender.Move cfg a b)
    (hle : (Sender.counted a.1).toNat ≤ a.2.fastInflight) :
    b.2.fastInflight+(Sender.counted a.1).toNat = a.2.fastInflight+(Sender.counted b.1).toNat := by
  cases h with
  | idle pc pc' p p' ha hsame =>
    obtain ⟨_, _, _, _, rfl⟩ := ha
    rw [hsame.counted]
  | keyed pc pc' p m hk hsame => rw [hsame.counted]
  | take p q t rest now m hfree hring he => rfl
  | pop pc p t rest hpop hq => rcases hpop with ⟨b, rfl⟩ | ⟨b, rfl⟩ <;> rfl
  | move p t =>
    dsimp only
    split <;> rfl
  | put p t m he => rfl
  | count p t now => rfl
  | drop p t => rfl
  | release pc pc' p t hsame =>
    rw [hsame.counted]
    rfl
  | requeue p q t next m he => rfl
  | attempt pc' p q x hsame =>
    rw [hsame.counted]
    rfl
  | report p q x sent => cases q <;> rfl
  | finish p q m gone he hg => rfl
  | uncount p => exact Nat.sub_add_cancel hle
  | cleanup pc pc' p next m gone hsame he hg => rw [hsame.counted]
  | commit p => rfl
  | exitFast p block hf => rfl

theorem Sender.Move.taken {cfg : Config} {a b : Sender.Pc × Producer} (h : Sender.Move cfg a b) :
    b.2.taken = a.2.taken ∧ b.2.workerFlushingCount = a.2.workerFlushingCount := by
  cases h with
  | idle pc pc' p p' ha hsame =>
    obtain ⟨_, _, _, _, rfl⟩ := ha
    exact ⟨rfl, rfl⟩
  | _ => exact ⟨rfl, rfl⟩

theorem Sender.Same.handHits {pc pc' : Sender.Pc} (h : Sender.Same pc pc') (b : Batch) :
    Sender.handHits b pc' = Sender.handHits b pc := by
  rw [Sender.handHits, Sender.handHits, Sender.hand, Sender.hand, h.window, h.sending]

/-- What a sender moves of a batch stays in sight. -/
structure Sender.Trade (cfg : Config) (b : Batch) (x y : Sender.Pc × Producer) : Prop where
  done : ∃ l, y.2.done = x.2.done++l ∧ ∀ r ∈ l, r.Faithful
  count : weight (hits b) y.2.sendQueue+load cfg.toKeyConfig (hits b) y.2.keys+
      Sender.handHits b y.1+reports b y.2 =
    weight (hits b) x.2.sendQueue+load cfg.toKeyConfig (hits b) x.2.keys+
      Sender.handHits b x.1+reports b x.2

theorem Sender.Trade.still {cfg : Config} {b : Batch} {x y : Sender.Pc × Producer}
    (hd : y.2.done = x.2.done)
    (hc : weight (hits b) y.2.sendQueue+load cfg.toKeyConfig (hits b) y.2.keys+
        Sender.handHits b y.1 =
      weight (hits b) x.2.sendQueue+load cfg.toKeyConfig (hits b) x.2.keys+
        Sender.handHits b x.1) : Sender.Trade cfg b x y :=
  ⟨⟨[], by simp [hd], by simp⟩, by rw [hc, reports, reports, hd]⟩

theorem Sender.Move.trade {cfg : Config} (b : Batch) {x y : Sender.Pc × Producer}
    (h : Sender.Move cfg x y) (hs : Sound cfg.toKeyConfig x.2.keys) :
    Sender.Trade cfg b x y := by
  have hh := hs.hashed
  cases h with
  | idle pc pc' p p' ha hsame =>
    obtain ⟨_, _, _, _, rfl⟩ := ha
    exact .still rfl (by rw [hsame.handHits])
  | keyed pc pc' p m hk hsame =>
    exact .still rfl (by rw [hsame.handHits, load_same hh hk.sound.hashed (hits b) hk.ring])
  | take p q t rest now m hfree hring he =>
    have hload := load_change hh he.sound.hashed (hits b) _ (fun _ => rest) he.ring
    rw [hring] at hload
    refine .still rfl ?_
    simp only [weight, List.map_cons, List.sum_cons, Sender.handHits, Sender.hand, Sender.window,
      Sender.sending, Sender.firstSend, Option.or_some, Option.or_none,
      Option.map_some, Option.map_none, Option.getD_some, Option.getD_none] at hload ⊢
    omega
  | pop pc p t rest hpop hq =>
    have hz : Sender.handHits b pc = 0 := by
      rcases hpop with ⟨x, rfl⟩ | ⟨x, rfl⟩ <;> rfl
    have hn : Sender.handHits b (.moving t) = hits b t := rfl
    refine .still rfl ?_
    simp only [hz, hn, hq, weight, List.map_cons, List.sum_cons]
    omega
  | move p t =>
    refine .still rfl ?_
    dsimp only
    split <;> rfl
  | put p t m he =>
    have hload := load_change hh he.sound.hashed (hits b) _ (fun l => l++[t]) he.ring
    have hz : Sender.handHits b .top = 0 := rfl
    have hn : Sender.handHits b (.pushing t) = hits b t := rfl
    refine .still rfl ?_
    simp only [hz, hn, weight, List.map_append, List.map_cons, List.map_nil, List.sum_append,
      List.sum_cons, List.sum_nil] at hload ⊢
    omega
  | count p t now => exact .still rfl rfl
  | drop p t =>
    have hz : Sender.handHits b (.dropRelease t) = 0 := rfl
    have hn : Sender.handHits b (.keyDrop t) = hits b t := rfl
    refine ⟨⟨_, rfl, fun r hr => ?_⟩, ?_⟩
    · rw [List.mem_singleton.mp hr]
      exact taskReport_faithful t false
    · dsimp only
      rw [report_task, hz, hn, report_sendQueue, report_keys]
      omega
  | release pc pc' p t hsame => exact .still rfl (by rw [hsame.handHits]; rfl)
  | requeue p q t next m he =>
    have hload := load_change hh he.sound.hashed (hits b) _ (fun l => t::l) he.ring
    have hz : Sender.handHits b .top = 0 := rfl
    have hn : Sender.handHits b (.requeue q t next) = hits b t := rfl
    refine .still rfl ?_
    simp only [hz, hn, weight, List.map_cons, List.sum_cons] at hload ⊢
    omega
  | attempt pc' p q x hsame => exact .still rfl (by rw [hsame.handHits]; rfl)
  | report p q x sent =>
    have hz : Sender.handHits b (Sender.reported x sent q) = 0 := by cases q <;> rfl
    have hn : Sender.handHits b (.report q x sent) = hits b x.task := rfl
    refine ⟨⟨_, rfl, fun r hr => ?_⟩, ?_⟩
    · rw [List.mem_singleton.mp hr]
      exact taskReport_faithful x.task sent
    · dsimp only
      rw [report_task, hz, hn, report_sendQueue, report_keys]
      omega
  | finish p q m gone he hg =>
    exact .still rfl (by rw [load_same hh he.sound.hashed (hits b) he.ring]; rfl)
  | uncount p => exact .still rfl rfl
  | cleanup pc pc' p next m gone hsame he hg =>
    exact .still rfl (by rw [hsame.handHits, load_same hh he.sound.hashed (hits b) he.ring])
  | commit p => exact .still rfl rfl
  | exitFast p block hf => exact .still rfl rfl

namespace Sys

variable {st : Setup}

structure Accounts (st : Setup) (s : Sys) : Prop where
  taken : ∀ b, s.prod.taken.count b =
    total st.cfg.workerCount s.workers (fun w => (Worker.jobs st.cfg w).count b)+
      weight (hits b) s.prod.sendQueue+load st.cfg.toKeyConfig (hits b) s.prod.keys+
      total st.cfg.senderCount s.senders (Sender.handHits b)+reports b s.prod
  faithful : ∀ r ∈ s.prod.done, r.Faithful
  flushing : s.prod.workerFlushingCount =
    total st.cfg.workerCount s.workers (fun w => (Worker.flushing w.pc).toNat)
  counted : s.prod.fastInflight =
    total st.cfg.senderCount s.senders (fun pc => (Sender.counted pc).toNat)

/-- New reports that are faithful leave all reports faithful. -/
theorem faithful_append {p p' : Producer} (h : ∀ r ∈ p.done, r.Faithful)
    (hd : ∃ l, p'.done = p.done++l ∧ ∀ r ∈ l, r.Faithful) : ∀ r ∈ p'.done, r.Faithful := by
  obtain ⟨l, hl, hf⟩ := hd
  intro r hr
  rw [hl] at hr
  rcases List.mem_append.mp hr with hr | hr
  · exact h r hr
  · exact hf r hr

theorem accounts_writer {s : Sys} (h : Accounts st s) (hc : Core st s) (i : ℕ)
    (r : Writer × Producer) (hf : Writer.Frame st.cfg s.prod r.2) :
    Accounts st (s.setWriter i r) := by
  obtain ⟨l, hl, hnone⟩ := hf.done
  apply Accounts.mk
  · intro b
    have hrep : reports b r.2 = reports b s.prod := by
      rw [reports, hl, List.countP_append, reports_none b l hnone, reports, Nat.add_zero]
    show r.2.taken.count b = _+weight (hits b) r.2.sendQueue+load _ (hits b) r.2.keys+_+reports b r.2
    rw [hf.taken, hf.sendQueue, hrep,
      load_same hc.sound.hashed hf.sound.hashed (hits b) hf.ring]
    exact h.taken b
  · exact faithful_append h.faithful ⟨l, hl, fun x hx => faithful_none x (hnone x hx)⟩
  · exact hf.workerFlushingCount.trans h.flushing
  · exact hf.fastInflight.trans h.counted

theorem accounts_work {s : Sys} (h : Accounts st s) (hc : Core st s) (i : ℕ)
    (hi : i < st.cfg.workerCount) (r : Worker × Producer)
    (hm : Worker.Move st.cfg (s.workers i, s.prod) r) : Accounts st (s.setWorker i r) := by
  have hf := hm.frame hc.sound
  have hle := Threads.le_total st.cfg.workerCount i hi s.workers
    (fun w => (Worker.flushing w.pc).toNat)
  have hup := total_update st.cfg.workerCount i hi s.workers
    (fun w => (Worker.flushing w.pc).toNat) r.1
  have hcount := hm.flushing (by rw [h.flushing]; exact hle)
  dsimp only at hcount
  have hflush := h.flushing
  apply Accounts.mk
  · intro b
    obtain ⟨hq, _, htrade⟩ := hm.trade b
    have hjobs := total_update st.cfg.workerCount i hi s.workers
      (fun w => (Worker.jobs st.cfg w).count b) r.1
    have hload := load_same hc.sound.hashed hf.sound.hashed (hits b) hf.ring
    have htaken := h.taken b
    have hsend : weight (hits b) r.2.sendQueue = weight (hits b) s.prod.sendQueue := by rw [hq]
    show r.2.taken.count b = total _ (Function.update s.workers i r.1) _+
      weight (hits b) r.2.sendQueue+load _ (hits b) r.2.keys+
      total st.cfg.senderCount s.senders (Sender.handHits b)+reports b r.2
    dsimp only at htrade hjobs
    omega
  · exact faithful_append h.faithful (hm.trade ⟨[], false, 0, [], 0, 0, 0⟩).done
  · show r.2.workerFlushingCount = total _ (Function.update s.workers i r.1) _
    omega
  · exact hf.fastInflight.trans h.counted

theorem accounts_push {s : Sys} (h : Accounts st s) (i : ℕ) (hi : i < st.cfg.workerCount)
    (r : Worker × Producer) (hp : Worker.Push (s.workers i, s.prod) r) :
    Accounts st (s.setWorker i r) := by
  obtain ⟨j, start, hpc, rfl⟩ := hp
  have hpc' : (s.workers i).pc = .push j start := hpc
  have hd : Worker.flushing (Worker.done j (s.workers i)).pc = Worker.flushing (s.workers i).pc := by
    rw [hpc', Worker.done]
    split <;> rfl
  apply Accounts.mk
  · intro b
    have hjobs := total_update st.cfg.workerCount i hi s.workers
      (fun w => (Worker.jobs st.cfg w).count b) (Worker.done j (s.workers i))
    have hc : (Worker.jobs st.cfg (s.workers i)).count b =
        (Worker.jobs st.cfg (Worker.done j (s.workers i))).count b+hits b j.task := by
      rw [done_jobs st.cfg j (s.workers i) (by rw [hpc']; rfl), List.count_cons]
      simp [hits]
    have htaken := h.taken b
    show s.prod.taken.count b = total _ (Function.update s.workers i _) _+
      weight (hits b) (s.prod.sendQueue++[j.task])+load _ (hits b) s.prod.keys+
      total st.cfg.senderCount s.senders (Sender.handHits b)+reports b s.prod
    simp only [weight, List.map_append, List.map_cons, List.map_nil, List.sum_append,
      List.sum_cons, List.sum_nil] at htaken ⊢
    omega
  · exact h.faithful
  · have hsame := total_same st.cfg.workerCount i s.workers
      (fun w => (Worker.flushing w.pc).toNat) (Worker.done j (s.workers i)) (by rw [hd])
    exact h.flushing.trans hsame.symm
  · exact h.counted

theorem accounts_send {s : Sys} (h : Accounts st s) (hc : Core st s) (i : ℕ)
    (hi : i < st.cfg.senderCount) (r : Sender.Pc × Producer)
    (hm : Sender.Move st.cfg (s.senders i, s.prod) r) : Accounts st (s.setSender i r) := by
  have hle := Threads.le_total st.cfg.senderCount i hi s.senders
    (fun pc => (Sender.counted pc).toNat)
  have hup := total_update st.cfg.senderCount i hi s.senders
    (fun pc => (Sender.counted pc).toNat) r.1
  have hcount := hm.counted (by rw [h.counted]; exact hle)
  dsimp only at hcount
  have hcounted := h.counted
  obtain ⟨htaken, hflush⟩ := hm.taken
  dsimp only at htaken
  apply Accounts.mk
  · intro b
    obtain ⟨_, htrade⟩ := hm.trade b hc.sound
    have hhand := total_update st.cfg.senderCount i hi s.senders (Sender.handHits b) r.1
    have hold := h.taken b
    show r.2.taken.count b = total st.cfg.workerCount s.workers _+weight (hits b) r.2.sendQueue+
      load _ (hits b) r.2.keys+total _ (Function.update s.senders i r.1) _+reports b r.2
    rw [htaken]
    dsimp only at htrade
    omega
  · exact faithful_append h.faithful (hm.trade ⟨[], false, 0, [], 0, 0, 0⟩ hc.sound).done
  · exact hflush.trans h.flushing
  · show r.2.fastInflight = total _ (Function.update s.senders i r.1) _
    omega

theorem accounts_step (s s' : Sys) (a : Act) (hgood : Good st s) (hi : Accounts st s)
    (h : step st s a = some s') : Accounts st s' :=
  step_rule (Accounts st) s s' a hgood hi
    (fun _ i r _ hc hI hm => accounts_writer hI hc i r (hm.frame hc.sound))
    (fun i r _ _ hl => accounts_writer hi hgood.toCore i r (hl.frame hgood.sound))
    (fun _ i r hlt hc hI hm => accounts_work hI hc i hlt r hm)
    (fun i r hlt _ hp => accounts_push hi i hlt r hp)
    (fun i r hlt _ hm => accounts_send hi hgood.toCore i hlt r hm) h

theorem accounts_start (st : Setup) : Accounts st (start st) := by
  have hc : ∀ i, (Sender.counted ((start st).senders i)).toNat = 0 := by
    intro i
    simp only [start, Sender.start]
    split <;> rfl
  have hh : ∀ b i, Sender.handHits b ((start st).senders i) = 0 := by
    intro b i
    simp only [start, Sender.start]
    split <;> rfl
  have hload : ∀ b, load st.cfg.toKeyConfig (hits b) (start st).prod.keys = 0 := by
    intro b
    simp [start, producerCreate, load, KeyMap.live, KeyMap.empty]
  refine ⟨fun b => ?_, fun b hb => ?_, ?_, ?_⟩
  · rw [Threads.total_eq_zero _ (start st).workers _ (fun _ => rfl),
      Threads.total_eq_zero _ (start st).senders _ (hh b), hload b]
    rfl
  · cases hb
  · exact (Threads.total_eq_zero _ (start st).workers _ (fun _ => rfl)).symm
  · exact (Threads.total_eq_zero _ (start st).senders _ hc).symm

end Sys

end VeTls
