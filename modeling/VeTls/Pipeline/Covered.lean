import VeTls.Pipeline.Stopping
import VeTls.Pipeline.Traces

/-!
# What a close covers

A close that returns `ok` has seen the producer drained and has waited for
all workers and senders. What was accepted before is then in a batch that a
worker has taken, and stays out of everything before the senders; no sender
ends while there are tasks in a key queue. The drain test does not look at the
batches of other threads.
-/

set_option autoImplicit false

namespace VeTls

open VeTls.Keys (Addr CStr KeyMap)
open VeTls.Keys.KeyMap (Effect live ring)

variable {cfg : Config}

namespace Sender

/-- The places of a sender that has nothing to do with the key queues. -/
def direct : Pc → Bool
  | .popSendQueue _ | .moving _ | .counting _ | .attempt none _ | .report none _ _
  | .release none _ | .uncount | .exited => true
  | _ => false

theorem step_direct (hfast : cfg.fastSend = true) (i : Input) (pc : Pc) (p : Producer)
    (r : Pc × Producer) (hd : direct pc = true) (h : step cfg i pc p = some r) :
    direct r.1 = true ∧ r.2.keys = p.keys := by
  unfold step at h
  split at h
  · cases h
  · cases pc with
    | popSendQueue block =>
      simp only [popSendQueue, hfast, if_true] at h
      split at h
      · obtain rfl := Option.some.inj h
        exact ⟨rfl, rfl⟩
      · split at h
        · cases h
        · obtain rfl := Option.some.inj h
          exact ⟨rfl, rfl⟩
    | moving t | counting t | uncount =>
      obtain rfl := Option.some.inj h
      exact ⟨rfl, rfl⟩
    | attempt q s =>
      cases q with
      | some q => cases hd
      | none =>
        obtain rfl := Option.some.inj h
        unfold attempt
        split
        · exact ⟨rfl, rfl⟩
        · exact ⟨rfl, rfl⟩
        · split
          · exact ⟨rfl, rfl⟩
          · exact ⟨rfl, rfl⟩
    | report q s sent =>
      cases q with
      | some q => cases hd
      | none =>
        obtain rfl := Option.some.inj h
        exact ⟨rfl, rfl⟩
    | release q t =>
      cases q with
      | some q => cases hd
      | none =>
        obtain rfl := Option.some.inj h
        exact ⟨rfl, rfl⟩
    | exited => cases h
    | _ => cases hd

theorem keyPending_rings (p : Producer) (h : keyPending cfg p = false) (k : CStr) :
    ring cfg.toKeyConfig p.keys k = [] := by
  rcases KeyMap.ring_cases cfg.toKeyConfig p.keys k with hk | ⟨q, hq, -, hk⟩
  · exact hk
  · have hn : p.keys.tasks q = [] ∧ (p.keys.info q).inflight = false := by
      simpa using List.any_eq_false.mp h q hq
    exact hk.trans hn.1

/-- A sender that means to end found no task in a key queue. -/
theorem Move.commits {a b : Pc × Producer} (h : Move cfg a b) (hc : committed b.1 = true) :
    (committed a.1 = true ∧
      ∀ k, ring cfg.toKeyConfig b.2.keys k = ring cfg.toKeyConfig a.2.keys k) ∨
    (∀ k, ring cfg.toKeyConfig b.2.keys k = []) ∨ cfg.fastSend = true := by
  cases h with
  | idle pc pc' p p' ha hs =>
    obtain ⟨_, _, _, _, rfl⟩ := ha
    exact .inl ⟨hs.committed hc, fun _ => rfl⟩
  | keyed pc pc' p m hk hs => exact .inl ⟨hs.committed hc, hk.ring⟩
  | release pc pc' p t hs => exact .inl ⟨hs.committed hc, fun _ => rfl⟩
  | cleanup pc pc' p next m gone hs he => exact .inl ⟨hs.committed hc, he.ring⟩
  | attempt pc' p q s hs => exact .inl ⟨hs.committed hc, fun _ => rfl⟩
  | commit p =>
    refine .inr (.inl (keyPending_rings p ?_))
    simpa [committed] using hc
  | exitFast p block hf => exact .inr (.inr hf)
  | move p t =>
    dsimp only at hc
    split at hc <;> cases hc
  | report p q s sent => cases q <;> cases hc
  | _ => cases hc

end Sender

namespace Sys

variable {st : Setup}

/-- While there is a task in a key queue some sender does not mean to end. -/
structure Manned (st : Setup) (s : Sys) : Prop where
  direct : st.cfg.fastSend = true → (∀ i, Sender.direct (s.senders i) = true) ∧
    ∀ k, ring st.cfg.toKeyConfig s.prod.keys k = []
  queues : ∀ k, ring st.cfg.toKeyConfig s.prod.keys k ≠ [] →
    ∃ i < st.cfg.senderCount, Sender.committed (s.senders i) = false

theorem manned_start (st : Setup) : Manned st (start st) := by
  have hring : ∀ k, ring st.cfg.toKeyConfig (start st).prod.keys k = [] := by
    intro k
    rcases KeyMap.ring_cases st.cfg.toKeyConfig (start st).prod.keys k with hk | ⟨q, hq, -, -⟩
    · exact hk
    · simp [start, producerCreate, live, KeyMap.empty] at hq
  refine ⟨fun hf => ⟨fun i => ?_, hring⟩, fun k hk => absurd (hring k) hk⟩
  simp only [start, Sender.start, hf, if_true]
  rfl

theorem Manned.beside {s s' : Sys} (h : Manned st s) (hb : Beside st s s') : Manned st s' := by
  refine ⟨fun hf => ⟨?_, fun k => ?_⟩, fun k hk => ?_⟩
  · rw [hb.senders]
    exact (h.direct hf).1
  · rw [hb.ring]
    exact (h.direct hf).2 k
  · rw [hb.ring] at hk
    rw [hb.senders]
    exact h.queues k hk

theorem manned_step (s s' : Sys) (a : Act) (hgood : Good st s) (hi : Manned st s)
    (h : step st s a = some s') : Manned st s' := by
  cases a with
  | sender i input =>
    obtain ⟨hlt, r, hr, hm, rfl⟩ := sender_move s s' i input hgood h
    have hself : (s.setSender i r).senders i = r.1 := senders_self s i r
    have hfast : st.cfg.fastSend = true →
        (∀ j, Sender.direct ((s.setSender i r).senders j) = true) ∧
        ∀ k, ring st.cfg.toKeyConfig r.2.keys k = [] := by
      intro hf
      obtain ⟨hd, hring⟩ := hi.direct hf
      obtain ⟨hpc, hkeys⟩ := Sender.step_direct hf input _ _ r (hd i) hr
      refine ⟨forall_update (fun pc => Sender.direct pc = true) s.senders i r.1 hd hpc, fun k => ?_⟩
      rw [hkeys]
      exact hring k
    refine ⟨hfast, fun k hk => ?_⟩
    cases hc : Sender.committed r.1 with
    | false => exact ⟨i, hlt, by rw [hself]; exact hc⟩
    | true =>
      rcases hm.commits hc with ⟨hold, hring⟩ | hempty | hf
      · have hk' : ring st.cfg.toKeyConfig s.prod.keys k ≠ [] := by
          rw [← hring k]
          exact hk
        obtain ⟨j, hj, hnot⟩ := hi.queues k hk'
        have hji : j ≠ i := by
          rintro rfl
          rw [hold] at hnot
          cases hnot
        exact ⟨j, hj, by rw [senders_other s i j r hji]; exact hnot⟩
      · exact absurd (hempty k) hk
      · exact absurd ((hfast hf).2 k) hk
  | call i c | writer i input | worker i input => exact hi.beside (step_beside s s' _ hgood rfl h)

/-- With all senders ended there is no task in a key queue. -/
theorem Manned.rings {s : Sys} (h : Manned st s)
    (hs : ∀ i < st.cfg.senderCount, s.senders i = .exited) (k : CStr) :
    ring st.cfg.toKeyConfig s.prod.keys k = [] := by
  by_contra hk
  obtain ⟨i, hi, hn⟩ := h.queues k hk
  rw [hs i hi] at hn
  cases hn

end Sys

/-- What a thread does with the raw logs, and with the send queue. -/
structure Writer.Queues (a b : Writer × Producer) : Prop where
  sendQueue : b.2.sendQueue = a.2.sendQueue
  nextId : a.2.nextId ≤ b.2.nextId
  queue : ∀ x ∈ b.2.queue, x ∈ a.2.queue ∨ a.2.nextId ≤ x.id

namespace Writer

variable {me : ℕ} {src : Pc}

theorem Move.queues {a b : Writer × Producer} (h : Move cfg me src a b) : Queues a b := by
  have hn := h.nextId
  cases h with
  | quiet w w' p p' hq =>
    obtain ⟨f, n, k, l, _, _, rfl⟩ := hq
    exact ⟨rfl, hn, fun _ hx => .inl hx⟩
  | append w w' p kv flush b =>
    dsimp only at hn ⊢
    rw [settleTls_eq] at hn ⊢
    exact ⟨rfl, hn, fun _ hx => .inl hx⟩
  | rawPush w w' p log =>
    refine ⟨rfl, hn, fun x hx => ?_⟩
    rcases List.mem_append.mp hx with hx | hx
    · exact .inl hx
    · rw [List.mem_singleton.mp hx]
      exact .inr le_rfl
  | store w w' p p' kv old b hkv hb hr hr' hs hf =>
    obtain ⟨d, m, l, n, f, rfl⟩ := hf.frame
    exact ⟨rfl, hn, fun _ hx => .inl hx⟩
  | openSlot w p p' old b hr hf =>
    obtain ⟨d, m, l, n, f, rfl⟩ := hf.frame
    exact ⟨rfl, hn, fun _ hx => .inl hx⟩
  | _ => exact ⟨rfl, hn, fun _ hx => .inl hx⟩

theorem Moves.queues {a b : Writer × Producer} (h : Moves cfg me src a b) : Queues a b := by
  induction h with
  | refl => exact ⟨rfl, le_rfl, fun _ hx => .inl hx⟩
  | tail _ hm ih =>
    have hq := hm.queues
    refine ⟨hq.sendQueue.trans ih.sendQueue, ih.nextId.trans hq.nextId, fun x hx => ?_⟩
    rcases hq.queue x hx with hold | hnew
    · exact ih.queue x hold
    · exact .inr (ih.nextId.trans hnew)

theorem Loss.queues {a b : Writer × Producer} (h : Loss cfg me a b) : Queues a b := by
  have hn := h.nextId
  cases h with
  | leave w w' p =>
    dsimp only at hn ⊢
    rw [leaveBatch_eq] at hn ⊢
    exact ⟨rfl, hn, fun _ hx => .inl hx⟩
  | _ => exact ⟨rfl, hn, fun _ hx => .inl hx⟩

end Writer

namespace Worker

/-- A worker takes what it takes from the raw logs and the sealed list. -/
structure Draws (cfg : Config) (a b : Worker × Producer) : Prop where
  queue : ∀ x ∈ b.2.queue, x ∈ a.2.queue
  taken : ∃ l, b.2.taken = a.2.taken++l ∧ ∀ y ∈ l,
    (∃ x ∈ a.2.queue, rawBatch x = y) ∨ ∃ x ∈ a.2.sealedList, sealedBatch cfg x = y

theorem Draws.nothing {a b : Worker × Producer} (hq : b.2.queue = a.2.queue)
    (ht : b.2.taken = a.2.taken) : Draws cfg a b :=
  ⟨by rw [hq]; exact fun _ hx => hx, [], by simp [ht], nofun⟩

theorem Move.draws {a b : Worker × Producer} (h : Move cfg a b) : Draws cfg a b := by
  cases h with
  | idle w w' p p' hq =>
    obtain ⟨f, n, k, l, _, _, rfl⟩ := hq
    exact .nothing rfl rfl
  | merge w p p' t rest old b hi hf =>
    obtain ⟨d, m, l, n, f, rfl⟩ := hf.frame
    exact .nothing rfl rfl
  | sealUp w p p' b hf =>
    obtain ⟨d, m, l, n, f, rfl⟩ := hf.frame
    exact .nothing rfl rfl
  | take p =>
    refine ⟨fun _ hx => hx, _, rfl, fun y hy => .inr ?_⟩
    obtain ⟨x, hx, rfl⟩ := List.mem_map.mp hy
    exact ⟨x, hx, rfl⟩
  | rawPop w p item rest hpc hi =>
    refine ⟨fun x hx => ?_, _, rfl, fun y hy => .inl ?_⟩
    · rw [hi]
      exact List.mem_cons_of_mem item hx
    · rw [hi]
      exact ⟨item, List.mem_cons_self, (List.mem_singleton.mp hy).symm⟩
  | _ => exact .nothing rfl rfl

/-- A job is an old one, or was taken in the move. -/
theorem Move.job_cases {a b : Worker × Producer} (h : Move cfg a b) (x : Batch)
    (hx : x ∈ jobs cfg b.1) : x ∈ jobs cfg a.1 ∨
      (∃ i ∈ a.2.queue, rawBatch i = x) ∨ ∃ i ∈ a.2.sealedList, sealedBatch cfg i = x := by
  obtain ⟨-, ⟨l, hl, -⟩, hcount⟩ := h.trade x
  obtain ⟨-, l', hl', hnew⟩ := h.draws
  have hpos := List.count_pos_iff.mpr hx
  have hreports : reports x a.2 ≤ reports x b.2 := by
    rw [reports, reports, hl, List.countP_append]
    omega
  rw [hl', List.count_append] at hcount
  by_cases hold : x ∈ jobs cfg a.1
  · exact .inl hold
  · rw [List.count_eq_zero.mpr hold] at hcount
    exact .inr (hnew x (List.count_pos_iff.mp (by omega)))

/-- Neither the raw logs nor the jobs have a log of the list. -/
structure Clear (cfg : Config) (A : List ℤ) (a : Worker × Producer) : Prop where
  upstream : Upstream cfg (Avoids A) a.2
  raw : ∀ x ∈ a.2.queue, x.id ∉ A
  jobs : ∀ b ∈ jobs cfg a.1, ∀ id ∈ b.ids, id ∉ A

theorem Move.clear {A : List ℤ} {a b : Worker × Producer} (h : Move cfg a b)
    (hc : Clear cfg A a) : Clear cfg A b := by
  refine ⟨h.contents (avoids_additive A) hc.upstream, fun x hx => hc.raw x (h.draws.queue x hx), ?_⟩
  intro x hx id hid
  rcases h.job_cases x hx with hold | ⟨i, hi, rfl⟩ | ⟨i, hi, rfl⟩
  · exact hc.jobs x hold id hid
  · rw [List.mem_singleton.mp hid]
    exact hc.raw i hi
  · refine avoids_ids.mp (hc.upstream.kept i.builder ?_) id hid
    rw [mem_kept]
    exact .inr (.inr ⟨i, hi, rfl⟩)

theorem Moves.clear {A : List ℤ} {a b : Worker × Producer} (h : Moves cfg a b)
    (hc : Clear cfg A a) : Clear cfg A b ∧ b.2.sendQueue = a.2.sendQueue := by
  induction h with
  | refl => exact ⟨hc, rfl⟩
  | tail _ hm ih =>
    exact ⟨hm.clear ih.1, (hm.trade ⟨[], false, 0, [], 0, 0, 0⟩).sendQueue.trans ih.2⟩

end Worker

theorem Sender.Move.sendQueue {a b : Sender.Pc × Producer} (h : Sender.Move cfg a b)
    (t : SendTask) (ht : t ∈ b.2.sendQueue) : t ∈ a.2.sendQueue := by
  cases h with
  | idle pc pc' p p' ha =>
    obtain ⟨_, _, _, _, rfl⟩ := ha
    exact ht
  | pop pc p x rest hpc hq =>
    dsimp only at hq ⊢
    rw [hq]
    exact List.mem_cons_of_mem x ht
  | _ => exact ht

namespace Sys

variable {st : Setup} {A : List ℤ} {N : ℤ}

/-- No log of the list is in anything before the senders. -/
structure Cleared (st : Setup) (A : List ℤ) (N : ℤ) (s : Sys) : Prop where
  apart : Apart st A N s
  upstream : Upstream st.cfg (Avoids A) s.prod
  raw : ∀ x ∈ s.prod.queue, x.id ∉ A
  jobs : ∀ i < st.cfg.workerCount, ∀ b ∈ Worker.jobs st.cfg (s.workers i), ∀ id ∈ b.ids, id ∉ A
  sendQueue : ∀ t ∈ s.prod.sendQueue, ∀ id ∈ t.batch.ids, id ∉ A

theorem Cleared.thread {s : Sys} (h : Cleared st A N s) (hA : ∀ id ∈ A, id < N) (i : ℕ)
    (r : Writer × Producer) (hapart : Apart st A N (s.setWriter i r))
    (hup : Upstream st.cfg (Avoids A) r.2) (hq : Writer.Queues (s.writers i, s.prod) r) :
    Cleared st A N (s.setWriter i r) := by
  refine ⟨hapart, hup, fun x hx hin => ?_, h.jobs, fun t ht => ?_⟩
  · rcases hq.queue x hx with hold | hnew
    · exact h.raw x hold hin
    · have hlt := hA x.id hin
      have hnext := h.apart.next
      dsimp only at hnew
      omega
  · have hs : (s.setWriter i r).prod.sendQueue = s.prod.sendQueue := hq.sendQueue
    rw [hs] at ht
    exact h.sendQueue t ht

theorem Cleared.worker {s : Sys} (h : Cleared st A N s) (i : ℕ) (r : Worker × Producer)
    (hapart : Apart st A N (s.setWorker i r)) (hc : Worker.Clear st.cfg A r)
    (hs : ∀ t ∈ r.2.sendQueue, ∀ id ∈ t.batch.ids, id ∉ A) : Cleared st A N (s.setWorker i r) := by
  refine ⟨hapart, hc.upstream, hc.raw, fun j hj => ?_, hs⟩
  by_cases hji : j = i
  · have hself : (s.setWorker i r).workers j = r.1 := by
      rw [hji]
      exact Function.update_self _ _ _
    rw [hself]
    exact hc.jobs
  · have hother : (s.setWorker i r).workers j = s.workers j := Function.update_of_ne hji _ _
    rw [hother]
    exact h.jobs j hj

/-- What is clear before the senders stays clear. -/
theorem cleared_step (hA : ∀ id ∈ A, id < N) (s s' : Sys) (a : Act) (hgood : Good st s)
    (hi : Cleared st A N s) (h : step st s a = some s') : Cleared st A N s' := by
  have hapart := apart_step hA s s' a hgood hi.apart h
  have hup := upstream_step hA s s' a hgood hi.apart hi.upstream h
  cases a with
  | call i c =>
    obtain ⟨_, r, rfl, hm | ⟨hl, -⟩⟩ := thread_step s s' _ i hgood rfl h
    · exact hi.thread hA i r hapart hup hm.queues
    · exact hi.thread hA i r hapart hup hl.queues
  | writer i input =>
    obtain ⟨_, r, rfl, hm | ⟨hl, -⟩⟩ := thread_step s s' _ i hgood rfl h
    · exact hi.thread hA i r hapart hup hm.queues
    · exact hi.thread hA i r hapart hup hl.queues
  | worker i input =>
    simp only [step] at h
    split at h
    · rename_i hlt
      obtain ⟨r, hr, rfl⟩ := Option.map_eq_some_iff.mp h
      have hc : Worker.Clear st.cfg A (s.workers i, s.prod) := ⟨hi.upstream, hi.raw, hi.jobs i hlt⟩
      obtain hm | ⟨j, start, hpc, hp⟩ := Worker.step_moves input _ r.1 _ r.2 (hgood.workers i)
        hgood.sound hr
      · obtain ⟨hc', hs⟩ := hm.clear hc
        refine hi.worker i r hapart hc' ?_
        rw [hs]
        exact hi.sendQueue
      · obtain ⟨hw, hprod⟩ := Prod.mk.inj hp
        have hpc' : (s.workers i).pc = .push j start := hpc
        have hjobs := done_jobs st.cfg j (s.workers i) (by rw [hpc']; rfl)
        refine hi.worker i r hapart ⟨hup, ?_, ?_⟩ ?_
        · rw [hprod]
          exact hi.raw
        · intro b hb
          rw [hw] at hb
          refine hi.jobs i hlt b ?_
          rw [hjobs]
          exact List.mem_cons_of_mem _ hb
        · intro t ht
          rw [hprod] at ht
          rcases List.mem_append.mp ht with ht | ht
          · exact hi.sendQueue t ht
          · rw [List.mem_singleton.mp ht]
            refine hi.jobs i hlt _ ?_
            rw [hjobs]
            exact List.mem_cons_self
    · cases h
  | sender i input =>
    obtain ⟨_, r, _, hm, rfl⟩ := sender_move s s' i input hgood h
    have hq : (s.setSender i r).prod.queue = s.prod.queue := hm.rests.1.queue
    refine ⟨hapart, hup, ?_, hi.jobs, fun t ht => hi.sendQueue t (hm.sendQueue t ht)⟩
    rw [hq]
    exact hi.raw

end Sys

namespace Writer

variable {me : ℕ}

/-- The places of a close before its drain test succeeds. -/
def awaiting : Pc → Bool
  | .closeLock _ | .closeWait _ _ | .flushWait (.close _) _ | .pushWait (.close _) _ => true
  | _ => false

/-- A close before its drain test succeeds. Once it waits for that it has
flushed its own batch. -/
structure Awaiting (me : ℕ) (w : Writer) : Prop where
  pc : awaiting w.pc = true
  flushed : ∀ timeoutMs start, w.pc = .closeWait timeoutMs start → ownIds me w = []

/-- A close goes on, or returns something other than `ok`. -/
def Awaits (me : ℕ) (r : Writer × Producer) : Prop :=
  Awaiting me r.1 ∨ r.1.pc = .closeStop ∨ r.1.pc = .idle ∧ r.1.result ≠ some .ok

theorem closeLoop_awaits (timeoutMs start now : ℤ) (w : Writer) (p : Producer)
    (hown : ownIds me w = []) : Awaits me (closeLoop cfg timeoutMs start now w p) := by
  unfold closeLoop
  split
  · exact .inr (.inl rfl)
  · split
    · exact .inr (.inr ⟨rfl, nofun⟩)
    · split
      · exact .inr (.inr ⟨rfl, nofun⟩)
      · exact .inl ⟨rfl, fun _ _ _ => hown⟩

theorem flushFailed_awaits (rc : WaitRc) (w : Writer) (p : Producer) (timeoutMs : ℤ) :
    Awaits me (flushFailed rc w p (.close timeoutMs)) := by
  refine .inr (.inr ⟨rfl, ?_⟩)
  cases rc <;> nofun

theorem flushPush_awaits (i : Input) (start timeoutMs : ℤ) (w : Writer) (p : Producer) :
    Awaits me (flushPush cfg i start (.close timeoutMs) w p) := by
  unfold flushPush
  split
  · exact .inl ⟨rfl, nofun⟩
  · exact closeLoop_awaits timeoutMs _ _ _ _ ownIds_reset
  · exact flushFailed_awaits _ w _ timeoutMs

theorem flushAdmit_awaits (i : Input) (timeoutMs : ℤ) (w : Writer) (x : Wait × Producer) :
    Awaits me (flushAdmit cfg i (.close timeoutMs) w x) := by
  unfold flushAdmit
  split
  · exact .inl ⟨rfl, nofun⟩
  · exact flushPush_awaits i _ timeoutMs w _
  · exact flushFailed_awaits _ w _ timeoutMs

/-- A batch without logs of its own has none of this producer. -/
theorem ownIds_none (w : Writer) (hw : Own cfg me Sized w) (h : ownLogs me w = false) :
    ownIds me w = [] := by
  by_cases hme : w.batch.producer = some me
  · have hlogs : builderLogs w.batch.builder = false := by simpa [ownLogs, hme] using h
    have hcount := (hw hme).1
    rw [@ownIds_own cfg me w hme, Builder.ids]
    unfold tlsBuilder at hcount ⊢
    cases hb : w.batch.builder with
    | none => rfl
    | some b =>
      rw [hb] at hlogs hcount
      have hzero : b.logCount = 0 := by simpa [builderLogs] using hlogs
      have hlength : b.logs.length = 0 := hcount.symm.trans hzero
      exact List.map_eq_nil_iff.mpr (List.length_eq_zero_iff.mp hlength)
  · exact ownIds_other hme

/-- A batch with logs of its own is not an empty one. -/
theorem ownLogs_logs (w : Writer) (hw : Own cfg me Sized w) (h : ownLogs me w = true) :
    (tlsBuilder cfg w).logs ≠ [] := by
  obtain ⟨hme, hlogs⟩ : w.batch.producer = some me ∧ builderLogs w.batch.builder = true := by
    simpa [ownLogs] using h
  have hcount := (hw hme).1
  intro hnil
  rw [hnil] at hcount
  unfold tlsBuilder at hcount
  cases hb : w.batch.builder with
  | none =>
    rw [hb] at hlogs
    cases hlogs
  | some b =>
    rw [hb] at hlogs hcount
    have hzero : b.logCount = 0 := hcount
    simp [builderLogs, hzero] at hlogs

theorem go_awaits (joined : Bool) (i : Input) (w : Writer) (p : Producer) (r : Writer × Producer)
    (hs : Own cfg me Sized w) (hw : Awaiting me w) (h : go cfg me joined i w p = some r) :
    Awaits me r := by
  unfold go at h
  split at h
  · cases h
  · cases hpc : w.pc with
    | flushWait who deadline =>
      cases who with
      | add id f =>
        have ha := hw.pc
        rw [hpc] at ha
        cases ha
      | close timeoutMs =>
        simp only [hpc, Option.some.injEq] at h
        subst h
        exact flushAdmit_awaits i timeoutMs w _
    | pushWait who start =>
      cases who with
      | add id f =>
        have ha := hw.pc
        rw [hpc] at ha
        cases ha
      | close timeoutMs =>
        simp only [hpc, Option.some.injEq] at h
        subst h
        exact flushPush_awaits i start timeoutMs w p
    | closeLock timeoutMs =>
      simp only [hpc] at h
      split at h
      · rename_i hlogs
        obtain rfl := Option.some.inj h
        unfold tlsBatchFlushLocked
        split
        · rename_i hempty
          have hme : w.batch.producer = some me := by
            simp only [ownLogs, Bool.and_eq_true, decide_eq_true_eq] at hlogs
            exact hlogs.1
          exact absurd ((hs hme).empty hempty) (ownLogs_logs w hs hlogs)
        · exact flushAdmit_awaits i timeoutMs w _
      · rename_i hlogs
        obtain rfl := Option.some.inj h
        exact closeLoop_awaits timeoutMs _ _ w _ (ownIds_none w hs (Bool.not_eq_true _ ▸ hlogs))
    | closeWait timeoutMs start =>
      simp only [hpc, Option.some.injEq] at h
      subst h
      exact closeLoop_awaits timeoutMs start _ w p (hw.flushed timeoutMs start hpc)
    | _ =>
      have ha := hw.pc
      rw [hpc] at ha
      cases ha

/-- The close tests, next, whether the producer is drained. -/
def testsNext (me : ℕ) (w : Writer) : Bool :=
  match w.pc with
  | .closeLock _ => !ownLogs me w
  | .closeWait _ _ => true
  | _ => false

theorem Awaiting.own {w : Writer} (h : Awaiting me w) (hs : Own cfg me Sized w)
    (ht : testsNext me w = true) : ownIds me w = [] := by
  unfold testsNext at ht
  split at ht
  · exact ownIds_none w hs (by simpa using ht)
  · rename_i hpc
    exact h.flushed _ _ hpc
  · cases ht

/-- A batch with logs is pushed before the test. -/
theorem go_tests (joined : Bool) (i : Input) (w : Writer) (p : Producer) (r : Writer × Producer)
    (hw : Own cfg me Sized w) (h : go cfg me joined i w p = some r) (hr : r.1.pc = .closeStop) :
    testsNext me w = true ∧ Stops cfg w p r := by
  obtain hapart | hstops := go_stops me joined i w p r h
  · exact absurd hr hapart.2
  · refine ⟨?_, hstops⟩
    have hpc := hstops.pc
    unfold testsNext
    cases hc : w.pc with
    | closeLock timeoutMs =>
      cases hown : ownLogs me w with
      | false => rfl
      | true =>
        have hlogs := ownLogs_logs w hw hown
        have hme : w.batch.producer = some me := by
          simp only [ownLogs, Bool.and_eq_true, decide_eq_true_eq] at hown
          exact hown.1
        unfold go at h
        split at h
        · cases h
        · simp only [hc, Option.some.injEq] at h
          subst h
          unfold tlsBatchFlushLocked at hr
          split at hr
          · rename_i hempty
            exact absurd ((hw hme).empty hempty) hlogs
          · exact absurd hr (flushAdmit_apart i _ w p _ _
              (waitBufferSpaceLocked_waited p _ false i.now i.now2)).2
    | closeWait timeoutMs start => rfl
    | _ =>
      rw [hc] at hpc
      cases hpc

end Writer

/-- The log is in a report, or in a batch that a worker has taken. -/
def Dispatched (p : Producer) (id : ℤ) : Prop :=
  (∃ r ∈ p.done, id ∈ r.ids) ∨ ∃ b ∈ p.taken, id ∈ b.ids

theorem Dispatched.mono {p p' : Producer} {id : ℤ} (h : Dispatched p id)
    (hd : ∃ l, p'.done = p.done++l) (ht : ∃ l, p'.taken = p.taken++l) : Dispatched p' id := by
  obtain ⟨l, hl⟩ := hd
  obtain ⟨l', hl'⟩ := ht
  rcases h with ⟨r, hr, hid⟩ | ⟨b, hb, hid⟩
  · exact .inl ⟨r, by rw [hl]; exact List.mem_append_left l hr, hid⟩
  · exact .inr ⟨b, by rw [hl']; exact List.mem_append_left l' hb, hid⟩

/-- With nothing before the send queue a log is dispatched. -/
theorem Found.dispatched {p : Producer} {id : ℤ} (h : Found cfg p id) (hs : Shut cfg p) :
    Dispatched p id := by
  rcases h with (⟨x, hx, -⟩ | ⟨t, ht, -⟩ | ⟨b, hb, hid⟩ | hdone) | htaken
  · rw [hs.queue] at hx
    cases hx
  · rw [hs.ingressQueue] at ht
    cases ht
  · rw [Builder.ids, hs.builders b hb] at hid
    cases hid
  · exact .inl hdone
  · exact .inr htaken

namespace Sys

variable {st : Setup} {A : List ℤ} {N : ℤ}

theorem dispatched_step (s s' : Sys) (a : Act) (id : ℤ) (hgood : Good st s)
    (hi : Dispatched s.prod id) (h : step st s a = some s') : Dispatched s'.prod id := by
  refine step_rule (fun s => Dispatched s.prod id) s s' a hgood hi ?_ ?_ ?_ ?_ ?_ h
  · intro t i r _ hc hI hm
    have hf := hm.frame hc.sound
    obtain ⟨l, hl, -⟩ := hf.done
    exact hI.mono ⟨l, hl⟩ ⟨[], by simp [setWriter, hf.taken]⟩
  · intro i r _ _ hl
    have hf := hl.frame hgood.sound
    obtain ⟨l, hl, -⟩ := hf.done
    exact hi.mono ⟨l, hl⟩ ⟨[], by simp [setWriter, hf.taken]⟩
  · intro t i r _ _ hI hm
    obtain ⟨l, hl, -⟩ := (hm.trade ⟨[], false, 0, [], 0, 0, 0⟩).done
    obtain ⟨-, l', hl', -⟩ := hm.draws
    exact hI.mono ⟨l, hl⟩ ⟨l', hl'⟩
  · rintro i r _ _ ⟨j, start, -, rfl⟩
    exact hi.mono ⟨[], (List.append_nil _).symm⟩ ⟨[], (List.append_nil _).symm⟩
  · intro i r _ _ hm
    obtain ⟨l, hl, -⟩ := (hm.trade ⟨[], false, 0, [], 0, 0, 0⟩ hgood.sound).done
    exact hi.mono ⟨l, hl⟩ ⟨[], by simp [setSender, hm.taken.1]⟩

/-- A sender that has ended stays so. -/
theorem exited_step (s s' : Sys) (a : Act) (hgood : Good st s) (k : ℕ)
    (hk : s.senders k = .exited) (h : step st s a = some s') : s'.senders k = .exited := by
  cases a with
  | sender i input =>
    obtain ⟨-, r, hr, -, rfl⟩ := sender_move s s' i input hgood h
    have hki : k ≠ i := by
      rintro rfl
      rw [hk] at hr
      simp [Sender.step] at hr
    rw [senders_other s i k r hki]
    exact hk
  | call i c | writer i input | worker i input =>
    rw [(step_beside s s' _ hgood rfl h).senders]
    exact hk

/-- The drain test of the thread's close comes next and will succeed. -/
def drains (st : Setup) (s : Sys) (i : ℕ) : Act → Bool
  | .writer j _ => decide (j = i) && Writer.testsNext st.me (s.writers i) &&
      isDrainedLocked st.cfg s.prod
  | _ => false

/-- No thread throws its batch away with a log of the list, no key queue is
freed with one in its builder, and when the drain test of the close of thread
`i` succeeds no other thread has one in its batch. -/
def Spares (st : Setup) (A : List ℤ) (i : ℕ) (s : Sys) (a : Act) : Prop :=
  (∀ j ∈ givesUp st s a, ∀ id ∈ Writer.ownIds st.me (s.writers j), id ∉ A) ∧
    (∀ s' ∈ step st s a, ∀ id ∈ A, Unfreed s'.prod id) ∧
    (drains st s i a = true →
      ∀ j < st.writerCount, j ≠ i → ∀ id ∈ Writer.ownIds st.me (s.writers j), id ∉ A)

instance (A : List ℤ) (i : ℕ) (s : Sys) (a : Act) : Decidable (Spares st A i s a) :=
  inferInstanceAs (Decidable (_ ∧ _ ∧ _))

/-- What is known in every state. -/
structure Known (st : Setup) (s : Sys) : Prop where
  sized : Every st Sized s
  accounts : Accounts st s
  manned : Manned st s
  unused : ∀ j, st.writerCount ≤ j → s.writers j = Writer.start
  own : ∀ j, ∀ id ∈ Writer.ownIds st.me (s.writers j), id < s.prod.nextId
  accepted : ∀ id ∈ s.prod.accepted, id < s.prod.nextId

theorem known_start (st : Setup) : Known st (start st) :=
  ⟨every_start sized_additive st, accounts_start st, manned_start st, fun _ _ => rfl, nofun, nofun⟩

theorem known_step (s s' : Sys) (a : Act) (hgood : Good st s) (hi : Known st s)
    (h : step st s a = some s') : Known st s' := by
  obtain ⟨hle, hsized⟩ := every_step sized_additive s s' a hgood (fun id _ => sized_stores id)
    hi.sized h
  have haccounts := accounts_step s s' a hgood hi.accounts h
  have hmanned := manned_step s s' a hgood hi.manned h
  obtain ⟨i, r, hc, hr, rfl⟩ | ⟨hc, hw⟩ := adds_step s s' a h
  · obtain ⟨hlt, -⟩ := thread_step s _ a i hgood hc h
    have hown : ∀ j, ∀ id ∈ Writer.ownIds st.me ((s.setWriter i r).writers j), id < r.2.nextId := by
      have hwide : ∀ j, ∀ id ∈ Writer.ownIds st.me (s.writers j), id < r.2.nextId :=
        fun j id hid => (hi.own j id hid).trans_le hr.nextId
      refine forall_update (fun w => ∀ id ∈ Writer.ownIds st.me w, id < r.2.nextId) s.writers i r.1
        hwide fun id hid => ?_
      exact (hr.own id hid).elim (hwide i id) And.right
    refine ⟨hsized, haccounts, hmanned, fun j hj => ?_, hown, fun id hid => ?_⟩
    · have hji : j ≠ i := by omega
      exact (Function.update_of_ne hji _ _).trans (hi.unused j hj)
    · obtain ⟨l, hl, hnew, -⟩ := hr.added
      have hid' : id ∈ s.prod.accepted++l := hl ▸ hid
      rcases List.mem_append.mp hid' with hold | hin
      · exact (hi.accepted id hold).trans_le hr.nextId
      · rcases hnew id hin with hf | hrange
        · exact (hi.own i id ((hgood.writers i).flushing_own hf)).trans_le hr.nextId
        · exact hrange.2
  · have hstill : s'.prod.accepted = s.prod.accepted := by
      cases a with
      | worker j input => exact (worker_still s s' j input hgood h).1
      | sender j input => exact (sender_still s s' j input hgood h).1
      | call j c => cases hc
      | writer j input => cases hc
    refine ⟨hsized, haccounts, hmanned, ?_, ?_, ?_⟩
    · rw [hw]
      exact hi.unused
    · rw [hw]
      exact fun j id hid => (hi.own j id hid).trans_le hle
    · rw [hstill]
      exact fun id hid => (hi.accepted id hid).trans_le hle

/-- The logs of the list are dispatched, and in nothing before the senders. -/
structure Passed (st : Setup) (A : List ℤ) (N : ℤ) (s : Sys) : Prop where
  cleared : Cleared st A N s
  dispatched : ∀ id ∈ A, Dispatched s.prod id

theorem passed_step (hA : ∀ id ∈ A, id < N) (s s' : Sys) (a : Act) (hgood : Good st s)
    (hi : Passed st A N s) (h : step st s a = some s') : Passed st A N s' :=
  ⟨cleared_step hA s s' a hgood hi.cleared h,
    fun id hid => dispatched_step s s' a id hgood (hi.dispatched id hid) h⟩

/-- The step in which a close sets `stop`, with no log of the list in a batch. -/
theorem passed_stop (hA : ∀ id ∈ A, id < N) (s : Sys) (i : ℕ) (r : Writer × Producer) (a : Act)
    (hgood : Good st s) (hk : Known st s) (hnext : N ≤ s.prod.nextId)
    (hseen : ∀ id ∈ A, Seen st s id)
    (hown : ∀ j < st.writerCount, ∀ id ∈ Writer.ownIds st.me (s.writers j), id ∉ A)
    (hs : Writer.Stops st.cfg (s.writers i) s.prod r)
    (h : step st s a = some (s.setWriter i r)) : Passed st A N (s.setWriter i r) := by
  have hd := isDrainedLocked_drained s.prod hs.drained
  have hshut := shut_of_drained hs.drained hk.sized.upstream r.2 hs.prod
  have hall : ∀ j, ∀ id ∈ Writer.ownIds st.me (s.writers j), id ∉ A := by
    intro j id hid
    by_cases hj : j < st.writerCount
    · exact hown j hj id hid
    · rw [hk.unused j (not_lt.mp hj)] at hid
      cases hid
  obtain ⟨b, f, hp⟩ := hs.prod
  refine ⟨⟨apart_step hA s _ a hgood ⟨hk.sized, hnext, hall⟩ h, ?_, ?_, ?_, ?_⟩, fun id hid => ?_⟩
  · refine ⟨?_, fun x hx l hl => ?_⟩
    · show ∀ t ∈ r.2.ingressQueue, _
      rw [hshut.ingressQueue]
      nofun
    · rw [hshut.builders x hx] at hl
      cases hl
  · show ∀ x ∈ r.2.queue, _
    rw [hshut.queue]
    nofun
  · intro j hj x hx
    have hjobs : Worker.jobs st.cfg (s.workers j) = [] := hd.jobs hgood hk.accounts j hj
    rw [show (s.setWriter i r).workers j = s.workers j from rfl, hjobs] at hx
    cases hx
  · have hq : r.2.sendQueue = [] := by
      rw [hp]
      exact hd.sendQueue
    show ∀ t ∈ r.2.sendQueue, _
    rw [hq]
    nofun
  · have hfound : Found st.cfg r.2 id := by
      rcases hseen id hid with ⟨j, hj, hin⟩ | hf
      · exact absurd hid (hown j hj id hin)
      · rw [hp]
        exact hf.stay rfl rfl rfl rfl rfl ⟨[], (List.append_nil _).symm⟩ rfl
    exact hfound.dispatched hshut

/-- The close of the thread is before its drain test or has failed, or the
test has succeeded, and all senders have ended when it returns. -/
def Closes (st : Setup) (A : List ℤ) (N : ℤ) (i : ℕ) (s : Sys) : Prop :=
  (Writer.Awaiting st.me (s.writers i) ∨
    (s.writers i).pc = .idle ∧ (s.writers i).result ≠ some .ok) ∨
  Passed st A N s ∧ ((s.writers i).pc = .closeStop ∨ (s.writers i).pc = .closeJoin ∨
    (s.writers i).pc = .idle ∧ ∀ k < st.cfg.senderCount, s.senders k = .exited)

theorem joined_senders (s : Sys) (h : s.joined st = true) (k : ℕ) (hk : k < st.cfg.senderCount) :
    s.senders k = .exited := by
  simp only [joined, Bool.and_eq_true, List.all_eq_true, List.mem_range, decide_eq_true_eq] at h
  exact h.2 k hk

/-- The steps of the other threads. -/
theorem Closes.other (hA : ∀ id ∈ A, id < N) (s s' : Sys) (a : Act) (i : ℕ) (hgood : Good st s)
    (hi : Closes st A N i s) (ha : caller a ≠ some i) (h : step st s a = some s') :
    Closes st A N i s' := by
  have hw := silent_step i s s' a ha h
  unfold Closes
  rw [hw]
  refine hi.imp_right fun ⟨hp, hpc⟩ => ⟨passed_step hA s s' a hgood hp h, ?_⟩
  refine hpc.imp_right fun hx => hx.imp_right fun ⟨hidle, hs⟩ => ⟨hidle, fun k hk => ?_⟩
  exact exited_step s s' a hgood k (hs k hk) h

/-- A step of the close itself. -/
theorem Closes.own (hA : ∀ id ∈ A, id < N) (s s' : Sys) (i : ℕ) (input : Input)
    (hgood : Good st s) (hk : Known st s) (hnext : N ≤ s.prod.nextId)
    (hseen : ∀ id ∈ A, Seen st s id) (hi : Closes st A N i s)
    (hc : Spares st A i s (.writer i input)) (h : step st s (.writer i input) = some s') :
    Closes st A N i s' := by
  have hstep := h
  simp only [step] at h
  split at h
  · obtain ⟨r, hr, rfl⟩ := Option.map_eq_some_iff.mp h
    have hself : (s.setWriter i r).writers i = r.1 := Function.update_self _ _ _
    unfold Closes
    rw [hself]
    rcases hi with (hwait | ⟨hidle, -⟩) | ⟨hp, hpc⟩
    · rcases Writer.go_awaits _ input _ _ r (hk.sized.own i) hwait hr with hwait' | hstop | hfail
      · exact .inl (.inl hwait')
      · obtain ⟨htests, hs⟩ := Writer.go_tests _ input _ _ r (hk.sized.own i) hr hstop
        have hdrains : drains st s i (.writer i input) = true := by
          simp [drains, htests, hs.drained]
        have hown : ∀ j < st.writerCount, ∀ id ∈ Writer.ownIds st.me (s.writers j), id ∉ A := by
          intro j hj
          by_cases hji : j = i
          · rw [hji, hwait.own (hk.sized.own i) htests]
            simp
          · exact hc.2.2 hdrains j hj hji
        exact .inr ⟨passed_stop hA s i r _ hgood hk hnext hseen hown hs hstep, .inl hstop⟩
      · exact .inl (.inr hfail)
    · simp [Writer.go, hidle] at hr
    · have hp' := passed_step hA s _ _ hgood hp hstep
      right
      refine ⟨hp', ?_⟩
      rcases hpc with hpc | hpc | ⟨hidle, -⟩
      · unfold Writer.go at hr
        split at hr
        · cases hr
        · simp only [hpc, Option.some.injEq] at hr
          subst hr
          exact .inr (.inl rfl)
      · unfold Writer.go at hr
        split at hr
        · cases hr
        · simp only [hpc] at hr
          split at hr
          · rename_i hjoined
            obtain rfl := Option.some.inj hr
            exact .inr (.inr ⟨rfl, joined_senders s hjoined⟩)
          · cases hr
      · simp [Writer.go, hidle] at hr
  · cases h

/-- Every log of the list has had its callback, and none is in the batch of
a thread, among the raw logs, in the ingress queue, a builder, the sealed
list, the send queue or a key queue. -/
structure Covers (st : Setup) (A : List ℤ) (s : Sys) : Prop where
  reported : ∀ id ∈ A, ∃ r ∈ s.prod.done, id ∈ r.ids
  own : ∀ j, ∀ id ∈ Writer.ownIds st.me (s.writers j), id ∉ A
  raw : ∀ x ∈ s.prod.queue, x.id ∉ A
  ingress : ∀ t ∈ s.prod.ingressQueue, ∀ id ∈ t.batch.ids, id ∉ A
  kept : ∀ b ∈ kept st.cfg s.prod, ∀ id ∈ b.ids, id ∉ A
  sendQueue : ∀ t ∈ s.prod.sendQueue, ∀ id ∈ t.batch.ids, id ∉ A
  keyQueues : ∀ q ∈ live st.cfg.toKeyConfig s.prod.keys, ∀ t ∈ s.prod.keys.tasks q,
    ∀ id ∈ t.batch.ids, id ∉ A

/-- Once the senders have ended, what was dispatched has been reported. -/
theorem Passed.covers {s : Sys} (h : Passed st A N s) (hgood : Good st s) (hk : Known st s)
    (hs : ∀ k < st.cfg.senderCount, s.senders k = .exited) : Covers st A s := by
  have hreached := h.cleared.apart.reached h.cleared.upstream
  have htasks : ∀ q ∈ live st.cfg.toKeyConfig s.prod.keys, s.prod.keys.tasks q = [] := by
    intro q hq
    rw [← KeyMap.ring_self hgood.sound.hashed q hq]
    exact hk.manned.rings hs _
  refine ⟨fun id hid => ?_, hreached.own, h.cleared.raw, hreached.ingress, hreached.kept,
    h.cleared.sendQueue, fun q hq t ht => ?_⟩
  · rcases h.dispatched id hid with hdone | ⟨b, hb, hin⟩
    · exact hdone
    · have hfree : ¬ HeldBy st s b := by
        rintro (⟨k, hk', hx⟩ | ⟨t, ht, rfl⟩ | ⟨q, hq, t, ht, -⟩ | ⟨k, hk', t, ht, -⟩)
        · exact h.cleared.jobs k hk' b hx id hin hid
        · exact h.cleared.sendQueue t ht id hin hid
        · rw [htasks q hq] at ht
          cases ht
        · rw [hs k hk'] at ht
          cases ht
      have hcount := hk.accounts.reports b hfree
      have hpos := List.count_pos_iff.mpr hb
      obtain ⟨r, hr, -, hids⟩ := reported_of_reports hk.accounts.faithful b (by omega)
      exact ⟨r, hr, by rw [hids]; exact hin⟩
  · rw [htasks q hq] at ht
    cases ht

/-- Accepted logs are in sight, in every state before the close. -/
theorem run_seen (A : List ℤ) (i : ℕ) (acts : List Act) (s : Sys)
    (hc : Along st (Spares st A i) acts (start st)) (h : run st acts (start st) = some s) :
    Good st s ∧ Known st s ∧ ∀ id ∈ A, id ∈ s.prod.accepted → Seen st s id := by
  refine run_rule (fun s => Known st s ∧ ∀ id ∈ A, id ∈ s.prod.accepted → Seen st s id)
    (Spares st A i) ?_ acts (start st) s (good_start st) ⟨known_start st, nofun⟩ hc h
  intro t a t' hg hI ha ht
  refine ⟨known_step t t' a hg hI.1 ht, fun id hid hacc => ?_⟩
  have hw := watched_step t t' a id hg hI.1.sized
    (fun j hj hin => ha.1 j hj id hin hid) (ha.2.1 t' ht id hid) ht
  rcases hw.accepted hacc with hold | hnew
  · exact hw.seen (hI.2 id hid hold)
  · exact hnew

/-- The state of a run with a close of thread `i` in it. -/
structure Closed (st : Setup) (A : List ℤ) (N : ℤ) (i : ℕ) (s : Sys) : Prop where
  known : Known st s
  next : N ≤ s.prod.nextId
  seen : ∀ id ∈ A, Seen st s id
  closes : Closes st A N i s

theorem closed_step (hA : ∀ id ∈ A, id < N) (i : ℕ) (s s' : Sys) (a : Act) (hgood : Good st s)
    (hi : Closed st A N i s) (ha : Spares st A i s a ∧ begins i a = false)
    (h : step st s a = some s') : Closed st A N i s' := by
  obtain ⟨hle, -⟩ := every_step sized_additive s s' a hgood (fun id _ => sized_stores id)
    hi.known.sized h
  refine ⟨known_step s s' a hgood hi.known h, hi.next.trans hle, fun id hid => ?_, ?_⟩
  · exact (watched_step s s' a id hgood hi.known.sized (fun j hj hin => ha.1.1 j hj id hin hid)
      (ha.1.2.1 s' h id hid) h).seen (hi.seen id hid)
  · by_cases hc : caller a = some i
    · cases a with
      | call j c =>
        obtain rfl := Option.some.inj hc
        simp [begins] at ha
      | writer j input =>
        obtain rfl := Option.some.inj hc
        exact hi.closes.own hA s s' j input hgood hi.known hi.next hi.seen ha.1 h
      | worker j input => cases hc
      | sender j input => cases hc
    · exact hi.closes.other hA s s' a i hgood hc h

/-- The step in which the close is called. -/
theorem closed_begin (i : ℕ) (timeoutMs : ℤ) (s s' : Sys) (hgood : Good st s) (hk : Known st s)
    (hseen : ∀ id ∈ s.prod.accepted, Seen st s id)
    (h : step st s (.call i (.close timeoutMs)) = some s') :
    Closed st s.prod.accepted s.prod.nextId i s' := by
  have hknown := known_step s s' _ hgood hk h
  simp only [step] at h
  split at h
  · rename_i hlt
    obtain rfl := Option.some.inj h
    refine ⟨hknown, le_rfl, fun id hid => ?_, .inl (.inl ?_)⟩
    · exact Seen.setWriter hlt.1 _ (fun hin => .inl hin) (fun hf => .inr hf) (hseen id hid)
    · have hself : (s.setWriter i ({ s.writers i with pc := .closeLock timeoutMs },
          s.prod)).writers i = { s.writers i with pc := .closeLock timeoutMs } :=
        Function.update_self _ _ _
      rw [hself]
      exact ⟨rfl, by simp⟩
  · cases h

/-- A close that returns `ok` covers every log accepted before it was called,
if no step of the run loses one of them and the drain test of the close does
not pass over the batch of another thread that has one. -/
theorem run_close_covers (st : Setup) (acts rest : List Act) (i : ℕ) (timeoutMs : ℤ) (s₀ s : Sys)
    (h : run st acts (start st) = some s₀)
    (hclose : run st (.call i (.close timeoutMs)::rest) s₀ = some s)
    (hone : ∀ a ∈ rest, begins i a = false) (hidle : (s.writers i).pc = .idle)
    (hok : (s.writers i).result = some .ok)
    (hc : Along st (Spares st s₀.prod.accepted i) acts (start st))
    (hc' : Along st (Spares st s₀.prod.accepted i) (.call i (.close timeoutMs)::rest) s₀) :
    Covers st s₀.prod.accepted s := by
  obtain ⟨hgood, hknown, hseen⟩ := run_seen s₀.prod.accepted i acts s₀ hc h
  have hA := hknown.accepted
  obtain ⟨s₁, hcall, hrest⟩ := Option.bind_eq_some_iff.mp hclose
  have hbegin := closed_begin i timeoutMs s₀ s₁ hgood hknown (fun id hid => hseen id hid hid) hcall
  have halong : Along st (Spares st s₀.prod.accepted i) rest s₁ := by
    have hnext := hc'.2
    rw [hcall] at hnext
    exact hnext
  obtain ⟨hgood', hclosed⟩ := run_rule (Closed st s₀.prod.accepted s₀.prod.nextId i)
    (fun s a => Spares st s₀.prod.accepted i s a ∧ begins i a = false)
    (fun t a t' hg hI ha ht => closed_step hA i t t' a hg hI ha ht) rest s₁ s
    (good_step s₀ s₁ _ hgood hcall) hbegin (along_and rest s₁ halong hone) hrest
  rcases hclosed.closes with (hwait | ⟨-, hfail⟩) | ⟨hp, hpc | hpc | ⟨-, hs⟩⟩
  · have hpc := hwait.pc
    rw [hidle] at hpc
    cases hpc
  · exact absurd hok hfail
  · rw [hidle] at hpc
    cases hpc
  · rw [hidle] at hpc
    cases hpc
  · exact hp.covers hgood' hclosed.known hs

/-- Thread 0 adds a log and flushes it. -/
def addFlushed : List Act :=
  [.call 0 (.addKv oneLog [] true), .writer 0 ⟨1, 1, 9⟩, .writer 0 ⟨1, 1, 9⟩, .writer 0 ⟨1, 1, 9⟩]

/-- The worker and the sender pass the log on before the close of thread 1
finds the producer drained; then all threads end. -/
def closeDrained : List Act :=
  [.writer 1 ⟨1, 1, 9⟩]++List.replicate 7 (.worker 0 ⟨1, 1, [8], none, none⟩)++
    List.replicate 7 (.sender 0 ⟨1, 1, 8, none, .sent⟩)++
    [.writer 1 ⟨1, 1, 9⟩, .writer 1 ⟨1, 1, 9⟩, .worker 0 ⟨1, 1, [8], none, none⟩,
      .sender 0 ⟨1, 1, 8, none, .sent⟩, .writer 1 ⟨1, 1, 9⟩]

theorem closeDrained_covers : ∃ s₀ s, run twoThreads addFlushed (start twoThreads) = some s₀ ∧
    run twoThreads (.call 1 (.close 9)::closeDrained) s₀ = some s ∧
    s₀.prod.accepted = [1] ∧ (s.writers 1).pc = .idle ∧ (s.writers 1).result = some .ok ∧
    Covers twoThreads s₀.prod.accepted s :=
  ⟨_, _, rfl, rfl, by decide, by decide, by decide, run_close_covers twoThreads addFlushed
    closeDrained 1 9 _ _ rfl rfl (by decide) (by decide) (by decide) (by decide) (by decide)⟩

/-- Thread 0 adds a log, which stays in its batch. -/
def addUnflushed : List Act :=
  [.call 0 (.addKv oneLog [] false), .writer 0 ⟨1, 1, 9⟩, .writer 0 ⟨1, 1, 9⟩]

/-- The close of thread 1 finds the producer drained at once. -/
def closeAtOnce : List Act :=
  [.writer 1 ⟨1, 1, 9⟩, .writer 1 ⟨1, 1, 9⟩, .worker 0 ⟨1, 1, [], none, none⟩,
    .sender 0 ⟨1, 1, 9, none, .sent⟩, .writer 1 ⟨1, 1, 9⟩]

/-- The close returns `ok`, and the accepted log is in the batch of thread 0. -/
theorem closeAtOnce_leaves : ¬∀ (st : Setup) (acts rest : List Act) (i : ℕ) (timeoutMs : ℤ)
    (s₀ s : Sys), run st acts (start st) = some s₀ →
    run st (.call i (.close timeoutMs)::rest) s₀ = some s → (∀ a ∈ rest, begins i a = false) →
    (s.writers i).pc = .idle → (s.writers i).result = some .ok → Covers st s₀.prod.accepted s := by
  intro hall
  have hrun : ∃ s₀ s, run twoThreads addUnflushed (start twoThreads) = some s₀ ∧
      run twoThreads (.call 1 (.close 9)::closeAtOnce) s₀ = some s ∧ s₀.prod.accepted = [1] ∧
      (s.writers 1).pc = .idle ∧ (s.writers 1).result = some .ok ∧
      Writer.ownIds twoThreads.me (s.writers 0) = [1] :=
    ⟨_, _, rfl, rfl, by decide, by decide, by decide, by decide⟩
  obtain ⟨s₀, s, h, h', hacc, hidle, hok, hown⟩ := hrun
  have hcovers := hall twoThreads addUnflushed closeAtOnce 1 9 s₀ s h h' (by decide) hidle hok
  refine hcovers.own 0 1 ?_ ?_
  · rw [hown]
    exact List.mem_singleton.mpr rfl
  · rw [hacc]
    exact List.mem_singleton.mpr rfl

end Sys

end VeTls
