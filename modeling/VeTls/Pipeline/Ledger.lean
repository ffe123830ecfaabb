import VeTls.Keys.Load
import VeTls.Pipeline.Books

/-!
# The accounts of the send side

`sendQueueBytes` has the tasks from their reservation to the moment a sender
moves them, `inflightBytes` has them from there to their release. A task is
charged with what it weighs each time, so its weight must not change on the
way.
-/

set_option autoImplicit false

namespace VeTls

open VeTls.Keys (Addr CStr KeyMap)
open VeTls.Keys.KeyMap (Keeps Effect Sound Held ring load weight load_change load_same)
open VeTls.Threads (total total_update total_same le_total)

variable {cfg : Config}

def sendBytes (p : Producer) : ℕ := (p.sendQueue.map sendTaskMemoryBytes).sum

/-- The task a worker has reserved and not pushed. -/
def Worker.reserved : Worker.Pc → Option SendTask
  | .push job _ | .unreserve job => some job.task
  | _ => none

/-- The task a sender has popped and not moved. -/
def Sender.unmoved : Sender.Pc → Option SendTask
  | .moving t => some t
  | _ => none

def Sender.carriedBytes (pc : Sender.Pc) : ℕ := ((carried pc).map sendTaskMemoryBytes).getD 0

/-- The send queue is left alone, and its counter goes with the charge. -/
theorem Worker.Move.sendSide {a b : Worker × Producer} (h : Worker.Move cfg a b)
    (hle : Worker.sendCharge a.1.pc ≤ a.2.sendQueueBytes) :
    b.2.sendQueue = a.2.sendQueue ∧ b.2.inflightBytes = a.2.inflightBytes ∧
      b.2.sendQueueBytes+Worker.sendCharge a.1.pc =
        a.2.sendQueueBytes+Worker.sendCharge b.1.pc := by
  cases h with
  | idle w w' p p' hq hsame =>
    obtain ⟨f, n, k, l, _, _, rfl⟩ := hq
    exact ⟨rfl, rfl, by rw [hsame.sendCharge]⟩
  | keyed w p m hk => exact ⟨rfl, rfl, rfl⟩
  | skip w p t rest hi he => exact ⟨rfl, rfl, rfl⟩
  | refuse w p t rest hi => exact ⟨rfl, rfl, rfl⟩
  | merge w p p' t rest old b hi hf he =>
    obtain ⟨d, m, l, n, f, rfl⟩ := hf.frame
    exact ⟨rfl, rfl, rfl⟩
  | begin w p hf hr =>
    have hc : Worker.sendCharge w.pc = 0 := by
      cases hpc : w.pc <;> simp_all [Worker.flushing, Worker.sendCharge]
    exact ⟨rfl, rfl, by rw [hc]; rfl⟩
  | sealUp w p p' b hf =>
    obtain ⟨d, m, l, n, f, rfl⟩ := hf.frame
    exact ⟨rfl, rfl, rfl⟩
  | take p => exact ⟨rfl, rfl, rfl⟩
  | rawPop w p item rest hpc hi => exact ⟨rfl, rfl, by rw [hpc]; rfl⟩
  | scratchReserve w w' p bytes hsame hsp => exact ⟨rfl, rfl, by rw [hsame.sendCharge]⟩
  | scratchRelease w w' p bytes hsame => exact ⟨rfl, rfl, by rw [hsame.sendCharge]; rfl⟩
  | sendReserve w p j now hpc hsp =>
    have hc : Worker.sendCharge w.pc = 0 := by
      rcases hpc with hpc | ⟨d, hpc⟩ <;> (rw [hpc]; rfl)
    exact ⟨rfl, rfl, by rw [hc]; rfl⟩
  | unreserve w p j hpc =>
    rw [hpc] at hle ⊢
    exact ⟨rfl, rfl, Nat.sub_add_cancel hle⟩
  | drop w p j hpc =>
    have hd : Worker.sendCharge (Worker.done j w).pc = 0 := by
      unfold Worker.done
      split <;> rfl
    exact ⟨rfl, rfl, by rw [hpc, hd]; rfl⟩
  | release w p bytes hpc =>
    have hn : Worker.sendCharge (Worker.next cfg w).pc = 0 := (Worker.next_same w).sendCharge
    exact ⟨rfl, rfl, by rw [hpc, hn]; rfl⟩
  | finish w p hpc => exact ⟨rfl, rfl, by rw [hpc]; rfl⟩

namespace Sys

variable {st : Setup}

/-- Every task between its reservation and its release is in one of the two
counters with what it weighs. -/
structure SendExact (st : Setup) (s : Sys) : Prop where
  sendQueue : s.prod.sendQueueBytes = sendBytes s.prod+
    total st.cfg.workerCount s.workers (fun w => Worker.sendCharge w.pc)+
    total st.cfg.senderCount s.senders Sender.popped
  inflight : s.prod.inflightBytes = load st.cfg.toKeyConfig sendTaskMemoryBytes s.prod.keys+
    total st.cfg.senderCount s.senders Sender.carriedBytes

theorem exact_writer {s : Sys} (h : SendExact st s) (hc : Core st s) (i : ℕ)
    (r : Writer × Producer) (hf : Writer.Frame st.cfg s.prod r.2) :
    SendExact st (s.setWriter i r) := by
  have hload := load_same hc.sound.hashed hf.sound.hashed sendTaskMemoryBytes hf.ring
  apply SendExact.mk
  · show r.2.sendQueueBytes = sendBytes r.2+_+_
    rw [hf.sendQueueBytes, sendBytes, hf.sendQueue]
    exact h.sendQueue
  · show r.2.inflightBytes = load _ _ r.2.keys+_
    rw [hf.inflightBytes, hload]
    exact h.inflight

theorem exact_worker {s : Sys} (h : SendExact st s) (hc : Core st s) (i : ℕ)
    (hi : i < st.cfg.workerCount) (r : Worker × Producer)
    (hf : Worker.Frame st.cfg s.prod r.2) (hin : r.2.inflightBytes = s.prod.inflightBytes)
    (hsend : r.2.sendQueueBytes+sendBytes s.prod+Worker.sendCharge (s.workers i).pc =
      s.prod.sendQueueBytes+sendBytes r.2+Worker.sendCharge r.1.pc) :
    SendExact st (s.setWorker i r) := by
  have hload := load_same hc.sound.hashed hf.sound.hashed sendTaskMemoryBytes hf.ring
  have hup := total_update st.cfg.workerCount i hi s.workers (fun w => Worker.sendCharge w.pc) r.1
  have hs := h.sendQueue
  apply SendExact.mk
  · show r.2.sendQueueBytes = sendBytes r.2+
      total st.cfg.workerCount (Function.update s.workers i r.1) _+
      total st.cfg.senderCount s.senders _
    omega
  · show r.2.inflightBytes = load _ _ r.2.keys+_
    rw [hin, hload]
    exact h.inflight

theorem exact_work {s : Sys} (h : SendExact st s) (hc : Core st s) (i : ℕ)
    (hi : i < st.cfg.workerCount) (r : Worker × Producer)
    (hm : Worker.Move st.cfg (s.workers i, s.prod) r) : SendExact st (s.setWorker i r) := by
  have hle := le_total st.cfg.workerCount i hi s.workers (fun w => Worker.sendCharge w.pc)
  have hs := h.sendQueue
  obtain ⟨hq, hin, hcount⟩ := hm.sendSide (by dsimp only at hle ⊢; omega)
  have hsame : sendBytes r.2 = sendBytes s.prod := by rw [sendBytes, hq, sendBytes]
  apply exact_worker h hc i hi r (hm.frame hc.sound) hin
  dsimp only at hcount
  omega

theorem exact_push {s : Sys} (h : SendExact st s) (hc : Core st s) (i : ℕ)
    (hi : i < st.cfg.workerCount) (r : Worker × Producer)
    (hp : Worker.Push (s.workers i, s.prod) r) : SendExact st (s.setWorker i r) := by
  have hf := hp.frame hc.sound
  obtain ⟨j, start, hpc, rfl⟩ := hp
  have hpc' : (s.workers i).pc = .push j start := hpc
  have hd : Worker.sendCharge (Worker.done j (s.workers i)).pc = 0 := by
    unfold Worker.done
    split <;> rfl
  apply exact_worker h hc i hi _ hf rfl
  rw [hd, hpc']
  simp only [sendBytes, List.map_append, List.map_cons, List.map_nil, List.sum_append,
    List.sum_cons, List.sum_nil, Worker.sendCharge]
  omega

/-- A sender moves weight between the queues, the keys and itself. -/
theorem exact_sender {s : Sys} (h : SendExact st s) (i : ℕ) (hi : i < st.cfg.senderCount)
    (r : Sender.Pc × Producer)
    (hsend : r.2.sendQueueBytes+sendBytes s.prod+Sender.popped (s.senders i) =
      s.prod.sendQueueBytes+sendBytes r.2+Sender.popped r.1)
    (hin : r.2.inflightBytes+load st.cfg.toKeyConfig sendTaskMemoryBytes s.prod.keys+
        Sender.carriedBytes (s.senders i) =
      s.prod.inflightBytes+load st.cfg.toKeyConfig sendTaskMemoryBytes r.2.keys+
        Sender.carriedBytes r.1) : SendExact st (s.setSender i r) := by
  have hp := total_update st.cfg.senderCount i hi s.senders Sender.popped r.1
  have hb := total_update st.cfg.senderCount i hi s.senders Sender.carriedBytes r.1
  have h₁ := h.sendQueue
  have h₂ := h.inflight
  apply SendExact.mk
  · show r.2.sendQueueBytes = sendBytes r.2+total st.cfg.workerCount s.workers _+
      total st.cfg.senderCount (Function.update s.senders i r.1) _
    omega
  · show r.2.inflightBytes = load _ _ r.2.keys+
      total st.cfg.senderCount (Function.update s.senders i r.1) _
    omega

theorem exact_send {s : Sys} (h : SendExact st s) (hc : Core st s) (i : ℕ)
    (hi : i < st.cfg.senderCount) (pc : Sender.Pc) (p : Producer) (r : Sender.Pc × Producer)
    (hpc : s.senders i = pc) (hp : s.prod = p) (hm : Sender.Move st.cfg (pc, p) r) :
    SendExact st (s.setSender i r) := by
  subst hp
  have hlep := le_total st.cfg.senderCount i hi s.senders Sender.popped
  have hlec := le_total st.cfg.senderCount i hi s.senders Sender.carriedBytes
  have h₁ := h.sendQueue
  have h₂ := h.inflight
  have hbytes : ∀ {a b : Sender.Pc}, Sender.carried a = Sender.carried b →
      Sender.carriedBytes a = Sender.carriedBytes b := by
    intro a b hab
    rw [Sender.carriedBytes, Sender.carriedBytes, hab]
  have hh := hc.sound.hashed
  cases hm with
  | idle _ pc' _ p' ha hsame hcar =>
    obtain ⟨_, _, _, _, rfl⟩ := ha
    exact exact_sender h i hi _ (by rw [hsame.popped, hpc]; rfl) (by rw [hbytes hcar, hpc])
  | keyed _ pc' _ m hk hsame hcar =>
    have hload := load_same hh hk.sound.hashed sendTaskMemoryBytes hk.ring
    exact exact_sender h i hi _ (by rw [hsame.popped, hpc]; rfl) (by rw [hbytes hcar, hpc, hload])
  | take _ q t rest now m hfree hring he =>
    have hload := load_change hh he.sound.hashed sendTaskMemoryBytes _ (fun _ => rest) he.ring
    rw [hring] at hload
    apply exact_sender h i hi _ (by rw [hpc]; rfl)
    rw [hpc]
    simp only [weight, List.map_cons, List.sum_cons, Sender.carriedBytes, Sender.carried,
      Option.map_some, Option.map_none, Option.getD_some, Option.getD_none, Sender.firstSend]
      at hload ⊢
    omega
  | pop _ _ t rest hpop hq =>
    have hz : Sender.popped pc = 0 ∧ Sender.carriedBytes pc = 0 := by
      rcases hpop with ⟨b, rfl⟩ | ⟨b, rfl⟩ <;> exact ⟨rfl, rfl⟩
    apply exact_sender h i hi
    · rw [hpc, hz.1]
      simp only [sendBytes, hq, List.map_cons, List.sum_cons, Sender.popped]
      omega
    · rw [hpc, hz.2]
      rfl
  | move _ t =>
    rw [hpc] at hlep
    have hnext : ∀ c : Bool, Sender.popped (if c then .counting t else .pushing t) = 0 ∧
        Sender.carriedBytes (if c then .counting t else .pushing t) = sendTaskMemoryBytes t := by
      intro c
      cases c <;> exact ⟨rfl, rfl⟩
    have hold : Sender.popped (.moving t) = sendTaskMemoryBytes t := rfl
    apply exact_sender h i hi
    · rw [hpc, (hnext _).1, hold]
      simp only [Sender.moveSendTaskToInflight, sendBytes]
      omega
    · rw [hpc, (hnext _).2]
      simp only [Sender.moveSendTaskToInflight, Sender.carriedBytes, Sender.carried,
        Option.map_none, Option.getD_none]
      omega
  | put _ t m he =>
    have hload := load_change hh he.sound.hashed sendTaskMemoryBytes _ (fun l => l++[t]) he.ring
    apply exact_sender h i hi _ (by rw [hpc]; rfl)
    rw [hpc]
    simp only [weight, List.map_append, List.map_cons, List.map_nil, List.sum_append,
      List.sum_cons, List.sum_nil, Sender.carriedBytes, Sender.carried, Option.map_some,
      Option.map_none, Option.getD_some, Option.getD_none] at hload ⊢
    omega
  | count _ t now => exact exact_sender h i hi _ (by rw [hpc]; rfl) (by rw [hpc]; rfl)
  | drop _ t => exact exact_sender h i hi _ (by rw [hpc]; rfl) (by rw [hpc]; rfl)
  | release _ pc' _ t hsame hcar hcar' =>
    have hb : Sender.carriedBytes pc = sendTaskMemoryBytes t := by
      rw [Sender.carriedBytes, hcar]
      rfl
    have hb' : Sender.carriedBytes pc' = 0 := by
      rw [Sender.carriedBytes, hcar']
      rfl
    rw [hpc, hb] at hlec
    apply exact_sender h i hi _ (by rw [hsame.popped, hpc]; rfl)
    rw [hpc, hb, hb']
    simp only [Sender.releaseInflightTaskBytes]
    omega
  | requeue _ q t next m he =>
    have hload := load_change hh he.sound.hashed sendTaskMemoryBytes _ (fun l => t::l) he.ring
    apply exact_sender h i hi _ (by rw [hpc]; rfl)
    rw [hpc]
    simp only [weight, List.map_cons, List.sum_cons, Sender.carriedBytes, Sender.carried,
      Option.map_some, Option.map_none, Option.getD_some, Option.getD_none] at hload ⊢
    omega
  | attempt pc' _ q x hsame hcar =>
    refine exact_sender h i hi _ (by rw [hsame.popped, hpc]; rfl) ?_
    rw [hpc, hbytes (hcar.trans (rfl : _ = Sender.carried (.attempt q x)))]
    rfl
  | report _ q x sent =>
    cases q <;> exact exact_sender h i hi _ (by rw [hpc]; rfl) (by rw [hpc]; rfl)
  | finish _ q m gone he hg =>
    have hload := load_same hh he.sound.hashed sendTaskMemoryBytes he.ring
    exact exact_sender h i hi _ (by rw [hpc]; rfl) (by rw [hpc, hload]; rfl)
  | uncount _ => exact exact_sender h i hi _ (by rw [hpc]; rfl) (by rw [hpc]; rfl)
  | cleanup _ pc' _ next m gone hsame he hg hcar =>
    have hload := load_same hh he.sound.hashed sendTaskMemoryBytes he.ring
    exact exact_sender h i hi _ (by rw [hsame.popped, hpc]; rfl) (by rw [hbytes hcar, hpc, hload])
  | commit _ => exact exact_sender h i hi _ (by rw [hpc]; rfl) (by rw [hpc]; rfl)
  | exitFast _ block hf => exact exact_sender h i hi _ (by rw [hpc]; rfl) (by rw [hpc]; rfl)

theorem exact_step (s s' : Sys) (a : Act) (hgood : Good st s) (hi : SendExact st s)
    (h : step st s a = some s') : SendExact st s' :=
  step_rule (SendExact st) s s' a hgood hi
    (fun _ i r _ hc hI hm => exact_writer hI hc i r (hm.frame hc.sound))
    (fun i r _ _ hl => exact_writer hi hgood.toCore i r (hl.frame hgood.sound))
    (fun _ i r hlt hc hI hm => exact_work hI hc i hlt r hm)
    (fun i r hlt _ hp => exact_push hi hgood.toCore i hlt r hp)
    (fun i r hlt _ hm => exact_send hi hgood.toCore i hlt _ _ r rfl rfl hm) h

theorem exact_start (st : Setup) : SendExact st (start st) := by
  have hp : ∀ i, Sender.popped ((start st).senders i) = 0 := by
    intro i
    simp only [start, Sender.start]
    split <;> rfl
  have hc : ∀ i, Sender.carriedBytes ((start st).senders i) = 0 := by
    intro i
    simp only [start, Sender.start]
    split <;> rfl
  apply SendExact.mk
  · rw [Threads.total_eq_zero _ (start st).workers _ (fun _ => rfl),
      Threads.total_eq_zero _ (start st).senders _ hp]
    rfl
  · rw [Threads.total_eq_zero _ (start st).senders _ hc]
    simp [start, producerCreate, load, KeyMap.live, KeyMap.empty]

/-- The tasks reserved and not yet moved or released. -/
def reservedTasks (st : Setup) (s : Sys) : List SendTask :=
  s.prod.sendQueue++(List.range st.cfg.workerCount).filterMap
      (fun i => Worker.reserved (s.workers i).pc)++
    (List.range st.cfg.senderCount).filterMap fun i => Sender.unmoved (s.senders i)

/-- The tasks moved and not yet released. -/
def inflightTasks (st : Setup) (s : Sys) : List SendTask :=
  (KeyMap.live st.cfg.toKeyConfig s.prod.keys).flatMap s.prod.keys.tasks++
    (List.range st.cfg.senderCount).filterMap fun i => Sender.carried (s.senders i)

theorem reservedTasks_bytes (st : Setup) (s : Sys) :
    ((reservedTasks st s).map sendTaskMemoryBytes).sum = sendBytes s.prod+
      total st.cfg.workerCount s.workers (fun w => Worker.sendCharge w.pc)+
      total st.cfg.senderCount s.senders Sender.popped := by
  have hw : (fun w : Worker => ((Worker.reserved w.pc).map sendTaskMemoryBytes).getD 0) =
      fun w => Worker.sendCharge w.pc := by
    ext w
    cases w.pc <;> rfl
  have hp : (fun pc => ((Sender.unmoved pc).map sendTaskMemoryBytes).getD 0) = Sender.popped := by
    ext pc
    cases pc <;> rfl
  rw [reservedTasks, List.map_append, List.map_append, List.sum_append, List.sum_append,
    Threads.sum_filterMap _ s.workers (fun w => Worker.reserved w.pc), hw,
    Threads.sum_filterMap _ s.senders Sender.unmoved, hp, sendBytes]

theorem inflightTasks_bytes (st : Setup) (s : Sys) :
    ((inflightTasks st s).map sendTaskMemoryBytes).sum =
      load st.cfg.toKeyConfig sendTaskMemoryBytes s.prod.keys+
        total st.cfg.senderCount s.senders Sender.carriedBytes := by
  have hl : ∀ l : List Addr, ((l.flatMap s.prod.keys.tasks).map sendTaskMemoryBytes).sum =
      (l.map fun q => weight sendTaskMemoryBytes (s.prod.keys.tasks q)).sum := by
    intro l
    induction l with
    | nil => rfl
    | cons q l ih => simp [weight, ih]
  rw [inflightTasks, List.map_append, List.sum_append, hl,
    Threads.sum_filterMap _ s.senders Sender.carried]
  rfl

/-- In every state a run reaches, the two counters are the sums over the
tasks charged to them, so that no move and no release of such a task takes
more than there is. -/
theorem run_send_exact (st : Setup) (acts : List Act) (s : Sys)
    (h : run st acts (start st) = some s) :
    s.prod.sendQueueBytes = ((reservedTasks st s).map sendTaskMemoryBytes).sum ∧
      s.prod.inflightBytes = ((inflightTasks st s).map sendTaskMemoryBytes).sum ∧
      (∀ t ∈ reservedTasks st s, sendTaskMemoryBytes t ≤ s.prod.sendQueueBytes) ∧
      ∀ t ∈ inflightTasks st s, sendTaskMemoryBytes t ≤ s.prod.inflightBytes := by
  obtain ⟨_, hexact⟩ := run_rule (SendExact st) (fun _ _ => True)
    (fun s a s' hgood hi _ hs => exact_step s s' a hgood hi hs) acts (start st) s
    (good_start st) (exact_start st) (along_forall acts _ fun _ _ => trivial) h
  have hsend := hexact.sendQueue.trans (reservedTasks_bytes st s).symm
  have hin := hexact.inflight.trans (inflightTasks_bytes st s).symm
  refine ⟨hsend, hin, fun t ht => ?_, fun t ht => ?_⟩
  · rw [hsend]
    exact List.le_sum_of_mem (List.mem_map_of_mem ht)
  · rw [hin]
    exact List.le_sum_of_mem (List.mem_map_of_mem ht)

def slowSend : Setup := ⟨{ keyQueueBucketCount := 1, orderedSend := true }, 1, 0⟩

/-- Two raw logs are packed; one is with the sender, one in the send queue. -/
def packTwo : List Act :=
  [.call 0 (.addRaw ⟨5, 0, false, [1, 2, 3], true⟩), .writer 0 ⟨1, 1, 9⟩, .writer 0 ⟨1, 1, 9⟩,
    .call 0 (.addRaw ⟨6, 0, false, [1, 2, 3, 4], true⟩), .writer 0 ⟨1, 1, 9⟩, .writer 0 ⟨1, 1, 9⟩]++
    List.replicate 5 (.worker 0 ⟨1, 1, [8], none, none⟩)++
    List.replicate 6 (.worker 0 ⟨1, 1, [6], none, none⟩)++
    List.replicate 6 (.sender 0 ⟨1, 1, 7, none, .sent⟩)

theorem packTwo_send_exact : ∃ s, run slowSend packTwo (start slowSend) = some s ∧
    s.prod.sendQueueBytes = 4 ∧ s.prod.inflightBytes = 3 ∧
    s.prod.sendQueueBytes = ((reservedTasks slowSend s).map sendTaskMemoryBytes).sum ∧
    s.prod.inflightBytes = ((inflightTasks slowSend s).map sendTaskMemoryBytes).sum :=
  ⟨_, rfl, by decide, by decide, (run_send_exact slowSend packTwo _ rfl).1,
    (run_send_exact slowSend packTwo _ rfl).2.1⟩

end Sys

end VeTls
