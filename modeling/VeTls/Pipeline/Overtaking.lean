import VeTls.Lib.Line
import VeTls.Pipeline.Once
import VeTls.Pipeline.Recall

/-!
# Batches that overtake each other

On its way to the first request a batch is with a worker, in the send queue,
with the sender that popped it, in the queue of its key, and with the sender
that takes it from there. The queues keep their order. Two workers or two
senders that have batches of one key may put them into the next queue in
either order.
-/

set_option autoImplicit false

namespace VeTls

open VeTls.Keys (Addr CStr KeyMap)
open VeTls.Keys.KeyMap (Keeps Effect Sound Held ring)
open VeTls.Line (InOrder Sorted)

variable {cfg : Config}

/-- The first batch was sealed, or queued as a raw log, before the second one
and has the same key. -/
def Before (cfg : Config) (a b : Batch) : Prop :=
  cfg.normalizeHashKey a.key = cfg.normalizeHashKey b.key ∧ a.raw = b.raw ∧ a.no < b.no

instance decidableBefore (cfg : Config) (a b : Batch) : Decidable (Before cfg a b) :=
  inferInstanceAs (Decidable (_ ∧ _ ∧ _))

/-- The number of raw logs, or of sealed builders, that workers have taken. -/
def takenCount (raw : Bool) (p : Producer) : ℕ := (nos raw p.taken).length

theorem range_split (l l' : List ℕ) (n : ℕ) (h : l++l' = List.range n) :
    (∀ a ∈ l, a < l.length) ∧ ∀ a ∈ l', l.length ≤ a := by
  have hget : ∀ i (hi : i < (l++l').length), (l++l')[i] = i := by
    intro i hi
    simp only [h, List.getElem_range]
  constructor
  · intro a ha
    obtain ⟨i, hi, rfl⟩ := List.mem_iff_getElem.mp ha
    have hval := hget i (by rw [List.length_append]; omega)
    rw [List.getElem_append_left hi] at hval
    omega
  · intro a ha
    obtain ⟨i, hi, rfl⟩ := List.mem_iff_getElem.mp ha
    have hval := hget (l.length+i) (by rw [List.length_append]; omega)
    rw [List.getElem_append_right (by omega)] at hval
    simp only [Nat.add_sub_cancel_left] at hval
    omega

theorem Numbered.taken_lt {p : Producer} (h : Numbered p) (b : Batch) (hb : b ∈ p.taken) :
    b.no < takenCount b.raw p := by
  have hmem : b.no ∈ nos b.raw p.taken :=
    List.mem_map.mpr ⟨b, List.mem_filter.mpr ⟨hb, by simp⟩, rfl⟩
  cases hr : b.raw with
  | true =>
    rw [hr] at hmem
    exact (range_split _ _ _ h.raw).1 _ hmem
  | false =>
    rw [hr] at hmem
    exact (range_split _ _ _ h.sealedUp).1 _ hmem

theorem takenCount_le {p p' : Producer} (l : List Batch) (h : p'.taken = p.taken++l) (raw : Bool) :
    takenCount raw p ≤ takenCount raw p' := by
  rw [takenCount, takenCount, h, nos_append, List.length_append]
  exact Nat.le_add_right _ _

namespace Worker

theorem Frame.trans {p₁ p₂ p₃ : Producer} (h : Frame cfg p₁ p₂) (h' : Frame cfg p₂ p₃) :
    Frame cfg p₁ p₃ := by
  refine ⟨h'.attempts.trans h.attempts, h'.fastInflight.trans h.fastInflight, h'.sound,
    fun a => (h'.held a).trans (h.held a), fun a ha => ?_, fun k => (h'.ring k).trans (h.ring k),
    h'.freed.trans h.freed, fun a ha => ?_⟩
  · exact (h'.key a ((h.held a).mpr ha)).trans (h.key a ha)
  · obtain ⟨ha', hb'⟩ := h'.idle a ha
    obtain ⟨hidle, hb⟩ := h.idle a ha'
    refine ⟨hidle, ?_⟩
    obtain hb' | hb' := hb'
    · exact hb.imp hb'.trans hb'.trans
    · exact .inr hb'

/-- What a worker has after a chain of moves it had before, or it took it
since. -/
structure Works (cfg : Config) (x y : Worker × Producer) : Prop where
  frame : Frame cfg x.2 y.2
  numbered : Numbered y.2
  sendQueue : y.2.sendQueue = x.2.sendQueue
  taken : ∃ l, y.2.taken = x.2.taken++l
  jobs : ∀ b ∈ jobs cfg y.1, b ∈ jobs cfg x.1 ∨ b ∈ y.2.taken ∧ takenCount b.raw x.2 ≤ b.no
  sorted : Sorted (Before cfg) (Worker.jobs cfg x.1) → Sorted (Before cfg) (Worker.jobs cfg y.1)

theorem Works.still {x y : Worker × Producer} (hf : Frame cfg x.2 y.2) (hn : Numbered y.2)
    (hq : y.2.sendQueue = x.2.sendQueue) (ht : y.2.taken = x.2.taken)
    (hj : Worker.jobs cfg y.1 = Worker.jobs cfg x.1) : Works cfg x y :=
  ⟨hf, hn, hq, ⟨[], by rw [ht, List.append_nil]⟩, fun b hb => .inl (hj ▸ hb), fun h => hj ▸ h⟩

theorem Works.refl (x : Worker × Producer) (hs : Sound cfg.toKeyConfig x.2.keys)
    (hn : Numbered x.2) : Works cfg x x :=
  .still (Frame.of_eq hs rfl rfl rfl) hn rfl rfl rfl

theorem Works.trans {x y z : Worker × Producer} (h : Works cfg x y) (h' : Works cfg y z) :
    Works cfg x z := by
  obtain ⟨l, hl⟩ := h.taken
  obtain ⟨l', hl'⟩ := h'.taken
  refine ⟨h.frame.trans h'.frame, h'.numbered, h'.sendQueue.trans h.sendQueue, ⟨l++l', ?_⟩, ?_,
    fun hs => h'.sorted (h.sorted hs)⟩
  · rw [hl', hl, List.append_assoc]
  · intro b hb
    obtain hold | ⟨htaken, hno⟩ := h'.jobs b hb
    · obtain hold | ⟨htaken, hno⟩ := h.jobs b hold
      · exact .inl hold
      · refine .inr ⟨?_, hno⟩
        rw [hl']
        exact List.mem_append_left _ htaken
    · exact .inr ⟨htaken, (takenCount_le l hl b.raw).trans hno⟩

/-- Sealed builders that wait have numbers that were not taken yet. -/
theorem takeSealed_new (p : Producer) (hn : Numbered p) :
    ∀ b ∈ p.sealedList.map (sealedBatch cfg), takenCount b.raw p ≤ b.no := by
  intro b hb
  obtain ⟨x, hx, rfl⟩ := List.mem_map.mp hb
  exact (range_split _ _ _ hn.sealedUp).2 x.no (List.mem_map_of_mem hx)

theorem takeSealed_sorted (p : Producer) (hn : Numbered p) :
    Sorted (Before cfg) (p.sealedList.map (sealedBatch cfg)) := by
  have hnos : (p.sealedList.map Sealed.no).Pairwise (· < ·) := by
    have hrange : (List.range p.sealNo).Pairwise (· < ·) := List.pairwise_lt_range
    rw [← hn.sealedUp] at hrange
    exact (List.pairwise_append.mp hrange).2.1
  rw [List.pairwise_map] at hnos
  refine List.pairwise_map.mpr (hnos.imp fun hlt hbefore => ?_)
  exact Nat.lt_asymm hlt hbefore.2.2

theorem rawPop_new (p : Producer) (item : RawItem) (rest : List RawItem)
    (hi : p.queue = item::rest) (hn : Numbered p) : takenCount true p ≤ item.no := by
  have hraw := hn.raw
  rw [hi] at hraw
  exact (range_split _ _ _ hraw).2 item.no List.mem_cons_self

/-- A raw log is not compared with the sealed builders behind it. -/
theorem rawPop_sorted (w : Worker) (item : RawItem) (hpc : w.pc = .pop)
    (h : Sorted (Before cfg) (Worker.jobs cfg w)) :
    Sorted (Before cfg) (rawBatch item::Worker.jobs cfg w) := by
  refine h.cons fun b hb hbefore => ?_
  simp only [Worker.jobs, hpc, job, Option.toList_none, List.map_nil, List.nil_append] at hb
  obtain ⟨x, _, rfl⟩ := List.mem_map.mp hb
  have hraw : false = true := hbefore.2.1
  cases hraw

theorem Move.works {x y : Worker × Producer} (h : Move cfg x y) (hs : Sound cfg.toKeyConfig x.2.keys)
    (hn : Numbered x.2) : Works cfg x y := by
  have hf := h.frame hs
  have hn' := h.numbered hn
  cases h with
  | idle w w' p p' hq hsame =>
    obtain ⟨f, n, k, l, _, _, rfl⟩ := hq
    exact .still hf hn' rfl rfl hsame.jobs
  | keyed w p m hk => exact .still hf hn' rfl rfl rfl
  | skip w p t rest hi he => exact .still hf hn' rfl rfl rfl
  | refuse w p t rest hi => exact .still hf hn' rfl rfl rfl
  | merge w p p' t rest old b hi hfill he =>
    obtain ⟨d, m, l, n, f, rfl⟩ := hfill.frame
    exact .still hf hn' rfl rfl rfl
  | begin w p hflush hr =>
    refine .still hf hn' rfl rfl ?_
    cases hpc : w.pc <;> simp_all [Worker.flushing, Worker.jobs, Worker.job]
  | sealUp w p p' b hfill =>
    obtain ⟨d, m, l, n, f, rfl⟩ := hfill.frame
    exact .still hf hn' rfl rfl rfl
  | take p =>
    refine ⟨hf, hn', rfl, ⟨_, rfl⟩, fun b hb => .inr ?_, fun _ => takeSealed_sorted p hn⟩
    exact ⟨List.mem_append_right _ hb, takeSealed_new p hn b hb⟩
  | rawPop w p item rest hpc hi =>
    have hj : Worker.jobs cfg { w with pc := .prepare ⟨rawToSendTask item, none⟩ } =
        rawBatch item::Worker.jobs cfg w := by
      simp [Worker.jobs, Worker.job, hpc, SendTask.batch, rawToSendTask, rawBatch]
    refine ⟨hf, hn', rfl, ⟨_, rfl⟩, fun b hb => ?_, fun h => ?_⟩
    · dsimp only at hb
      rw [hj] at hb
      obtain rfl | hb := List.mem_cons.mp hb
      · exact .inr ⟨List.mem_append_right _ (List.mem_singleton_self _),
          rawPop_new p item rest hi hn⟩
      · exact .inl hb
    · dsimp only
      rw [hj]
      exact rawPop_sorted w item hpc h
  | scratchReserve w w' p bytes hsame hsp => exact .still hf hn' rfl rfl hsame.jobs
  | scratchRelease w w' p bytes hsame => exact .still hf hn' rfl rfl hsame.jobs
  | sendReserve w p j now hpc hsp =>
    refine .still hf hn' rfl rfl (jobs_at cfg w _ ?_)
    rcases hpc with hpc | ⟨d, hpc⟩ <;> (rw [hpc]; rfl)
  | unreserve w p j hpc => exact .still hf hn' rfl rfl (jobs_at cfg w _ (by rw [hpc]; rfl))
  | drop w p j hpc =>
    have hj := done_jobs cfg j w (by rw [hpc]; rfl)
    refine ⟨hf, hn', rfl, ⟨[], (List.append_nil _).symm⟩, fun b hb => .inl ?_, fun h => ?_⟩
    · rw [hj]
      exact List.mem_cons_of_mem _ hb
    · rw [hj] at h
      exact h.tail.1
  | release w p bytes hpc =>
    refine .still hf hn' rfl rfl ?_
    dsimp only
    rw [(next_same w).jobs]
    exact jobs_at cfg w _ (by rw [hpc]; rfl)
  | finish w p hpc => exact .still hf hn' rfl rfl (jobs_at cfg w _ (by rw [hpc]; rfl))

theorem Moves.works {x y : Worker × Producer} (h : Moves cfg x y)
    (hs : Sound cfg.toKeyConfig x.2.keys) (hn : Numbered x.2) : Works cfg x y := by
  induction h with
  | refl => exact .refl x hs hn
  | tail _ hm ih => exact ih.trans (hm.works ih.frame.sound ih.numbered)

/-- The batches a worker still has to push. -/
def unpushed (cfg : Config) (w : Worker) : List Batch :=
  match w.pc with
  | .unreserve _ | .drop _ => w.sealedRest.map (sealedBatch cfg)
  | _ => jobs cfg w

theorem unpushed_sub (w : Worker) : ∀ b ∈ unpushed cfg w, b ∈ jobs cfg w := by
  intro b hb
  unfold unpushed at hb
  split at hb
  · exact List.mem_append_right _ hb
  · exact List.mem_append_right _ hb
  · exact hb

theorem unpushed_jobs (w : Worker) (hu : ∀ j, w.pc ≠ .unreserve j) (hd : ∀ j, w.pc ≠ .drop j) :
    unpushed cfg w = jobs cfg w := by
  unfold unpushed
  split
  · rename_i hpc
    exact absurd hpc (hu _)
  · rename_i hpc
    exact absurd hpc (hd _)
  · rfl

/-- A batch that a worker is about to drop it does not push any more. -/
theorem step_unpushed (i : Input) (w : Worker) (p : Producer) (r : Worker × Producer)
    (h : step cfg i w p = some r) (New : Batch → Prop)
    (hjobs : ∀ b ∈ jobs cfg r.1, b ∈ jobs cfg w ∨ New b) :
    ∀ b ∈ unpushed cfg r.1, b ∈ unpushed cfg w ∨ New b := by
  intro b hb
  by_cases hu : ∃ j, w.pc = .unreserve j
  · obtain ⟨j, hpc⟩ := hu
    simp only [step, hpc, Option.some.injEq] at h
    subst h
    refine .inl ?_
    rw [unpushed, hpc]
    exact hb
  · by_cases hd : ∃ j, w.pc = .drop j
    · obtain ⟨j, hpc⟩ := hd
      simp only [step, hpc, Option.some.injEq] at h
      subst h
      have hj := done_jobs cfg j w (by rw [hpc]; rfl)
      have hrest : Worker.jobs cfg w = j.task.batch::w.sealedRest.map (sealedBatch cfg) := by
        simp [Worker.jobs, hpc, job]
      rw [hrest] at hj
      refine .inl ?_
      rw [unpushed, hpc]
      dsimp only
      rw [(List.cons.inj hj).2]
      exact unpushed_sub _ b hb
    · rw [unpushed_jobs w (fun j hj => hu ⟨j, hj⟩) (fun j hj => hd ⟨j, hj⟩)]
      exact hjobs b (unpushed_sub r.1 b hb)

/-- The task that the worker is about to push. -/
def toPush : Pc → Option SendTask
  | .push j _ => some j.task
  | _ => none

/-- The send queue takes a task. -/
def hasSlot (cfg : Config) (p : Producer) : Bool :=
  !p.sendQueueStop && decide (p.sendQueue.length < cfg.sendQueueCap)

theorem push_hasSlot (i : Input) (w : Worker) (p : Producer) (r : Worker × Producer) (j : Job)
    (start : ℤ) (hpc : w.pc = .push j start) (h : step cfg i w p = some r)
    (hq : r.2.sendQueue = p.sendQueue++[j.task]) : hasSlot cfg p = true := by
  have hne : p.sendQueue ≠ p.sendQueue++[j.task] := by
    intro he
    exact absurd (congrArg List.length he) (by simp)
  simp only [step, hpc, Option.some.injEq] at h
  subst h
  unfold sendQueuePush at hq
  split at hq
  · exact absurd hq hne
  · rename_i hstop
    split at hq
    · dsimp only at hq
      split at hq
      · exact absurd hq hne
      · split at hq <;> exact absurd hq hne
    · rename_i hfull
      simp only [hasSlot, Bool.and_eq_true, Bool.not_eq_true', decide_eq_true_eq]
      exact ⟨by simpa using hstop, by omega⟩

end Worker

namespace Writer

/-- What a writer leaves of the way to the first request: all of it. -/
structure Leaves (cfg : Config) (p p' : Producer) : Prop where
  sound : Sound cfg.toKeyConfig p'.keys
  numbered : Numbered p'
  sendQueue : p'.sendQueue = p.sendQueue
  taken : p'.taken = p.taken
  attempts : p'.attempts = p.attempts
  ring : ∀ k, ring cfg.toKeyConfig p'.keys k = ring cfg.toKeyConfig p.keys k

theorem Frame.leaves {p p' : Producer} (h : Frame cfg p p') (hn : Numbered p') :
    Leaves cfg p p' := ⟨h.sound, hn, h.sendQueue, h.taken, h.attempts, h.ring⟩

theorem Leaves.trans {p₁ p₂ p₃ : Producer} (h : Leaves cfg p₁ p₂) (h' : Leaves cfg p₂ p₃) :
    Leaves cfg p₁ p₃ :=
  ⟨h'.sound, h'.numbered, h'.sendQueue.trans h.sendQueue, h'.taken.trans h.taken,
    h'.attempts.trans h.attempts, fun k => (h'.ring k).trans (h.ring k)⟩

theorem Moves.leaves {me : ℕ} {src : Pc} {x y : Writer × Producer} (h : Moves cfg me src x y)
    (hs : Sound cfg.toKeyConfig x.2.keys) (hn : Numbered x.2) : Leaves cfg x.2 y.2 := by
  induction h with
  | refl => exact ⟨hs, hn, rfl, rfl, rfl, fun _ => rfl⟩
  | tail _ hm ih => exact ih.trans ((hm.frame ih.sound).leaves (hm.numbered ih.numbered))

end Writer

namespace Sender

/-- The task a sender has popped and not put into the queue of its key. -/
def unput : Pc → Option SendTask
  | .moving t | .pushing t => some t
  | _ => none

/-- The task that the sender is about to put into the queue of its key. -/
def toPut : Pc → Option SendTask
  | .pushing t => some t
  | _ => none

/-- The sender is not on the path of `fast_send`. -/
def ByQueue : Pc → Prop
  | .counting _ | .attempt none _ | .report none _ _ | .release none _ | .uncount => False
  | _ => True

theorem unput_window (pc : Pc) (t : SendTask) (h : unput pc = some t) : window pc = some t := by
  cases pc <;> first | exact h | cases h

theorem byQueue_step (i : Input) (pc : Pc) (p : Producer) (r : Pc × Producer)
    (hf : cfg.fastSend = false) (hqueued : ByQueue pc) (h : step cfg i pc p = some r) : ByQueue r.1 := by
  unfold step at h
  split at h
  · cases h
  · cases pc with
    | top =>
      obtain rfl := Option.some.inj h
      unfold top
      dsimp only
      split
      · trivial
      · split <;> trivial
    | popSendQueue block =>
      simp only [popSendQueue, hf] at h
      split at h
      · obtain rfl := Option.some.inj h
        trivial
      · split at h
        · cases h
        · obtain rfl := Option.some.inj h
          trivial
    | moving t =>
      obtain rfl := Option.some.inj h
      rw [hf]
      trivial
    | pushing t =>
      obtain rfl := Option.some.inj h
      unfold pushing
      dsimp only
      split <;> trivial
    | stopCheck =>
      obtain rfl := Option.some.inj h
      unfold stopCheck
      split <;> trivial
    | exitPop pending =>
      obtain rfl := Option.some.inj h
      unfold exitPop
      split <;> trivial
    | exitCheck pending =>
      obtain rfl := Option.some.inj h
      unfold exitCheck
      split <;> trivial
    | gate q s =>
      obtain rfl := Option.some.inj h
      unfold gate
      dsimp only
      split
      · split <;> trivial
      · trivial
    | breakerWait q s =>
      dsimp only at h
      split at h
      · cases h
      · obtain rfl := Option.some.inj h
        trivial
    | breakerEnter q s =>
      obtain rfl := Option.some.inj h
      unfold breakerEnter
      split
      · trivial
      · split <;> trivial
    | attempt q s =>
      obtain rfl := Option.some.inj h
      cases q with
      | none => exact hqueued.elim
      | some q =>
        unfold attempt
        split
        · trivial
        · trivial
        · dsimp only
          split <;> trivial
    | report q s sent =>
      obtain rfl := Option.some.inj h
      cases q with
      | none => exact hqueued.elim
      | some q => trivial
    | release q t =>
      obtain rfl := Option.some.inj h
      cases q with
      | none => exact hqueued.elim
      | some q => trivial
    | counting t => exact hqueued.elim
    | uncount => exact hqueued.elim
    | exited => cases h
    | _ =>
      obtain rfl := Option.some.inj h
      trivial

/-- A task that was not put anywhere was not before, or was popped just now. -/
theorem step_unput (i : Input) (pc : Pc) (p : Producer) (r : Pc × Producer)
    (h : step cfg i pc p = some r) (t : SendTask) (ht : unput r.1 = some t) :
    unput pc = some t ∨ p.sendQueue = t::r.2.sendQueue := by
  unfold step at h
  split at h
  · cases h
  · cases pc with
    | top =>
      obtain rfl := Option.some.inj h
      unfold top at ht
      dsimp only at ht
      split at ht
      · cases ht
      · split at ht <;> cases ht
    | popSendQueue block =>
      dsimp only at h
      unfold popSendQueue at h
      split at h
      · rename_i hq
        obtain rfl := Option.some.inj h
        obtain rfl := Option.some.inj ht
        exact .inr hq
      · split at h
        · cases h
        · split at h <;> (obtain rfl := Option.some.inj h; cases ht)
    | moving t =>
      obtain rfl := Option.some.inj h
      dsimp only at ht
      split at ht
      · cases ht
      · exact .inl ht
    | pushing t =>
      obtain rfl := Option.some.inj h
      unfold pushing at ht
      dsimp only at ht
      split at ht <;> cases ht
    | stopCheck =>
      obtain rfl := Option.some.inj h
      unfold stopCheck at ht
      split at ht <;> cases ht
    | exitPop pending =>
      obtain rfl := Option.some.inj h
      unfold exitPop at ht ⊢
      split at ht
      · rename_i hq
        obtain rfl := Option.some.inj ht
        simp only [hq]
        exact .inr trivial
      · cases ht
    | exitCheck pending =>
      obtain rfl := Option.some.inj h
      unfold exitCheck at ht
      split at ht <;> cases ht
    | gate q s =>
      obtain rfl := Option.some.inj h
      unfold gate at ht
      dsimp only at ht
      split at ht
      · split at ht <;> cases ht
      · cases ht
    | breakerWait q s =>
      dsimp only at h
      split at h
      · cases h
      · obtain rfl := Option.some.inj h
        cases ht
    | breakerEnter q s =>
      obtain rfl := Option.some.inj h
      unfold breakerEnter at ht
      split at ht
      · cases ht
      · split at ht <;> cases ht
    | attempt q s =>
      obtain rfl := Option.some.inj h
      unfold attempt at ht
      split at ht
      · cases ht
      · cases ht
      · dsimp only at ht
        split at ht
        · cases q <;> cases ht
        · cases ht
    | report q s sent =>
      obtain rfl := Option.some.inj h
      cases q <;> cases ht
    | release q t =>
      obtain rfl := Option.some.inj h
      cases q <;> cases ht
    | exited => cases h
    | _ =>
      obtain rfl := Option.some.inj h
      cases ht

end Sender

namespace Sys

variable {st : Setup}

/-- The places on the way of a batch, in their order: workers, the send queue,
senders that popped it, the queues of the keys, senders that send it, and the
requests made. -/
def At (st : Setup) (s : Sys) : ℕ → Batch → Prop
  | 0, b => ∃ i < st.cfg.workerCount, b ∈ Worker.unpushed st.cfg (s.workers i)
  | 1, b => b ∈ s.prod.sendQueue.map SendTask.batch
  | 2, b => ∃ i < st.cfg.senderCount, ∃ t, Sender.unput (s.senders i) = some t ∧ t.batch = b
  | 3, b => ∃ k, b ∈ (ring st.cfg.toKeyConfig s.prod.keys k).map SendTask.batch
  | 4, b => ∃ i < st.cfg.senderCount, ∃ t, Sender.sending (s.senders i) = some t ∧ t.batch = b
  | 5, b => b ∈ s.prod.attempts
  | _, _ => False

/-- On the way no batch is ahead of one that was sealed before it. -/
structure InLine (st : Setup) (s : Sys) : Prop where
  numbered : Numbered s.prod
  byQueue : ∀ i, Sender.ByQueue (s.senders i)
  inOrder : InOrder (Before st.cfg) (At st s)
  taken : ∀ k b, At st s k b → b ∈ s.prod.taken
  jobs : ∀ i, Sorted (Before st.cfg) (Worker.jobs st.cfg (s.workers i))
  queue : Sorted (Before st.cfg) (s.prod.sendQueue.map SendTask.batch)
  rings : ∀ k, Sorted (Before st.cfg)
    ((ring st.cfg.toKeyConfig s.prod.keys k).map SendTask.batch)
  attempts : Sorted (Before st.cfg) s.prod.attempts

theorem at_writer {s : Sys} (i : ℕ) (r : Writer × Producer) (hl : Writer.Leaves st.cfg s.prod r.2) :
    At st (s.setWriter i r) = At st s := by
  funext k b
  match k with
  | 0 => rfl
  | 1 =>
    show (b ∈ r.2.sendQueue.map SendTask.batch) = _
    rw [hl.sendQueue]
    rfl
  | 2 => rfl
  | 3 =>
    show (∃ k, b ∈ (ring _ r.2.keys k).map SendTask.batch) = _
    simp only [hl.ring]
    rfl
  | 4 => rfl
  | 5 =>
    show (b ∈ r.2.attempts) = _
    rw [hl.attempts]
    rfl
  | _+6 => rfl

theorem InLine.writer {s : Sys} (h : InLine st s) (i : ℕ) (r : Writer × Producer)
    (hl : Writer.Leaves st.cfg s.prod r.2) : InLine st (s.setWriter i r) := by
  have hat : At st (s.setWriter i r) = At st s := at_writer i r hl
  refine ⟨hl.numbered, h.byQueue, ?_, ?_, h.jobs, ?_, ?_, ?_⟩
  · rw [hat]
    exact h.inOrder
  · rw [hat]
    intro k b hb
    show b ∈ r.2.taken
    rw [hl.taken]
    exact h.taken k b hb
  · show Sorted _ (r.2.sendQueue.map _)
    rw [hl.sendQueue]
    exact h.queue
  · intro k
    show Sorted _ ((ring _ r.2.keys k).map _)
    rw [hl.ring]
    exact h.rings k
  · show Sorted _ r.2.attempts
    rw [hl.attempts]
    exact h.attempts

/-- What is at a place after a step of a worker. -/
theorem at_worker {s : Sys} (i : ℕ) (r : Worker × Producer) (Q : ℕ → Batch → Prop)
    (hold : ∀ k b, At st s k b → Q k b)
    (hring : ∀ k, ring st.cfg.toKeyConfig r.2.keys k = ring st.cfg.toKeyConfig s.prod.keys k)
    (hattempts : r.2.attempts = s.prod.attempts)
    (hhas : ∀ b ∈ Worker.unpushed st.cfg r.1, Q 0 b)
    (hqueue : ∀ b ∈ r.2.sendQueue.map SendTask.batch, Q 1 b) :
    ∀ k b, At st (s.setWorker i r) k b → Q k b := by
  intro k b hb
  match k, hb with
  | 0, ⟨j, hj, hb⟩ =>
    by_cases hji : j = i
    · subst hji
      rw [show (s.setWorker j r).workers j = r.1 from Function.update_self _ _ _] at hb
      exact hhas b hb
    · rw [show (s.setWorker i r).workers j = s.workers j from Function.update_of_ne hji _ _] at hb
      exact hold 0 b ⟨j, hj, hb⟩
  | 1, hb => exact hqueue b hb
  | 2, hb => exact hold 2 b hb
  | 3, ⟨k, hb⟩ => exact hold 3 b ⟨k, by rwa [← hring k]⟩
  | 4, hb => exact hold 4 b hb
  | 5, hb =>
    have hb' : b ∈ r.2.attempts := hb
    rw [hattempts] at hb'
    exact hold 5 b hb'

/-- What is at a place after a step of a sender. -/
theorem at_sender {s : Sys} (i : ℕ) (r : Sender.Pc × Producer) (Q : ℕ → Batch → Prop)
    (hold : ∀ k b, At st s k b → Q k b)
    (hqueue : ∀ b ∈ r.2.sendQueue.map SendTask.batch, Q 1 b)
    (hunput : ∀ t, Sender.unput r.1 = some t → Q 2 t.batch)
    (hring : ∀ k, ∀ b ∈ (ring st.cfg.toKeyConfig r.2.keys k).map SendTask.batch, Q 3 b)
    (hsending : ∀ t, Sender.sending r.1 = some t → Q 4 t.batch)
    (hattempts : ∀ b ∈ r.2.attempts, Q 5 b) : ∀ k b, At st (s.setSender i r) k b → Q k b := by
  intro k b hb
  match k, hb with
  | 0, hb => exact hold 0 b hb
  | 1, hb => exact hqueue b hb
  | 2, ⟨j, hj, t, ht, he⟩ =>
    by_cases hji : j = i
    · subst hji
      rw [senders_self] at ht
      rw [← he]
      exact hunput t ht
    · rw [senders_other s i j r hji] at ht
      exact hold 2 b ⟨j, hj, t, ht, he⟩
  | 3, ⟨k, hb⟩ => exact hring k b hb
  | 4, ⟨j, hj, t, ht, he⟩ =>
    by_cases hji : j = i
    · subst hji
      rw [senders_self] at ht
      rw [← he]
      exact hsending t ht
    · rw [senders_other s i j r hji] at ht
      exact hold 4 b ⟨j, hj, t, ht, he⟩
  | 5, hb => exact hattempts b hb

/-- A batch taken after another one is not to go before it. -/
theorem not_before_new {p : Producer} (hn : Numbered p) {a b : Batch} (hb : b ∈ p.taken)
    (ha : takenCount a.raw p ≤ a.no) : ¬Before st.cfg a b := by
  intro ⟨_, hraw, hno⟩
  have hlt := hn.taken_lt b hb
  rw [← hraw] at hlt
  omega

theorem workers_sorted {s : Sys} (h : InLine st s) (i : ℕ) (r : Worker × Producer)
    (hr : Sorted (Before st.cfg) (Worker.jobs st.cfg r.1)) (j : ℕ) :
    Sorted (Before st.cfg) (Worker.jobs st.cfg ((s.setWorker i r).workers j)) :=
  forall_update (fun w => Sorted (Before st.cfg) (Worker.jobs st.cfg w)) s.workers i r.1 h.jobs hr j

/-- A worker that takes batches takes them after all others. -/
theorem InLine.works {s : Sys} (h : InLine st s) (i : ℕ) (r : Worker × Producer)
    (input : Worker.Input) (hstep : Worker.step st.cfg input (s.workers i) s.prod = some r)
    (hi : i < st.cfg.workerCount)
    (hw : Worker.Works st.cfg (s.workers i, s.prod) r) : InLine st (s.setWorker i r) := by
  have hhas := Worker.step_unpushed input (s.workers i) s.prod r hstep
    (fun b => b ∈ r.2.taken ∧ takenCount b.raw s.prod ≤ b.no) hw.jobs
  have hqueue : ∀ b ∈ r.2.sendQueue.map SendTask.batch, At st s 1 b := by
    rw [hw.sendQueue]
    exact fun b hb => hb
  have hsub : ∀ k b, At st (s.setWorker i r) k b → At st s k b ∨
      k = 0 ∧ b ∈ r.2.taken ∧ takenCount b.raw s.prod ≤ b.no :=
    at_worker i r _ (fun k b hb => .inl hb) hw.frame.ring hw.frame.attempts
      (fun b hb => (hhas b hb).imp (fun hb => ⟨i, hi, hb⟩) fun hb => ⟨rfl, hb⟩)
      fun b hb => .inl (hqueue b hb)
  obtain ⟨l, htaken⟩ := hw.taken
  refine ⟨hw.numbered, h.byQueue, ?_, ?_, workers_sorted h i r (hw.sorted (h.jobs i)), ?_, ?_, ?_⟩
  · exact h.inOrder.enter 0 _ hsub
      (fun l b a _ hb ha => not_before_new h.numbered (h.taken l b hb) ha.2)
      fun k a b hk => absurd hk (Nat.not_lt_zero k)
  · intro k b hb
    obtain hold | ⟨_, hnew, _⟩ := hsub k b hb
    · show b ∈ r.2.taken
      rw [htaken]
      exact List.mem_append_left _ (h.taken k b hold)
    · exact hnew
  · show Sorted _ (r.2.sendQueue.map _)
    rw [hw.sendQueue]
    exact h.queue
  · intro k
    show Sorted _ ((ring _ r.2.keys k).map _)
    rw [hw.frame.ring]
    exact h.rings k
  · show Sorted _ r.2.attempts
    rw [hw.frame.attempts]
    exact h.attempts

/-- The batch `x` moves from one place to another. -/
theorem InLine.moved {s s' : Sys} (h : InLine st s) (x : Batch) (m m' : ℕ) (hx : At st s m x)
    (hsub : ∀ k b, At st s' k b → At st s k b ∨ k = m' ∧ b = x)
    (htaken : s'.prod.taken = s.prod.taken)
    (hpass : ∀ k a, m ≤ k → k < m' → At st s' k a → ¬Before st.cfg a x)
    (hback : ∀ k b, m' < k → k ≤ m → At st s' k b → ¬Before st.cfg x b) :
    InOrder (Before st.cfg) (At st s') ∧ ∀ k b, At st s' k b → b ∈ s'.prod.taken := by
  refine ⟨h.inOrder.move x m m' hx hsub hpass hback, fun k b hb => ?_⟩
  rw [htaken]
  obtain hold | ⟨_, rfl⟩ := hsub k b hb
  · exact h.taken k b hold
  · exact h.taken m _ hx

/-- No other worker has an earlier batch of the key that it still has to push. -/
def PushesNext (st : Setup) (s : Sys) (i : ℕ) (b : Batch) : Prop :=
  ∀ j < st.cfg.workerCount, j ≠ i → ∀ a ∈ Worker.unpushed st.cfg (s.workers j),
    ¬Before st.cfg a b

/-- No other sender has an earlier batch of the key that it still has to put
into the queue of the key. -/
def PutsNext (st : Setup) (s : Sys) (i : ℕ) (b : Batch) : Prop :=
  ∀ j < st.cfg.senderCount, j ≠ i → ∀ t ∈ Sender.unput (s.senders j), ¬Before st.cfg t.batch b

theorem InLine.push {s : Sys} (h : InLine st s) (i : ℕ) (j : Job) (start : ℤ)
    (hi : i < st.cfg.workerCount) (hpc : (s.workers i).pc = .push j start)
    (hnext : PushesNext st s i j.task.batch) :
    InLine st (s.setWorker i (Worker.done j (s.workers i),
      { s.prod with sendQueue := s.prod.sendQueue++[j.task] })) := by
  set r : Worker × Producer := (Worker.done j (s.workers i),
    { s.prod with sendQueue := s.prod.sendQueue++[j.task] }) with hr
  have hjobs := done_jobs st.cfg j (s.workers i) (by rw [hpc]; rfl)
  have hhead : At st s 0 j.task.batch := by
    refine ⟨i, hi, ?_⟩
    rw [Worker.unpushed_jobs _ (by rw [hpc]; nofun) (by rw [hpc]; nofun), hjobs]
    exact List.mem_cons_self
  have hsorted := h.jobs i
  rw [hjobs] at hsorted
  have hrest : ∀ b ∈ Worker.unpushed st.cfg r.1, ¬Before st.cfg b j.task.batch ∧ At st s 0 b := by
    intro b hb
    have hb' := Worker.unpushed_sub r.1 b hb
    refine ⟨hsorted.tail.2 b hb', i, hi, ?_⟩
    rw [Worker.unpushed_jobs _ (by rw [hpc]; nofun) (by rw [hpc]; nofun), hjobs]
    exact List.mem_cons_of_mem _ hb'
  have hsub : ∀ k b, At st (s.setWorker i r) k b → At st s k b ∨ k = 1 ∧ b = j.task.batch := by
    refine at_worker i r _ (fun k b hb => .inl hb) (fun _ => rfl) rfl
      (fun b hb => .inl (hrest b hb).2) fun b hb => ?_
    rw [hr, List.map_append] at hb
    obtain hb | hb := List.mem_append.mp hb
    · exact .inl hb
    · exact .inr ⟨rfl, List.mem_singleton.mp hb⟩
  have hpass : ∀ k a, 0 ≤ k → k < 1 → At st (s.setWorker i r) k a →
      ¬Before st.cfg a j.task.batch := by
    intro k a _ hk ha
    obtain rfl : k = 0 := by omega
    obtain ⟨j', hj', ha⟩ := ha
    by_cases hji : j' = i
    · subst hji
      rw [show (s.setWorker j' r).workers j' = r.1 from Function.update_self _ _ _] at ha
      exact (hrest a ha).1
    · rw [show (s.setWorker i r).workers j' = s.workers j' from Function.update_of_ne hji _ _] at ha
      exact hnext j' hj' hji a ha
  obtain ⟨horder, htaken⟩ := h.moved _ 0 1 hhead hsub rfl hpass fun k b hk hk' => by omega
  refine ⟨h.numbered.keep rfl rfl rfl rfl rfl, h.byQueue, horder, htaken,
    workers_sorted h i r hsorted.tail.1, ?_, h.rings, h.attempts⟩
  show Sorted _ ((s.prod.sendQueue++[j.task]).map SendTask.batch)
  rw [List.map_append]
  exact h.queue.snoc fun a ha => h.inOrder 0 1 _ a Nat.zero_lt_one hhead ha

theorem byQueue_sends (pc : Sender.Pc) (t : SendTask) (hqueued : Sender.ByQueue pc)
    (h : Sender.sending pc = some t) :
    Sender.carried pc = some t ∧ ∃ q, Sender.queue pc = some q := by
  cases pc with
  | gate q x => exact ⟨h, q, rfl⟩
  | requeue q x next => exact ⟨h, q, rfl⟩
  | breakerWait q x => exact ⟨h, q, rfl⟩
  | breakerEnter q x => exact ⟨h, q, rfl⟩
  | attempt q x =>
    cases q with
    | none => exact hqueued.elim
    | some q => exact ⟨h, q, rfl⟩
  | report q x sent =>
    cases q with
    | none => exact hqueued.elim
    | some q => exact ⟨h, q, rfl⟩
  | _ => cases h

/-- Two senders do not send batches of one key. -/
theorem sending_alone {s : Sys} (hc : Core st s) (hf : Filed st s) (h : InLine st s) {i j : ℕ}
    (hi : i < st.cfg.senderCount) (hj : j < st.cfg.senderCount) (hij : j ≠ i) {t t' : SendTask}
    (ht : Sender.sending (s.senders i) = some t) (ht' : Sender.sending (s.senders j) = some t') :
    st.cfg.normalizeHashKey t.hashKey ≠ st.cfg.normalizeHashKey t'.hashKey := by
  obtain ⟨hcarry, q, hq⟩ := byQueue_sends _ t (h.byQueue i) ht
  obtain ⟨hcarry', q', hq'⟩ := byQueue_sends _ t' (h.byQueue j) ht'
  have hlive := ((hc.held q).mpr ⟨i, hi, hq⟩).1
  have hlive' := ((hc.held q').mpr ⟨j, hj, hq'⟩).1
  intro hkey
  rw [hf.hands i hi q t hq hcarry, hf.hands j hj q' t' hq' hcarry'] at hkey
  obtain rfl := hc.sound.hashed.key q q' hlive hlive' hkey
  exact hij (hc.alone j i q hj hi hq' hq)

/-- A step of a sender that leaves every batch where it is. -/
theorem InLine.still {s : Sys} (h : InLine st s) (i : ℕ) (hi : i < st.cfg.senderCount)
    (r : Sender.Pc × Producer) (hn : Numbered r.2) (hqueued : Sender.ByQueue r.1)
    (htaken : r.2.taken = s.prod.taken) (hqueue : r.2.sendQueue = s.prod.sendQueue)
    (hring : ∀ k, ring st.cfg.toKeyConfig r.2.keys k = ring st.cfg.toKeyConfig s.prod.keys k)
    (hattempts : r.2.attempts = s.prod.attempts)
    (hunput : ∀ t, Sender.unput r.1 = some t → Sender.unput (s.senders i) = some t)
    (hsending : ∀ t, Sender.sending r.1 = some t → Sender.sending (s.senders i) = some t) :
    InLine st (s.setSender i r) := by
  have hsub : ∀ k b, At st (s.setSender i r) k b → At st s k b := by
    refine at_sender i r _ (fun k b hb => hb) ?_ (fun t ht => ⟨i, hi, t, hunput t ht, rfl⟩) ?_
      (fun t ht => ⟨i, hi, t, hsending t ht, rfl⟩) ?_
    · rw [hqueue]
      exact fun b hb => hb
    · intro k b hb
      rw [hring] at hb
      exact ⟨k, hb⟩
    · rw [hattempts]
      exact fun b hb => hb
  refine ⟨hn, forall_update _ s.senders i r.1 h.byQueue hqueued, h.inOrder.sub hsub, ?_, h.jobs, ?_, ?_,
    ?_⟩
  · intro k b hb
    show b ∈ r.2.taken
    rw [htaken]
    exact h.taken k b (hsub k b hb)
  · show Sorted _ (r.2.sendQueue.map _)
    rw [hqueue]
    exact h.queue
  · intro k
    show Sorted _ ((ring _ r.2.keys k).map _)
    rw [hring]
    exact h.rings k
  · show Sorted _ r.2.attempts
    rw [hattempts]
    exact h.attempts

theorem InLine.pop {s : Sys} (h : InLine st s) (i : ℕ) (t : SendTask) (rest : List SendTask)
    (hq : s.prod.sendQueue = t::rest) :
    InLine st (s.setSender i (.moving t, { s.prod with sendQueue := rest })) := by
  have hsorted := h.queue
  rw [hq] at hsorted
  have hx : At st s 1 t.batch := by
    show t.batch ∈ s.prod.sendQueue.map SendTask.batch
    rw [hq]
    exact List.mem_cons_self
  have hrest : ∀ b ∈ rest.map SendTask.batch, At st s 1 b := by
    intro b hb
    show b ∈ s.prod.sendQueue.map SendTask.batch
    rw [hq]
    exact List.mem_cons_of_mem _ hb
  have hsub : ∀ k b, At st (s.setSender i (.moving t, { s.prod with sendQueue := rest })) k b →
      At st s k b ∨ k = 2 ∧ b = t.batch := by
    refine at_sender i _ _ (fun k b hb => .inl hb) (fun b hb => .inl (hrest b hb)) ?_
      (fun k b hb => .inl ⟨k, hb⟩) nofun fun b hb => .inl hb
    intro t' ht'
    obtain rfl := Option.some.inj ht'
    exact .inr ⟨rfl, rfl⟩
  obtain ⟨horder, htaken⟩ := h.moved _ 1 2 hx hsub rfl (fun k a hk hk' ha => by
    obtain rfl : k = 1 := by omega
    exact hsorted.tail.2 a ha) fun k b hk hk' => by omega
  exact ⟨h.numbered.keep rfl rfl rfl rfl rfl, forall_update _ s.senders i _ h.byQueue trivial, horder,
    htaken, h.jobs, hsorted.tail.1, h.rings, h.attempts⟩

theorem InLine.put {s : Sys} (h : InLine st s) (i : ℕ) (hi : i < st.cfg.senderCount)
    (t : SendTask) (m : KeyMap SendTask Builder) (hpc : s.senders i = .pushing t)
    (hring : ∀ k, ring st.cfg.toKeyConfig m k =
      if k = st.cfg.normalizeHashKey t.hashKey then ring st.cfg.toKeyConfig s.prod.keys k++[t]
      else ring st.cfg.toKeyConfig s.prod.keys k)
    (hnext : PutsNext st s i t.batch) :
    InLine st (s.setSender i (.top, { s.prod with keys := m })) := by
  have hx : At st s 2 t.batch := ⟨i, hi, t, by rw [hpc]; rfl, rfl⟩
  have hsub : ∀ k b, At st (s.setSender i (.top, { s.prod with keys := m })) k b →
      At st s k b ∨ k = 3 ∧ b = t.batch := by
    refine at_sender i _ _ (fun k b hb => .inl hb) (fun b hb => .inl hb) nofun ?_ nofun
      fun b hb => .inl hb
    intro k b hb
    rw [hring] at hb
    split at hb
    · rw [List.map_append] at hb
      obtain hb | hb := List.mem_append.mp hb
      · exact .inl ⟨k, hb⟩
      · exact .inr ⟨rfl, List.mem_singleton.mp hb⟩
    · exact .inl ⟨k, hb⟩
  have hpass : ∀ k a, 2 ≤ k → k < 3 → At st (s.setSender i (.top, { s.prod with keys := m })) k a →
      ¬Before st.cfg a t.batch := by
    intro k a hk hk' ha
    obtain rfl : k = 2 := by omega
    obtain ⟨j, hj, t', ht', rfl⟩ := ha
    by_cases hji : j = i
    · subst hji
      rw [senders_self] at ht'
      cases ht'
    · rw [senders_other s i j _ hji] at ht'
      exact hnext j hj hji t' ht'
  obtain ⟨horder, htaken⟩ := h.moved _ 2 3 hx hsub rfl hpass fun k b hk hk' => by omega
  refine ⟨h.numbered.keep rfl rfl rfl rfl rfl, forall_update _ s.senders i _ h.byQueue trivial, horder,
    htaken, h.jobs, h.queue, fun k => ?_, h.attempts⟩
  show Sorted _ ((ring _ m k).map SendTask.batch)
  rw [hring]
  split
  · rw [List.map_append]
    exact (h.rings k).snoc fun a ha => h.inOrder 2 3 _ a (by decide) hx ⟨k, ha⟩
  · exact h.rings k

theorem InLine.take {s : Sys} (h : InLine st s) (hf : Filed st s) (i : ℕ) (q : Addr)
    (t : SendTask) (rest : List SendTask) (now : ℤ) (m : KeyMap SendTask Builder)
    (hfirst : ring st.cfg.toKeyConfig s.prod.keys (m.info q).key = t::rest)
    (hring : ∀ k, ring st.cfg.toKeyConfig m k =
      if k = (m.info q).key then rest else ring st.cfg.toKeyConfig s.prod.keys k) :
    InLine st (s.setSender i (.gate q (Sender.firstSend t now), { s.prod with keys := m })) := by
  set r : Sender.Pc × Producer :=
    (.gate q (Sender.firstSend t now), { s.prod with keys := m })
  have hsorted := h.rings (m.info q).key
  rw [hfirst] at hsorted
  have hkey : st.cfg.normalizeHashKey t.hashKey = (m.info q).key :=
    hf.ring _ t (by rw [hfirst]; exact List.mem_cons_self)
  have hx : At st s 3 t.batch := ⟨(m.info q).key, by rw [hfirst]; exact List.mem_cons_self⟩
  have hleft : ∀ k, ∀ b ∈ (ring st.cfg.toKeyConfig m k).map SendTask.batch,
      At st s 3 b ∧ ¬Before st.cfg b t.batch := by
    intro k b hb
    rw [hring] at hb
    split at hb
    · refine ⟨⟨(m.info q).key, ?_⟩, hsorted.tail.2 b hb⟩
      rw [hfirst]
      exact List.mem_cons_of_mem _ hb
    · rename_i hk
      refine ⟨⟨k, hb⟩, fun hbefore => hk ?_⟩
      obtain ⟨t', ht', rfl⟩ := List.mem_map.mp hb
      rw [← hf.ring k t' ht', ← hkey]
      exact hbefore.1
  have hsub : ∀ k b, At st (s.setSender i r) k b → At st s k b ∨ k = 4 ∧ b = t.batch := by
    refine at_sender i r _ (fun k b hb => .inl hb) (fun b hb => .inl hb) nofun
      (fun k b hb => .inl (hleft k b hb).1) ?_ fun b hb => .inl hb
    intro t' ht'
    obtain rfl := Option.some.inj ht'
    exact .inr ⟨rfl, rfl⟩
  obtain ⟨horder, htaken⟩ := h.moved _ 3 4 hx hsub rfl (fun k a hk hk' ha => by
    obtain rfl : k = 3 := by omega
    obtain ⟨k, ha⟩ := ha
    exact (hleft k a ha).2) fun k b hk hk' => by omega
  refine ⟨h.numbered.keep rfl rfl rfl rfl rfl, forall_update _ s.senders i _ h.byQueue trivial, horder,
    htaken, h.jobs, h.queue, fun k => ?_, h.attempts⟩
  show Sorted _ ((ring _ m k).map SendTask.batch)
  rw [hring]
  split
  · exact hsorted.tail.1
  · exact h.rings k

/-- A batch goes back to the front of the queue of its key. -/
theorem InLine.requeue {s : Sys} (h : InLine st s) (hc : Core st s) (hf : Filed st s) (i : ℕ)
    (hi : i < st.cfg.senderCount) (q : Addr) (t : SendTask) (next : ℤ)
    (m : KeyMap SendTask Builder) (hpc : s.senders i = .requeue q t next)
    (hring : ∀ k, ring st.cfg.toKeyConfig m k =
      if k = (s.prod.keys.info q).key then t::ring st.cfg.toKeyConfig s.prod.keys k
      else ring st.cfg.toKeyConfig s.prod.keys k) :
    InLine st (s.setSender i (.top, { s.prod with keys := m })) := by
  have hx : At st s 4 t.batch := ⟨i, hi, t, by rw [hpc]; rfl, rfl⟩
  have hsub : ∀ k b, At st (s.setSender i (.top, { s.prod with keys := m })) k b →
      At st s k b ∨ k = 3 ∧ b = t.batch := by
    refine at_sender i _ _ (fun k b hb => .inl hb) (fun b hb => .inl hb) nofun ?_ nofun
      fun b hb => .inl hb
    intro k b hb
    rw [hring] at hb
    split at hb
    · obtain rfl | hb := List.mem_cons.mp hb
      · exact .inr ⟨rfl, rfl⟩
      · exact .inl ⟨k, hb⟩
    · exact .inl ⟨k, hb⟩
  have hback : ∀ k b, 3 < k → k ≤ 4 → At st (s.setSender i (.top, { s.prod with keys := m })) k b →
      ¬Before st.cfg t.batch b := by
    intro k b hk hk' hb
    obtain rfl : k = 4 := by omega
    obtain ⟨j, hj, t', ht', rfl⟩ := hb
    by_cases hji : j = i
    · subst hji
      rw [senders_self] at ht'
      cases ht'
    · rw [senders_other s i j _ hji] at ht'
      exact fun hbefore => sending_alone hc hf h hi hj hji (by rw [hpc]; rfl) ht' hbefore.1
  obtain ⟨horder, htaken⟩ := h.moved _ 4 3 hx hsub rfl (fun k a hk hk' => by omega) hback
  refine ⟨h.numbered.keep rfl rfl rfl rfl rfl, forall_update _ s.senders i _ h.byQueue trivial, horder,
    htaken, h.jobs, h.queue, fun k => ?_, h.attempts⟩
  show Sorted _ ((ring _ m k).map SendTask.batch)
  rw [hring]
  split
  · exact (h.rings k).cons fun a ha => h.inOrder 3 4 a _ (by decide) ⟨k, ha⟩ hx
  · exact h.rings k

/-- A batch is sent while no other batch of its key is. -/
theorem InLine.attempt {s : Sys} (h : InLine st s) (hc : Core st s) (hf : Filed st s) (i : ℕ)
    (hi : i < st.cfg.senderCount) (q : Option Addr) (x : Send) (pc : Sender.Pc)
    (hpc : s.senders i = .attempt q x) (hqueued : Sender.ByQueue pc)
    (hsame : Sender.Same (.attempt q x) pc) :
    InLine st (s.setSender i (pc, Sender.attempted x.task s.prod)) := by
  have hsending : Sender.sending (s.senders i) = some x.task := by rw [hpc]; rfl
  have hsending' : Sender.sending pc = some x.task := hsame.sending
  have hunput : ∀ t, Sender.unput pc ≠ some t := by
    intro t ht
    have hwindow := Sender.unput_window pc t ht
    rw [hsame.window] at hwindow
    cases hwindow
  have hx : At st s 4 x.task.batch := ⟨i, hi, x.task, hsending, rfl⟩
  have hsub : ∀ k b, At st (s.setSender i (pc, Sender.attempted x.task s.prod)) k b →
      At st s k b ∨ k = 5 ∧ b = x.task.batch := by
    refine at_sender i _ _ (fun k b hb => .inl hb) (fun b hb => .inl hb)
      (fun t ht => absurd ht (hunput t)) (fun k b hb => .inl ⟨k, hb⟩) ?_ ?_
    · intro t ht
      rw [hsending'] at ht
      obtain rfl := Option.some.inj ht
      exact .inl hx
    · intro b hb
      obtain hb | hb := List.mem_append.mp hb
      · exact .inl hb
      · exact .inr ⟨rfl, List.mem_singleton.mp hb⟩
  have hpass : ∀ k a, 4 ≤ k → k < 5 →
      At st (s.setSender i (pc, Sender.attempted x.task s.prod)) k a →
      ¬Before st.cfg a x.task.batch := by
    intro k a hk hk' ha
    obtain rfl : k = 4 := by omega
    obtain ⟨j, hj, t', ht', rfl⟩ := ha
    by_cases hji : j = i
    · subst hji
      rw [senders_self, hsending'] at ht'
      obtain rfl := Option.some.inj ht'
      exact fun hbefore => lt_irrefl _ hbefore.2.2
    · rw [senders_other s i j _ hji] at ht'
      exact fun hbefore => sending_alone hc hf h hi hj hji hsending ht' hbefore.1.symm
  obtain ⟨horder, htaken⟩ := h.moved _ 4 5 hx hsub rfl hpass fun k b hk hk' => by omega
  refine ⟨h.numbered.keep rfl rfl rfl rfl rfl, forall_update _ s.senders i _ h.byQueue hqueued, horder,
    htaken, h.jobs, h.queue, h.rings, ?_⟩
  exact h.attempts.snoc fun a ha => h.inOrder 4 5 _ a (by decide) hx ha

theorem InLine.send {s : Sys} (h : InLine st s) (hc : Core st s) (hf : Filed st s)
    (hqueued : st.cfg.fastSend = false) (i : ℕ) (hi : i < st.cfg.senderCount)
    (input : Sender.Input) (r : Sender.Pc × Producer)
    (hstep : Sender.step st.cfg input (s.senders i) s.prod = some r)
    (hm : Sender.Move st.cfg (s.senders i, s.prod) r)
    (hnext : ∀ t, s.senders i = .pushing t → PutsNext st s i t.batch) :
    InLine st (s.setSender i r) := by
  have hqueued' := Sender.byQueue_step input (s.senders i) s.prod r hqueued (h.byQueue i) hstep
  have hn := hm.numbered h.numbered
  have hunput : r.2.sendQueue = s.prod.sendQueue →
      ∀ t, Sender.unput r.1 = some t → Sender.unput (s.senders i) = some t := by
    intro hq t ht
    refine (Sender.step_unput input _ _ r hstep t ht).resolve_right fun hpop => ?_
    rw [hq] at hpop
    exact List.cons_ne_self t _ hpop.symm
  generalize hpc : s.senders i = pc at hm hunput hnext
  generalize hp : s.prod = p at hm hunput
  have hstays : ∀ t, Sender.sending pc = some t → Sender.sending (s.senders i) = some t := by
    rw [hpc]
    exact fun t ht => ht
  have hunput' : r.2.sendQueue = p.sendQueue → ∀ t, Sender.unput r.1 = some t →
      Sender.unput (s.senders i) = some t := by
    rw [hpc]
    exact hunput
  subst hp
  cases hm with
  | idle pc pc' p p' ha hsame hcarry =>
    obtain ⟨a, b, c, d, rfl⟩ := ha
    exact h.still i hi _ hn hqueued' rfl rfl (fun _ => rfl) rfl (hunput' rfl) fun t ht =>
      hstays t (hsame.sending ▸ ht)
  | keyed pc pc' p m hk hsame hcarry =>
    exact h.still i hi _ hn hqueued' rfl rfl hk.ring rfl (hunput' rfl) fun t ht =>
      hstays t (hsame.sending ▸ ht)
  | take p q t rest now m hfree hfirst he => exact h.take hf i q t rest now m hfirst he.ring
  | pop pc p t rest hpop hq => exact h.pop i t rest hq
  | move p t =>
    refine h.still i hi _ hn hqueued' rfl rfl (fun _ => rfl) rfl (hunput' rfl) fun t' ht' => ?_
    rw [hqueued] at ht'
    cases ht'
  | put p t m he => exact h.put i hi t m hpc he.ring (hnext t rfl)
  | count p t now =>
    have hnot := h.byQueue i
    rw [hpc] at hnot
    exact hnot.elim
  | drop p t => exact h.still i hi _ hn hqueued' rfl rfl (fun _ => rfl) rfl nofun nofun
  | release pc pc' p t hsame hcarry hnone =>
    exact h.still i hi _ hn hqueued' rfl rfl (fun _ => rfl) rfl (hunput' rfl) fun t ht =>
      hstays t (hsame.sending ▸ ht)
  | requeue p q t next m he => exact h.requeue hc hf i hi q t next m hpc he.ring
  | attempt pc' p q x hsame hcarry => exact h.attempt hc hf i hi q x pc' hpc hqueued' hsame
  | report p q x sent =>
    refine h.still i hi _ hn hqueued' rfl rfl (fun _ => rfl) rfl (hunput' rfl) fun t ht => ?_
    cases q <;> cases ht
  | finish p q m gone he hg =>
    exact h.still i hi _ hn hqueued' rfl rfl he.ring rfl nofun nofun
  | uncount p =>
    have hnot := h.byQueue i
    rw [hpc] at hnot
    exact hnot.elim
  | cleanup pc pc' p next m gone hsame he hg hcarry =>
    exact h.still i hi _ hn hqueued' rfl rfl he.ring rfl (hunput' rfl) fun t ht =>
      hstays t (hsame.sending ▸ ht)
  | commit p => exact h.still i hi _ hn hqueued' rfl rfl (fun _ => rfl) rfl nofun nofun
  | exitFast p block hfast => exact absurd (hqueued.symm.trans hfast) (by decide)

/-- A batch is put into the next queue before no earlier one of its key that
another thread has in its hands. -/
def InTurn (st : Setup) (s : Sys) : Act → Prop
  | .worker i _ => Worker.hasSlot st.cfg s.prod = true →
      ∀ t ∈ Worker.toPush (s.workers i).pc, PushesNext st s i t.batch
  | .sender i _ => ∀ t ∈ Sender.toPut (s.senders i), PutsNext st s i t.batch
  | .call _ _ | .writer _ _ => True

instance decidableInTurn (st : Setup) (s : Sys) : ∀ a, Decidable (InTurn st s a)
  | .worker i _ => inferInstanceAs (Decidable (Worker.hasSlot st.cfg s.prod = true →
      ∀ t ∈ Worker.toPush (s.workers i).pc, ∀ j < st.cfg.workerCount, j ≠ i →
        ∀ a ∈ Worker.unpushed st.cfg (s.workers j), ¬Before st.cfg a t.batch))
  | .sender i _ => inferInstanceAs (Decidable (∀ t ∈ Sender.toPut (s.senders i),
      ∀ j < st.cfg.senderCount, j ≠ i → ∀ t' ∈ Sender.unput (s.senders j),
        ¬Before st.cfg t'.batch t.batch))
  | .call _ _ | .writer _ _ => isTrue trivial

theorem inLine_step (hqueued : st.cfg.fastSend = false) (s s' : Sys) (a : Act) (hgood : Good st s)
    (hf : Filed st s) (h : InLine st s) (hturn : InTurn st s a) (hs : step st s a = some s') :
    InLine st s' := by
  cases a with
  | call i c =>
    simp only [step] at hs
    split at hs
    · rename_i hlt
      obtain ⟨r, hr, rfl⟩ := Option.map_eq_some_iff.mp hs
      obtain hm | hl : Writer.Moves st.cfg st.me .idle (s.writers i, s.prod) r ∨
          Writer.Loss st.cfg st.me (s.writers i, s.prod) r :=
        Writer.call_moves (s.writers i) r.1 s.prod r.2 c hlt.2 hr
      · exact h.writer i r (hm.leaves hgood.sound h.numbered)
      · exact h.writer i r ((hl.frame hgood.sound).leaves (hl.numbered h.numbered))
    · cases hs
  | writer i input =>
    simp only [step] at hs
    split at hs
    · obtain ⟨r, hr, rfl⟩ := Option.map_eq_some_iff.mp hs
      obtain hm | hl := Writer.go_moves _ input (s.writers i) r.1 s.prod r.2 (hgood.writers i)
        hgood.sound hr
      · exact h.writer i r (hm.leaves hgood.sound h.numbered)
      · exact h.writer i r ((hl.frame hgood.sound).leaves (hl.numbered h.numbered))
    · cases hs
  | worker i input =>
    simp only [step] at hs
    split at hs
    · rename_i hi
      obtain ⟨⟨w, p⟩, hr, rfl⟩ := Option.map_eq_some_iff.mp hs
      obtain hm | ⟨j, start, hpc, he⟩ := Worker.step_moves input (s.workers i) w s.prod p
        (hgood.workers i) hgood.sound hr
      · exact h.works i _ input hr hi (hm.works hgood.sound h.numbered)
      · have hroom := Worker.push_hasSlot input _ _ _ j start hpc hr (by rw [(Prod.mk.inj he).2])
        rw [he]
        exact h.push i j start hi hpc (hturn hroom j.task (by rw [hpc]; rfl))
    · cases hs
  | sender i input =>
    obtain ⟨hi, r, hr, hm, rfl⟩ := sender_move s s' i input hgood hs
    exact h.send hgood.toCore hf hqueued i hi input r hr hm fun t hpc => hturn t (by rw [hpc]; rfl)

theorem inLine_start (st : Setup) (hqueued : st.cfg.fastSend = false) : InLine st (start st) := by
  have hpc : ∀ i, (start st).senders i = .top := by
    intro i
    simp only [start, Sender.start, hqueued]
    rfl
  have hring : ∀ k, ring st.cfg.toKeyConfig (start st).prod.keys k = [] := by
    intro k
    obtain hn | ⟨q, _, _, hr⟩ := KeyMap.ring_cases st.cfg.toKeyConfig (start st).prod.keys k
    · exact hn
    · exact hr
  have hat : ∀ k b, ¬At st (start st) k b := by
    intro k b hb
    unfold At at hb
    split at hb
    · obtain ⟨i, _, hb⟩ := hb
      cases hb
    · cases hb
    · obtain ⟨i, _, t, ht, _⟩ := hb
      rw [hpc] at ht
      cases ht
    · obtain ⟨k, hb⟩ := hb
      rw [hring] at hb
      cases hb
    · obtain ⟨i, _, t, ht, _⟩ := hb
      rw [hpc] at ht
      cases ht
    · cases hb
    · cases hb
  refine ⟨numbered_start st, fun i => ?_, fun k l a b _ ha => absurd ha (hat k a),
    fun k b hb => absurd hb (hat k b), fun i => Sorted.nil, Sorted.nil, fun k => ?_, Sorted.nil⟩
  · rw [hpc]
    trivial
  · rw [hring]
    exact Sorted.nil

theorem inLine_run (st : Setup) (hqueued : st.cfg.fastSend = false) (acts : List Act) (s : Sys)
    (hturn : Along st (InTurn st) acts (start st)) (h : run st acts (start st) = some s) :
    InLine st s :=
  (run_rule (fun s => Filed st s ∧ InLine st s) (InTurn st)
    (fun s a s' hgood hi ha hs => ⟨filed_step s s' a hgood hi.1 hs,
      inLine_step hqueued s s' a hgood hi.1 hi.2 ha hs⟩)
    acts (start st) s (good_start st) ⟨filed_start st, inLine_start st hqueued⟩ hturn h).2.2

/-- Of two batches of a key that were sent, the one sealed first was the first
to be sent. -/
def SentInOrder (cfg : Config) (attempts : List Batch) : Prop :=
  ∀ a ∈ attempts, ∀ b ∈ attempts, Before cfg a b → attempts.idxOf a < attempts.idxOf b

instance decidableSentInOrder (cfg : Config) (attempts : List Batch) :
    Decidable (SentInOrder cfg attempts) :=
  inferInstanceAs (Decidable (∀ a ∈ attempts, ∀ b ∈ attempts, _ → _))

theorem InLine.sentInOrder {s : Sys} (h : InLine st s) : SentInOrder st.cfg s.prod.attempts := by
  intro a ha b hb hbefore
  refine h.attempts.idxOf_lt ha hb ?_ hbefore
  rintro rfl
  exact lt_irrefl _ hbefore.2.2

theorem ordered_byQueue (cfg : Config) (h : cfg.orderedSend = true) : cfg.fastSend = false := by
  simp [Config.fastSend, h]

/-- In every run in which no worker and no sender puts a batch into the next
queue ahead of an earlier one that another has, the batches of a key are sent
in the order in which they were sealed. -/
theorem run_sends_in_order (st : Setup) (hordered : st.cfg.orderedSend = true) (acts : List Act)
    (s : Sys) (hturn : Along st (InTurn st) acts (start st))
    (h : run st acts (start st) = some s) : SentInOrder st.cfg s.prod.attempts :=
  (inLine_run st (ordered_byQueue st.cfg hordered) acts s hturn h).sentInOrder

/-- There is no other worker, and no other sender. -/
theorem single_inTurn (hworkers : st.cfg.workerCount = 1) (hsenders : st.cfg.senderCount = 1)
    (s s' : Sys) (a : Act) (h : step st s a = some s') : InTurn st s a := by
  cases a with
  | call i c => trivial
  | writer i input => trivial
  | worker i input =>
    simp only [step] at h
    split at h
    · rename_i hi
      exact fun _ t _ j hj hji => absurd hj (by omega)
    · cases h
  | sender i input =>
    simp only [step] at h
    split at h
    · rename_i hi
      exact fun t _ j hj hji => absurd hj (by omega)
    · cases h

/-- One worker and one sender keep the order in every run. -/
theorem run_single_in_order (st : Setup) (hordered : st.cfg.orderedSend = true)
    (hworkers : st.cfg.workerCount = 1) (hsenders : st.cfg.senderCount = 1) (acts : List Act)
    (s : Sys) (h : run st acts (start st) = some s) : SentInOrder st.cfg s.prod.attempts := by
  have hqueued := ordered_byQueue st.cfg hordered
  have hinv := (run_rule (fun s => Filed st s ∧ InLine st s) (fun _ _ => True)
    (fun s a s' hgood hi _ hs => ⟨filed_step s s' a hgood hi.1 hs,
      inLine_step hqueued s s' a hgood hi.1 hi.2 (single_inTurn hworkers hsenders s s' a hs) hs⟩)
    acts (start st) s (good_start st) ⟨filed_start st, inLine_start st hqueued⟩
    (along_forall acts _ fun _ _ => trivial) h).2
  exact hinv.2.sentInOrder

/-- Two workers and two senders. -/
def crossing : Setup :=
  ⟨{ keyQueueBucketCount := 1, orderedSend := true, packThreadCount := 2, sendThreadCount := 2 },
    1, 0⟩

/-- A log of the key `K` is added with a flush. -/
def addFor (addr : Addr) : List Act :=
  [.call 0 (.addKv ⟨5, 0, false, [([65], [66])]⟩ [75] true), .writer 0 ⟨1, 1, addr⟩]

/-- Steps of the worker `i`: one to take its work, six to the push. -/
def packBy (i n : ℕ) : List Act := List.replicate n (.worker i ⟨1, 1, [8], none, none⟩)

/-- The sender `i` pops a task and puts it into the queue of its key, takes it
from there and sends it. -/
def sendBy (i : ℕ) : List Act :=
  List.replicate 4 (.sender i ⟨1, 1, 7, none, .sent⟩)++
    List.replicate 10 (.sender i ⟨1, 1, 6, none, .sent⟩)

/-- The second worker takes its batch when the first one has pushed. -/
theorem turns_sent_in_order : ∃ s,
    run crossing (addFor 9++packBy 0 6++addFor 10++packBy 1 6++sendBy 0++sendBy 1)
      (start crossing) = some s ∧
    s.prod.attempts.map Batch.no = [0, 1] ∧ SentInOrder crossing.cfg s.prod.attempts :=
  ⟨_, rfl, by decide, run_sends_in_order crossing rfl
    (addFor 9++packBy 0 6++addFor 10++packBy 1 6++sendBy 0++sendBy 1) _ (by decide) rfl⟩

/-- The first worker has taken its batch and pushes it after the second one. -/
theorem crossing_not_in_order : ∃ s,
    run crossing (addFor 9++packBy 0 1++addFor 10++packBy 1 6++sendBy 0++packBy 0 5++sendBy 0)
      (start crossing) = some s ∧
    s.prod.attempts.map Batch.no = [1, 0] ∧ ¬SentInOrder crossing.cfg s.prod.attempts :=
  ⟨_, rfl, by decide, by decide⟩

end Sys

end VeTls
