import VeTls.Pipeline.Drain

/-!
# Every batch is reported once

Raw items and sealed builders are numbered as they are queued, and workers
take them in that order, so that no batch is taken twice. With the count of
its places this leaves one report for each batch that is in no place any
more.
-/

set_option autoImplicit false

namespace VeTls

open VeTls.Keys (Addr CStr KeyMap)
open VeTls.Keys.KeyMap (Sound live load weight)
open VeTls.Threads (total)

/-- The numbers of the batches taken, of raw items or of sealed builders. -/
def nos (raw : Bool) (l : List Batch) : List ℕ :=
  (l.filter fun b => decide (b.raw = raw)).map Batch.no

theorem nos_append (raw : Bool) (l l' : List Batch) :
    nos raw (l++l') = nos raw l++nos raw l' := by
  rw [nos, List.filter_append, List.map_append, nos, nos]

theorem nos_sealed (cfg : Config) (raw : Bool) (l : List Sealed) :
    nos raw (l.map (Worker.sealedBatch cfg)) = if raw = false then l.map Sealed.no else [] := by
  induction l with
  | nil => cases raw <;> rfl
  | cons x l ih =>
    cases raw with
    | false =>
      rw [if_pos rfl] at ih ⊢
      rw [List.map_cons, List.map_cons, ← ih]
      rfl
    | true =>
      rw [if_neg (by decide)] at ih ⊢
      rw [List.map_cons, ← ih]
      rfl

theorem count_le_nos (b : Batch) (l : List Batch) : l.count b ≤ (nos b.raw l).count b.no := by
  have hcount : (l.filter fun x => decide (x.raw = b.raw)).count b = l.count b := by
    apply List.count_filter
    simp
  rw [← hcount, nos]
  exact List.count_le_count_map

/-- The numbers given out are those of the batches taken and, after them,
those of the batches that wait. -/
structure Numbered (p : Producer) : Prop where
  raw : nos true p.taken++p.queue.map RawItem.no = List.range p.rawNo
  sealedUp : nos false p.taken++p.sealedList.map Sealed.no = List.range p.sealNo

theorem Numbered.taken_nodup {p : Producer} (h : Numbered p) : p.taken.Nodup := by
  have hle : ∀ r : Bool, (nos r p.taken).Nodup := by
    intro r
    cases r with
    | true => exact (h.raw ▸ List.nodup_range).of_append_left
    | false => exact (h.sealedUp ▸ List.nodup_range).of_append_left
  rw [List.nodup_iff_count_le_one]
  intro b
  exact (count_le_nos b p.taken).trans (List.nodup_iff_count_le_one.mp (hle b.raw) b.no)

theorem Numbered.keep {p p' : Producer} (h : Numbered p) (ht : p'.taken = p.taken)
    (hq : p'.queue = p.queue) (hr : p'.rawNo = p.rawNo) (hl : p'.sealedList = p.sealedList)
    (hn : p'.sealNo = p.sealNo) : Numbered p' := by
  apply Numbered.mk
  · rw [ht, hq, hr]
    exact h.raw
  · rw [ht, hl, hn]
    exact h.sealedUp

theorem Numbered.fill {cfg : Config} {p p' : Producer} {old : Option Builder} {b : Builder}
    (h : Numbered p) (hf : Fill cfg p p' old b) : Numbered p' := by
  have hs := hf.sealedList
  obtain ⟨d, m, l, n, f, rfl⟩ := hf.frame
  refine ⟨h.raw, ?_⟩
  rcases hs with ⟨hl, hn⟩ | ⟨hl, hn⟩
  · rw [hl, hn]
    exact h.sealedUp
  · rw [hl, hn, List.map_append, ← List.append_assoc, h.sealedUp, List.range_succ]
    rfl

theorem Writer.Move.numbered {cfg : Config} {me : ℕ} {src : Writer.Pc} {a b : Writer × Producer}
    (h : Writer.Move cfg me src a b) (hn : Numbered a.2) : Numbered b.2 := by
  cases h with
  | quiet w w' p p' hq =>
    obtain ⟨f, n, k, l, _, _, rfl⟩ := hq
    exact hn.keep rfl rfl rfl rfl rfl
  | append w w' p kv flush b hkv hown hpc hadd hb hr' =>
    dsimp only
    rw [Writer.settleTls_eq]
    exact hn.keep rfl rfl rfl rfl rfl
  | rawPush w w' p log =>
    refine ⟨?_, hn.sealedUp⟩
    show nos true p.taken++(p.queue++[rawItem log p]).map RawItem.no = List.range (p.rawNo+1)
    rw [List.map_append, ← List.append_assoc, hn.raw, List.range_succ]
    rfl
  | store w w' p p' kv old b hkv hb hr hr' hs hf =>
    exact (hn.fill hf).keep rfl rfl rfl rfl rfl
  | openSlot w p p' old b hr hf => exact hn.fill hf
  | _ => exact hn.keep rfl rfl rfl rfl rfl

theorem Writer.Loss.numbered {cfg : Config} {me : ℕ} {a b : Writer × Producer}
    (h : Writer.Loss cfg me a b) (hn : Numbered a.2) : Numbered b.2 := by
  cases h with
  | leave w w' p hp hr hr' =>
    dsimp only
    rw [Writer.leaveBatch_eq]
    exact hn.keep rfl rfl rfl rfl rfl
  | _ => exact hn.keep rfl rfl rfl rfl rfl

theorem Worker.Move.numbered {cfg : Config} {a b : Worker × Producer} (h : Worker.Move cfg a b)
    (hn : Numbered a.2) : Numbered b.2 := by
  cases h with
  | idle w w' p p' hq =>
    obtain ⟨f, n, k, l, _, _, rfl⟩ := hq
    exact hn.keep rfl rfl rfl rfl rfl
  | merge w p p' t rest old b hi hf => exact (hn.fill hf).keep rfl rfl rfl rfl rfl
  | sealUp w p p' b hf => exact hn.fill hf
  | take p =>
    apply Numbered.mk
    · show nos true (p.taken++p.sealedList.map (Worker.sealedBatch cfg))++_ = _
      rw [nos_append, nos_sealed, if_neg (by decide), List.append_nil]
      exact hn.raw
    · show nos false (p.taken++p.sealedList.map (Worker.sealedBatch cfg))++[] = _
      rw [nos_append, nos_sealed, if_pos rfl, List.append_nil]
      exact hn.sealedUp
  | rawPop w p item rest hpc hi =>
    have hraw := hn.raw
    dsimp only at hi hraw
    rw [hi, List.map_cons] at hraw
    apply Numbered.mk
    · show nos true (p.taken++[Worker.rawBatch item])++rest.map RawItem.no = _
      rw [nos_append, ← hraw, List.append_assoc]
      rfl
    · show nos false (p.taken++[Worker.rawBatch item])++_ = _
      rw [nos_append]
      have hnil : nos false [Worker.rawBatch item] = [] := rfl
      rw [hnil, List.append_nil]
      exact hn.sealedUp
  | _ => exact hn.keep rfl rfl rfl rfl rfl

theorem Sender.Move.numbered {cfg : Config} {a b : Sender.Pc × Producer}
    (h : Sender.Move cfg a b) (hn : Numbered a.2) : Numbered b.2 := by
  cases h with
  | idle pc pc' p p' ha =>
    obtain ⟨_, _, _, _, rfl⟩ := ha
    exact hn.keep rfl rfl rfl rfl rfl
  | _ => exact hn.keep rfl rfl rfl rfl rfl

namespace Sys

variable {st : Setup}

/-- The batch is with a worker, in the send queue, in a key queue or with a
sender that has not reported it. -/
inductive HeldBy (st : Setup) (s : Sys) (b : Batch) : Prop
  | worker (i : ℕ) (hi : i < st.cfg.workerCount) (hb : b ∈ Worker.jobs st.cfg (s.workers i))
  | sendQueue (t : SendTask) (ht : t ∈ s.prod.sendQueue) (hb : t.batch = b)
  | keyQueue (q : Addr) (hq : q ∈ live st.cfg.toKeyConfig s.prod.keys) (t : SendTask)
      (ht : t ∈ s.prod.keys.tasks q) (hb : t.batch = b)
  | sender (i : ℕ) (hi : i < st.cfg.senderCount) (t : SendTask)
      (ht : Sender.hand (s.senders i) = some t) (hb : t.batch = b)

theorem weight_hits_eq_zero (b : Batch) (l : List SendTask) (h : ∀ t ∈ l, t.batch ≠ b) :
    weight (hits b) l = 0 := by
  rw [weight, List.sum_eq_zero_iff]
  simp only [List.forall_mem_map, hits, ite_eq_right_iff, one_ne_zero]
  exact h

/-- A batch that is in no place has been reported as often as it was taken. -/
theorem Accounts.reports {s : Sys} (h : Accounts st s) (b : Batch) (hb : ¬ HeldBy st s b) :
    reports b s.prod = s.prod.taken.count b := by
  have hworkers : total st.cfg.workerCount s.workers
      (fun w => (Worker.jobs st.cfg w).count b) = 0 := by
    apply Finset.sum_eq_zero
    intro i hi
    rw [List.count_eq_zero]
    exact fun hx => hb (.worker i (Finset.mem_range.mp hi) hx)
  have hqueue := weight_hits_eq_zero b s.prod.sendQueue fun t ht hx => hb (.sendQueue t ht hx)
  have hload : load st.cfg.toKeyConfig (hits b) s.prod.keys = 0 := by
    simp only [load, List.sum_eq_zero_iff, List.forall_mem_map]
    intro q hq
    exact weight_hits_eq_zero b _ fun t ht hx => hb (.keyQueue q hq t ht hx)
  have hsenders : total st.cfg.senderCount s.senders (Sender.handHits b) = 0 := by
    apply Finset.sum_eq_zero
    intro i hi
    rw [Sender.handHits]
    cases ht : Sender.hand (s.senders i) with
    | none => rfl
    | some t =>
      show hits b t = 0
      rw [hits, if_neg fun hx => hb (.sender i (Finset.mem_range.mp hi) t ht hx)]
  have htaken := h.taken b
  omega

theorem numbered_start (st : Setup) : Numbered (start st).prod := ⟨rfl, rfl⟩

theorem numbered_step (s s' : Sys) (a : Act) (hgood : Good st s) (hn : Numbered s.prod)
    (h : step st s a = some s') : Numbered s'.prod := by
  refine step_rule (fun s => Numbered s.prod) s s' a hgood hn ?_ ?_ ?_ ?_ ?_ h
  · exact fun t i r _ _ hI hm => hm.numbered hI
  · exact fun i r _ _ hl => hl.numbered hn
  · exact fun t i r _ _ hI hm => hm.numbered hI
  · rintro i r _ _ ⟨j, now, _, rfl⟩
    exact hn.keep rfl rfl rfl rfl rfl
  · exact fun i r _ _ hm => hm.numbered hn

/-- In every state a run reaches, no batch has been taken twice, a batch has
at most one report, and one that nobody has any more has exactly one. The
report carries what the batch says of itself. -/
theorem run_reports_once (st : Setup) (acts : List Act) (s : Sys)
    (h : run st acts (start st) = some s) :
    s.prod.taken.Nodup ∧ ∀ b ∈ s.prod.taken, reports b s.prod ≤ 1 ∧
      (¬ HeldBy st s b → reports b s.prod = 1) ∧
      ∀ r ∈ s.prod.done, r.batch = some b →
        r.startId = b.startId ∧ r.endId = b.endId ∧ r.bytes = b.bytes ∧ r.ids = b.ids := by
  obtain ⟨hgood, ha, hn⟩ := run_rule (fun s => Accounts st s ∧ Numbered s.prod) (fun _ _ => True)
    (fun s a s' hgood hi _ hs => ⟨accounts_step s s' a hgood hi.1 hs,
      numbered_step s s' a hgood hi.2 hs⟩) acts (start st) s
    (good_start st) ⟨accounts_start st, numbered_start st⟩
    (along_forall acts _ fun _ _ => trivial) h
  refine ⟨hn.taken_nodup, fun b hb => ?_⟩
  have hone := List.count_eq_one_of_mem hn.taken_nodup hb
  refine ⟨?_, fun hx => by rw [ha.reports b hx, hone], fun r hr hrb => ha.faithful r hr b hrb⟩
  have htaken := ha.taken b
  omega

theorem sentOne_reports_once :
    ∃ s, run oneFast sentOne (start oneFast) = some s ∧ s.prod.taken.length = 1 ∧
      ∀ b ∈ s.prod.taken, ¬ HeldBy oneFast s b ∧ reports b s.prod = 1 := by
  have hs : ∃ s, run oneFast sentOne (start oneFast) = some s ∧ s.prod.taken.length = 1 ∧
      (∀ i < 1, Worker.jobs oneFast.cfg (s.workers i) = []) ∧ s.prod.sendQueue = [] ∧
      live oneFast.cfg.toKeyConfig s.prod.keys = [] ∧
      ∀ i < 1, Sender.hand (s.senders i) = none :=
    ⟨_, rfl, by decide, by decide, by decide, by decide, by decide⟩
  obtain ⟨s, hrun, hlen, hjobs, hqueue, hlive, hhand⟩ := hs
  have hfree : ∀ b, ¬ HeldBy oneFast s b := by
    intro b hb
    cases hb with
    | worker i hi hb => simp [hjobs i hi] at hb
    | sendQueue t ht hb => simp [hqueue] at ht
    | keyQueue q hq t ht hb => simp [hlive] at hq
    | sender i hi t ht hb => simp [hhand i hi] at ht
  refine ⟨s, hrun, hlen, fun b hb => ⟨hfree b, ?_⟩⟩
  exact ((run_reports_once oneFast sentOne s hrun).2 b hb).2.1 (hfree b)

end Sys

end VeTls
