import VeTls.System

/-!
# Adds that fail

A batched add appends its log to those its thread was told are accepted, and
may fail after that. Between the steps of the call other threads change the
producer as they like; only what the call itself adds to
`logs_dropped_total` is counted.
-/

set_option autoImplicit false

namespace VeTls.Writer

variable {cfg : Config} {me : ℕ}

/-- What a step of the call finds. -/
structure Moment where
  prod : Producer
  joined : Bool
  input : Input

/-- Logs given to `logs_dropped_total` by a step. -/
def newlyDropped (p p' : Producer) : ℕ := p'.logsDroppedTotal-p.logsDroppedTotal

/-- The call goes on from `w` and returns with `w'`, its last step at `last`,
having counted `n` logs as dropped. -/
inductive Finishes (cfg : Config) (me : ℕ) : Writer → ℕ → Writer → Pc → Prop
  | last {w : Writer} (m : Moment) (r : Writer × Producer)
      (h : go cfg me m.joined m.input w m.prod = some r) (hidle : r.1.pc = .idle) :
      Finishes cfg me w (newlyDropped m.prod r.2) r.1 w.pc
  | more {w w' : Writer} {n : ℕ} {pc : Pc} (m : Moment) (r : Writer × Producer)
      (h : go cfg me m.joined m.input w m.prod = some r) (hbusy : r.1.pc ≠ .idle)
      (hrest : Finishes cfg me r.1 n w' pc) :
      Finishes cfg me w (newlyDropped m.prod r.2+n) w' pc

def batchLogs (w : Writer) : List Log := (w.batch.builder.map Builder.logs).getD []

/-- The logs of the batch of `w` that are no longer in it. -/
def givenUp (w w' : Writer) : List Log :=
  (batchLogs w).filter fun l =>
    !(decide (w'.batch.producer = w.batch.producer) && decide (l ∈ batchLogs w'))

/-- The call refused its log before it touched the batch. -/
def refusesFirst : Pc → Bool
  | .tlsLock _ _ => true
  | .tlsWait _ _ _ => true
  | _ => false

/-- The places of a batched add after its log is in the batch. -/
def appended : Pc → Bool
  | .flushLock _ _ => true
  | .flushWait (.add _ _) _ => true
  | .pushWait (.add _ _) _ => true
  | .flushFail _ => true
  | _ => false

def appending : Pc → Bool
  | .tlsAppend _ _ => true
  | _ => false

/-- The end of a failed add: the batch as it was, or an empty one. -/
structure Fails (w w' : Writer) (n : ℕ) (pc : Pc) : Prop where
  counted : n ≤ 1
  producer : w'.batch.producer = w.batch.producer
  kept : refusesFirst pc = true → w'.batch = w.batch
  lost : refusesFirst pc = false → batchLogs w' = []

/-- What a step of a batched add that has not appended its log leads to. -/
inductive Early (w w' : Writer) (n : ℕ) : Prop
  | refused (h : refusesFirst w.pc = true) (hpc : w'.pc = .idle) (hb : w'.batch = w.batch) (hn : n ≤ 1)
  | before (hpc : refusesFirst w'.pc = true ∨ appending w'.pc = true) (hb : w'.batch = w.batch) (hn : n = 0)

theorem newlyDropped_self (p : Producer) : newlyDropped p p = 0 := Nat.sub_self _

theorem waitLoop_dropped (p : Producer) (need : ℕ) (b : Bool) (deadline now : ℤ) :
    (waitLoop cfg p need b deadline now).2.logsDroppedTotal = p.logsDroppedTotal := by
  unfold waitLoop
  split
  · rfl
  · split
    · rfl
    · split <;> rfl

theorem waitBufferSpaceLocked_dropped (p : Producer) (need : ℕ) (b : Bool) (now now2 : ℤ) :
    (waitBufferSpaceLocked cfg p need b now now2).2.logsDroppedTotal = p.logsDroppedTotal := by
  unfold waitBufferSpaceLocked
  split
  · rfl
  · split
    · rfl
    · split
      · rfl
      · exact waitLoop_dropped p need b _ now2

/-- A wait for space refuses, goes on waiting, or reserves. -/
theorem admitted_early (w : Writer) (kv : Wire.KvLog) (flush : Bool) (p : Producer)
    (r : Wait × Producer) (hw : refusesFirst w.pc = true)
    (hr : r.2.logsDroppedTotal = p.logsDroppedTotal) :
    Early w (admitted w (.tlsWait kv flush) (tlsReserve kv flush w) r).1
      (newlyDropped p (admitted w (.tlsWait kv flush) (tlsReserve kv flush w) r).2) := by
  obtain ⟨x, p'⟩ := r
  dsimp only at hr
  cases x with
  | block d => exact .before (.inl rfl) rfl (by simp [admitted, newlyDropped, hr])
  | rc rc =>
    cases rc with
    | ok => exact .before (.inr rfl) rfl (by simp [admitted, tlsReserve, newlyDropped, hr])
    | _ =>
      refine .refused hw rfl rfl ?_
      simp only [admitted, mapWaitErrorToResult, countDropped, newlyDropped]
      omega

theorem enter_early (w : Writer) (kv : Wire.KvLog) (flush : Bool) (i : Input) (p : Producer)
    (hw : refusesFirst w.pc = true) :
    Early w (enter cfg i (estimate kv) (.tlsWait kv flush) (tlsReserve kv flush w) w p).1
      (newlyDropped p
        (enter cfg i (estimate kv) (.tlsWait kv flush) (tlsReserve kv flush w) w p).2) := by
  unfold enter
  split
  · exact .refused hw rfl rfl (by rw [newlyDropped_self]; omega)
  · split
    · rename_i p' hp'
      refine .refused hw rfl rfl ?_
      unfold ingressBreakerDropLocked at hp'
      split at hp'
      · cases hp'
      · split at hp'
        · obtain rfl := Option.some.inj hp'
          simp [newlyDropped, dropOneWithError, report, countDropped]
        · obtain rfl := Option.some.inj hp'
          simp [newlyDropped, countDropped]
    · exact admitted_early w kv flush p _ hw (waitBufferSpaceLocked_dropped p _ false i.now i.now2)

/-- What a step of a batched add leads to once its log is in the batch. -/
inductive Late (w w' : Writer) (n : ℕ) : Prop
  | done (hpc : w'.pc = .idle) (hr : w'.result = some .ok)
  | goesOn (hpc : appended w'.pc = true) (hp : w'.batch.producer = w.batch.producer) (hn : n = 0)
  | lost (hpc : w'.pc = .idle) (hp : w'.batch.producer = w.batch.producer) (hl : batchLogs w' = [])
      (hn : n ≤ 1)

theorem tlsAppend_late (w : Writer) (kv : Wire.KvLog) (flush : Bool) (p : Producer) :
    Late w (tlsAppend cfg kv flush w p).1 (newlyDropped p (tlsAppend cfg kv flush w p).2) := by
  unfold tlsAppend
  dsimp only
  split
  · exact .lost rfl rfl rfl (by simp [newlyDropped, countDropped])
  · split
    · refine .goesOn rfl rfl ?_
      unfold settleTls newlyDropped
      split
      · exact Nat.sub_self _
      · split <;> exact Nat.sub_self _
    · exact .done rfl rfl

theorem ingressQueuePushLocked_dropped (p : Producer) (normKey : Keys.CStr) (b : Builder)
    (force : Bool) (waitMs start now : ℤ) :
    (ingressQueuePushLocked cfg p normKey b force waitMs start now).2.logsDroppedTotal =
      p.logsDroppedTotal := by
  unfold ingressQueuePushLocked
  split
  · split
    · rfl
    · split
      · rfl
      · split
        · rfl
        · split <;> rfl
  · rfl

theorem flushPush_late (w : Writer) (i : Input) (start id : ℤ) (flush : Bool) (p q : Producer)
    (hq : q.logsDroppedTotal = p.logsDroppedTotal) :
    Late w (flushPush cfg i start (.add id flush) w q).1
      (newlyDropped p (flushPush cfg i start (.add id flush) w q).2) := by
  have hpush : (ingressQueuePushLocked cfg q cfg.hashKey (tlsBuilder cfg w)
      (forceFlush (.add id flush)) (ingressWaitMs cfg) start i.now2).2.logsDroppedTotal =
      q.logsDroppedTotal := ingressQueuePushLocked_dropped q _ _ _ _ start i.now2
  unfold flushPush
  split
  · rename_i d p' he
    rw [he] at hpush
    dsimp only at hpush
    exact .goesOn rfl rfl (by simp only [newlyDropped, hpush, hq, Nat.sub_self])
  · exact .done rfl rfl
  · rename_i rc p' _ he
    rw [he] at hpush
    dsimp only at hpush
    exact .goesOn rfl rfl (by simp only [flushFailed, newlyDropped, hpush, hq, Nat.sub_self])

theorem flushAdmit_late (w : Writer) (i : Input) (id : ℤ) (flush : Bool) (p : Producer)
    (r : Wait × Producer) (hr : r.2.logsDroppedTotal = p.logsDroppedTotal) :
    Late w (flushAdmit cfg i (.add id flush) w r).1
      (newlyDropped p (flushAdmit cfg i (.add id flush) w r).2) := by
  obtain ⟨x, q⟩ := r
  dsimp only at hr
  cases x with
  | block d => exact .goesOn rfl rfl (by simp only [flushAdmit, newlyDropped, hr, Nat.sub_self])
  | rc rc =>
    cases rc with
    | ok => exact flushPush_late w i i.now id flush p q hr
    | _ =>
      exact .goesOn rfl rfl (by simp only [flushAdmit, flushFailed, newlyDropped, hr, Nat.sub_self])

theorem tlsBatchFlushLocked_late (w : Writer) (i : Input) (id : ℤ) (flush : Bool) (p : Producer) :
    Late w (tlsBatchFlushLocked cfg i (.add id flush) w p).1
      (newlyDropped p (tlsBatchFlushLocked cfg i (.add id flush) w p).2) := by
  unfold tlsBatchFlushLocked
  split
  · exact .done rfl rfl
  · exact flushAdmit_late w i id flush p _ (waitBufferSpaceLocked_dropped p _ false i.now i.now2)

theorem go_early (m : Moment) (w : Writer) (r : Writer × Producer)
    (h : go cfg me m.joined m.input w m.prod = some r) (hw : refusesFirst w.pc = true) :
    Early w r.1 (newlyDropped m.prod r.2) := by
  unfold go at h
  split at h
  · cases h
  · cases hpc : w.pc with
    | tlsLock kv flush =>
      simp only [hpc, Option.some.injEq] at h
      subst h
      exact enter_early w kv flush m.input m.prod hw
    | tlsWait kv flush deadline =>
      simp only [hpc, Option.some.injEq] at h
      subst h
      exact admitted_early w kv flush m.prod _ hw
        (waitLoop_dropped m.prod _ false deadline m.input.now)
    | _ => simp [hpc, refusesFirst] at hw

theorem go_late (m : Moment) (w : Writer) (r : Writer × Producer)
    (h : go cfg me m.joined m.input w m.prod = some r)
    (hw : appended w.pc = true ∨ appending w.pc = true) :
    Late w r.1 (newlyDropped m.prod r.2) := by
  unfold go at h
  split at h
  · cases h
  · cases hpc : w.pc with
    | tlsAppend kv flush =>
      simp only [hpc, Option.some.injEq] at h
      subst h
      exact tlsAppend_late w kv flush m.prod
    | flushLock id flush =>
      simp only [hpc, Option.some.injEq] at h
      subst h
      exact tlsBatchFlushLocked_late w m.input id flush m.prod
    | flushWait who deadline =>
      cases who with
      | add id flush =>
        simp only [hpc, Option.some.injEq] at h
        subst h
        exact flushAdmit_late w m.input id flush m.prod _
          (waitLoop_dropped m.prod _ false deadline m.input.now)
      | close t => simp [hpc, appended, appending] at hw
    | pushWait who start =>
      cases who with
      | add id flush =>
        simp only [hpc, Option.some.injEq] at h
        subst h
        exact flushPush_late w m.input start id flush m.prod m.prod rfl
      | close t => simp [hpc, appended, appending] at hw
    | flushFail rc =>
      simp only [hpc, Option.some.injEq] at h
      subst h
      exact .lost rfl rfl rfl (by rw [newlyDropped, Nat.sub_self]; omega)
    | _ => simp [hpc, appended, appending] at hw

/-- An add that fails with its log in the batch leaves an empty one. -/
theorem Finishes.late {w w' : Writer} {n : ℕ} {pc : Pc} (h : Finishes cfg me w n w' pc)
    (hw : appended w.pc = true ∨ appending w.pc = true) (hfail : w'.result ≠ some .ok) :
    n ≤ 1 ∧ w'.batch.producer = w.batch.producer ∧ refusesFirst pc = false ∧
      batchLogs w' = [] := by
  induction h with
  | @last w m r hgo hidle =>
    have hpc : refusesFirst w.pc = false := by
      cases hpc : w.pc <;> simp_all [refusesFirst, appended, appending]
    cases go_late m w r hgo hw with
    | done _ hr => exact absurd hr hfail
    | goesOn hgoes _ _ => simp [hidle, appended] at hgoes
    | lost _ hp hl hn => exact ⟨hn, hp, hpc, hl⟩
  | @more w w' n pc m r hgo hbusy _ ih =>
    cases go_late m w r hgo hw with
    | done hidle _ => exact absurd hidle hbusy
    | goesOn hgoes hp hn =>
      obtain ⟨hcount, hproducer, hrefuses, hlost⟩ := ih (.inl hgoes) hfail
      exact ⟨by omega, hproducer.trans hp, hrefuses, hlost⟩
    | lost hidle _ _ _ => exact absurd hidle hbusy

/-- A batched add that fails either refused its log first, or leaves an empty
batch. -/
theorem Finishes.fails {w w' : Writer} {n : ℕ} {pc : Pc} (h : Finishes cfg me w n w' pc)
    (hw : refusesFirst w.pc = true) (hfail : w'.result ≠ some .ok) : Fails w w' n pc := by
  induction h with
  | @last w m r hgo hidle =>
    cases go_early m w r hgo hw with
    | refused _ _ hb hn => exact ⟨hn, by rw [hb], fun _ => hb, fun hno => by simp [hw] at hno⟩
    | before hpc _ _ => simp [hidle, refusesFirst, appending] at hpc
  | @more w w' n pc m r hgo hbusy hrest ih =>
    cases go_early m w r hgo hw with
    | refused _ hidle _ _ => exact absurd hidle hbusy
    | before hpc hb hn =>
      obtain hpc | hpc := hpc
      · obtain ⟨hcount, hproducer, hkept, hlost⟩ := ih hpc hfail
        exact ⟨by omega, by rw [hproducer, hb], fun hr => (hkept hr).trans hb, hlost⟩
      · obtain ⟨hcount, hproducer, hrefuses, hlost⟩ := hrest.late (.inr hpc) hfail
        exact ⟨by omega, by rw [hproducer, hb], fun hr => by simp [hrefuses] at hr, fun _ => hlost⟩

theorem givenUp_same {w w' : Writer} (h : w'.batch = w.batch) : givenUp w w' = [] := by
  rw [givenUp, List.filter_eq_nil_iff]
  intro l hl
  have hl' : l ∈ batchLogs w' := by
    rw [batchLogs, h]
    exact hl
  simp [h, hl']

theorem givenUp_all {w w' : Writer}
    (h : w'.batch.producer ≠ w.batch.producer ∨ batchLogs w' = []) :
    givenUp w w' = batchLogs w := by
  rw [givenUp, List.filter_eq_self]
  intro l _
  obtain hp | hl := h
  · simp [hp]
  · simp [hl]

/-- An add through the thread's batch that fails keeps or counts the logs of
the thread's earlier adds exactly if there are none, or the batch is one for
this producer and the log was refused before it was appended. -/
theorem failed_add_keeps_iff (cfg : Config) (me : ℕ) (kv : Wire.KvLog) (hashKey : Keys.CStr)
    (flush : Bool) (htls : tlsPath cfg hashKey = true) (hkv : kv.kvs.isEmpty = false)
    (w : Writer) (p : Producer) (r : Writer × Producer)
    (hcall : call cfg me w p (.addKv kv hashKey flush) = some r) (n : ℕ) (w' : Writer) (pc : Pc)
    (h : Finishes cfg me r.1 n w' pc) (hfail : w'.result ≠ some .ok) :
    (givenUp w w' = [] ∨ n = (givenUp w w').length+1) ↔
      batchLogs w = [] ∨ (w.batch.producer = some me ∧ refusesFirst pc = true) := by
  have hr : r = ({ w with pc := .tlsLock kv flush, batch := switchBatch me w.batch }, p) := by
    simp only [call, hkv, htls, if_true] at hcall
    exact (Option.some.inj hcall).symm
  subst hr
  obtain ⟨hcount, hproducer, hkept, hlost⟩ := h.fails rfl hfail
  dsimp only at hproducer hkept
  constructor
  · intro hclaim
    by_contra hno
    obtain ⟨hlogs, hnot⟩ := not_or.mp hno
    have hall : givenUp w w' = batchLogs w := by
      apply givenUp_all
      by_cases hown : w.batch.producer = some me
      · refine .inr (hlost ?_)
        cases hpc : refusesFirst pc with
        | false => rfl
        | true => exact absurd ⟨hown, hpc⟩ hnot
      · refine .inl ?_
        rw [hproducer, switchBatch, if_neg hown]
        exact fun he => hown he.symm
    rw [hall] at hclaim
    have hlen : 0 < (batchLogs w).length := List.length_pos_iff.mpr hlogs
    obtain hnil | hn := hclaim
    · exact hlogs hnil
    · omega
  · rintro (hnil | ⟨hown, hpc⟩)
    · exact .inl (by rw [givenUp, hnil]; rfl)
    · refine .inl (givenUp_same ?_)
      rw [hkept hpc, switchBatch, if_pos hown]

/-- One place in the ingress queue. -/
def oneSlot : Setup := ⟨{ keyQueueBucketCount := 1, sendQueueSize := 1 }, 1, 0⟩

def tinyLog : Wire.KvLog := ⟨5, 0, false, [([65], [66])]⟩

/-- A log is published, and the next one is accepted into the batch. -/
def oneAccepted : List Act :=
  [.call 0 (.addKv tinyLog [] true), .writer 0 ⟨1, 1, 9⟩, .writer 0 ⟨1, 1, 9⟩,
    .writer 0 ⟨1, 1, 9⟩, .call 0 (.addKv tinyLog [] false), .writer 0 ⟨1, 1, 9⟩,
    .writer 0 ⟨1, 1, 9⟩]

def twoAdded : Sys := (Sys.run oneSlot oneAccepted (Sys.start oneSlot)).getD (Sys.start oneSlot)

/-- A third add begins. -/
def thirdAdd (p : Producer) : Writer × Producer :=
  (call oneSlot.cfg 0 (twoAdded.writers 0) p (.addKv tinyLog [] true)).getD (twoAdded.writers 0, p)

/-- A step of the thread, alone with the producer. -/
def onward (r : Writer × Producer) : Writer × Producer :=
  (go oneSlot.cfg 0 false ⟨1, 1, 9⟩ r.1 r.2).getD r

def alone (r : Writer × Producer) : Moment := ⟨r.2, false, ⟨1, 1, 9⟩⟩

/-- The third add is refused by a producer that is closing, and the batch
stays. -/
theorem closing_add_keeps :
    (batchLogs (twoAdded.writers 0)).length = 1 ∧
    (onward (thirdAdd (closeBegin twoAdded.prod))).1.result = some .closed ∧
    givenUp (twoAdded.writers 0) (onward (thirdAdd (closeBegin twoAdded.prod))).1 = [] := by
  refine ⟨by decide, by decide, ?_⟩
  have h := (failed_add_keeps_iff oneSlot.cfg 0 tinyLog [] true (by decide) (by decide)
    (twoAdded.writers 0) (closeBegin twoAdded.prod) (thirdAdd (closeBegin twoAdded.prod)) rfl 0 _ _
    (.last (alone (thirdAdd (closeBegin twoAdded.prod)))
      (onward (thirdAdd (closeBegin twoAdded.prod))) rfl (by decide)) (by decide)).mpr
    (.inr ⟨by decide, by decide⟩)
  exact h.resolve_right (by omega)

theorem onward_last (r : Writer × Producer)
    (h : go oneSlot.cfg 0 false ⟨1, 1, 9⟩ r.1 r.2 = some (onward r))
    (hidle : (onward r).1.pc = .idle) :
    Finishes oneSlot.cfg 0 r.1 (newlyDropped r.2 (onward r).2) (onward r).1 r.1.pc :=
  .last (alone r) (onward r) h hidle

theorem onward_more (r : Writer × Producer) {n : ℕ} {w' : Writer} {pc : Pc}
    (hrest : Finishes oneSlot.cfg 0 (onward r).1 n w' pc)
    (h : go oneSlot.cfg 0 false ⟨1, 1, 9⟩ r.1 r.2 = some (onward r))
    (hbusy : (onward r).1.pc ≠ .idle) :
    Finishes oneSlot.cfg 0 r.1 (newlyDropped r.2 (onward r).2+n) w' pc :=
  .more (alone r) (onward r) h hbusy hrest

/-- The third add finds the ingress queue full: both logs of the batch are
gone and none is counted. -/
theorem lateFlush_loses : Sys.run oneSlot oneAccepted (Sys.start oneSlot) = some twoAdded ∧
    twoAdded.prod.accepted = [1, 2] ∧
    ∃ (n : ℕ) (w' : Writer) (pc : Pc), Finishes oneSlot.cfg 0 (thirdAdd twoAdded.prod).1 n w' pc ∧
      w'.result = some .dropError ∧
      ¬(givenUp (twoAdded.writers 0) w' = [] ∨
        n = (givenUp (twoAdded.writers 0) w').length+1) := by
  have hfail := onward_last (onward (onward (onward (thirdAdd twoAdded.prod)))) rfl (by decide)
  have hflush := onward_more (onward (onward (thirdAdd twoAdded.prod))) hfail rfl (by decide)
  have happend := onward_more (onward (thirdAdd twoAdded.prod)) hflush rfl (by decide)
  have hadd := onward_more (thirdAdd twoAdded.prod) happend rfl (by decide)
  exact ⟨rfl, by decide, _, _, _, hadd, by decide, by decide⟩

end VeTls.Writer
