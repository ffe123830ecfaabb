import VeTls.Pipeline.Shelf

/-!
# What a writer can do

`Move` lists the changes a writer thread makes to itself and to the
producer. A step of a call is a sequence of them, so that an invariant is
checked once for every kind of change and not once for every path through a
call.
-/

set_option autoImplicit false

namespace VeTls

open VeTls.Keys (Addr CStr KeyMap)
open VeTls.Keys.KeyMap (Keeps Sound)

variable {cfg : Config}

/-- Nothing changes but counters, the flush flag and reports that are not
for a batch. -/
def Quiet (p p' : Producer) : Prop :=
  ∃ f n k l, p.nextId ≤ k ∧ (∀ r ∈ l, r.batch = none) ∧ p' = { p with
    flushRequested := f, logsDroppedTotal := n, nextId := k, done := p.done++l }

theorem Quiet.refl (p : Producer) : Quiet p p :=
  ⟨p.flushRequested, p.logsDroppedTotal, p.nextId, [], le_rfl, by simp, by simp⟩

theorem Quiet.keys {p p' : Producer} (h : Quiet p p') : p'.keys = p.keys := by
  obtain ⟨f, n, k, l, _, _, rfl⟩ := h
  rfl

theorem quiet_flush (p : Producer) (f : Bool) : Quiet p { p with flushRequested := f } :=
  ⟨f, p.logsDroppedTotal, p.nextId, [], le_rfl, by simp, by simp⟩

theorem quiet_drop (p : Producer) : Quiet p (countDropped p) :=
  ⟨p.flushRequested, p.logsDroppedTotal+1, p.nextId, [], le_rfl, by simp, by simp [countDropped]⟩

/-- The budget has room for `need` more bytes, or there is no budget. -/
def Space (cfg : Config) (p : Producer) (need : ℕ) (reserveForSend : Bool) : Prop :=
  cfg.maxBufferBytes ≤ 0 ∨ hasBufferSpaceLocked cfg p need reserveForSend = true

structure Waited (cfg : Config) (p : Producer) (need : ℕ) (reserveForSend : Bool)
    (r : Wait × Producer) : Prop where
  quiet : Quiet p r.2
  ok : r.1 = .rc .ok → r.2 = p ∧ Space cfg p need reserveForSend

theorem waitLoop_waited (p : Producer) (need : ℕ) (reserveForSend : Bool) (deadline now : ℤ) :
    Waited cfg p need reserveForSend (waitLoop cfg p need reserveForSend deadline now) := by
  unfold waitLoop
  split
  · exact ⟨Quiet.refl p, nofun⟩
  · split
    · rename_i hs
      exact ⟨Quiet.refl p, fun _ => ⟨rfl, Or.inr hs⟩⟩
    · split
      · exact ⟨quiet_flush p true, nofun⟩
      · exact ⟨quiet_flush p true, nofun⟩

theorem waitBufferSpaceLocked_waited (p : Producer) (need : ℕ) (reserveForSend : Bool)
    (now now2 : ℤ) :
    Waited cfg p need reserveForSend
      (waitBufferSpaceLocked cfg p need reserveForSend now now2) := by
  unfold waitBufferSpaceLocked
  split
  · rename_i hm
    exact ⟨Quiet.refl p, fun _ => ⟨rfl, Or.inl hm⟩⟩
  · split
    · rename_i hs
      exact ⟨Quiet.refl p, fun _ => ⟨rfl, Or.inr hs⟩⟩
    · split
      · exact ⟨Quiet.refl p, nofun⟩
      · exact waitLoop_waited p need reserveForSend _ now2

theorem mapWaitErrorToResult_quiet (rc : WaitRc) (p : Producer) :
    Quiet p (mapWaitErrorToResult rc p).2 := by
  cases rc with
  | closed => exact Quiet.refl p
  | timeout => exact quiet_drop p
  | ok => exact quiet_drop p
  | full => exact quiet_drop p

theorem ingressBreakerDropLocked_quiet (p p' : Producer) (bytes : ℕ) (now : ℤ)
    (h : ingressBreakerDropLocked cfg p bytes now = some p') : Quiet p p' := by
  unfold ingressBreakerDropLocked at h
  split at h
  · simp at h
  · split at h
    · obtain rfl := Option.some.inj h
      exact ⟨p.flushRequested, p.logsDroppedTotal+1, p.nextId+1,
        [⟨false, bytes, p.nextId, p.nextId, [p.nextId], none⟩], by omega, by simp, rfl⟩
    · obtain rfl := Option.some.inj h
      exact quiet_drop p

/-- The logs `new` of `len` bytes were appended to the builder `old`. -/
structure Extends (old : Option Builder) (new : List Log) (len count : ℕ) (b : Builder) :
    Prop where
  logs : b.logs = (old.elim [] Builder.logs)++new
  logsLen : b.logsLen = old.elim 0 Builder.logsLen+len
  logCount : b.logCount = old.elim 0 Builder.logCount+count

/-- What a slot with the builder `old` is given to write to. -/
def opened (old : Option Builder) (key : CStr) (now : ℤ) : Builder :=
  old.getD { logBuilderCreate key with firstAppendMs := now }

def Builder.ids (b : Builder) : List ℤ := b.logs.map Log.id

/-- The log is queued, published, kept in a builder, or reported. -/
def Placed (cfg : Config) (p : Producer) (id : ℤ) : Prop :=
  (∃ i ∈ p.queue, i.id = id) ∨ (∃ t ∈ p.ingressQueue, id ∈ t.batch.ids) ∨
    (∃ b ∈ kept cfg p, id ∈ b.ids) ∨ ∃ r ∈ p.done, id ∈ r.ids

theorem addKv_extends (old : Option Builder) (fresh b : Builder) (id : ℤ) (kv : Wire.KvLog)
    (hf : fresh.logs = [] ∧ fresh.logsLen = 0 ∧ fresh.logCount = 0)
    (h : logBuilderAddKvLens (old.getD fresh) id kv = some b) :
    Extends old [storedLog id kv] (storedLog id kv).size 1 b := by
  unfold logBuilderAddKvLens at h
  dsimp only at h
  split at h
  · simp at h
  · obtain rfl := Option.some.inj h
    cases old with
    | none => exact ⟨by simp [hf.1], by simp [hf.2.1], by simp [hf.2.2]⟩
    | some x => exact ⟨rfl, by simp, by simp⟩

theorem Fill.mem {p p' : Producer} {old : Option Builder} {b : Builder} (h : Fill cfg p p' old b) :
    b ∈ VeTls.kept cfg p' := by
  obtain ⟨rest, _, hp⟩ := h.kept
  exact hp.mem_iff.mpr (by simp)

namespace Writer

/-- No bytes are reserved for a log that is in no buffer yet. -/
def Unreserved : Pc → Prop
  | .tlsAppend _ _ => False
  | .rawPush _ => False
  | _ => True

/-- The call works on the thread's batch for this producer. -/
def batched : Pc → Bool
  | .tlsLock _ _ | .tlsWait _ _ _ | .tlsAppend _ _ | .flushLock _ _ | .flushWait _ _
  | .pushWait _ _ | .flushFail _ => true
  | _ => false

/-- The log whose add is flushing the batch. -/
def flushing : Pc → Option ℤ
  | .flushLock id _ | .flushWait (.add id _) _ | .pushWait (.add id _) _ => some id
  | _ => none

def kvLog : Pc → Option Wire.KvLog
  | .tlsLock kv _ | .tlsWait kv _ _ | .tlsAppend kv _ | .kvLock kv _ _ | .kvWait kv _ _ _ => some kv
  | _ => none

/-- The call adds a log under a key of its own. -/
def keyedAdd : Pc → Bool
  | .kvLock _ _ _ | .kvWait _ _ _ _ => true
  | _ => false

structure Ok (cfg : Config) (me : ℕ) (w : Writer) : Prop where
  own : batched w.pc = true → w.batch.producer = some me
  log : ∀ id, flushing w.pc = some id → id ∈ (tlsBuilder cfg w).ids

/-- `src` is the place in the call where the step began. -/
inductive Move (cfg : Config) (me : ℕ) (src : Pc) :
    Writer × Producer → Writer × Producer → Prop
  | quiet (w w' : Writer) (p p' : Producer) (hq : Quiet p p') (hb : w'.batch = w.batch)
      (hr : Unreserved w.pc) (hr' : Unreserved w'.pc) : Move cfg me src (w, p) (w', p')
  | switch (w w' : Writer) (p : Producer) (hp : w.batch.producer ≠ some me)
      (hb : w'.batch = ⟨some me, none⟩) (hr : Unreserved w.pc) (hr' : Unreserved w'.pc) :
      Move cfg me src (w, p) (w', p)
  | reserve (w : Writer) (p : Producer) (kv : Wire.KvLog) (flush : Bool)
      (hkv : kvLog src = some kv) (hown : w.batch.producer = some me) (hr : Unreserved w.pc)
      (hs : Space cfg p (estimate kv) false) : Move cfg me src (w, p) (tlsReserve kv flush w p)
  | append (w w' : Writer) (p : Producer) (kv : Wire.KvLog) (flush : Bool) (b : Builder)
      (hkv : kvLog src = some kv) (hown : w.batch.producer = some me) (hpc : w.pc = .tlsAppend kv flush)
      (hadd : logBuilderAddKvLens (tlsBuilder cfg w) p.nextId kv = some b)
      (hb : w'.batch = { w.batch with builder := some b }) (hr' : Unreserved w'.pc) :
      Move cfg me src (w, p) (w', settleTls (estimate kv) (b.logsLen-(tlsBuilder cfg w).logsLen)
        { p with nextId := p.nextId+1 })
  | publish (w w' : Writer) (p : Producer) (t : IngressTask) (hown : w.batch.producer = some me)
      (ht : t.batch = tlsBuilder cfg w)
      (hb : w'.batch = { w.batch with builder := some (tlsBatchReset (tlsBuilder cfg w)) })
      (hr : Unreserved w.pc) (hr' : Unreserved w'.pc) (hkey : t.normKey = cfg.hashKey) :
      Move cfg me src (w, p) (w', { p with
        ingressQueue := p.ingressQueue++[t]
        ingressQueueBytes := p.ingressQueueBytes+t.batch.logsLen
        published := p.published++t.batch.ids
        tlsBytes := wrapSub p.tlsBytes t.batch.logsLen })
  | accept (w : Writer) (p : Producer) (id : ℤ)
      (h : (w.batch.producer = some me ∧ id ∈ (tlsBuilder cfg w).ids) ∨ Placed cfg p id) :
      Move cfg me src (w, p) (w, VeTls.accept id p)
  | rawReserve (w : Writer) (p : Producer) (log : RawLog) (hr : Unreserved w.pc)
      (hs : Space cfg p log.size false) : Move cfg me src (w, p) (rawReserve log w p)
  | rawPush (w w' : Writer) (p : Producer) (log : RawLog) (hpc : w.pc = .rawPush log)
      (hb : w'.batch = w.batch) (hr' : Unreserved w'.pc) (hopen : p.stop = false)
      (ha : p.accepting = true) :
      Move cfg me src (w, p) (w', { p with
        nextId := p.nextId+1, rawNo := p.rawNo+1, queue := p.queue++[rawItem log p] })
  | rawRelease (w w' : Writer) (p : Producer) (log : RawLog) (hpc : w.pc = .rawPush log)
      (hb : w'.batch = w.batch) (hr' : Unreserved w'.pc) :
      Move cfg me src (w, p) (w', releaseQueueReservationLocked p log.size)
  | keyed (w : Writer) (p : Producer) (m : KeyMap SendTask Builder) (hr : Unreserved w.pc)
      (hk : Keeps cfg.toKeyConfig p.keys m) (hkey : keyedAdd src = true) :
      Move cfg me src (w, p) (w, { p with keys := m })
  | store (w w' : Writer) (p p' : Producer) (kv : Wire.KvLog) (old : Option Builder) (b : Builder)
      (hkv : kvLog src = some kv) (hb : w'.batch = w.batch) (hr : Unreserved w.pc)
      (hr' : Unreserved w'.pc) (hs : Space cfg p (estimate kv) false) (hf : Fill cfg p p' old b)
      (he : Extends old [storedLog p.nextId kv] (storedLog p.nextId kv).size 1 b)
      (hkey : keyedAdd src = true)
      (hadd : ∃ key now, logBuilderAddKvLens (opened old key now) p.nextId kv = some b) :
      Move cfg me src (w, p) (w', { p' with
        queueBytes := p.queueBytes+(storedLog p.nextId kv).size, nextId := p.nextId+1 })
  | openSlot (w : Writer) (p p' : Producer) (old : Option Builder) (b : Builder)
      (hr : Unreserved w.pc) (hf : Fill cfg p p' old b) (he : Extends old [] 0 0 b)
      (hkey : keyedAdd src = true) (hopen : ∃ key now, b = opened old key now) :
      Move cfg me src (w, p) (w, p')
  | closeBegin (w : Writer) (p : Producer) : Move cfg me src (w, p) (w, closeBegin p)
  | stop (w w' : Writer) (p : Producer) (hd : isDrainedLocked cfg p = true)
      (hb : w'.batch = w.batch) (hr : Unreserved w.pc) (hr' : Unreserved w'.pc) :
      Move cfg me src (w, p) (w', { p with closing := false, stop := true })
  | stopSendQueue (w w' : Writer) (p : Producer) (hb : w'.batch = w.batch)
      (hr : Unreserved w.pc) (hr' : Unreserved w'.pc) :
      Move cfg me src (w, p) (w', { p with sendQueueStop := true })

/-- The steps in which a thread gives up the batch it has. -/
inductive Loss (cfg : Config) (me : ℕ) : Writer × Producer → Writer × Producer → Prop
  | leave (w w' : Writer) (p : Producer) (hp : w'.batch.producer ≠ some me)
      (hr : Unreserved w.pc) (hr' : Unreserved w'.pc) :
      Loss cfg me (w, p) (w', leaveBatch me w.batch p)
  | overflow (w w' : Writer) (p : Producer) (kv : Wire.KvLog) (flush : Bool)
      (hown : w.batch.producer = some me) (hpc : w.pc = .tlsAppend kv flush)
      (hadd : logBuilderAddKvLens (tlsBuilder cfg w) p.nextId kv = none)
      (hb : w'.batch = { w.batch with builder := some (tlsBatchReset (tlsBuilder cfg w)) })
      (hr' : Unreserved w'.pc) :
      Loss cfg me (w, p) (w', countDropped { p with
        nextId := p.nextId+1
        tlsBytes := wrapSub (wrapSub p.tlsBytes (estimate kv)) (tlsBuilder cfg w).logsLen })
  | discard (w w' : Writer) (p : Producer) (rc : WaitRc) (hown : w.batch.producer = some me)
      (hpc : w.pc = .flushFail rc)
      (hb : w'.batch = { w.batch with builder := some (tlsBatchReset (tlsBuilder cfg w)) })
      (hr' : Unreserved w'.pc) :
      Loss cfg me (w, p)
        (w', { p with tlsBytes := wrapSub p.tlsBytes (tlsBuilder cfg w).logsLen })

abbrev Moves (cfg : Config) (me : ℕ) (src : Pc) :
    Writer × Producer → Writer × Producer → Prop :=
  Relation.ReflTransGen (Move cfg me src)

section Rules

variable {me : ℕ} {src : Pc}

theorem Moves.one {a b : Writer × Producer} (h : Move cfg me src a b) : Moves cfg me src a b :=
  Relation.ReflTransGen.single h

theorem moves_quiet (w w' : Writer) (p p' : Producer) (hq : Quiet p p')
    (hb : w'.batch = w.batch) (hr : Unreserved w.pc) (hr' : Unreserved w'.pc) :
    Moves cfg me src (w, p) (w', p') :=
  Moves.one (.quiet w w' p p' hq hb hr hr')

theorem ret_unreserved (r : Result) (w : Writer) : Unreserved (ret r w).pc := trivial

/-- A call that waits for space may wait again, go on with the space it
asked for, or return. -/
theorem admit_moves (w : Writer) (p : Producer) (need : ℕ) (again : ℤ → Pc)
    (go : Producer → Writer × Producer) (r : Wait × Producer) (hw : Waited cfg p need false r)
    (hr : Unreserved w.pc) (hagain : ∀ d, Unreserved (again d))
    (hgo : Space cfg p need false → Moves cfg me src (w, p) (go p)) :
    Moves cfg me src (w, p) (admitted w again go r) := by
  have refuse : ∀ rc p', Quiet p p' → Moves cfg me src (w, p)
      (ret (mapWaitErrorToResult rc p').1 w, (mapWaitErrorToResult rc p').2) := by
    intro rc p' hq
    refine (moves_quiet w w p p' hq rfl hr hr).trans ?_
    exact moves_quiet w _ p' _ (mapWaitErrorToResult_quiet rc p') rfl hr (ret_unreserved _ w)
  obtain ⟨a, p'⟩ := r
  cases a with
  | block d => exact moves_quiet w _ p p' hw.quiet rfl hr (hagain d)
  | rc rc =>
    cases rc with
    | ok =>
      obtain ⟨he, hs⟩ := hw.ok rfl
      have hp : p' = p := he
      subst hp
      exact hgo hs
    | full => exact refuse _ _ hw.quiet
    | closed => exact refuse _ _ hw.quiet
    | timeout => exact refuse _ _ hw.quiet

theorem enter_moves (i : Input) (w : Writer) (p : Producer) (bytes : ℕ) (again : ℤ → Pc)
    (go : Producer → Writer × Producer) (hr : Unreserved w.pc)
    (hagain : ∀ d, Unreserved (again d))
    (hgo : Space cfg p bytes false → Moves cfg me src (w, p) (go p)) :
    Moves cfg me src (w, p) (enter cfg i bytes again go w p) := by
  unfold enter
  split
  · exact moves_quiet w _ p p (Quiet.refl p) rfl hr (ret_unreserved _ w)
  · cases hb : ingressBreakerDropLocked cfg p bytes i.now with
    | some p' =>
      exact moves_quiet w _ p p' (ingressBreakerDropLocked_quiet p p' bytes _ hb) rfl hr
        (ret_unreserved _ w)
    | none =>
      exact admit_moves w p bytes again go _
        (waitBufferSpaceLocked_waited p bytes false i.now i.now2) hr hagain hgo

theorem closeLoop_moves (timeoutMs start now : ℤ) (w : Writer) (p : Producer)
    (hr : Unreserved w.pc) :
    Moves cfg me src (w, p) (closeLoop cfg timeoutMs start now w p) := by
  unfold closeLoop
  split
  · rename_i hd
    exact Moves.one (.stop w _ p hd rfl hr trivial)
  · split
    · exact moves_quiet w _ p p (Quiet.refl p) rfl hr trivial
    · split
      · exact moves_quiet w _ p p (Quiet.refl p) rfl hr trivial
      · exact moves_quiet w _ p p (Quiet.refl p) rfl hr trivial

theorem flushed_moves (i : Input) (w : Writer) (p : Producer) (who : FlushBy)
    (hr : Unreserved w.pc)
    (hid : ∀ id f, who = .add id f →
      (w.batch.producer = some me ∧ id ∈ (tlsBuilder cfg w).ids) ∨ Placed cfg p id) :
    Moves cfg me src (w, p) (flushed cfg i w p who) := by
  cases who with
  | add id f =>
    refine (Moves.one (.accept w p id (hid id f rfl))).trans ?_
    exact moves_quiet w _ _ _ (Quiet.refl _) rfl hr (ret_unreserved _ w)
  | close timeoutMs =>
    exact (Moves.one (.closeBegin w p)).trans (closeLoop_moves timeoutMs _ _ w _ hr)

theorem flushFailed_moves (rc : WaitRc) (w : Writer) (p p' : Producer) (who : FlushBy)
    (hr : Unreserved w.pc) (hq : Quiet p p') :
    Moves cfg me src (w, p) (flushFailed rc w p' who) := by
  cases who with
  | add id f => exact moves_quiet w _ p p' hq rfl hr trivial
  | close timeoutMs => exact moves_quiet w _ p p' hq rfl hr trivial

theorem ingressQueuePushLocked_cases (cfg : Config) (p : Producer) (key : CStr) (b : Builder)
    (f : Bool) (ms start now : ℤ) :
    ingressQueuePushLocked cfg p key b f ms start now = (.rc .ok, { p with
        ingressQueue := p.ingressQueue++[⟨key, b, f⟩]
        ingressQueueBytes := p.ingressQueueBytes+b.logsLen
        published := p.published++b.ids }) ∨
      ∃ a, a ≠ .rc .ok ∧ ingressQueuePushLocked cfg p key b f ms start now = (a, p) := by
  unfold ingressQueuePushLocked
  split
  · right
    split
    · exact ⟨.rc .closed, by simp, rfl⟩
    · split
      · exact ⟨.rc .full, by simp, rfl⟩
      · split
        · exact ⟨.block start, by simp, rfl⟩
        · split
          · exact ⟨.rc .timeout, by simp, rfl⟩
          · exact ⟨.block start, by simp, rfl⟩
  · exact Or.inl rfl

theorem flushPush_moves (i : Input) (start : ℤ) (who : FlushBy) (w : Writer) (p : Producer)
    (hr : Unreserved w.pc) (hown : w.batch.producer = some me)
    (hid : ∀ id f, who = .add id f → id ∈ (tlsBuilder cfg w).ids) :
    Moves cfg me src (w, p) (flushPush cfg i start who w p) := by
  unfold flushPush
  rcases ingressQueuePushLocked_cases cfg p cfg.hashKey (tlsBuilder cfg w) (forceFlush who)
    (ingressWaitMs cfg) start i.now2 with he | ⟨a, ha, he⟩
  · rw [he]
    refine (Moves.one (.publish w (setBuilder (some (tlsBatchReset (tlsBuilder cfg w))) w) p
      ⟨cfg.hashKey, tlsBuilder cfg w, forceFlush who⟩ hown rfl rfl hr hr rfl)).trans ?_
    refine flushed_moves i _ _ who hr ?_
    intro id f hadd
    exact Or.inr (Or.inr (Or.inl ⟨⟨cfg.hashKey, tlsBuilder cfg w, forceFlush who⟩, by simp,
      hid id f hadd⟩))
  · rw [he]
    cases a with
    | block start => exact moves_quiet w _ p p (Quiet.refl p) rfl hr trivial
    | rc rc =>
      cases rc with
      | ok => exact absurd rfl ha
      | full => exact flushFailed_moves _ w p p who hr (Quiet.refl p)
      | closed => exact flushFailed_moves _ w p p who hr (Quiet.refl p)
      | timeout => exact flushFailed_moves _ w p p who hr (Quiet.refl p)

theorem flushAdmit_moves (i : Input) (who : FlushBy) (w : Writer) (p : Producer) (need : ℕ)
    (r : Wait × Producer) (hw : Waited cfg p need false r) (hr : Unreserved w.pc)
    (hown : w.batch.producer = some me)
    (hid : ∀ id f, who = .add id f → id ∈ (tlsBuilder cfg w).ids) :
    Moves cfg me src (w, p) (flushAdmit cfg i who w r) := by
  obtain ⟨a, p'⟩ := r
  cases a with
  | block d => exact moves_quiet w _ p p' hw.quiet rfl hr trivial
  | rc rc =>
    cases rc with
    | ok =>
      have hp : p' = p := (hw.ok rfl).1
      subst hp
      exact flushPush_moves i i.now who w p' hr hown hid
    | full => exact flushFailed_moves _ w p p' who hr hw.quiet
    | closed => exact flushFailed_moves _ w p p' who hr hw.quiet
    | timeout => exact flushFailed_moves _ w p p' who hr hw.quiet

theorem tlsBatchFlushLocked_moves (i : Input) (who : FlushBy) (w : Writer) (p : Producer)
    (hr : Unreserved w.pc) (hown : w.batch.producer = some me)
    (hid : ∀ id f, who = .add id f → id ∈ (tlsBuilder cfg w).ids) :
    Moves cfg me src (w, p) (tlsBatchFlushLocked cfg i who w p) := by
  unfold tlsBatchFlushLocked
  split
  · exact flushed_moves i w p who hr fun id f h => Or.inl ⟨hown, hid id f h⟩
  · exact flushAdmit_moves i who w p _ _ (waitBufferSpaceLocked_waited p _ false i.now i.now2) hr
      hown hid

theorem findSlot_reserve (p : Producer) (kv : Wire.KvLog) (useDefault : Bool) (key : CStr)
    (addr : Addr) :
    findSlot cfg (kvReserve kv p) useDefault key addr =
      ((findSlot cfg p useDefault key addr).1,
        kvReserve kv (findSlot cfg p useDefault key addr).2) := by
  unfold findSlot
  split <;> rfl

theorem kvReserve_quiet (kv : Wire.KvLog) (p : Producer) :
    Quiet p (countDropped (releaseQueueReservationLocked (kvReserve kv p) (estimate kv))) :=
  ⟨p.flushRequested, p.logsDroppedTotal+1, p.nextId+1, [], by simp, by simp, by
    simp [countDropped, releaseQueueReservationLocked, kvReserve]⟩

theorem kvRefuse_moves (kv : Wire.KvLog) (w : Writer) (p : Producer) (hr : Unreserved w.pc) :
    Moves cfg me src (w, p) (kvRefuse cfg kv p.nextId w (kvReserve kv p)) := by
  have hq : Moves cfg me src (w, p) (w, countDropped
      (releaseQueueReservationLocked (kvReserve kv p) (estimate kv))) :=
    moves_quiet w w p _ (kvReserve_quiet kv p) rfl hr hr
  unfold kvRefuse
  dsimp only
  generalize countDropped (releaseQueueReservationLocked (kvReserve kv p) (estimate kv)) = p₁ at hq ⊢
  split
  · have hd : Quiet p₁ (dropOneWithError (estimate kv) p.nextId p₁) :=
      ⟨p₁.flushRequested, p₁.logsDroppedTotal, p₁.nextId,
        [⟨false, estimate kv, p.nextId, p.nextId, [p.nextId], none⟩], le_rfl, by simp, rfl⟩
    refine (hq.trans (moves_quiet w w _ _ hd rfl hr hr)).trans ?_
    refine (Moves.one (.accept w _ p.nextId ?_)).trans
      (moves_quiet w _ _ _ (Quiet.refl _) rfl hr (ret_unreserved _ w))
    right; right; right; right
    exact ⟨_, List.mem_append_right _ (List.mem_singleton_self _), by simp⟩
  · exact hq.trans (moves_quiet w _ _ _ (Quiet.refl _) rfl hr (ret_unreserved _ w))

theorem settleQueue_reserve (kv : Wire.KvLog) (delta : ℕ) (p : Producer) :
    settleQueue (estimate kv) delta (kvReserve kv p) =
      { p with queueBytes := p.queueBytes+delta, nextId := p.nextId+1 } := by
  unfold settleQueue
  split
  · simp only [kvReserve, Producer.mk.injEq, true_and, and_true]
    omega
  · split
    · simp only [releaseQueueReservationLocked, kvReserve, Producer.mk.injEq, true_and, and_true]
      omega
    · simp only [kvReserve, Producer.mk.injEq, true_and, and_true]
      omega

/-- Counters of the producer do not matter to where a builder is put. -/
theorem setSlot_reserve (kv : Wire.KvLog) (p : Producer) (slot : Slot) (b : Option Builder) :
    setSlot b (kvReserve kv p) slot = kvReserve kv (setSlot b p slot) := by
  cases slot <;> rfl

theorem storeBuilder_counters (flush : Bool) (slot : Slot) (b : Builder) (p : Producer) (x : ℕ)
    (y : ℤ) :
    storeBuilder cfg flush slot b { p with queueBytes := x, nextId := y } =
      { storeBuilder cfg flush slot b p with queueBytes := x, nextId := y } := by
  unfold storeBuilder
  cases slot with
  | default => split <;> rfl
  | key q => split <;> rfl

theorem openBuilder_extends (p : Producer) (slot : Slot) (key : CStr) (now : ℤ) :
    Extends (slotBuilder p slot) [] 0 0 (openBuilder p slot key now) := by
  unfold openBuilder
  cases slotBuilder p slot with
  | none => exact ⟨rfl, rfl, rfl⟩
  | some b => exact ⟨by simp, by simp, by simp⟩

theorem kvStore_moves (kv : Wire.KvLog) (key : CStr) (now : ℤ) (flush : Bool) (slot : Slot)
    (w : Writer) (p : Producer) (hr : Unreserved w.pc) (hs : Sound cfg.toKeyConfig p.keys)
    (hslot : SlotOk cfg p slot) (hbusy : SlotBusy p slot) (hkv : kvLog src = some kv)
    (hkey : keyedAdd src = true) (hsp : Space cfg p (estimate kv) false) :
    Moves cfg me src (w, p)
      (kvStore cfg kv p.nextId flush slot (openBuilder p slot key now) w (kvReserve kv p)) := by
  have hopen := openBuilder_extends p slot key now
  unfold kvStore
  cases hadd : logBuilderAddKvLens (openBuilder p slot key now) p.nextId kv with
  | none =>
    dsimp only
    rw [setSlot_reserve]
    have hfill := setSlot_fill p hs slot hslot hbusy (openBuilder p slot key now)
    exact (Moves.one (.openSlot w p _ _ _ hr hfill hopen hkey ⟨key, now, rfl⟩)).trans
      (moves_quiet w _ _ _ (kvReserve_quiet kv _) rfl hr (ret_unreserved _ w))
  | some b =>
    dsimp only
    have hext := addKv_extends (slotBuilder p slot) _ b p.nextId kv ⟨rfl, rfl, rfl⟩ hadd
    have hdelta : b.logsLen-(openBuilder p slot key now).logsLen =
        (storedLog p.nextId kv).size := by
      have h₁ := hext.logsLen
      have h₂ := hopen.logsLen
      omega
    rw [settleQueue_reserve, hdelta, storeBuilder_counters]
    have hfill := storeBuilder_fill flush slot b p hs hslot hbusy
    refine (Moves.one (.store w w p _ kv _ b hkv rfl hr hr hsp hfill hext hkey
      ⟨key, now, hadd⟩)).trans ?_
    refine (Moves.one (.accept w _ p.nextId ?_)).trans
      (moves_quiet w _ _ _ (Quiet.refl _) rfl hr (ret_unreserved _ w))
    right; right; right; left
    exact ⟨b, hfill.mem, by simp [Builder.ids, hext.logs, storedLog]⟩

theorem kvAdd_moves (i : Input) (kv : Wire.KvLog) (hashKey : CStr) (flush : Bool) (w : Writer)
    (p : Producer) (hr : Unreserved w.pc) (hs : Sound cfg.toKeyConfig p.keys)
    (ha : i.addr ∉ KeyMap.live cfg.toKeyConfig p.keys) (hkv : kvLog src = some kv)
    (hkey : keyedAdd src = true) (hsp : Space cfg p (estimate kv) false) :
    Moves cfg me src (w, p) (kvAdd cfg i kv hashKey flush w p) := by
  obtain ⟨m, he, hk, hslot⟩ := findSlot_keeps p hs (cfg.fastBuilder && hashKey.isEmpty)
    (cfg.normalizeHashKey hashKey) i.addr ha
  unfold kvAdd
  dsimp only
  rw [findSlot_reserve, he]
  refine (Moves.one (.keyed w p m hr hk hkey)).trans ?_
  cases hf : (findSlot cfg p (cfg.fastBuilder && hashKey.isEmpty)
      (cfg.normalizeHashKey hashKey) i.addr).1 with
  | none => exact kvRefuse_moves kv w { p with keys := m } hr
  | some slot =>
    have hopen : openBuilder (kvReserve kv { p with keys := m }) slot
        (cfg.normalizeHashKey hashKey) i.now2 =
        openBuilder { p with keys := m } slot (cfg.normalizeHashKey hashKey) i.now2 := by
      cases slot <;> rfl
    dsimp only
    rw [hopen]
    exact kvStore_moves kv (cfg.normalizeHashKey hashKey) i.now2 flush slot w
      { p with keys := m } hr hk.sound (hslot slot hf).1 (hslot slot hf).2 hkv hkey hsp

theorem rawPush_moves (log : RawLog) (w : Writer) (p : Producer) (hpc : w.pc = .rawPush log) :
    Moves cfg me src (w, p) (rawPush cfg log w p) := by
  unfold rawPush
  split
  · exact Moves.one (.rawRelease w _ p log hpc rfl (ret_unreserved _ w))
  · rename_i hc
    simp only [Bool.or_eq_true, Bool.not_eq_true', not_or, Bool.not_eq_true,
      Bool.not_eq_false] at hc
    dsimp only
    refine (Moves.one (.rawPush w (ret .ok w) p log hpc rfl (ret_unreserved _ w) hc.1 hc.2)).trans ?_
    refine Relation.ReflTransGen.trans ?_ (Moves.one (.accept (ret .ok w) _ p.nextId ?_))
    · split
      · exact moves_quiet _ _ _ _ (quiet_flush _ true) rfl trivial trivial
      · exact Relation.ReflTransGen.refl
    · right; left
      refine ⟨rawItem log p, ?_, rfl⟩
      split <;> simp

theorem tlsAppend_moves (kv : Wire.KvLog) (flush : Bool) (w : Writer) (p : Producer)
    (hpc : w.pc = .tlsAppend kv flush) (hown : w.batch.producer = some me) (hkv : kvLog src = some kv) :
    Moves cfg me src (w, p) (tlsAppend cfg kv flush w p) ∨
      Loss cfg me (w, p) (tlsAppend cfg kv flush w p) := by
  unfold tlsAppend
  dsimp only
  cases hadd : logBuilderAddKvLens (tlsBuilder cfg w) p.nextId kv with
  | none =>
    right
    exact .overflow w _ p kv flush hown hpc hadd rfl (ret_unreserved _ _)
  | some b =>
    left
    dsimp only
    split
    · exact Moves.one (.append w _ p kv flush b hkv hown hpc hadd rfl trivial)
    · refine (Moves.one (.append w (ret .ok (setBuilder (some b) w)) p kv flush b hkv hown hpc hadd rfl
        (ret_unreserved _ _))).trans (Moves.one (.accept _ _ p.nextId ?_))
      left
      have hext := addKv_extends w.batch.builder (logBuilderCreate cfg.hashKey) b p.nextId kv
        ⟨rfl, rfl, rfl⟩ hadd
      exact ⟨hown, by simp [tlsBuilder, ret, setBuilder, Builder.ids, hext.logs, storedLog]⟩

/-- Every step of a running call is a sequence of moves, or gives up
the batch. -/
theorem go_moves (joined : Bool) (i : Input) (w w' : Writer) (p p' : Producer)
    (hok : Ok cfg me w) (hs : Sound cfg.toKeyConfig p.keys)
    (h : go cfg me joined i w p = some (w', p')) :
    Moves cfg me w.pc (w, p) (w', p') ∨ Loss cfg me (w, p) (w', p') := by
  unfold go at h
  split at h
  · simp at h
  · rename_i ha
    have hown := hok.own
    have hlog := hok.log
    cases hpc : w.pc with
    | idle => simp [hpc] at h
    | tlsLock kv flush =>
      left
      have hr : Unreserved w.pc := by rw [hpc]; trivial
      simp only [hpc, Option.some.injEq] at h
      rw [← h]
      exact enter_moves i w p _ _ _ hr (fun _ => trivial) fun hsp =>
        Moves.one (.reserve w p kv flush rfl (hown (by rw [hpc]; rfl)) hr hsp)
    | tlsWait kv flush deadline =>
      left
      have hr : Unreserved w.pc := by rw [hpc]; trivial
      simp only [hpc, Option.some.injEq] at h
      rw [← h]
      exact admit_moves w p _ _ _ _ (waitLoop_waited p _ false deadline i.now) hr
        (fun _ => trivial) fun hsp =>
        Moves.one (.reserve w p kv flush rfl (hown (by rw [hpc]; rfl)) hr hsp)
    | tlsAppend kv flush =>
      simp only [hpc, Option.some.injEq] at h
      rw [← h]
      exact tlsAppend_moves kv flush w p hpc (hown (by rw [hpc]; rfl)) rfl
    | flushLock id flush =>
      left
      have hr : Unreserved w.pc := by rw [hpc]; trivial
      simp only [hpc, Option.some.injEq] at h
      rw [← h]
      refine tlsBatchFlushLocked_moves i _ w p hr (hown (by rw [hpc]; rfl)) ?_
      intro id' f he
      obtain ⟨rfl, rfl⟩ := FlushBy.add.inj he
      exact hlog id (by rw [hpc]; rfl)
    | flushWait who deadline =>
      left
      have hr : Unreserved w.pc := by rw [hpc]; trivial
      simp only [hpc, Option.some.injEq] at h
      rw [← h]
      refine flushAdmit_moves i who w p _ _ (waitLoop_waited p _ false deadline i.now) hr
        (hown (by rw [hpc]; rfl)) ?_
      rintro id f rfl
      exact hlog id (by rw [hpc]; rfl)
    | pushWait who start =>
      left
      have hr : Unreserved w.pc := by rw [hpc]; trivial
      simp only [hpc, Option.some.injEq] at h
      rw [← h]
      refine flushPush_moves i start who w p hr (hown (by rw [hpc]; rfl)) ?_
      rintro id f rfl
      exact hlog id (by rw [hpc]; rfl)
    | flushFail rc =>
      right
      simp only [hpc, Option.some.injEq] at h
      rw [← h]
      exact .discard w _ p rc (hown (by rw [hpc]; rfl)) hpc rfl trivial
    | rawLock log =>
      left
      have hr : Unreserved w.pc := by rw [hpc]; trivial
      simp only [hpc, Option.some.injEq] at h
      rw [← h]
      exact enter_moves i w p _ _ _ hr (fun _ => trivial) fun hsp =>
        Moves.one (.rawReserve w p log hr hsp)
    | rawWait log deadline =>
      left
      have hr : Unreserved w.pc := by rw [hpc]; trivial
      simp only [hpc, Option.some.injEq] at h
      rw [← h]
      exact admit_moves w p _ _ _ _ (waitLoop_waited p _ false deadline i.now) hr
        (fun _ => trivial) fun hsp => Moves.one (.rawReserve w p log hr hsp)
    | rawPush log =>
      left
      simp only [hpc, Option.some.injEq] at h
      rw [← h]
      exact rawPush_moves log w p hpc
    | kvLock kv hashKey flush =>
      left
      have hr : Unreserved w.pc := by rw [hpc]; trivial
      simp only [hpc, Option.some.injEq] at h
      rw [← h]
      exact enter_moves i w p _ _ _ hr (fun _ => trivial) fun hsp =>
        kvAdd_moves i kv hashKey flush w p hr hs ha rfl rfl hsp
    | kvWait kv hashKey flush deadline =>
      left
      have hr : Unreserved w.pc := by rw [hpc]; trivial
      simp only [hpc, Option.some.injEq] at h
      rw [← h]
      exact admit_moves w p _ _ _ _ (waitLoop_waited p _ false deadline i.now) hr
        (fun _ => trivial) fun hsp => kvAdd_moves i kv hashKey flush w p hr hs ha rfl rfl hsp
    | closeLock timeoutMs =>
      left
      have hr : Unreserved w.pc := by rw [hpc]; trivial
      simp only [hpc] at h
      split at h
      · rename_i hlogs
        simp only [ownLogs, Bool.and_eq_true, decide_eq_true_eq] at hlogs
        rw [← Option.some.inj h]
        exact tlsBatchFlushLocked_moves i _ w p hr hlogs.1 nofun
      · rw [← Option.some.inj h]
        exact flushed_moves i w p _ hr nofun
    | closeWait timeoutMs start =>
      left
      have hr : Unreserved w.pc := by rw [hpc]; trivial
      simp only [hpc, Option.some.injEq] at h
      rw [← h]
      exact closeLoop_moves timeoutMs start i.now w p hr
    | closeStop =>
      left
      have hr : Unreserved w.pc := by rw [hpc]; trivial
      simp only [hpc, Option.some.injEq] at h
      rw [← h]
      exact Moves.one (.stopSendQueue w _ p rfl hr trivial)
    | closeJoin =>
      left
      have hr : Unreserved w.pc := by rw [hpc]; trivial
      simp only [hpc] at h
      split at h
      · rw [← Option.some.inj h]
        exact moves_quiet w _ p p (Quiet.refl p) rfl hr trivial
      · simp at h

theorem call_moves (w w' : Writer) (p p' : Producer) (c : Call) (hidle : w.pc = .idle)
    (h : call cfg me w p c = some (w', p')) :
    Moves cfg me src (w, p) (w', p') ∨ Loss cfg me (w, p) (w', p') := by
  have hr : Unreserved w.pc := by rw [hidle]; trivial
  cases c with
  | addRaw log =>
    left
    simp only [call] at h
    split at h
    · rw [← Option.some.inj h]
      exact moves_quiet w _ p p (Quiet.refl p) rfl hr trivial
    · rw [← Option.some.inj h]
      exact moves_quiet w _ p p (Quiet.refl p) rfl hr trivial
  | addKv kv hashKey flush =>
    left
    simp only [call] at h
    split at h
    · rw [← Option.some.inj h]
      exact moves_quiet w _ p p (Quiet.refl p) rfl hr trivial
    · split at h
      · rw [← Option.some.inj h]
        by_cases hp : w.batch.producer = some me
        · exact moves_quiet w _ p p (Quiet.refl p) (by simp [switchBatch, hp]) hr trivial
        · exact Moves.one (.switch w _ p hp (by simp [switchBatch, hp]) hr trivial)
      · rw [← Option.some.inj h]
        exact moves_quiet w _ p p (Quiet.refl p) rfl hr trivial
  | flush =>
    left
    rw [← Option.some.inj h]
    exact moves_quiet w _ p _ (quiet_flush p true) rfl hr trivial
  | close timeoutMs =>
    left
    rw [← Option.some.inj h]
    exact moves_quiet w _ p p (Quiet.refl p) rfl hr trivial
  | elsewhere other builder =>
    right
    simp only [call] at h
    split at h
    · simp at h
    · rename_i hne
      rw [← Option.some.inj h]
      exact .leave w _ p (by simpa using hne) hr hr

/-- A property of the thread that every way out of a wait has. -/
theorem admit_thread (P : Writer → Prop) (w : Writer) (again : ℤ → Pc)
    (go : Producer → Writer × Producer) (r : Wait × Producer) (hret : ∀ r, P (ret r w))
    (hagain : ∀ d, P { w with pc := again d }) (hgo : ∀ p, P (go p).1) :
    P (admitted w again go r).1 := by
  obtain ⟨a, p⟩ := r
  cases a with
  | block d => exact hagain d
  | rc rc =>
    cases rc with
    | ok => exact hgo p
    | full => exact hret _
    | closed => exact hret _
    | timeout => exact hret _

theorem enter_thread (P : Writer → Prop) (i : Input) (bytes : ℕ) (w : Writer) (p : Producer)
    (again : ℤ → Pc) (go : Producer → Writer × Producer) (hret : ∀ r, P (ret r w))
    (hagain : ∀ d, P { w with pc := again d }) (hgo : ∀ p, P (go p).1) :
    P (enter cfg i bytes again go w p).1 := by
  unfold enter
  split
  · exact hret _
  · split
    · exact hret _
    · exact admit_thread P w again go _ hret hagain hgo

theorem ok_unbatched (w : Writer) (h : batched w.pc = false) : Ok cfg me w := by
  refine ⟨fun hb => by simp [h] at hb, fun id hf => ?_⟩
  cases hpc : w.pc <;> simp_all [flushing, batched]

theorem Ok.keep {w w' : Writer} (h : Ok cfg me w) (hb : w'.batch = w.batch)
    (hpc : batched w.pc = true) (hf : ∀ id, flushing w'.pc = some id → flushing w.pc = some id) :
    Ok cfg me w' := by
  refine ⟨fun _ => by rw [hb]; exact h.own hpc, fun id hid => ?_⟩
  have hl := h.log id (hf id hid)
  unfold tlsBuilder at hl ⊢
  rwa [hb]

theorem closeLoop_ok (timeoutMs start now : ℤ) (w : Writer) (p : Producer) :
    Ok cfg me (closeLoop cfg timeoutMs start now w p).1 := by
  apply ok_unbatched
  unfold closeLoop
  split
  · rfl
  · split
    · rfl
    · split <;> rfl

theorem flushed_ok (i : Input) (w : Writer) (p : Producer) (who : FlushBy) :
    Ok cfg me (flushed cfg i w p who).1 := by
  cases who with
  | add id f => exact ok_unbatched _ rfl
  | close timeoutMs => exact closeLoop_ok timeoutMs _ _ w _

/-- A flush keeps the batch until it is pushed or has failed. -/
structure FlushOk (cfg : Config) (me : ℕ) (w : Writer) (who : FlushBy) : Prop where
  own : w.batch.producer = some me
  log : ∀ id f, who = .add id f → id ∈ (tlsBuilder cfg w).ids

theorem FlushOk.flushWait {w : Writer} {who : FlushBy} (h : FlushOk cfg me w who) (d : ℤ) :
    Ok cfg me { w with pc := .flushWait who d } := by
  refine ⟨fun _ => h.own, fun id hid => ?_⟩
  cases who with
  | add id' f =>
    obtain rfl := Option.some.inj hid
    exact h.log id' f rfl
  | close t => simp [flushing] at hid

theorem FlushOk.pushWait {w : Writer} {who : FlushBy} (h : FlushOk cfg me w who) (d : ℤ) :
    Ok cfg me { w with pc := .pushWait who d } := by
  refine ⟨fun _ => h.own, fun id hid => ?_⟩
  cases who with
  | add id' f =>
    obtain rfl := Option.some.inj hid
    exact h.log id' f rfl
  | close t => simp [flushing] at hid

theorem flushFailed_ok (rc : WaitRc) (w : Writer) (p : Producer) (who : FlushBy)
    (h : FlushOk cfg me w who) : Ok cfg me (flushFailed rc w p who).1 := by
  cases who with
  | add id f => exact ⟨fun _ => h.own, fun id hid => by simp [flushFailed, flushing] at hid⟩
  | close t => exact ok_unbatched _ rfl

theorem flushPush_ok (i : Input) (start : ℤ) (who : FlushBy) (w : Writer) (p : Producer)
    (h : FlushOk cfg me w who) : Ok cfg me (flushPush cfg i start who w p).1 := by
  unfold flushPush
  split
  · exact h.pushWait _
  · exact flushed_ok i _ _ who
  · exact flushFailed_ok _ w _ who h

theorem flushAdmit_ok (i : Input) (who : FlushBy) (w : Writer) (r : Wait × Producer)
    (h : FlushOk cfg me w who) : Ok cfg me (flushAdmit cfg i who w r).1 := by
  unfold flushAdmit
  split
  · exact h.flushWait _
  · exact flushPush_ok i _ who w _ h
  · exact flushFailed_ok _ w _ who h

theorem tlsBatchFlushLocked_ok (i : Input) (who : FlushBy) (w : Writer) (p : Producer)
    (h : FlushOk cfg me w who) : Ok cfg me (tlsBatchFlushLocked cfg i who w p).1 := by
  unfold tlsBatchFlushLocked
  split
  · exact flushed_ok i w p who
  · exact flushAdmit_ok i who w _ h

theorem kvAdd_thread (cfg : Config) (i : Input) (kv : Wire.KvLog) (hashKey : CStr) (flush : Bool)
    (w : Writer) (p : Producer) : ∃ r, (kvAdd cfg i kv hashKey flush w p).1 = ret r w := by
  unfold kvAdd
  dsimp only
  split
  · unfold kvRefuse
    dsimp only
    split
    · exact ⟨.ok, rfl⟩
    · exact ⟨.dropError, rfl⟩
  · unfold kvStore
    split
    · exact ⟨.dropError, rfl⟩
    · exact ⟨.ok, rfl⟩

theorem tlsAppend_ok (kv : Wire.KvLog) (flush : Bool) (w : Writer) (p : Producer)
    (hown : w.batch.producer = some me) : Ok cfg me (tlsAppend cfg kv flush w p).1 := by
  unfold tlsAppend
  dsimp only
  cases hadd : logBuilderAddKvLens (tlsBuilder cfg w) p.nextId kv with
  | none => exact ok_unbatched _ rfl
  | some b =>
    dsimp only
    split
    · refine ⟨fun _ => hown, fun id hid => ?_⟩
      obtain rfl := Option.some.inj hid
      have hext := addKv_extends w.batch.builder (logBuilderCreate cfg.hashKey) b p.nextId kv
        ⟨rfl, rfl, rfl⟩ hadd
      simp [tlsBuilder, setBuilder, Builder.ids, hext.logs, storedLog]
    · exact ok_unbatched _ rfl

theorem go_ok (joined : Bool) (i : Input) (w : Writer) (p : Producer) (r : Writer × Producer)
    (h : Ok cfg me w) (hgo : go cfg me joined i w p = some r) : Ok cfg me r.1 := by
  unfold go at hgo
  split at hgo
  · simp at hgo
  · have idle : ∀ r, Ok cfg me (ret r w) := fun r => ok_unbatched _ rfl
    cases hpc : w.pc with
    | idle => simp [hpc] at hgo
    | tlsLock kv flush =>
      simp only [hpc, Option.some.injEq] at hgo
      rw [← hgo]
      have hb : batched w.pc = true := by rw [hpc]; rfl
      exact enter_thread (Ok cfg me) i _ w p _ _ idle (fun d => h.keep rfl hb nofun)
        (fun q => h.keep rfl hb nofun)
    | tlsWait kv flush deadline =>
      simp only [hpc, Option.some.injEq] at hgo
      rw [← hgo]
      have hb : batched w.pc = true := by rw [hpc]; rfl
      exact admit_thread (Ok cfg me) w _ _ _ idle (fun d => h.keep rfl hb nofun)
        (fun q => h.keep rfl hb nofun)
    | tlsAppend kv flush =>
      simp only [hpc, Option.some.injEq] at hgo
      rw [← hgo]
      exact tlsAppend_ok kv flush w p (h.own (by rw [hpc]; rfl))
    | flushLock id flush =>
      simp only [hpc, Option.some.injEq] at hgo
      rw [← hgo]
      refine tlsBatchFlushLocked_ok i _ w p ⟨h.own (by rw [hpc]; rfl), ?_⟩
      intro id' f he
      obtain ⟨rfl, rfl⟩ := FlushBy.add.inj he
      exact h.log id (by rw [hpc]; rfl)
    | flushWait who deadline =>
      simp only [hpc, Option.some.injEq] at hgo
      rw [← hgo]
      refine flushAdmit_ok i who w _ ⟨h.own (by rw [hpc]; rfl), ?_⟩
      rintro id f rfl
      exact h.log id (by rw [hpc]; rfl)
    | pushWait who start =>
      simp only [hpc, Option.some.injEq] at hgo
      rw [← hgo]
      refine flushPush_ok i start who w p ⟨h.own (by rw [hpc]; rfl), ?_⟩
      rintro id f rfl
      exact h.log id (by rw [hpc]; rfl)
    | flushFail rc =>
      simp only [hpc, Option.some.injEq] at hgo
      rw [← hgo]
      exact ok_unbatched _ rfl
    | rawLock log =>
      simp only [hpc, Option.some.injEq] at hgo
      rw [← hgo]
      exact enter_thread (Ok cfg me) i _ w p _ _ idle (fun d => ok_unbatched _ rfl)
        (fun q => ok_unbatched _ rfl)
    | rawWait log deadline =>
      simp only [hpc, Option.some.injEq] at hgo
      rw [← hgo]
      exact admit_thread (Ok cfg me) w _ _ _ idle (fun d => ok_unbatched _ rfl)
        (fun q => ok_unbatched _ rfl)
    | rawPush log =>
      simp only [hpc, Option.some.injEq] at hgo
      rw [← hgo]
      unfold rawPush
      split <;> exact ok_unbatched _ rfl
    | kvLock kv hashKey flush =>
      simp only [hpc, Option.some.injEq] at hgo
      rw [← hgo]
      refine enter_thread (Ok cfg me) i _ w p _ _ idle (fun d => ok_unbatched _ rfl) fun q => ?_
      obtain ⟨r, hr⟩ := kvAdd_thread cfg i kv hashKey flush w q
      rw [hr]
      exact idle r
    | kvWait kv hashKey flush deadline =>
      simp only [hpc, Option.some.injEq] at hgo
      rw [← hgo]
      refine admit_thread (Ok cfg me) w _ _ _ idle (fun d => ok_unbatched _ rfl) fun q => ?_
      obtain ⟨r, hr⟩ := kvAdd_thread cfg i kv hashKey flush w q
      rw [hr]
      exact idle r
    | closeLock timeoutMs =>
      simp only [hpc] at hgo
      split at hgo
      · rename_i hlogs
        simp only [ownLogs, Bool.and_eq_true, decide_eq_true_eq] at hlogs
        rw [← Option.some.inj hgo]
        exact tlsBatchFlushLocked_ok i _ w p ⟨hlogs.1, nofun⟩
      · rw [← Option.some.inj hgo]
        exact flushed_ok i w p _
    | closeWait timeoutMs start =>
      simp only [hpc, Option.some.injEq] at hgo
      rw [← hgo]
      exact closeLoop_ok timeoutMs start i.now w p
    | closeStop =>
      simp only [hpc, Option.some.injEq] at hgo
      rw [← hgo]
      exact ok_unbatched _ rfl
    | closeJoin =>
      simp only [hpc] at hgo
      split at hgo
      · rw [← Option.some.inj hgo]
        exact ok_unbatched _ rfl
      · simp at hgo

theorem call_ok (w : Writer) (p : Producer) (c : Call) (r : Writer × Producer)
    (hidle : w.pc = .idle) (h : call cfg me w p c = some r) : Ok cfg me r.1 := by
  cases c with
  | addRaw log =>
    simp only [call] at h
    split at h <;> (rw [← Option.some.inj h]; exact ok_unbatched _ rfl)
  | addKv kv hashKey flush =>
    simp only [call] at h
    split at h
    · rw [← Option.some.inj h]
      exact ok_unbatched _ rfl
    · split at h
      · rw [← Option.some.inj h]
        refine ⟨fun _ => ?_, nofun⟩
        unfold switchBatch
        split
        · assumption
        · rfl
      · rw [← Option.some.inj h]
        exact ok_unbatched _ rfl
  | flush =>
    rw [← Option.some.inj h]
    exact ok_unbatched _ rfl
  | close timeoutMs =>
    rw [← Option.some.inj h]
    exact ok_unbatched _ rfl
  | elsewhere other builder =>
    simp only [call] at h
    split at h
    · simp at h
    · rw [← Option.some.inj h]
      exact ok_unbatched _ (by simp [hidle, batched])

end Rules

end Writer

end VeTls
