import VeTls.Pipeline.Closing
import VeTls.Pipeline.Drain

/-!
# After the stop

What waits before the send queue when `stop` is set, and who can still add to
it. Most paths of an add look at `stop` again in the critical section that
stores the log; a thread with a batch does not.
-/

set_option autoImplicit false

namespace VeTls

open VeTls.Keys (Addr CStr KeyMap)

variable {cfg : Config}

/-- Nothing was added to what waits before the send queue, and no add was
accepted. -/
structure Rests (cfg : Config) (p p' : Producer) : Prop where
  stop : p.stop = true → p'.stop = true
  queue : p'.queue = p.queue
  ingressQueue : p'.ingressQueue = p.ingressQueue
  sealedList : p'.sealedList = p.sealedList
  kept : ∀ b ∈ kept cfg p', b ∈ kept cfg p
  accepted : p'.accepted = p.accepted
  published : p'.published = p.published

theorem Rests.of_eq {p p' : Producer} (hs : p.stop = true → p'.stop = true)
    (hd : p'.defaultBuilder = p.defaultBuilder) (hk : p'.keys = p.keys)
    (h : p'.queue = p.queue ∧ p'.ingressQueue = p.ingressQueue ∧ p'.sealedList = p.sealedList ∧
      p'.accepted = p.accepted ∧ p'.published = p.published) : Rests cfg p p' := by
  refine ⟨hs, h.1, h.2.1, h.2.2.1, ?_, h.2.2.2.1, h.2.2.2.2⟩
  rw [kept_congr hd hk h.2.2.1]
  exact fun b hb => hb

theorem Rests.trans {p p' p'' : Producer} (h : Rests cfg p p') (h' : Rests cfg p' p'') :
    Rests cfg p p'' :=
  ⟨fun hs => h'.stop (h.stop hs), h'.queue.trans h.queue, h'.ingressQueue.trans h.ingressQueue,
    h'.sealedList.trans h.sealedList, fun b hb => h.kept b (h'.kept b hb),
    h'.accepted.trans h.accepted, h'.published.trans h.published⟩

theorem Rests.refl (p : Producer) : Rests cfg p p := .of_eq id rfl rfl ⟨rfl, rfl, rfl, rfl, rfl⟩

/-- `stop` is set and no log waits before the send queue. -/
structure Shut (cfg : Config) (p : Producer) : Prop where
  stop : p.stop = true
  queue : p.queue = []
  ingressQueue : p.ingressQueue = []
  sealedList : p.sealedList = []
  builders : ∀ b ∈ kept cfg p, b.logs = []

theorem Rests.shut {p p' : Producer} (hr : Rests cfg p p') (h : Shut cfg p) : Shut cfg p' :=
  ⟨hr.stop h.stop, hr.queue.trans h.queue, hr.ingressQueue.trans h.ingressQueue,
    hr.sealedList.trans h.sealedList, fun b hb => h.builders b (hr.kept b hb)⟩

namespace Writer

/-- The thread is in an add. -/
def adding : Pc → Bool
  | .idle | .closeLock _ | .closeWait _ _ | .closeStop | .closeJoin => false
  | .flushWait who _ | .pushWait who _ =>
    match who with
    | .add _ _ => true
    | .close _ => false
  | _ => true

/-- A flush of the batch has room in the budget. -/
def hasRoom (cfg : Config) (w : Writer) (p : Producer) : Bool :=
  decide (cfg.maxBufferBytes ≤ 0) || hasBufferSpaceLocked cfg p (tlsBuilder cfg w).logsLen false

/-- The next step of the thread lets a log through: it goes from an append to
`ok`, or pushes a batch. -/
def letsIn (cfg : Config) (me : ℕ) (w : Writer) (p : Producer) : Bool :=
  match w.pc with
  | .tlsAppend kv flush =>
    (logBuilderAddKvLens (tlsBuilder cfg w) p.nextId kv).any fun b => !shouldMerge cfg flush b
  | .flushLock _ _ => hasRoom cfg w p
  | .pushWait _ _ => true
  | .closeLock _ => ownLogs me w && hasRoom cfg w p
  | _ => false

/-- An add goes on, or returns something other than `ok`. -/
def Refused (w w' : Writer) : Prop :=
  adding w.pc = true →
    adding w'.pc = true ∨ (w'.pc = .idle ∧ w'.result ≠ some .ok)

/-- What a step after the stop does. -/
structure After (cfg : Config) (w : Writer) (p : Producer) (r : Writer × Producer) : Prop where
  rests : Rests cfg p r.2
  refused : Refused w r.1

theorem After.ret {w : Writer} {p p' : Producer} (res : Result) (hres : res ≠ .ok)
    (hr : Rests cfg p p') : After cfg w p (Writer.ret res w, p') := by
  refine ⟨hr, fun _ => .inr ⟨rfl, ?_⟩⟩
  intro h
  exact hres (Option.some.inj h)

/-- A close is not an add. -/
theorem After.close {w : Writer} {p : Producer} {r : Writer × Producer}
    (hpc : adding w.pc = false) (hr : Rests cfg p r.2) : After cfg w p r := by
  refine ⟨hr, fun h => ?_⟩
  rw [hpc] at h
  cases h

theorem waitLoop_stopped (p : Producer) (need : ℕ) (b : Bool) (deadline now : ℤ)
    (hs : p.stop = true) : waitLoop cfg p need b deadline now = (.rc .closed, p) := by
  simp [waitLoop, hs]

/-- Without room a wait for space ends at once after the stop. -/
theorem waitBufferSpaceLocked_stopped (w : Writer) (p : Producer) (now now2 : ℤ)
    (hs : p.stop = true) (hn : hasRoom cfg w p = false) :
    ∃ rc, rc ≠ .ok ∧
      waitBufferSpaceLocked cfg p (tlsBuilder cfg w).logsLen false now now2 = (.rc rc, p) := by
  simp only [hasRoom, Bool.or_eq_false_iff, decide_eq_false_iff_not] at hn
  unfold waitBufferSpaceLocked
  rw [if_neg hn.1, if_neg (by simp [hn.2])]
  split
  · exact ⟨.full, nofun, rfl⟩
  · exact ⟨.closed, nofun, waitLoop_stopped p _ false _ now2 hs⟩

theorem flushFailed_after (rc : WaitRc) (hrc : rc ≠ .ok) (w : Writer) (p : Producer)
    (who : FlushBy) : After cfg w p (flushFailed rc w p who) := by
  cases who with
  | add id flush => exact ⟨.refl p, fun _ => .inl rfl⟩
  | close timeoutMs =>
    cases rc with
    | ok => exact absurd rfl hrc
    | full => exact .ret .dropError nofun (.refl p)
    | closed => exact .ret .closed nofun (.refl p)
    | timeout => exact .ret .timeout nofun (.refl p)

theorem closeLoop_rests (timeoutMs start now : ℤ) (w : Writer) (p : Producer) :
    Rests cfg p (closeLoop cfg timeoutMs start now w p).2 := by
  unfold closeLoop
  split
  · exact .of_eq (fun _ => rfl) rfl rfl ⟨rfl, rfl, rfl, rfl, rfl⟩
  · split
    · exact .refl p
    · split
      · exact .refl p
      · exact .refl p

theorem closeBegin_rests (p : Producer) : Rests cfg p (closeBegin p) :=
  .of_eq id rfl rfl ⟨rfl, rfl, rfl, rfl, rfl⟩

theorem settleTls_rests (estimated delta : ℕ) (p : Producer) :
    Rests cfg p (settleTls estimated delta p) := by
  rw [settleTls_eq]
  exact .of_eq id rfl rfl ⟨rfl, rfl, rfl, rfl, rfl⟩

theorem tlsAppend_after (kv : Wire.KvLog) (flush : Bool) (w : Writer) (p : Producer)
    (hl : ((logBuilderAddKvLens (tlsBuilder cfg w) p.nextId kv).any
      fun b => !shouldMerge cfg flush b) = false) :
    After cfg w p (tlsAppend cfg kv flush w p) := by
  have hid : Rests cfg p { p with nextId := p.nextId+1 } :=
    .of_eq id rfl rfl ⟨rfl, rfl, rfl, rfl, rfl⟩
  unfold tlsAppend
  dsimp only
  cases hb : logBuilderAddKvLens (tlsBuilder cfg w) p.nextId kv with
  | none =>
    refine ⟨.of_eq id rfl rfl ⟨rfl, rfl, rfl, rfl, rfl⟩, fun _ => .inr ⟨rfl, nofun⟩⟩
  | some b =>
    have hm : shouldMerge cfg flush b = true := by simpa [hb] using hl
    dsimp only
    rw [if_pos hm]
    exact ⟨hid.trans (settleTls_rests _ _ _), fun _ => .inl rfl⟩

/-- The first checks of an add refuse it after the stop. -/
theorem enter_after (i : Input) (bytes : ℕ) (again : ℤ → Pc) (go : Producer → Writer × Producer)
    (w : Writer) (p : Producer) (hs : p.stop = true) :
    After cfg w p (enter cfg i bytes again go w p) := by
  unfold enter
  rw [hs, Bool.true_or, if_pos rfl]
  exact .ret .closed nofun (.refl p)

/-- So does a wait for space, whatever it waited for. -/
theorem admitted_after (need : ℕ) (deadline now : ℤ) (again : ℤ → Pc)
    (go : Producer → Writer × Producer) (w : Writer) (p : Producer) (hs : p.stop = true) :
    After cfg w p (admitted w again go (waitLoop cfg p need false deadline now)) := by
  rw [waitLoop_stopped p need false deadline now hs]
  exact .ret .closed nofun (.refl p)

/-- After the stop no step lets a log in but those of `letsIn`. -/
theorem go_after (me : ℕ) (joined : Bool) (i : Input) (w : Writer) (p : Producer)
    (r : Writer × Producer) (hok : Ok cfg me w) (hw : Own cfg me Sized w) (hs : p.stop = true)
    (hn : letsIn cfg me w p = false) (h : go cfg me joined i w p = some r) : After cfg w p r := by
  unfold go at h
  split at h
  · cases h
  · cases hpc : w.pc with
    | idle => simp [hpc] at h
    | tlsLock kv flush =>
      simp only [hpc, Option.some.injEq] at h
      subst h
      exact enter_after i _ _ _ w p hs
    | tlsWait kv flush deadline =>
      simp only [hpc, Option.some.injEq] at h
      subst h
      exact admitted_after _ deadline i.now _ _ w p hs
    | tlsAppend kv flush =>
      simp only [hpc, Option.some.injEq] at h
      subst h
      simp only [letsIn, hpc] at hn
      exact tlsAppend_after kv flush w p hn
    | flushLock id flush =>
      simp only [hpc, Option.some.injEq] at h
      subst h
      simp only [letsIn, hpc] at hn
      -- The log being flushed is in the batch, so the batch is not empty.
      have hlog := hok.log id (by rw [hpc]; rfl)
      have hsized := hw (hok.own (by rw [hpc]; rfl))
      unfold tlsBatchFlushLocked
      split
      · rename_i hempty
        rw [Builder.ids, hsized.empty hempty] at hlog
        cases hlog
      · obtain ⟨rc, hrc, he⟩ := waitBufferSpaceLocked_stopped w p i.now i.now2 hs hn
        rw [he]
        cases rc with
        | ok => exact absurd rfl hrc
        | full => exact flushFailed_after .full hrc w p (.add id flush)
        | closed => exact flushFailed_after .closed hrc w p (.add id flush)
        | timeout => exact flushFailed_after .timeout hrc w p (.add id flush)
    | flushWait who deadline =>
      simp only [hpc, Option.some.injEq] at h
      subst h
      rw [waitLoop_stopped p _ false deadline i.now hs]
      exact flushFailed_after .closed (by simp) w p who
    | pushWait who start =>
      simp [letsIn, hpc] at hn
    | flushFail rc =>
      simp only [hpc, Option.some.injEq] at h
      subst h
      refine ⟨.of_eq id rfl rfl ⟨rfl, rfl, rfl, rfl, rfl⟩, fun _ => .inr ⟨rfl, ?_⟩⟩
      cases rc <;> simp [flushResult, ret]
    | rawLock log =>
      simp only [hpc, Option.some.injEq] at h
      subst h
      exact enter_after i _ _ _ w p hs
    | rawWait log deadline =>
      simp only [hpc, Option.some.injEq] at h
      subst h
      exact admitted_after _ deadline i.now _ _ w p hs
    | rawPush log =>
      simp only [hpc, Option.some.injEq] at h
      subst h
      unfold rawPush
      rw [hs, Bool.true_or, if_pos rfl]
      exact .ret .closed (by simp) (.of_eq id rfl rfl ⟨rfl, rfl, rfl, rfl, rfl⟩)
    | kvLock kv hashKey flush =>
      simp only [hpc, Option.some.injEq] at h
      subst h
      exact enter_after i _ _ _ w p hs
    | kvWait kv hashKey flush deadline =>
      simp only [hpc, Option.some.injEq] at h
      subst h
      exact admitted_after _ deadline i.now _ _ w p hs
    | closeLock timeoutMs =>
      have hadd : adding w.pc = false := by rw [hpc]; rfl
      simp only [hpc] at h
      have hclose : ∀ t, Rests cfg p (flushed cfg i w p (.close t)).2 :=
        fun t => (closeBegin_rests p).trans (closeLoop_rests t _ _ w _)
      split at h
      · rename_i hown
        obtain rfl := Option.some.inj h
        simp only [letsIn, hpc, hown, Bool.true_and] at hn
        unfold tlsBatchFlushLocked
        split
        · exact .close hadd (hclose timeoutMs)
        · obtain ⟨rc, hrc, he⟩ := waitBufferSpaceLocked_stopped w p i.now i.now2 hs hn
          rw [he]
          cases rc with
          | ok => exact absurd rfl hrc
          | _ => exact .close hadd (.refl p)
      · obtain rfl := Option.some.inj h
        exact .close hadd (hclose timeoutMs)
    | closeWait timeoutMs start =>
      simp only [hpc, Option.some.injEq] at h
      subst h
      exact .close (by rw [hpc]; rfl) (closeLoop_rests timeoutMs start i.now w p)
    | closeStop =>
      simp only [hpc, Option.some.injEq] at h
      subst h
      exact .close (by rw [hpc]; rfl) (.of_eq id rfl rfl ⟨rfl, rfl, rfl, rfl, rfl⟩)
    | closeJoin =>
      simp only [hpc] at h
      split at h
      · obtain rfl := Option.some.inj h
        exact .close (by rw [hpc]; rfl) (.refl p)
      · cases h

theorem call_rests (me : ℕ) (w : Writer) (p : Producer) (c : Call) (r : Writer × Producer)
    (h : call cfg me w p c = some r) : Rests cfg p r.2 := by
  cases c with
  | addRaw log =>
    simp only [call] at h
    split at h
    · obtain rfl := Option.some.inj h
      exact .refl p
    · obtain rfl := Option.some.inj h
      exact .refl p
  | addKv kv hashKey flush =>
    simp only [call] at h
    split at h
    · obtain rfl := Option.some.inj h
      exact .refl p
    · split at h
      · obtain rfl := Option.some.inj h
        exact .refl p
      · obtain rfl := Option.some.inj h
        exact .refl p
  | flush =>
    obtain rfl := Option.some.inj h
    exact .of_eq id rfl rfl ⟨rfl, rfl, rfl, rfl, rfl⟩
  | close timeoutMs =>
    obtain rfl := Option.some.inj h
    exact .refl p
  | elsewhere other builder =>
    simp only [call] at h
    split at h
    · cases h
    · obtain rfl := Option.some.inj h
      dsimp only
      rw [leaveBatch_eq]
      exact .of_eq id rfl rfl ⟨rfl, rfl, rfl, rfl, rfl⟩

end Writer

theorem builders_mem {m : KeyMap SendTask Builder} {q : Addr} {b : Builder}
    (hq : q ∈ KeyMap.live cfg.toKeyConfig m) (hb : (m.info q).builder = some b) :
    b ∈ KeyMap.builders cfg.toKeyConfig m :=
  List.mem_filterMap.mpr ⟨q, hq, hb⟩

namespace Worker

theorem slot_kept (p : Producer) (slot : Slot) (b : Builder) (hs : slot ∈ slots cfg p)
    (hb : slotBuilder p slot = some b) : b ∈ kept cfg p := by
  rw [mem_kept]
  cases slot with
  | default => exact .inl hb
  | key q =>
    obtain hq : q ∈ KeyMap.live cfg.toKeyConfig p.keys := by simpa [slots] using hs
    exact .inr (.inl (builders_mem hq hb))

/-- Builders without logs are not sealed. -/
theorem sealAll_empty (flushAll : Bool) (now : ℤ) (p : Producer)
    (h : ∀ b ∈ kept cfg p, b.logCount = 0) : sealAll cfg flushAll now p = p := by
  have hgo : ∀ l : List Slot, (∀ slot ∈ l, slot ∈ slots cfg p) →
      l.foldl (sealDue cfg flushAll now) p = p := by
    intro l
    induction l with
    | nil => exact fun _ => rfl
    | cons slot l ih =>
      intro hl
      have hsame : sealDue cfg flushAll now p slot = p := by
        unfold sealDue
        cases hb : slotBuilder p slot with
        | none => rfl
        | some b =>
          have hzero := h b (slot_kept p slot b (hl slot List.mem_cons_self) hb)
          simp [builderDue, hzero]
      rw [List.foldl_cons, hsame]
      exact ih fun x hx => hl x (List.mem_cons_of_mem slot hx)
  exact hgo (slots cfg p) fun _ h => h

variable {w : Worker} {p : Producer} {r : Worker × Producer}

theorem body_rests (i : Input) (haveAny haveIngress : Bool) (hp : Shut cfg p)
    (hz : ∀ b ∈ kept cfg p, b.logCount = 0) (h : body cfg i haveAny haveIngress w p = some r) :
    Rests cfg p r.2 := by
  unfold body at h
  split at h
  · obtain rfl := Option.some.inj h
    exact .refl p
  · rw [hp.ingressQueue] at h
    have hseal := @sealAll_empty cfg (p.flushRequested || p.stop) i.now2 (beginFlush p) hz
    obtain rfl := Option.some.inj h
    show Rests cfg p (takeSealed cfg (sealAll cfg _ i.now2 (beginFlush p))).2
    rw [hseal]
    exact .of_eq id rfl rfl ⟨rfl, rfl, hp.sealedList.symm, rfl, rfl⟩

theorem scratch_rests (p : Producer) (bytes : ℕ) : Rests cfg p { p with scratchBytes := bytes } :=
  .of_eq id rfl rfl ⟨rfl, rfl, rfl, rfl, rfl⟩

theorem scratchAdmit_rests (j : Job) (need : ℕ) (x : Wait × Producer)
    (hx : Waited cfg p need true x) : Rests cfg p (scratchAdmit j w x).2 := by
  obtain ⟨a, p'⟩ := x
  have hq : Rests cfg p p' := by
    obtain ⟨_, _, _, _, _, _, rfl⟩ := hx.quiet
    exact .of_eq id rfl rfl ⟨rfl, rfl, rfl, rfl, rfl⟩
  cases a with
  | block d => exact hq
  | rc rc =>
    cases rc with
    | ok => exact hq.trans (scratch_rests p' _)
    | full => exact hq
    | closed => exact hq
    | timeout => exact hq

theorem sendAdmit_rests (i : Input) (j : Job) (need : ℕ) (x : Wait × Producer)
    (hx : Waited cfg p need true x) : Rests cfg p (sendAdmit i j w x).2 := by
  obtain ⟨a, p'⟩ := x
  have hq : Rests cfg p p' := by
    obtain ⟨_, _, _, _, _, _, rfl⟩ := hx.quiet
    exact .of_eq id rfl rfl ⟨rfl, rfl, rfl, rfl, rfl⟩
  cases a with
  | block d => exact hq
  | rc rc =>
    cases rc with
    | ok => exact hq.trans (.of_eq id rfl rfl ⟨rfl, rfl, rfl, rfl, rfl⟩)
    | full => exact hq
    | closed => exact hq
    | timeout => exact hq

theorem sendQueuePush_rests (i : Input) (j : Job) (start : ℤ) :
    Rests cfg p (sendQueuePush cfg i j start w p).2 := by
  unfold sendQueuePush
  split
  · exact .refl p
  · split
    · dsimp only
      split
      · exact .refl p
      · split
        · exact .refl p
        · exact .refl p
    · exact .of_eq id rfl rfl ⟨rfl, rfl, rfl, rfl, rfl⟩

/-- A worker that finds nothing adds nothing. -/
theorem step_rests (i : Input) (hs : KeyMap.Sound cfg.toKeyConfig p.keys) (hp : Shut cfg p)
    (hz : ∀ b ∈ kept cfg p, b.logCount = 0) (h : step cfg i w p = some r) : Rests cfg p r.2 := by
  unfold step at h
  cases hpc : w.pc with
  | top =>
    simp only [hpc, top] at h
    split at h
    · split at h
      · cases h
      · split at h
        · split at h
          · obtain rfl := Option.some.inj h
            exact .refl p
          · exact body_rests i _ _ hp hz h
        · obtain rfl := Option.some.inj h
          exact .refl p
    · exact body_rests i _ _ hp hz h
  | timed haveIngress =>
    simp only [hpc] at h
    exact body_rests i _ _ hp hz h
  | pop =>
    simp only [hpc, pop, hp.queue, Option.some.injEq] at h
    subst h
    exact .refl p
  | prepare j =>
    simp only [hpc, Option.some.injEq] at h
    subst h
    exact .refl p
  | scratchLock j =>
    simp only [hpc] at h
    split at h
    · obtain rfl := Option.some.inj h
      exact .refl p
    · obtain rfl := Option.some.inj h
      exact scratchAdmit_rests j _ _ (waitBufferSpaceLocked_waited p _ true i.now i.now2)
  | scratchWait j deadline =>
    simp only [hpc, Option.some.injEq] at h
    subst h
    exact scratchAdmit_rests j _ _ (waitLoop_waited p _ true deadline i.now)
  | compress j =>
    simp only [hpc, Option.some.injEq] at h
    subst h
    exact scratch_rests p _
  | keyReserve j =>
    simp only [hpc] at h
    split at h
    · cases h
    · split at h
      · cases h
      · rename_i a _ _ ha
        obtain rfl := Option.some.inj h
        have hk := KeyMap.keyQueueReserve_keeps hs a (cfg.normalizeHashKey j.task.hashKey) ha
        exact ⟨id, rfl, rfl, rfl, kept_effect hk rfl rfl rfl, rfl, rfl⟩
  | sendLock j =>
    simp only [hpc, Option.some.injEq] at h
    subst h
    exact sendAdmit_rests i j _ _ (waitBufferSpaceLocked_waited p _ true i.now i.now2)
  | sendWait j deadline =>
    simp only [hpc, Option.some.injEq] at h
    subst h
    exact sendAdmit_rests i j _ _ (waitLoop_waited p _ true deadline i.now)
  | push j start =>
    simp only [hpc, Option.some.injEq] at h
    subst h
    exact sendQueuePush_rests i j start
  | unreserve j =>
    simp only [hpc, Option.some.injEq] at h
    subst h
    exact .of_eq id rfl rfl ⟨rfl, rfl, rfl, rfl, rfl⟩
  | drop j =>
    simp only [hpc, Option.some.injEq] at h
    subst h
    exact .of_eq id rfl rfl ⟨rfl, rfl, rfl, rfl, rfl⟩
  | release bytes =>
    simp only [hpc, Option.some.injEq] at h
    subst h
    exact .of_eq id rfl rfl ⟨rfl, rfl, rfl, rfl, rfl⟩
  | finish =>
    simp only [hpc, Option.some.injEq] at h
    subst h
    exact .of_eq id rfl rfl ⟨rfl, rfl, rfl, rfl, rfl⟩
  | exited => simp [hpc] at h

theorem Move.stop {a b : Worker × Producer} (h : Move cfg a b) : b.2.stop = a.2.stop := by
  cases h with
  | idle w w' p p' hq => exact Writer.quiet_stop hq
  | merge w p p' t rest old b hi hf =>
    obtain ⟨d, m, l, n, f, rfl⟩ := hf.frame
    rfl
  | sealUp w p p' b hf =>
    obtain ⟨d, m, l, n, f, rfl⟩ := hf.frame
    rfl
  | _ => rfl

theorem Moves.stop {a b : Worker × Producer} (h : Moves cfg a b) : b.2.stop = a.2.stop := by
  induction h with
  | refl => rfl
  | tail _ hm ih => exact hm.stop.trans ih

end Worker

theorem Sender.Move.rests {a b : Sender.Pc × Producer} (h : Sender.Move cfg a b) :
    Rests cfg a.2 b.2 ∧ b.2.stop = a.2.stop := by
  have effect : ∀ {p p' : Producer} {m : KeyMap SendTask Builder} {taken : Addr → Prop}
      {waiting : CStr → List SendTask} {gone : List (Keys.Info Builder)},
      KeyMap.Effect cfg.toKeyConfig p.keys m taken waiting gone → p'.keys = m →
      p' = { p with keys := m, idleCleanupNextMs := p'.idleCleanupNextMs } → Rests cfg p p' := by
    intro p p' m taken waiting gone he hm hp
    rw [hp]
    exact ⟨id, rfl, rfl, rfl, kept_effect he rfl rfl rfl, rfl, rfl⟩
  cases h with
  | idle pc pc' p p' ha =>
    obtain ⟨_, _, _, _, rfl⟩ := ha
    exact ⟨.of_eq id rfl rfl ⟨rfl, rfl, rfl, rfl, rfl⟩, rfl⟩
  | keyed pc pc' p m hk => exact ⟨effect hk rfl rfl, rfl⟩
  | take p q t rest now m hfree hring he => exact ⟨effect he rfl rfl, rfl⟩
  | put p t m he => exact ⟨effect he rfl rfl, rfl⟩
  | requeue p q t next m he => exact ⟨effect he rfl rfl, rfl⟩
  | finish p q m gone he => exact ⟨effect he rfl rfl, rfl⟩
  | cleanup pc pc' p next m gone hs he => exact ⟨effect he rfl rfl, rfl⟩
  | _ => exact ⟨.of_eq id rfl rfl ⟨rfl, rfl, rfl, rfl, rfl⟩, rfl⟩

namespace Sys

variable {st : Setup}

theorem shut_of_drained {p : Producer} (hd : isDrainedLocked st.cfg p = true)
    (hz : Upstream st.cfg Sized p) (p' : Producer)
    (hp : ∃ a f, p' = { p with
      accepting := a, closing := false, stop := true, flushRequested := f }) : Shut st.cfg p' := by
  have hdrained := isDrainedLocked_drained p hd
  have hempty : ∀ b, b ∈ kept st.cfg p → builderLogs (some b) = false → b.logs = [] := by
    intro b hb hl
    apply (hz.kept b hb).empty
    left
    simpa [builderLogs] using hl
  obtain ⟨a, f, rfl⟩ := hp
  refine ⟨rfl, hdrained.queue, hdrained.ingressQueue, hdrained.sealedList, fun b hb => ?_⟩
  have hb' := hb
  rw [mem_kept] at hb'
  obtain hd | hk | ⟨x, hx, _⟩ := hb'
  · apply hempty b hb
    rw [← hd]
    exact hdrained.default
  · obtain ⟨q, hq, hbq⟩ := List.mem_filterMap.mp hk
    apply hempty b hb
    rw [← hbq]
    exact (hdrained.keys q hq).2.2
  · rw [hdrained.sealedList] at hx
    cases hx

/-- The step lets a log in although `stop` is set. -/
def slipsIn (st : Setup) (s : Sys) : Act → Bool
  | .writer i _ => s.prod.stop && Writer.letsIn st.cfg st.me (s.writers i) s.prod
  | _ => false

/-- A step after the stop. -/
theorem stopped_step (s s' : Sys) (a : Act) (hgood : Good st s) (hz : Every st Sized s)
    (hs : Shut st.cfg s.prod) (hc : slipsIn st s a = false) (h : step st s a = some s') :
    Rests st.cfg s.prod s'.prod := by
  cases a with
  | call i c =>
    simp only [step] at h
    split at h
    · obtain ⟨r, hr, rfl⟩ := Option.map_eq_some_iff.mp h
      exact Writer.call_rests st.me _ _ c r hr
    · cases h
  | writer i input =>
    simp only [step] at h
    split at h
    · obtain ⟨r, hr, rfl⟩ := Option.map_eq_some_iff.mp h
      simp only [slipsIn, hs.stop, Bool.true_and] at hc
      exact (Writer.go_after st.me _ input _ _ r (hgood.writers i) (hz.own i) hs.stop hc hr).rests
    · cases h
  | worker i input =>
    simp only [step] at h
    split at h
    · obtain ⟨r, hr, rfl⟩ := Option.map_eq_some_iff.mp h
      refine Worker.step_rests input hgood.sound hs (fun b hb => ?_) hr
      rw [(hz.upstream.kept b hb).1, hs.builders b hb]
      rfl
    · cases h
  | sender i input =>
    simp only [step] at h
    split at h
    · rename_i hi
      obtain ⟨r, hr, rfl⟩ := Option.map_eq_some_iff.mp h
      exact (Sender.step_move input _ r.1 _ r.2 hgood.sound
        (fun q hq => (hgood.held q).mpr ⟨i, hi, hq⟩) hr).rests.1
    · cases h

theorem call_stop (me : ℕ) (w : Writer) (p : Producer) (c : Call) (r : Writer × Producer)
    (h : Writer.call st.cfg me w p c = some r) : r.2.stop = p.stop := by
  cases c with
  | addRaw log =>
    simp only [Writer.call] at h
    split at h <;> (obtain rfl := Option.some.inj h; rfl)
  | addKv kv hashKey flush =>
    simp only [Writer.call] at h
    split at h
    · obtain rfl := Option.some.inj h
      rfl
    · split at h <;> (obtain rfl := Option.some.inj h; rfl)
  | flush =>
    obtain rfl := Option.some.inj h
    rfl
  | close timeoutMs =>
    obtain rfl := Option.some.inj h
    rfl
  | elsewhere other builder =>
    simp only [Writer.call] at h
    split at h
    · cases h
    · obtain rfl := Option.some.inj h
      dsimp only
      rw [Writer.leaveBatch_eq]

/-- The step that sets `stop` finds the producer drained. -/
theorem stop_drained (s s' : Sys) (a : Act) (hgood : Good st s) (hs : s.prod.stop = false)
    (hs' : s'.prod.stop = true) (h : step st s a = some s') :
    isDrainedLocked st.cfg s.prod = true ∧ ∃ b f, s'.prod =
      { s.prod with accepting := b, closing := false, stop := true, flushRequested := f } := by
  have hsame : s'.prod.stop ≠ s.prod.stop := by
    rw [hs, hs']
    nofun
  cases a with
  | call i c =>
    simp only [step] at h
    split at h
    · obtain ⟨r, hr, rfl⟩ := Option.map_eq_some_iff.mp h
      exact absurd (call_stop st.me _ _ c r hr) hsame
    · cases h
  | writer i input =>
    simp only [step] at h
    split at h
    · obtain ⟨r, hr, rfl⟩ := Option.map_eq_some_iff.mp h
      obtain hapart | hstops := Writer.go_stops st.me _ input _ _ r hr
      · exact absurd hapart.1 hsame
      · exact ⟨hstops.drained, hstops.prod⟩
    · cases h
  | worker i input =>
    simp only [step] at h
    split at h
    · obtain ⟨r, hr, rfl⟩ := Option.map_eq_some_iff.mp h
      refine absurd ?_ hsame
      obtain hm | ⟨j, start, _, hp⟩ := Worker.step_moves input _ r.1 _ r.2 (hgood.workers i)
        hgood.sound hr
      · exact hm.stop
      · show r.2.stop = s.prod.stop
        rw [(Prod.mk.inj hp).2]
    · cases h
  | sender i input =>
    simp only [step] at h
    split at h
    · rename_i hi
      obtain ⟨r, hr, rfl⟩ := Option.map_eq_some_iff.mp h
      exact absurd (Sender.step_move input _ r.1 _ r.2 hgood.sound
        (fun q hq => (hgood.held q).mpr ⟨i, hi, hq⟩) hr).rests.2 hsame
    · cases h

/-- The step that sets `stop` leaves nothing before the send queue. -/
theorem stopping_step (s s' : Sys) (a : Act) (hgood : Good st s) (hz : Every st Sized s)
    (hs : s.prod.stop = false) (hs' : s'.prod.stop = true) (h : step st s a = some s') :
    Shut st.cfg s'.prod := by
  obtain ⟨hd, hp⟩ := stop_drained s s' a hgood hs hs' h
  exact shut_of_drained hd hz.upstream s'.prod hp

/-- What is known of the stop in a run that no log slips into. -/
structure Sealed (st : Setup) (s : Sys) : Prop where
  sized : Every st Sized s
  shut : s.prod.stop = true → Shut st.cfg s.prod

theorem sealed_step (s s' : Sys) (a : Act) (hgood : Good st s) (hi : Sealed st s)
    (hc : slipsIn st s a = false) (h : step st s a = some s') : Sealed st s' := by
  refine ⟨sized_step s s' a hgood hi.sized h, fun hs' => ?_⟩
  cases hs : s.prod.stop with
  | true => exact (stopped_step s s' a hgood hi.sized (hi.shut hs) hc h).shut (hi.shut hs)
  | false => exact stopping_step s s' a hgood hi.sized hs hs' h

/-- The action begins a call of the thread. -/
def begins (j : ℕ) : Act → Bool
  | .call i _ => i == j
  | _ => false

/-- A thread in an add after the stop stays in it, or is refused. -/
theorem refused_step (w : Writer) (j : ℕ) (s s' : Sys) (a : Act) (hgood : Good st s)
    (hi : Sealed st s) (hs : s.prod.stop = true) (hr : Writer.Refused w (s.writers j))
    (hc : slipsIn st s a = false) (hb : begins j a = false) (h : step st s a = some s') :
    Writer.Refused w (s'.writers j) := by
  have hsame : s'.writers j = s.writers j → Writer.Refused w (s'.writers j) := by
    intro he
    rw [he]
    exact hr
  cases a with
  | call i c =>
    simp only [step] at h
    split at h
    · obtain ⟨r, _, rfl⟩ := Option.map_eq_some_iff.mp h
      have hne : j ≠ i := by
        rintro rfl
        simp [begins] at hb
      exact hsame (Function.update_of_ne hne _ _)
    · cases h
  | writer i input =>
    simp only [step] at h
    split at h
    · obtain ⟨r, hgo, rfl⟩ := Option.map_eq_some_iff.mp h
      by_cases hij : j = i
      · subst hij
        simp only [slipsIn, hs, Bool.true_and] at hc
        have hafter := Writer.go_after st.me _ input _ _ r (hgood.writers j) (hi.sized.own j) hs hc
          hgo
        have hself : (s.setWriter j r).writers j = r.1 := by simp [setWriter]
        rw [hself]
        intro hadd
        obtain hpc | ⟨hidle, _⟩ := hr hadd
        · exact hafter.refused hpc
        · simp [Writer.go, hidle] at hgo
      · exact hsame (Function.update_of_ne hij _ _)
    · cases h
  | worker i input =>
    simp only [step] at h
    split at h
    · obtain ⟨r, _, rfl⟩ := Option.map_eq_some_iff.mp h
      exact hsame rfl
    · cases h
  | sender i input =>
    simp only [step] at h
    split at h
    · obtain ⟨r, _, rfl⟩ := Option.map_eq_some_iff.mp h
      exact hsame rfl
    · cases h

/-- Between `s`, where `stop` is set, and `s'` no log came in: nothing waits
before the send queue, no add was accepted, and one that was running still
runs or has returned something other than `ok`. -/
structure ShutOut (st : Setup) (rest : List Act) (s s' : Sys) : Prop where
  shut : Shut st.cfg s'.prod
  accepted : s'.prod.accepted = s.prod.accepted
  published : s'.prod.published = s.prod.published
  refused : ∀ j, (∀ a ∈ rest, begins j a = false) → Writer.adding (s.writers j).pc = true →
    Writer.adding (s'.writers j).pc = true ∨
      ((s'.writers j).pc = .idle ∧ (s'.writers j).result ≠ some .ok)

theorem sealed_start (st : Setup) : Sealed st (start st) :=
  ⟨every_start sized_additive st, nofun⟩

theorem along_and {C : Sys → Act → Prop} {P : Act → Prop} (acts : List Act) (s : Sys)
    (hc : Along st C acts s) (hp : ∀ a ∈ acts, P a) : Along st (fun s a => C s a ∧ P a) acts s := by
  induction acts generalizing s with
  | nil => trivial
  | cons a acts ih =>
    obtain ⟨ha, hrest⟩ := hc
    refine ⟨⟨ha, hp a List.mem_cons_self⟩, ?_⟩
    cases hs : step st s a with
    | none => trivial
    | some s₁ =>
      rw [hs] at hrest
      exact ih s₁ hrest fun x hx => hp x (List.mem_cons_of_mem a hx)

/-- In every run in which no step lets a log in after the stop, no log comes
in after it: none is published, accepted or kept in a builder or a queue
before the send queue from the moment `stop` is set. -/
theorem run_shut_out (st : Setup) (acts rest : List Act) (s s' : Sys)
    (h : run st acts (start st) = some s) (hs : s.prod.stop = true)
    (h' : run st rest s = some s')
    (hc : Along st (fun s a => slipsIn st s a = false) acts (start st))
    (hc' : Along st (fun s a => slipsIn st s a = false) rest s) : ShutOut st rest s s' := by
  obtain ⟨hgood, hsealed⟩ := run_rule (Sealed st) (fun s a => slipsIn st s a = false)
    (fun s a s' hg hI ha hst => sealed_step s s' a hg hI ha hst) acts (start st) s (good_start st)
    (sealed_start st) hc h
  have hstep : ∀ t a t', Good st t → (Sealed st t ∧ Shut st.cfg t.prod ∧
      Rests st.cfg s.prod t.prod) → slipsIn st t a = false → step st t a = some t' →
      Sealed st t' ∧ Shut st.cfg t'.prod ∧ Rests st.cfg s.prod t'.prod := by
    intro t a t' hg hI ha hst
    have hr := stopped_step t t' a hg hI.1.sized hI.2.1 ha hst
    exact ⟨sealed_step t t' a hg hI.1 ha hst, hr.shut hI.2.1, hI.2.2.trans hr⟩
  obtain ⟨_, _, hshut, hrests⟩ := run_rule _ _ hstep rest s s' hgood
    ⟨hsealed, hsealed.shut hs, .refl _⟩ hc' h'
  refine ⟨hshut, hrests.accepted, hrests.published, fun j hj => ?_⟩
  obtain ⟨_, _, _, hrefused⟩ := run_rule
    (fun t => Sealed st t ∧ t.prod.stop = true ∧ Writer.Refused (s.writers j) (t.writers j))
    (fun t a => slipsIn st t a = false ∧ begins j a = false)
    (fun t a t' hg hI ha hst => ⟨sealed_step t t' a hg hI.1 ha.1 hst,
      (stopped_step t t' a hg hI.1.sized (hI.1.shut hI.2.1) ha.1 hst).stop hI.2.1,
      refused_step (s.writers j) j t t' a hg hI.1 hI.2.1 hI.2.2 ha.1 ha.2 hst⟩)
    rest s s' hgood ⟨hsealed, hs, .inl⟩ (along_and rest s hc' hj) h'
  exact hrefused

def twoThreads : Setup := ⟨{ keyQueueBucketCount := 1 }, 2, 0⟩

def oneLog : Wire.KvLog := ⟨5, 0, false, [([65], [66])]⟩

/-- Thread 0 begins an add, and thread 1 closes up to the stop. -/
def closeMeanwhile : List Act :=
  [.call 0 (.addKv oneLog [75] true), .call 1 (.close 9), .writer 1 ⟨1, 1, 9⟩]

/-- The add of thread 0 goes on; then the close ends. -/
def addRefused : List Act :=
  [.writer 0 ⟨1, 1, 9⟩, .writer 1 ⟨1, 1, 9⟩, .worker 0 ⟨1, 1, [], none, none⟩,
    .sender 0 ⟨1, 1, 9, none, .sent⟩, .writer 1 ⟨1, 1, 9⟩]

theorem addRefused_shut_out : ∃ s s', run twoThreads closeMeanwhile (start twoThreads) = some s ∧
    run twoThreads addRefused s = some s' ∧ (s'.writers 1).result = some .ok ∧
    (s'.writers 0).result = some .closed ∧ ShutOut twoThreads addRefused s s' :=
  ⟨_, _, rfl, rfl, by decide, by decide, run_shut_out twoThreads closeMeanwhile addRefused _ _ rfl
    (by decide) rfl (by decide) (by decide)⟩

/-- Thread 0 has reserved for its log when thread 1 closes. -/
def closeInGap : List Act :=
  [.call 0 (.addKv oneLog [] true), .writer 0 ⟨1, 1, 9⟩, .call 1 (.close 9), .writer 1 ⟨1, 1, 9⟩]

/-- All threads end and the close returns; then thread 0 appends and flushes. -/
def addAfterwards : List Act :=
  [.writer 1 ⟨1, 1, 9⟩, .worker 0 ⟨1, 1, [], none, none⟩, .sender 0 ⟨1, 1, 9, none, .sent⟩,
    .writer 1 ⟨1, 1, 9⟩, .writer 0 ⟨1, 1, 9⟩, .writer 0 ⟨1, 1, 9⟩]

/-- The add returns `ok`, and its log is in a queue that nobody reads. -/
theorem addAfterwards_slips_in : ∃ s s', run twoThreads closeInGap (start twoThreads) = some s ∧
    s.prod.stop = true ∧ run twoThreads addAfterwards s = some s' ∧
    (s'.writers 1).result = some .ok ∧ (s'.writers 0).result = some .ok ∧
    s'.prod.ingressQueue.length = 1 ∧ s'.joined twoThreads = true ∧
    ¬ShutOut twoThreads addAfterwards s s' := by
  have hrun : ∃ s s', run twoThreads closeInGap (start twoThreads) = some s ∧
      s.prod.stop = true ∧ run twoThreads addAfterwards s = some s' ∧
      (s'.writers 1).result = some .ok ∧ (s'.writers 0).result = some .ok ∧
      s'.prod.ingressQueue.length = 1 ∧ s'.joined twoThreads = true :=
    ⟨_, _, rfl, by decide, rfl, by decide, by decide, by decide, by decide⟩
  obtain ⟨s, s', h, hs, h', hclose, hadd, hlen, hjoined⟩ := hrun
  refine ⟨s, s', h, hs, h', hclose, hadd, hlen, hjoined, fun hout => ?_⟩
  rw [hout.shut.ingressQueue] at hlen
  cases hlen

end Sys

end VeTls
