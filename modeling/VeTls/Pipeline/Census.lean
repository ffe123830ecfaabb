import VeTls.Pipeline.Covered

/-!
# Where every log is

A log has its id in one place: the batch of a thread, the raw queue, the
ingress queue, a builder, or a batch on its way to the server, and in the end
in one report. Every step hands an id on or lets go of it, and a new place
for an id is made only together with the id.
-/

set_option autoImplicit false

namespace VeTls

open VeTls.Keys (Addr CStr KeyMap Info)
open VeTls.Keys.KeyMap (Effect Keeps Sound live load)
open VeTls.Threads (total total_update total_same)

variable {cfg : Config} {id : ℤ}

/-- How often the producer has the id, up to the batches taken. -/
def stock (cfg : Config) (id : ℤ) (p : Producer) : ℕ :=
  (p.queue.map RawItem.id).count id+(p.ingressQueue.flatMap fun t => t.batch.ids).count id+
    ((kept cfg p).flatMap Builder.ids).count id+(p.taken.flatMap Batch.ids).count id

def Report.apart (r : Report) : Bool := decide (r.batch = none)

/-- How often the id is in a report that is not for a batch. -/
def drops (id : ℤ) (p : Producer) : ℕ := ((p.done.filter Report.apart).flatMap Report.ids).count id

/-- The ids given out between two states. -/
def issued (p p' : Producer) (id : ℤ) : ℕ := if p.nextId ≤ id ∧ id < p'.nextId then 1 else 0

theorem issued_trans {p q r : Producer} (h : p.nextId ≤ q.nextId) (h' : q.nextId ≤ r.nextId) :
    issued p q id+issued q r id = issued p r id := by
  unfold issued
  split <;> split <;> split <;> omega

theorem issued_next {p p' : Producer} (h : p'.nextId = p.nextId+1) :
    issued p p' id = [p.nextId].count id := by
  rw [issued, h, List.count_singleton]
  by_cases he : id = p.nextId
  · rw [if_pos (by omega), if_pos (by simp [he])]
  · rw [if_neg (by omega), if_neg (by simpa using fun hx => he hx.symm)]

theorem stock_congr {p p' : Producer} (hq : p'.queue = p.queue)
    (hi : p'.ingressQueue = p.ingressQueue) (hd : p'.defaultBuilder = p.defaultBuilder)
    (hk : p'.keys = p.keys) (hl : p'.sealedList = p.sealedList) (ht : p'.taken = p.taken) :
    stock cfg id p' = stock cfg id p := by
  rw [stock, stock, hq, hi, kept_congr hd hk hl, ht]

theorem stock_kept {p p' : Producer} (hq : p'.queue = p.queue)
    (hi : p'.ingressQueue = p.ingressQueue) (ht : p'.taken = p.taken)
    (hk : ((kept cfg p').flatMap Builder.ids).count id ≤
      ((kept cfg p).flatMap Builder.ids).count id) :
    stock cfg id p' ≤ stock cfg id p := by
  rw [stock, stock, hq, hi, ht]
  omega

/-- An exchange of builders adds the ids of the new logs. -/
theorem Fill.count {p p' : Producer} {old : Option Builder} {b : Builder} {new : List Log}
    {len count : ℕ} (hf : Fill cfg p p' old b) (he : Extends old new len count b) :
    ((VeTls.kept cfg p').flatMap Builder.ids).count id =
      ((VeTls.kept cfg p).flatMap Builder.ids).count id+(new.map Log.id).count id := by
  obtain ⟨rest, hp, hp'⟩ := hf.kept
  have hold : old.toList.flatMap Builder.ids = old.elim [] Builder.ids := by
    cases old <;> simp
  rw [(hp.flatMap_right Builder.ids).count_eq, (hp'.flatMap_right Builder.ids).count_eq,
    List.flatMap_append, List.flatMap_cons, List.count_append, List.count_append, he.ids,
    List.count_append, hold]
  omega

/-- A change of the key map may lose ids, and makes no place for one. -/
theorem kept_effect_count {p p' : Producer} {m : KeyMap SendTask Builder} {taken : Addr → Prop}
    {waiting : CStr → List SendTask} {gone : List (Info Builder)}
    (he : Effect cfg.toKeyConfig p.keys m taken waiting gone)
    (hd : p'.defaultBuilder = p.defaultBuilder) (hk : p'.keys = m)
    (hl : p'.sealedList = p.sealedList) :
    ((kept cfg p').flatMap Builder.ids).count id ≤ ((kept cfg p).flatMap Builder.ids).count id := by
  have hb := (he.builders.flatMap_right Builder.ids).count_eq id
  rw [List.flatMap_append, List.count_append] at hb
  simp only [kept, hd, hk, hl, List.flatMap_append, List.count_append]
  omega

theorem stock_effect {p p' : Producer} {m : KeyMap SendTask Builder} {taken : Addr → Prop}
    {waiting : CStr → List SendTask} {gone : List (Info Builder)}
    (he : Effect cfg.toKeyConfig p.keys m taken waiting gone) (hk : p'.keys = m)
    (hq : p'.queue = p.queue) (hi : p'.ingressQueue = p.ingressQueue)
    (hd : p'.defaultBuilder = p.defaultBuilder) (hl : p'.sealedList = p.sealedList)
    (ht : p'.taken = p.taken) : stock cfg id p' ≤ stock cfg id p :=
  stock_kept hq hi ht (kept_effect_count he hd hk hl)

theorem drops_congr {p p' : Producer} (h : p'.done = p.done) : drops id p' = drops id p := by
  rw [drops, drops, h]

theorem drops_append {p p' : Producer} (r : Report) (hr : r.apart = true)
    (h : p'.done = p.done++[r]) : drops id p' = drops id p+r.ids.count id := by
  rw [drops, h, List.filter_append, List.flatMap_append, List.count_append, drops]
  simp [hr]

theorem drops_batch (r : Report) (hr : r.apart = false) (p : Producer) :
    drops id (report r p) = drops id p := by
  simp [drops, report, List.filter_append, hr]

namespace Writer

variable {me : ℕ} {src : Pc} {p : Producer}

/-- How often the thread or the producer has the id. -/
def hold (cfg : Config) (me : ℕ) (id : ℤ) (a : Writer × Producer) : ℕ :=
  (ownIds me a.1).count id+stock cfg id a.2

theorem hold_stay {a b : Writer × Producer} (hb : b.1.batch = a.1.batch)
    (hs : stock cfg id b.2 ≤ stock cfg id a.2) :
    hold cfg me id b ≤ hold cfg me id a+issued a.2 b.2 id := by
  rw [hold, hold, ownIds_congr hb]
  omega

theorem hold_empty {a b : Writer × Producer} (hb : ownIds me b.1 = [])
    (hs : stock cfg id b.2 ≤ stock cfg id a.2) : hold cfg me id b ≤ hold cfg me id a := by
  rw [hold, hold, hb, List.count_nil]
  omega

theorem Move.hold {a b : Writer × Producer} (hm : Move cfg me src a b) :
    hold cfg me id b ≤ hold cfg me id a+issued a.2 b.2 id := by
  cases hm with
  | quiet w w' p p' hq hb =>
    obtain ⟨f, n, k, l, _, _, rfl⟩ := hq
    exact hold_stay hb le_rfl
  | switch w w' p hp hb =>
    rw [Writer.hold, Writer.hold, ownIds_other hp, ownIds, hb, if_pos rfl]
    exact Nat.le_add_right _ _
  | append w w' p kv flush b hkv hown hpc hadd hb =>
    have hown' : w'.batch.producer = some me := by rw [hb]; exact hown
    have hbuilder : tlsBuilder cfg w' = b := by rw [tlsBuilder, hb]; rfl
    rw [settleTls_eq, Writer.hold, Writer.hold, ownIds_own hown, ownIds_own hown', hbuilder,
      ids_addKv _ _ _ _ hadd, List.count_append, issued_next rfl]
    exact le_of_eq (Nat.add_right_comm _ _ _)
  | publish w w' p t hown ht hb =>
    have hown' : w'.batch.producer = some me := by rw [hb]; exact hown
    have hempty : ownIds me w' = [] := by rw [ownIds, hb, if_pos hown]; rfl
    rw [Writer.hold, Writer.hold, hempty, ownIds_own hown, ← ht]
    simp only [stock, List.flatMap_append, List.flatMap_cons, List.flatMap_nil, List.append_nil,
      List.count_append, List.count_nil]
    exact (Nat.le_add_right _ _).trans' (by simp only [VeTls.kept]; omega)
  | rawPush w w' p log hpc hb =>
    rw [Writer.hold, Writer.hold, ownIds_congr hb, issued_next rfl]
    simp only [stock, List.map_append, List.map_cons, List.map_nil, List.count_append, rawItem]
    exact le_of_eq (by simp only [VeTls.kept]; omega)
  | keyed w p m hr hk => exact hold_stay rfl (stock_effect hk rfl rfl rfl rfl rfl rfl)
  | store w w' p p' kv old b hkv hb hr hr' hs hf he =>
    have hcount := @Fill.count cfg id p p' old b _ _ _ hf he
    obtain ⟨d, m, l, n, f, rfl⟩ := hf.frame
    rw [Writer.hold, Writer.hold, ownIds_congr hb, issued_next rfl]
    simp only [List.map_cons, List.map_nil, storedLog, VeTls.kept] at hcount
    simp only [stock, VeTls.kept]
    omega
  | openSlot w p p' old b hr hf he =>
    have hcount := @Fill.count cfg id p p' old b _ _ _ hf he
    obtain ⟨d, m, l, n, f, rfl⟩ := hf.frame
    exact hold_stay rfl (stock_kept rfl rfl rfl hcount.le)
  | rawRelease w w' p log hpc hb => exact hold_stay hb le_rfl
  | stop w w' p hd hb => exact hold_stay hb le_rfl
  | stopSendQueue w w' p hb => exact hold_stay hb le_rfl
  | _ => exact hold_stay rfl le_rfl

theorem Moves.hold {a b : Writer × Producer} (hm : Moves cfg me src a b) :
    a.2.nextId ≤ b.2.nextId ∧
      Writer.hold cfg me id b ≤ Writer.hold cfg me id a+issued a.2 b.2 id := by
  induction hm with
  | refl => exact ⟨le_rfl, Nat.le_add_right _ _⟩
  | tail _ hlast ih =>
    have hn := hlast.nextId
    have hh := @Move.hold cfg id me src _ _ hlast
    refine ⟨ih.1.trans hn, ?_⟩
    rw [← issued_trans ih.1 hn]
    omega

/-- A thread that loses its batch takes nothing from the producer. -/
theorem Loss.hold {a b : Writer × Producer} (hl : Loss cfg me a b) :
    a.2.nextId ≤ b.2.nextId ∧ Writer.hold cfg me id b ≤ Writer.hold cfg me id a := by
  cases hl with
  | leave w w' p hp =>
    rw [leaveBatch_eq]
    exact ⟨le_rfl, hold_empty (ownIds_other hp) le_rfl⟩
  | overflow w w' p kv flush hown hpc hadd hb =>
    have hempty : ownIds me w' = [] := by rw [ownIds, hb, if_pos hown]; rfl
    exact ⟨by simp [countDropped], hold_empty hempty le_rfl⟩
  | discard w w' p rc hown hpc hb =>
    have hempty : ownIds me w' = [] := by rw [ownIds, hb, if_pos hown]; rfl
    exact ⟨le_rfl, hold_empty hempty le_rfl⟩

/-- A step reports nothing, or one log under a new id that it puts nowhere. -/
inductive Tells (cfg : Config) (w : Writer) (p : Producer) (r : Writer × Producer) : Prop
  | silent (hd : r.2.done = p.done)
  | dropped (bytes : ℕ) (m : KeyMap SendTask Builder) (n k : ℕ) (a : List ℤ)
      (hb : r.1.batch = w.batch) (hk : KeyMap.Keeps cfg.toKeyConfig p.keys m)
      (hp : r.2 = { p with
        nextId := p.nextId+1, keys := m, queueBytes := n, logsDroppedTotal := k, accepted := a
        done := p.done++[⟨false, bytes, p.nextId, p.nextId, [p.nextId], none⟩] })

theorem waitLoop_done (p : Producer) (need : ℕ) (reserveForSend : Bool) (deadline now : ℤ) :
    (waitLoop cfg p need reserveForSend deadline now).2.done = p.done := by
  unfold waitLoop
  split
  · rfl
  · split
    · rfl
    · split <;> rfl

theorem waitBufferSpaceLocked_done (p : Producer) (need : ℕ) (reserveForSend : Bool)
    (now now2 : ℤ) :
    (waitBufferSpaceLocked cfg p need reserveForSend now now2).2.done = p.done := by
  unfold waitBufferSpaceLocked
  split
  · rfl
  · split
    · rfl
    · split
      · rfl
      · exact waitLoop_done p need reserveForSend _ now2

theorem mapWaitErrorToResult_done (rc : WaitRc) (p : Producer) :
    (mapWaitErrorToResult rc p).2.done = p.done := by
  cases rc <;> rfl

theorem admitted_tells (w : Writer) (again : ℤ → Pc) (go : Producer → Writer × Producer)
    (p : Producer) (need : ℕ) (r : Wait × Producer) (hr : Waited cfg p need false r)
    (hd : r.2.done = p.done) (hgo : Tells cfg w p (go p)) :
    Tells cfg w p (admitted w again go r) := by
  obtain ⟨x, p'⟩ := r
  have hfail : ∀ rc, Tells cfg w p
      (ret (mapWaitErrorToResult rc p').1 w, (mapWaitErrorToResult rc p').2) :=
    fun rc => .silent ((mapWaitErrorToResult_done rc p').trans hd)
  cases x with
  | block d => exact .silent hd
  | rc rc =>
    cases rc with
    | ok =>
      obtain ⟨rfl, _⟩ := hr.ok rfl
      exact hgo
    | full => exact hfail .full
    | closed => exact hfail .closed
    | timeout => exact hfail .timeout

theorem enter_tells (hs : Sound cfg.toKeyConfig p.keys) (i : Input) (bytes : ℕ) (again : ℤ → Pc)
    (go : Producer → Writer × Producer) (w : Writer) (hgo : Tells cfg w p (go p)) :
    Tells cfg w p (enter cfg i bytes again go w p) := by
  unfold enter
  split
  · exact .silent rfl
  · split
    · rename_i p' hd
      unfold ingressBreakerDropLocked at hd
      split at hd
      · cases hd
      · split at hd
        · obtain rfl := Option.some.inj hd
          exact .dropped bytes p.keys p.queueBytes (p.logsDroppedTotal+1) p.accepted rfl
            (KeyMap.keeps_refl hs) rfl
        · obtain rfl := Option.some.inj hd
          exact .silent rfl
    · exact admitted_tells w again go p bytes _
        (waitBufferSpaceLocked_waited p bytes false i.now i.now2)
        (waitBufferSpaceLocked_done p bytes false i.now i.now2) hgo

theorem flushFailed_done (rc : WaitRc) (w : Writer) (p : Producer) (who : FlushBy) :
    (flushFailed rc w p who).2.done = p.done := by
  cases who <;> rfl

theorem closeLoop_done (timeoutMs start now : ℤ) (w : Writer) (p : Producer) :
    (closeLoop cfg timeoutMs start now w p).2.done = p.done := by
  unfold closeLoop
  split
  · rfl
  · split
    · rfl
    · split <;> rfl

theorem flushed_done (i : Input) (w : Writer) (p : Producer) (who : FlushBy) :
    (flushed cfg i w p who).2.done = p.done := by
  cases who with
  | add id flush => rfl
  | close timeoutMs => exact closeLoop_done timeoutMs i.now i.now2 w _

theorem flushPush_done (i : Input) (start : ℤ) (who : FlushBy) (w : Writer) (p : Producer) :
    (flushPush cfg i start who w p).2.done = p.done := by
  unfold flushPush
  obtain he | ⟨x, hx, he⟩ := ingressQueuePushLocked_cases cfg p cfg.hashKey (tlsBuilder cfg w)
    (forceFlush who) (ingressWaitMs cfg) start i.now2
  · rw [he]
    exact flushed_done i _ _ who
  · rw [he]
    cases x with
    | block d => rfl
    | rc rc =>
      cases rc with
      | ok => exact absurd rfl hx
      | full => exact flushFailed_done .full w p who
      | closed => exact flushFailed_done .closed w p who
      | timeout => exact flushFailed_done .timeout w p who

theorem flushAdmit_done (i : Input) (who : FlushBy) (w : Writer) (p : Producer)
    (r : Wait × Producer) (hd : r.2.done = p.done) :
    (flushAdmit cfg i who w r).2.done = p.done := by
  obtain ⟨x, p'⟩ := r
  cases x with
  | block d => exact hd
  | rc rc =>
    cases rc with
    | ok => exact (flushPush_done i i.now who w p').trans hd
    | full => exact (flushFailed_done .full w p' who).trans hd
    | closed => exact (flushFailed_done .closed w p' who).trans hd
    | timeout => exact (flushFailed_done .timeout w p' who).trans hd

theorem tlsBatchFlushLocked_done (i : Input) (who : FlushBy) (w : Writer) (p : Producer) :
    (tlsBatchFlushLocked cfg i who w p).2.done = p.done := by
  unfold tlsBatchFlushLocked
  split
  · exact flushed_done i w p who
  · exact flushAdmit_done i who w p _ (waitBufferSpaceLocked_done p _ false i.now i.now2)

theorem setSlot_done (b : Option Builder) (p : Producer) (slot : Slot) :
    (setSlot b p slot).done = p.done := by
  cases slot <;> rfl

theorem storeBuilder_done (flush : Bool) (slot : Slot) (b : Builder) (p : Producer) :
    (storeBuilder cfg flush slot b p).done = p.done := by
  unfold storeBuilder
  split
  · exact setSlot_done none p slot
  · exact setSlot_done (some b) p slot

theorem settleQueue_done (estimated delta : ℕ) (p : Producer) :
    (settleQueue estimated delta p).done = p.done := by
  unfold settleQueue
  split
  · rfl
  · split <;> rfl

/-- At the key limit the log is reported at once, in any other case it is
stored, or refused without a report. -/
theorem kvAdd_tells (hs : Sound cfg.toKeyConfig p.keys) (i : Input) (kv : Wire.KvLog)
    (hashKey : CStr) (flush : Bool) (w : Writer)
    (ha : i.addr ∉ live cfg.toKeyConfig p.keys) :
    Tells cfg w p (kvAdd cfg i kv hashKey flush w p) := by
  obtain ⟨m, hm, hk, -⟩ := findSlot_keeps (kvReserve kv p) hs
    (cfg.fastBuilder && hashKey.isEmpty) (cfg.normalizeHashKey hashKey) i.addr ha
  unfold kvAdd
  dsimp only
  split
  · rename_i q hq
    rw [hq] at hm
    obtain rfl : q = { kvReserve kv p with keys := m } := hm
    unfold kvRefuse
    dsimp only
    split
    · exact .dropped _ m _ _ _ rfl hk rfl
    · exact .silent rfl
  · rename_i slot q hq
    rw [hq] at hm
    obtain rfl : q = { kvReserve kv p with keys := m } := hm
    unfold kvStore
    split
    · exact .silent (setSlot_done _ _ _)
    · exact .silent ((storeBuilder_done _ _ _ _).trans (settleQueue_done _ _ _))

theorem go_tells (hs : Sound cfg.toKeyConfig p.keys) (joined : Bool) (i : Input) (w : Writer)
    (r : Writer × Producer) (h : go cfg me joined i w p = some r) : Tells cfg w p r := by
  unfold go at h
  split at h
  · cases h
  · rename_i ha
    cases hpc : w.pc with
    | idle => simp [hpc] at h
    | tlsLock kv flush =>
      simp only [hpc, Option.some.injEq] at h
      subst h
      exact enter_tells hs i _ _ _ w (.silent rfl)
    | tlsWait kv flush deadline =>
      simp only [hpc, Option.some.injEq] at h
      subst h
      exact admitted_tells w _ _ p _ _ (waitLoop_waited p _ false deadline i.now)
        (waitLoop_done p _ false deadline i.now) (.silent rfl)
    | tlsAppend kv flush =>
      simp only [hpc, Option.some.injEq] at h
      subst h
      refine .silent ?_
      unfold tlsAppend
      dsimp only
      split
      · rfl
      · split
        · rw [settleTls_eq]
        · rw [settleTls_eq]
          rfl
    | flushLock id flush =>
      simp only [hpc, Option.some.injEq] at h
      subst h
      exact .silent (tlsBatchFlushLocked_done i _ w p)
    | flushWait who deadline =>
      simp only [hpc, Option.some.injEq] at h
      subst h
      exact .silent (flushAdmit_done i who w p _ (waitLoop_done p _ false deadline i.now))
    | pushWait who start =>
      simp only [hpc, Option.some.injEq] at h
      subst h
      exact .silent (flushPush_done i start who w p)
    | flushFail rc =>
      simp only [hpc, Option.some.injEq] at h
      subst h
      exact .silent rfl
    | rawLock log =>
      simp only [hpc, Option.some.injEq] at h
      subst h
      exact enter_tells hs i _ _ _ w (.silent rfl)
    | rawWait log deadline =>
      simp only [hpc, Option.some.injEq] at h
      subst h
      exact admitted_tells w _ _ p _ _ (waitLoop_waited p _ false deadline i.now)
        (waitLoop_done p _ false deadline i.now) (.silent rfl)
    | rawPush log =>
      simp only [hpc, Option.some.injEq] at h
      subst h
      refine .silent ?_
      unfold rawPush
      split
      · rfl
      · dsimp only
        split <;> rfl
    | kvLock kv hashKey flush =>
      simp only [hpc, Option.some.injEq] at h
      subst h
      exact enter_tells hs i _ _ _ w (kvAdd_tells hs i kv hashKey flush w ha)
    | kvWait kv hashKey flush deadline =>
      simp only [hpc, Option.some.injEq] at h
      subst h
      exact admitted_tells w _ _ p _ _ (waitLoop_waited p _ false deadline i.now)
        (waitLoop_done p _ false deadline i.now) (kvAdd_tells hs i kv hashKey flush w ha)
    | closeLock timeoutMs =>
      simp only [hpc] at h
      split at h
      · obtain rfl := Option.some.inj h
        exact .silent (tlsBatchFlushLocked_done i _ w p)
      · obtain rfl := Option.some.inj h
        exact .silent (flushed_done i w p _)
    | closeWait timeoutMs start =>
      simp only [hpc, Option.some.injEq] at h
      subst h
      exact .silent (closeLoop_done timeoutMs start i.now w p)
    | closeStop =>
      simp only [hpc, Option.some.injEq] at h
      subst h
      exact .silent rfl
    | closeJoin =>
      simp only [hpc] at h
      split at h
      · obtain rfl := Option.some.inj h
        exact .silent rfl
      · cases h

theorem call_done (w : Writer) (c : Call) (r : Writer × Producer)
    (h : call cfg me w p c = some r) : r.2.done = p.done := by
  unfold call at h
  cases c with
  | addRaw log =>
    dsimp only at h
    split at h
    · obtain rfl := Option.some.inj h
      rfl
    · obtain rfl := Option.some.inj h
      rfl
  | addKv kv hashKey flush =>
    dsimp only at h
    split at h
    · obtain rfl := Option.some.inj h
      rfl
    · split at h
      · obtain rfl := Option.some.inj h
        rfl
      · obtain rfl := Option.some.inj h
        rfl
  | flush | close timeoutMs =>
    obtain rfl := Option.some.inj h
    rfl
  | elsewhere other b =>
    dsimp only at h
    split at h
    · cases h
    · obtain rfl := Option.some.inj h
      rw [leaveBatch_eq]

/-- Reports included, a step of a thread makes a place for new ids only. -/
theorem Tells.hold {w : Writer} {r : Writer × Producer} (ht : Tells cfg w p r)
    (hh : Writer.hold cfg me id r ≤ Writer.hold cfg me id (w, p)+issued p r.2 id) :
    Writer.hold cfg me id r+drops id r.2 ≤
      Writer.hold cfg me id (w, p)+drops id p+issued p r.2 id := by
  cases ht with
  | silent hd =>
    rw [drops_congr hd]
    omega
  | dropped bytes m n k a hb hk hp =>
    have hdone : r.2.done = p.done++[⟨false, bytes, p.nextId, p.nextId, [p.nextId], none⟩] := by
      rw [hp]
    have hdrops : drops id r.2 = drops id p+[p.nextId].count id := drops_append _ rfl hdone
    have hstock : stock cfg id r.2 ≤ stock cfg id p := by
      rw [hp]
      exact stock_effect hk rfl rfl rfl rfl rfl rfl
    have hissued : issued p r.2 id = [p.nextId].count id := issued_next (by rw [hp])
    rw [Writer.hold, Writer.hold, ownIds_congr hb, hdrops, hissued]
    dsimp only
    omega

end Writer

namespace Worker

variable {p : Producer}

/-- A worker makes no place for an id; what it takes it had before. -/
theorem Move.stock {a b : Worker × Producer} (hm : Move cfg a b) :
    stock cfg id b.2 ≤ stock cfg id a.2 := by
  cases hm with
  | idle w w' p p' hq =>
    obtain ⟨f, n, k, l, _, _, rfl⟩ := hq
    exact le_rfl
  | keyed w p m hk => exact stock_effect hk rfl rfl rfl rfl rfl rfl
  | skip w p t rest hi | refuse w p t rest hi =>
    simp only [VeTls.stock, hi, List.flatMap_cons, List.count_append, ingressQueuePopLocked, dropRange,
      report, kept]
    omega
  | merge w p p' t rest old b hi hf he =>
    have hcount := @Fill.count cfg id p p' old b _ _ _ hf he
    obtain ⟨d, m, l, n, f, rfl⟩ := hf.frame
    simp only [kept] at hcount
    simp only [VeTls.stock, hi, List.flatMap_cons, List.count_append, ingressQueuePopLocked, kept,
      Builder.ids] at hcount ⊢
    omega
  | sealUp w p p' b hf =>
    have he : Extends (some b) [] 0 0 b := ⟨(List.append_nil _).symm, rfl, rfl⟩
    have hcount := @Fill.count cfg id p p' (some b) b _ _ _ hf he
    obtain ⟨d, m, l, n, f, rfl⟩ := hf.frame
    exact stock_kept rfl rfl rfl hcount.le
  | take p =>
    have hids : (p.sealedList.map (sealedBatch cfg)).flatMap Batch.ids =
        (p.sealedList.map Sealed.builder).flatMap Builder.ids := by
      rw [List.flatMap_map, List.flatMap_map]
      rfl
    simp only [VeTls.stock, takeSealed, kept, List.flatMap_append, List.count_append, List.map_nil,
      List.flatMap_nil, List.count_nil, hids]
    omega
  | rawPop w p item rest hpc hi =>
    simp only [VeTls.stock, hi, List.map_cons, List.flatMap_append, List.flatMap_cons,
      List.flatMap_nil, List.count_append, List.count_cons, List.count_nil, rawBatch, kept]
    omega
  | _ => exact le_rfl

theorem Moves.stock {a b : Worker × Producer} (hm : Moves cfg a b) :
    VeTls.stock cfg id b.2 ≤ VeTls.stock cfg id a.2 := by
  induction hm with
  | refl => exact le_rfl
  | tail _ hlast ih => exact hlast.stock.trans ih

theorem ingressTaskMergeLocked_done (t : IngressTask) (addr : Addr) (now : ℤ) (p : Producer) :
    (ingressTaskMergeLocked cfg t addr now p).2.done = p.done := by
  unfold ingressTaskMergeLocked
  split
  · rfl
  · have hfind : (findSlot cfg p (mergeDefault cfg t.normKey) t.normKey addr).2.done = p.done := by
      unfold findSlot
      split <;> rfl
    split
    · rename_i q hq
      rw [hq] at hfind
      exact hfind
    · rename_i slot q hq
      rw [hq] at hfind
      unfold mergeInto
      split
      · exact (Writer.setSlot_done _ _ _).trans hfind
      · exact (Writer.storeBuilder_done _ _ _ _).trans hfind

/-- A batch that is not merged leaves the builders as they are. -/
theorem ingressTaskMergeLocked_refuses (hs : Sound cfg.toKeyConfig p.keys) (t : IngressTask)
    (addr : Addr) (now : ℤ) (p' : Producer) (ha : addr ∉ live cfg.toKeyConfig p.keys)
    (h : ingressTaskMergeLocked cfg t addr now p = (false, p')) :
    ∃ m, Keeps cfg.toKeyConfig p.keys m ∧ p' = { p with keys := m } := by
  unfold ingressTaskMergeLocked at h
  split at h
  · cases h
  · rename_i hne
    obtain ⟨m, hm, hk, -⟩ := findSlot_keeps p hs (mergeDefault cfg t.normKey) t.normKey addr ha
    split at h
    · rename_i q hq
      rw [hq] at hm
      exact ⟨m, hk, (Prod.mk.inj h).2.symm.trans hm⟩
    · rename_i slot q hq
      obtain ⟨b, hb⟩ := append_some (stampFirst t now (openBuilder q slot t.normKey now)) t.batch hne
      simp [mergeInto, hb] at h

/-- The logs of a batch from the ingress queue go to a builder or into a
report. -/
theorem mergeOne_stock (hs : Sound cfg.toKeyConfig p.keys) (now : ℤ) (t : IngressTask)
    (rest : List IngressTask) (addr : Addr) (ha : addr ∉ live cfg.toKeyConfig p.keys)
    (hi : p.ingressQueue = t::rest) :
    stock cfg id (mergeOne cfg now t rest addr p)+drops id (mergeOne cfg now t rest addr p) ≤
      stock cfg id p+drops id p := by
  have hmoves := (@mergeOne_moves cfg now t rest addr start p hs ha hi).1
  have hdone := @ingressTaskMergeLocked_done cfg t addr now (ingressQueuePopLocked t rest p)
  unfold mergeOne at hmoves ⊢
  cases hr : ingressTaskMergeLocked cfg t addr now (ingressQueuePopLocked t rest p) with
  | mk ok p' =>
    rw [hr] at hmoves hdone
    cases ok with
    | true =>
      have hstock := @Moves.stock cfg id _ _ hmoves
      have hdrops : drops id p' = drops id p := drops_congr hdone
      dsimp only at hstock ⊢
      omega
    | false =>
      obtain ⟨m, hk, rfl⟩ := ingressTaskMergeLocked_refuses (p := ingressQueuePopLocked t rest p) hs
        t addr now p' ha hr
      have hdrops : drops id (dropRange t.batch.logsLen t.batch
          { ingressQueuePopLocked t rest p with keys := m }) =
          drops id p+t.batch.ids.count id :=
        drops_append ⟨false, _, _, _, t.batch.ids, none⟩ rfl rfl
      have hkept := @kept_effect_count cfg id p { p with keys := m } m _ _ _ hk rfl rfl rfl
      dsimp only
      rw [hdrops]
      simp only [VeTls.stock, hi, List.flatMap_cons, List.count_append, ingressQueuePopLocked,
        dropRange, report, kept] at hkept ⊢
      omega

theorem mergeAll_stock (now : ℤ) (l : List IngressTask) (addrs : List Addr) (p p' : Producer)
    (hs : Sound cfg.toKeyConfig p.keys) (hi : p.ingressQueue = l)
    (h : mergeAll cfg now l addrs p = some p') :
    stock cfg id p'+drops id p' ≤ stock cfg id p+drops id p := by
  induction l generalizing addrs p with
  | nil =>
    have hp : p = p' := by simpa [mergeAll] using h
    rw [hp]
  | cons t rest ih =>
    cases addrs with
    | nil => simp [mergeAll] at h
    | cons a addrs =>
      rw [mergeAll] at h
      split at h
      · cases h
      · rename_i ha
        obtain ⟨-, hs', hi'⟩ := mergeOne_moves now t rest a start p hs ha hi
        exact (ih addrs _ hs' hi' h).trans (mergeOne_stock hs now t rest a ha hi)

theorem sealAll_done (flushAll : Bool) (now : ℤ) (p : Producer) :
    (sealAll cfg flushAll now p).done = p.done := by
  have hgo : ∀ (l : List Slot) (p : Producer),
      (l.foldl (sealDue cfg flushAll now) p).done = p.done := by
    intro l
    induction l with
    | nil => exact fun p => rfl
    | cons s l ih =>
      intro p
      refine (ih _).trans ?_
      unfold sealDue
      split
      · rfl
      · split
        · exact Writer.setSlot_done _ _ _
        · rfl
  exact hgo _ p

theorem body_stock (hs : Sound cfg.toKeyConfig p.keys) (i : Input) (haveAny haveIngress : Bool)
    (w : Worker) (r : Worker × Producer) (h : body cfg i haveAny haveIngress w p = some r) :
    stock cfg id r.2+drops id r.2 ≤ stock cfg id p+drops id p := by
  unfold body at h
  split at h
  · obtain rfl := Option.some.inj h
    exact le_rfl
  · cases hm : mergeAll cfg i.now p.ingressQueue i.addrs p with
    | none => simp [hm] at h
    | some p₁ =>
      have hmerge := @mergeAll_stock cfg id i.now _ i.addrs p p₁ hs rfl hm
      obtain ⟨-, hs₁, -⟩ := mergeAll_moves i.now _ i.addrs w p p₁ hs rfl hm
      simp only [hm, Option.bind_eq_bind, Option.bind_some, Option.some.injEq] at h
      subst h
      have hseal := @Moves.stock cfg id _ _ (sealAll_moves (p₁.flushRequested || p₁.stop) i.now2
        ⟨.pop, []⟩ (beginFlush p₁) hs₁)
      have htake := @Move.stock cfg id _ _
        (.take (sealAll cfg (p₁.flushRequested || p₁.stop) i.now2 (beginFlush p₁)))
      have hdrops := @drops_congr id _ _
        (@sealAll_done cfg (p₁.flushRequested || p₁.stop) i.now2 (beginFlush p₁))
      have hbegin : stock cfg id (beginFlush p₁) = stock cfg id p₁ :=
        stock_congr rfl rfl rfl rfl rfl rfl
      have hbegin' : drops id (beginFlush p₁) = drops id p₁ := drops_congr rfl
      have htaken : ∀ q, drops id (takeSealed cfg q).2 = drops id q := fun q => drops_congr rfl
      dsimp only at hseal htake ⊢
      rw [htaken]
      omega

theorem scratchAdmit_done (j : Job) (w : Worker) (r : Wait × Producer) :
    (scratchAdmit j w r).2.done = r.2.done := by
  have hok : ∀ (n : ℕ) (p : Producer),
      ({ p with scratchBytes := p.scratchBytes+n } : Producer).done = p.done := fun _ _ => rfl
  unfold scratchAdmit
  split
  · rfl
  · exact hok _ _
  · rfl

theorem sendAdmit_done (i : Input) (j : Job) (w : Worker) (r : Wait × Producer) :
    (sendAdmit i j w r).2.done = r.2.done := by
  unfold sendAdmit
  split <;> rfl

theorem sendQueuePush_done (i : Input) (j : Job) (start : ℤ) (w : Worker) (p : Producer) :
    (sendQueuePush cfg i j start w p).2.done = p.done := by
  unfold sendQueuePush
  split
  · rfl
  · split
    · dsimp only
      split
      · rfl
      · split <;> rfl
    · rfl

theorem releaseScratchBytes_drops (n : ℕ) (p : Producer) :
    drops id (releaseScratchBytes n p) = drops id p := drops_congr rfl

/-- Outside its critical section a worker reports batches only. -/
theorem step_drops (i : Input) (w : Worker) (r : Worker × Producer) (hpc : w.pc ≠ .top)
    (hpc' : ∀ b, w.pc ≠ .timed b) (h : step cfg i w p = some r) : drops id r.2 = drops id p := by
  unfold step at h
  cases hw : w.pc with
  | top => exact absurd hw hpc
  | timed b => exact absurd hw (hpc' b)
  | pop =>
    simp only [hw, Option.some.injEq] at h
    subst h
    unfold pop
    generalize wrapSub p.queueBytes = n
    split
    · rfl
    · exact drops_congr rfl
  | scratchLock j =>
    simp only [hw] at h
    split at h
    · obtain rfl := Option.some.inj h
      rfl
    · obtain rfl := Option.some.inj h
      exact drops_congr ((scratchAdmit_done j w _).trans
        (Writer.waitBufferSpaceLocked_done p _ true i.now i.now2))
  | scratchWait j deadline =>
    simp only [hw, Option.some.injEq] at h
    subst h
    exact drops_congr ((scratchAdmit_done j w _).trans
      (Writer.waitLoop_done p _ true deadline i.now))
  | keyReserve j =>
    simp only [hw] at h
    split at h
    · cases h
    · split at h
      · cases h
      · obtain rfl := Option.some.inj h
        exact drops_congr rfl
  | sendLock j =>
    simp only [hw, Option.some.injEq] at h
    subst h
    exact drops_congr ((sendAdmit_done i j w _).trans
      (Writer.waitBufferSpaceLocked_done p _ true i.now i.now2))
  | sendWait j deadline =>
    simp only [hw, Option.some.injEq] at h
    subst h
    exact drops_congr ((sendAdmit_done i j w _).trans (Writer.waitLoop_done p _ true deadline i.now))
  | push j start =>
    simp only [hw, Option.some.injEq] at h
    subst h
    exact drops_congr (sendQueuePush_done i j start w p)
  | drop j =>
    simp only [hw, Option.some.injEq] at h
    subst h
    exact drops_batch _ rfl p
  | compress j =>
    simp only [hw, Option.some.injEq] at h
    subst h
    exact releaseScratchBytes_drops _ p
  | prepare j | unreserve j | release j | finish =>
    simp only [hw, Option.some.injEq] at h
    subst h
    exact drops_congr rfl
  | exited => simp [hw] at h

theorem step_stock (i : Input) (w : Worker) (r : Worker × Producer) (hok : Ok w)
    (hs : Sound cfg.toKeyConfig p.keys) (h : step cfg i w p = some r) :
    stock cfg id r.2+drops id r.2 ≤ stock cfg id p+drops id p := by
  have hstock : stock cfg id r.2 ≤ stock cfg id p := by
    obtain hm | ⟨j, start, -, hp⟩ := step_moves i w r.1 p r.2 hok hs h
    · exact @Moves.stock cfg id _ _ hm
    · rw [(Prod.mk.inj hp).2]
      exact le_rfl
  by_cases hpc : w.pc = .top ∨ ∃ b, w.pc = .timed b
  · unfold step at h
    obtain hpc | ⟨b, hpc⟩ := hpc
    · simp only [hpc, top] at h
      split at h
      · split at h
        · cases h
        · split at h
          · split at h
            · obtain rfl := Option.some.inj h
              exact le_rfl
            · exact body_stock hs i _ _ w r h
          · obtain rfl := Option.some.inj h
            exact le_rfl
      · exact body_stock hs i _ _ w r h
    · simp only [hpc] at h
      exact body_stock hs i _ _ w r h
  · obtain ⟨htop, htimed⟩ := not_or.mp hpc
    rw [step_drops i w r htop (not_exists.mp htimed) h]
    omega

end Worker

/-- A sender reports batches only, and makes no place for an id. -/
theorem Sender.Move.stock {a b : Sender.Pc × Producer} (hm : Sender.Move cfg a b) :
    stock cfg id b.2 ≤ stock cfg id a.2 ∧ drops id b.2 = drops id a.2 := by
  cases hm with
  | idle pc pc' p p' ha =>
    obtain ⟨_, _, _, _, rfl⟩ := ha
    exact ⟨le_rfl, rfl⟩
  | keyed pc pc' p m hk => exact ⟨stock_effect hk rfl rfl rfl rfl rfl rfl, rfl⟩
  | take p q t rest now m hfree hring he => exact ⟨stock_effect he rfl rfl rfl rfl rfl rfl, rfl⟩
  | put p t m he => exact ⟨stock_effect he rfl rfl rfl rfl rfl rfl, rfl⟩
  | requeue p q t next m he => exact ⟨stock_effect he rfl rfl rfl rfl rfl rfl, rfl⟩
  | finish p q m gone he => exact ⟨stock_effect he rfl rfl rfl rfl rfl rfl, rfl⟩
  | cleanup pc pc' p next m gone hs he => exact ⟨stock_effect he rfl rfl rfl rfl rfl rfl, rfl⟩
  | drop p t => exact ⟨le_rfl, drops_batch _ rfl p⟩
  | report p q s sent => exact ⟨le_rfl, drops_batch _ rfl p⟩
  | _ => exact ⟨le_rfl, rfl⟩

namespace Sys

variable {st : Setup}

/-- How often the id is in a place that is not a report for a batch. -/
def copies (st : Setup) (id : ℤ) (s : Sys) : ℕ :=
  total st.writerCount s.writers (fun w => (Writer.ownIds st.me w).count id)+
    stock st.cfg id s.prod+drops id s.prod

theorem copies_thread (s : Sys) (i : ℕ) (hi : i < st.writerCount) (r : Writer × Producer) (n : ℕ)
    (h : Writer.hold st.cfg st.me id r+drops id r.2 ≤
      Writer.hold st.cfg st.me id (s.writers i, s.prod)+drops id s.prod+n) :
    copies st id (s.setWriter i r) ≤ copies st id s+n := by
  have hup := total_update st.writerCount i hi s.writers
    (fun w => (Writer.ownIds st.me w).count id) r.1
  unfold Writer.hold at h
  show total _ (Function.update s.writers i r.1) _+stock st.cfg id r.2+drops id r.2 ≤ _
  unfold copies
  dsimp only at hup h
  omega

theorem copies_step (s s' : Sys) (a : Act) (hgood : Good st s) (h : step st s a = some s') :
    copies st id s' ≤ copies st id s+issued s.prod s'.prod id := by
  cases a with
  | call i c =>
    simp only [step] at h
    split at h
    · rename_i hlt
      obtain ⟨r, hr, rfl⟩ := Option.map_eq_some_iff.mp h
      refine copies_thread s i hlt.1 r _ ?_
      rw [drops_congr (Writer.call_done _ c r hr)]
      rcases @Writer.call_moves st.cfg st.me (s.writers i).pc (s.writers i) r.1 s.prod r.2 c hlt.2 hr
        with hm | hl
      · have hhold : Writer.hold st.cfg st.me id r ≤
            Writer.hold st.cfg st.me id (s.writers i, s.prod)+issued s.prod r.2 id :=
          (@Writer.Moves.hold st.cfg id _ _ _ _ hm).2
        show _ ≤ _+issued s.prod r.2 id
        omega
      · have hhold := (@Writer.Loss.hold st.cfg id _ _ _ hl).2
        exact Nat.le_add_right_of_le (Nat.add_le_add_right hhold _)
    · cases h
  | writer i input =>
    simp only [step] at h
    split at h
    · rename_i hlt
      obtain ⟨r, hr, rfl⟩ := Option.map_eq_some_iff.mp h
      refine copies_thread s i hlt r _ ((Writer.go_tells hgood.sound _ input _ r hr).hold ?_)
      rcases Writer.go_moves _ input _ r.1 s.prod r.2 (hgood.writers i) hgood.sound hr with hm | hl
      · exact (@Writer.Moves.hold st.cfg id _ _ _ _ hm).2
      · exact Nat.le_add_right_of_le (@Writer.Loss.hold st.cfg id _ _ _ hl).2
    · cases h
  | worker i input =>
    simp only [step] at h
    split at h
    · obtain ⟨r, hr, rfl⟩ := Option.map_eq_some_iff.mp h
      have hstock := @Worker.step_stock st.cfg id s.prod input _ r (hgood.workers i) hgood.sound hr
      show total st.writerCount s.writers _+stock st.cfg id r.2+drops id r.2 ≤ _
      unfold copies
      omega
    · cases h
  | sender i input =>
    obtain ⟨-, r, -, hm, rfl⟩ := sender_move s s' i input hgood h
    obtain ⟨hstock, hdrops⟩ := @Sender.Move.stock st.cfg id _ _ hm
    show total st.writerCount s.writers _+stock st.cfg id r.2+drops id r.2 ≤ _
    unfold copies
    dsimp only at hstock hdrops
    omega

/-- An id is in one place at most, and in none before it is given out. -/
structure Single (st : Setup) (s : Sys) : Prop where
  one : ∀ id, copies st id s ≤ 1
  new : ∀ id, s.prod.nextId ≤ id → copies st id s = 0

theorem single_start (st : Setup) : Single st (start st) := by
  have hnone : ∀ id, copies st id (start st) = 0 := by
    intro id
    have hlive : live st.cfg.toKeyConfig (start st).prod.keys = [] :=
      List.flatMap_eq_nil_iff.mpr fun _ _ => rfl
    rw [copies, Threads.total_eq_zero _ (start st).writers _ (fun _ => rfl), stock, kept,
      KeyMap.builders, hlive]
    rfl
  exact ⟨fun id => by rw [hnone]; exact Nat.zero_le 1, fun id _ => hnone id⟩

theorem single_step (s s' : Sys) (a : Act) (hgood : Good st s) (hi : Single st s)
    (hle : s.prod.nextId ≤ s'.prod.nextId) (h : step st s a = some s') : Single st s' := by
  have hcopies : ∀ id, copies st id s' ≤ copies st id s+issued s.prod s'.prod id :=
    fun id => copies_step s s' a hgood h
  refine ⟨fun id => ?_, fun id hid => ?_⟩
  · have hstep := hcopies id
    unfold issued at hstep
    split at hstep
    · rename_i hnew
      rw [hi.new id hnew.1] at hstep
      exact hstep
    · exact hstep.trans (hi.one id)
  · have hstep := hcopies id
    rw [hi.new id (hle.trans hid), issued, if_neg (by omega)] at hstep
    exact Nat.le_zero.mp hstep

/-- The ids of all logs, at every place where there are some: in the batches
of threads, the raw and the ingress queue, the builders, with workers, in the
send queue and the key queues, with senders, and in the reports. -/
def whereabouts (st : Setup) (s : Sys) : List ℤ :=
  ((List.range st.writerCount).flatMap fun i => Writer.ownIds st.me (s.writers i))++
    s.prod.queue.map RawItem.id++(s.prod.ingressQueue.flatMap fun t => t.batch.ids)++
    (kept st.cfg s.prod).flatMap Builder.ids++
    ((List.range st.cfg.workerCount).flatMap fun i =>
      (Worker.jobs st.cfg (s.workers i)).flatMap Batch.ids)++
    (s.prod.sendQueue.flatMap fun t => t.batch.ids)++
    ((live st.cfg.toKeyConfig s.prod.keys).flatMap fun q =>
      (s.prod.keys.tasks q).flatMap fun t => t.batch.ids)++
    ((List.range st.cfg.senderCount).flatMap fun i =>
      (Sender.hand (s.senders i)).toList.flatMap fun t => t.batch.ids)++
    s.prod.done.flatMap Report.ids

/-- The batches that were taken, by where they are now. -/
def carried (st : Setup) (s : Sys) : List Batch :=
  ((List.range st.cfg.workerCount).flatMap fun i => Worker.jobs st.cfg (s.workers i))++
    s.prod.sendQueue.map SendTask.batch++
    ((live st.cfg.toKeyConfig s.prod.keys).flatMap fun q =>
      (s.prod.keys.tasks q).map SendTask.batch)++
    ((List.range st.cfg.senderCount).flatMap fun i =>
      (Sender.hand (s.senders i)).toList.map SendTask.batch)++
    s.prod.done.filterMap Report.batch

theorem count_range {α : Type} [BEq α] (n : ℕ) (f : ℕ → List α) (a : α) :
    ((List.range n).flatMap f).count a = ∑ i ∈ Finset.range n, (f i).count a := by
  rw [List.count_flatMap]
  rfl

theorem count_batches (b : Batch) (l : List SendTask) :
    (l.map SendTask.batch).count b = KeyMap.weight (hits b) l := by
  induction l with
  | nil => rfl
  | cons t l ih =>
    rw [List.map_cons, List.count_cons, ih, KeyMap.weight, KeyMap.weight, List.map_cons,
      List.sum_cons, hits, Nat.add_comm]
    simp

theorem count_hand (b : Batch) (pc : Sender.Pc) :
    KeyMap.weight (hits b) (Sender.hand pc).toList = Sender.handHits b pc := by
  rw [Sender.handHits]
  cases Sender.hand pc with
  | none => rfl
  | some t => exact Nat.add_zero _

theorem count_done (b : Batch) (l : List Report) :
    (l.filterMap Report.batch).count b = l.countP fun r => decide (r.batch = some b) := by
  induction l with
  | nil => rfl
  | cons r l ih =>
    rw [List.countP_cons, ← ih]
    cases hr : r.batch with
    | none => simp [hr]
    | some x => simp [hr, List.count_cons]

/-- The batches taken are the ones that are carried. -/
theorem Accounts.carried {s : Sys} (h : Accounts st s) : (carried st s).Perm s.prod.taken := by
  rw [List.perm_iff_count]
  intro b
  have hkeys : ∀ l : List Addr, (l.flatMap fun q =>
      (s.prod.keys.tasks q).map SendTask.batch).count b =
      (l.map fun q => KeyMap.weight (hits b) (s.prod.keys.tasks q)).sum := by
    intro l
    rw [List.count_flatMap]
    exact congrArg List.sum (List.map_congr_left fun q _ => count_batches b _)
  have htaken := h.taken b
  simp only [Sys.carried, List.count_append, count_range, count_batches, hkeys, count_hand,
    count_done]
  rw [htaken]
  rfl

theorem hits_ids (l : List Report) (hf : ∀ r ∈ l, r.Faithful) :
    (l.flatMap Report.ids).count id =
      ((l.filter Report.apart).flatMap Report.ids).count id+
        ((l.filterMap Report.batch).flatMap Batch.ids).count id := by
  induction l with
  | nil => rfl
  | cons r l ih =>
    have hrest := ih fun x hx => hf x (List.mem_cons_of_mem r hx)
    have hself := hf r List.mem_cons_self
    rw [List.flatMap_cons, List.count_append, hrest]
    cases hr : r.batch with
    | none =>
      simp [hr, Report.apart, Nat.add_assoc]
    | some b =>
      have hids := (hself b hr).2.2.2
      simp [hr, Report.apart, hids]
      omega

/-- The places of an id, the reports among them. -/
theorem count_whereabouts {s : Sys} (h : Accounts st s) :
    (whereabouts st s).count id = copies st id s := by
  have hperm := (h.carried.flatMap_right Batch.ids).count_eq id
  have hdone := @hits_ids id s.prod.done h.faithful
  have htasks : ∀ l : List SendTask, (l.map SendTask.batch).flatMap Batch.ids =
      l.flatMap fun t => t.batch.ids := fun l => List.flatMap_map _ _ _
  simp only [Sys.carried, List.flatMap_append, List.count_append, List.flatMap_assoc, htasks]
    at hperm
  simp only [whereabouts, copies, stock, drops, List.count_append, count_range, total] at hperm ⊢
  omega

/-- No thread throws its batch away with a log of the list, and no key queue
is freed with one in its builder. -/
def Retained (st : Setup) (A : List ℤ) (s : Sys) (a : Act) : Prop :=
  (∀ j ∈ givesUp st s a, ∀ id ∈ Writer.ownIds st.me (s.writers j), id ∉ A) ∧
    ∀ s' ∈ step st s a, ∀ id ∈ A, Unfreed s'.prod id

instance (A : List ℤ) (s : Sys) (a : Act) : Decidable (Retained st A s a) :=
  inferInstanceAs (Decidable (_ ∧ _))

theorem Seen.whereabouts {s : Sys} (hs : Seen st s id) (h : Accounts st s) :
    id ∈ whereabouts st s := by
  rcases hs with hown | (hqueue | hingress | hkept | hdone) | ⟨b, hb, hid⟩
  · simp only [Sys.whereabouts, List.mem_append, List.mem_flatMap, List.mem_range, hown, true_or]
  · simp only [Sys.whereabouts, List.mem_append, List.mem_map, hqueue, true_or, or_true]
  · simp only [Sys.whereabouts, List.mem_append, List.mem_flatMap, hingress, true_or, or_true]
  · simp only [Sys.whereabouts, List.mem_append, List.mem_flatMap, hkept, true_or, or_true]
  · simp only [Sys.whereabouts, List.mem_append, List.mem_flatMap, hdone, or_true]
  · have htaken := List.count_pos_iff.mpr (List.mem_flatMap.mpr ⟨b, hb, hid⟩)
    rw [← List.count_pos_iff, count_whereabouts h, copies, stock]
    omega

/-- A log that was accepted, and that no step has lost, is in some place. -/
theorem run_placed (A : List ℤ) (acts : List Act) (s : Sys)
    (hc : Along st (Retained st A) acts (start st)) (h : run st acts (start st) = some s) :
    ∀ id ∈ A, id ∈ s.prod.accepted → id ∈ whereabouts st s := by
  have hstep : ∀ t a t', Good st t →
      (Known st t ∧ ∀ id ∈ A, id ∈ t.prod.accepted → Seen st t id) → Retained st A t a →
      step st t a = some t' →
      Known st t' ∧ ∀ id ∈ A, id ∈ t'.prod.accepted → Seen st t' id := by
    intro t a t' hgood hi ha ht
    refine ⟨known_step t t' a hgood hi.1 ht, fun id hid hacc => ?_⟩
    have hw := watched_step t t' a id hgood hi.1.sized
      (fun j hj hin => ha.1 j hj id hin hid) (ha.2 t' ht id hid) ht
    rcases hw.accepted hacc with hold | hnew
    · exact hw.seen (hi.2 id hid hold)
    · exact hnew
  obtain ⟨-, hknown, hseen⟩ := run_rule
    (fun s => Known st s ∧ ∀ id ∈ A, id ∈ s.prod.accepted → Seen st s id) (Retained st A) hstep
    acts (start st) s (good_start st) ⟨known_start st, nofun⟩ hc h
  exact fun id hid hacc => (hseen id hid hacc).whereabouts hknown.accounts

/-- In every state a run reaches, no id is in two places, in two reports or in
a place and a report. An accepted log that the run has not lost is in one. -/
theorem run_logs_once (st : Setup) (acts : List Act) (s : Sys)
    (h : run st acts (start st) = some s) :
    (whereabouts st s).Nodup ∧ ∀ A, Along st (Retained st A) acts (start st) →
      ∀ id ∈ A, id ∈ s.prod.accepted → (whereabouts st s).count id = 1 := by
  have hstep : ∀ t a t', Good st t → (Known st t ∧ Single st t) → True →
      step st t a = some t' → Known st t' ∧ Single st t' := by
    intro t a t' hgood hi _ ht
    obtain ⟨hle, -⟩ := every_step sized_additive t t' a hgood (fun id _ => sized_stores id)
      hi.1.sized ht
    exact ⟨known_step t t' a hgood hi.1 ht, single_step t t' a hgood hi.2 hle ht⟩
  obtain ⟨-, hknown, hsingle⟩ := run_rule (fun s => Known st s ∧ Single st s) (fun _ _ => True)
    hstep acts (start st) s (good_start st) ⟨known_start st, single_start st⟩
    (along_forall acts _ fun _ _ => trivial) h
  have hnodup : (whereabouts st s).Nodup := by
    rw [List.nodup_iff_count_le_one]
    intro id
    rw [count_whereabouts hknown.accounts]
    exact hsingle.one id
  refine ⟨hnodup, fun A hc id hid hacc => ?_⟩
  exact List.count_eq_one_of_mem hnodup (run_placed A acts s hc h id hid hacc)

theorem run_logs_once_flushed : ∃ s, run twoThreads addFlushed (start twoThreads) = some s ∧
    s.prod.accepted = [1] ∧ (whereabouts twoThreads s).Nodup ∧
    (whereabouts twoThreads s).count 1 = 1 :=
  ⟨_, rfl, by decide, (run_logs_once twoThreads addFlushed _ rfl).1,
    (run_logs_once twoThreads addFlushed _ rfl).2 [1] (by decide) 1 (by decide) (by decide)⟩

end Sys

end VeTls
