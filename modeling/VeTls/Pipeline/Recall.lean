import VeTls.Keys.Memory
import VeTls.Pipeline.Tidy

/-!
# What the steps of a pipeline do to the memory of the keys

Writers and workers only add queues. Senders free them, at the end of a send
or in a cleanup, and they alone write down a result. `Filed` adds that a task
is in the queue of its own key, also while a sender has it.
-/

set_option autoImplicit false

namespace VeTls

open VeTls.Keys (Addr CStr KeyMap)
open VeTls.Keys.KeyMap (Sound Held Still Grows Shrinks Effect ring)

variable {cfg : Config}

/-- The map stays sound and forgets nothing. -/
structure Recalls (cfg : Config) (p p' : Producer) : Prop where
  sound : Sound cfg.toKeyConfig p'.keys
  grows : Grows cfg.toKeyConfig p.keys p'.keys

theorem Recalls.of_keys {p p' : Producer} (hs : Sound cfg.toKeyConfig p.keys)
    (h : p'.keys = p.keys) : Recalls cfg p p' := by
  constructor
  · rwa [h]
  · rw [h]
    exact .refl p.keys

theorem Recalls.trans {p₁ p₂ p₃ : Producer} (h : Recalls cfg p₁ p₂) (h' : Recalls cfg p₂ p₃) :
    Recalls cfg p₁ p₃ := ⟨h'.sound, h.grows.trans h'.grows⟩

theorem setSlot_recalls (b : Option Builder) (p : Producer) (slot : Slot)
    (hs : Sound cfg.toKeyConfig p.keys) : Recalls cfg p (setSlot b p slot) := by
  cases slot with
  | default => exact .of_keys hs rfl
  | key q =>
    constructor
    · exact KeyMap.setInfo_sound hs q (fun i => { i with builder := b })
        fun _ => ⟨rfl, rfl, rfl, rfl, rfl, rfl, rfl⟩
    · exact (KeyMap.setInfo_still q (fun i => { i with builder := b }) p.keys p.keys rfl rfl
        fun _ => rfl).grows

theorem sealSlot_recalls (slot : Slot) (b : Builder) (p : Producer)
    (hs : Sound cfg.toKeyConfig p.keys) : Recalls cfg p (sealSlot slot b p) :=
  have hset := setSlot_recalls none p slot hs
  ⟨hset.sound, hset.grows⟩

theorem storeBuilder_recalls (flush : Bool) (slot : Slot) (b : Builder) (p : Producer)
    (hs : Sound cfg.toKeyConfig p.keys) : Recalls cfg p (storeBuilder cfg flush slot b p) := by
  unfold storeBuilder
  split
  · have hseal := sealSlot_recalls slot b p hs
    exact ⟨hseal.sound, hseal.grows⟩
  · exact setSlot_recalls (some b) p slot hs

theorem findSlot_recalls (p : Producer) (useDefault : Bool) (key : CStr) (addr : Addr)
    (hs : Sound cfg.toKeyConfig p.keys) (ha : addr ∉ KeyMap.live cfg.toKeyConfig p.keys) :
    Recalls cfg p (findSlot cfg p useDefault key addr).2 := by
  unfold findSlot
  split
  · exact .of_keys hs rfl
  · exact ⟨(KeyMap.keyQueueGetOrCreate_spec hs addr key ha).1,
      KeyMap.keyQueueGetOrCreate_grows hs.hashed addr key ha⟩

namespace Writer

theorem kvStore_recalls (kv : Wire.KvLog) (id : ℤ) (flush : Bool) (slot : Slot) (b : Builder)
    (w : Writer) (p : Producer) (hs : Sound cfg.toKeyConfig p.keys) :
    Recalls cfg p (kvStore cfg kv id flush slot b w p).2 := by
  unfold kvStore
  split
  · have hset := setSlot_recalls (some b) p slot hs
    exact ⟨hset.sound, hset.grows⟩
  · rename_i b' _
    have hsettle := (settleQueue_alike (estimate kv) (b'.logsLen-b.logsLen) p).keys
    have hstore := storeBuilder_recalls flush slot b'
      (settleQueue (estimate kv) (b'.logsLen-b.logsLen) p) (hsettle ▸ hs)
    have hall := (Recalls.of_keys hs hsettle).trans hstore
    exact ⟨hall.sound, hall.grows⟩

theorem kvAdd_recalls (i : Input) (kv : Wire.KvLog) (hashKey : CStr) (flush : Bool) (w : Writer)
    (p : Producer) (hs : Sound cfg.toKeyConfig p.keys)
    (ha : i.addr ∉ KeyMap.live cfg.toKeyConfig p.keys) :
    Recalls cfg p (kvAdd cfg i kv hashKey flush w p).2 := by
  have hreserve : Recalls cfg p (kvReserve kv p) := .of_keys hs rfl
  have hfind := hreserve.trans (findSlot_recalls (kvReserve kv p)
    (cfg.fastBuilder && hashKey.isEmpty) (cfg.normalizeHashKey hashKey) i.addr hs ha)
  unfold kvAdd
  dsimp only
  split
  · rename_i p' he
    rw [he] at hfind
    exact hfind.trans (.of_keys hfind.sound (kvRefuse_alike kv p.nextId w p').keys)
  · rename_i slot p' he
    rw [he] at hfind
    exact hfind.trans (kvStore_recalls kv p.nextId flush slot _ w p' hfind.sound)

theorem go_recalls (me : ℕ) (joined : Bool) (i : Input) (w : Writer) (p : Producer)
    (r : Writer × Producer) (hs : Sound cfg.toKeyConfig p.keys)
    (hr : go cfg me joined i w p = some r) : Recalls cfg p r.2 :=
  go_rule (Recalls cfg p) me joined i w p r (fun _ hp => .of_keys hs hp.keys)
    (fun kv hashKey flush _ ha => kvAdd_recalls i kv hashKey flush w p hs ha) hr

end Writer

namespace Worker

theorem mergeInto_recalls (t : IngressTask) (slot : Slot) (b : Builder) (p : Producer)
    (hs : Sound cfg.toKeyConfig p.keys) : Recalls cfg p (mergeInto cfg t slot b p).2 := by
  unfold mergeInto
  split
  · exact setSlot_recalls (some b) p slot hs
  · rename_i b' _
    have hstore := storeBuilder_recalls t.forceFlush slot b'
      { p with queueBytes := p.queueBytes+(b'.logsLen-b.logsLen) } hs
    exact ⟨hstore.sound, hstore.grows⟩

theorem ingressTaskMergeLocked_recalls (t : IngressTask) (addr : Addr) (now : ℤ) (p : Producer)
    (hs : Sound cfg.toKeyConfig p.keys) (ha : addr ∉ KeyMap.live cfg.toKeyConfig p.keys) :
    Recalls cfg p (ingressTaskMergeLocked cfg t addr now p).2 := by
  have hfind := findSlot_recalls p (mergeDefault cfg t.normKey) t.normKey addr hs ha
  unfold ingressTaskMergeLocked
  split
  · exact .of_keys hs rfl
  · split
    · rename_i p' he
      rwa [he] at hfind
    · rename_i slot p' he
      rw [he] at hfind
      exact hfind.trans (mergeInto_recalls t slot _ p' hfind.sound)

theorem mergeOne_recalls (now : ℤ) (t : IngressTask) (rest : List IngressTask) (addr : Addr)
    (p : Producer) (hs : Sound cfg.toKeyConfig p.keys)
    (ha : addr ∉ KeyMap.live cfg.toKeyConfig p.keys) :
    Recalls cfg p (mergeOne cfg now t rest addr p) := by
  have hpop : Recalls cfg p (ingressQueuePopLocked t rest p) := .of_keys hs rfl
  have hmerge := hpop.trans (ingressTaskMergeLocked_recalls t addr now _ hs ha)
  unfold mergeOne
  split
  · rename_i p' he
    rwa [he] at hmerge
  · rename_i p' he
    rw [he] at hmerge
    exact ⟨hmerge.sound, hmerge.grows⟩

theorem mergeAll_recalls (now : ℤ) (l : List IngressTask) (addrs : List Addr) (p p' : Producer)
    (hs : Sound cfg.toKeyConfig p.keys) (h : mergeAll cfg now l addrs p = some p') :
    Recalls cfg p p' := by
  induction l generalizing addrs p with
  | nil =>
    cases h
    exact .of_keys hs rfl
  | cons t rest ih =>
    cases addrs with
    | nil => cases h
    | cons a addrs =>
      simp only [mergeAll] at h
      split at h
      · cases h
      · rename_i ha
        have hone := mergeOne_recalls now t rest a p hs ha
        exact hone.trans (ih addrs _ hone.sound h)

theorem sealAll_recalls (flushAll : Bool) (now : ℤ) (p : Producer)
    (hs : Sound cfg.toKeyConfig p.keys) : Recalls cfg p (sealAll cfg flushAll now p) := by
  have hgo : ∀ (l : List Slot) (p : Producer), Sound cfg.toKeyConfig p.keys →
      Recalls cfg p (l.foldl (sealDue cfg flushAll now) p) := by
    intro l
    induction l with
    | nil => exact fun p hs => .of_keys hs rfl
    | cons slot l ih =>
      intro p hs
      have hone : Recalls cfg p (sealDue cfg flushAll now p slot) := by
        unfold sealDue
        split
        · exact .of_keys hs rfl
        · rename_i b _
          split
          · exact sealSlot_recalls slot b p hs
          · exact .of_keys hs rfl
      exact hone.trans (ih _ hone.sound)
  exact hgo (slots cfg p) p hs

theorem body_recalls (i : Input) (haveAny haveIngress : Bool) (w : Worker) (p : Producer)
    (r : Worker × Producer) (hs : Sound cfg.toKeyConfig p.keys)
    (h : body cfg i haveAny haveIngress w p = some r) : Recalls cfg p r.2 := by
  unfold body at h
  split at h
  · cases h
    exact .of_keys hs rfl
  · obtain ⟨p₁, hm, h⟩ := Option.bind_eq_some_iff.mp h
    cases h
    have hmerge := mergeAll_recalls i.now p.ingressQueue i.addrs p p₁ hs hm
    have hseal := sealAll_recalls (p₁.flushRequested || p₁.stop) i.now2 (beginFlush p₁)
      hmerge.sound
    exact hmerge.trans ⟨hseal.sound, hseal.grows⟩

theorem top_recalls (i : Input) (w : Worker) (p : Producer) (r : Worker × Producer)
    (hs : Sound cfg.toKeyConfig p.keys) (h : top cfg i w p = some r) : Recalls cfg p r.2 := by
  unfold top at h
  dsimp only at h
  split at h
  · split at h
    · cases h
    · split at h
      · split at h
        · cases h
          exact .of_keys hs rfl
        · exact body_recalls i _ _ w p r hs h
      · cases h
        exact .of_keys hs rfl
  · exact body_recalls i _ _ w p r hs h

theorem scratchAdmit_keys (j : Job) (w : Worker) (r : Wait × Producer) :
    (scratchAdmit j w r).2.keys = r.2.keys := by
  obtain ⟨res, p⟩ := r
  cases res with
  | block d => rfl
  | rc c =>
    -- the bound is a large number that must not be unfolded
    have hkeys : ∀ n, ({ p with scratchBytes := n } : Producer).keys = p.keys := fun _ => rfl
    cases c with
    | ok => exact hkeys _
    | full | closed | timeout => rfl

theorem sendAdmit_keys (i : Input) (j : Job) (w : Worker) (r : Wait × Producer) :
    (sendAdmit i j w r).2.keys = r.2.keys := by
  obtain ⟨res, p⟩ := r
  cases res with
  | block d => rfl
  | rc c => cases c <;> rfl

theorem sendQueuePush_keys (i : Input) (j : Job) (start : ℤ) (w : Worker) (p : Producer) :
    (sendQueuePush cfg i j start w p).2.keys = p.keys := by
  unfold sendQueuePush
  split
  · rfl
  · split
    · dsimp only
      split
      · rfl
      · split <;> rfl
    · rfl

theorem step_recalls (i : Input) (w : Worker) (p : Producer) (r : Worker × Producer)
    (hs : Sound cfg.toKeyConfig p.keys) (h : step cfg i w p = some r) : Recalls cfg p r.2 := by
  have hloop : ∀ need deadline, (waitLoop cfg p need true deadline i.now).2.keys = p.keys :=
    fun need deadline => (waitLoop_waited p need true deadline i.now).quiet.keys
  have hwait : ∀ need, (waitBufferSpaceLocked cfg p need true i.now i.now2).2.keys = p.keys :=
    fun need => (waitBufferSpaceLocked_waited p need true i.now i.now2).quiet.keys
  unfold step at h
  cases hpc : w.pc with
  | top =>
    simp only [hpc] at h
    exact top_recalls i w p r hs h
  | timed haveIngress =>
    simp only [hpc] at h
    exact body_recalls i true haveIngress w p r hs h
  | pop =>
    simp only [hpc, Option.some.injEq] at h
    subst h
    apply Recalls.of_keys hs
    unfold pop
    split <;> rfl
  | scratchLock j =>
    simp only [hpc] at h
    split at h
    · obtain rfl := Option.some.inj h
      exact .of_keys hs rfl
    · obtain rfl := Option.some.inj h
      exact .of_keys hs ((scratchAdmit_keys j w _).trans (hwait _))
  | scratchWait j deadline =>
    simp only [hpc, Option.some.injEq] at h
    subst h
    exact .of_keys hs ((scratchAdmit_keys j w _).trans (hloop _ deadline))
  | keyReserve j =>
    simp only [hpc] at h
    split at h
    · cases h
    · rename_i a _ _
      split at h
      · cases h
      · rename_i ha
        obtain rfl := Option.some.inj h
        exact ⟨(KeyMap.keyQueueGetOrCreate_spec hs a _ ha).1,
          KeyMap.keyQueueGetOrCreate_grows hs.hashed a _ ha⟩
  | sendLock j =>
    simp only [hpc, Option.some.injEq] at h
    subst h
    exact .of_keys hs ((sendAdmit_keys i j w _).trans (hwait _))
  | sendWait j deadline =>
    simp only [hpc, Option.some.injEq] at h
    subst h
    exact .of_keys hs ((sendAdmit_keys i j w _).trans (hloop _ deadline))
  | push j start =>
    simp only [hpc, Option.some.injEq] at h
    subst h
    exact .of_keys hs (sendQueuePush_keys i j start w p)
  | exited => simp [hpc] at h
  | compress j =>
    have hrelease : ∀ n, (releaseScratchBytes n p).keys = p.keys := fun _ => rfl
    simp only [hpc, Option.some.injEq] at h
    subst h
    exact .of_keys hs (hrelease _)
  | prepare j | unreserve j | drop j | release bytes | finish =>
    simp only [hpc, Option.some.injEq] at h
    subst h
    exact .of_keys hs rfl

end Worker

namespace Sender

/-- The idle queues that a cleanup would free. -/
def overdueQueues (cfg : Config) (i : Input) (p : Producer) : List Addr :=
  if i.now > 0 ∧ i.now ≥ p.idleCleanupNextMs ∧ cfg.keyQueueIdleTtlMs > 0 then
    p.keys.idle.filter (KeyMap.overdue cfg.toKeyConfig i.now2 p.keys)
  else []

/-- The queues that the next step of a sender frees. -/
def frees (cfg : Config) (i : Input) (p : Producer) : Pc → List Addr
  | .finish q => if p.keys.tasks q = [] ∧ cfg.keyQueueIdleTtlMs ≤ 0 then [q] else []
  | .stopCheck => if p.stop && p.keys.ready.isEmpty then [] else overdueQueues cfg i p
  | .exitCheck pending => if pending then overdueQueues cfg i p else []
  | _ => []

theorem idleCleanup_shrinks (i : Input) (p : Producer) (hs : Sound cfg.toKeyConfig p.keys) :
    Shrinks cfg.toKeyConfig (· ∈ overdueQueues cfg i p) p.keys (idleCleanup cfg i p).keys := by
  unfold idleCleanup
  split
  · rename_i hdue
    refine (KeyMap.idleCleanup_shrinks hs i.now2).mono fun a ha => ?_
    unfold overdueQueues
    rw [if_pos ⟨hdue.1, hdue.2, ha.2.2⟩]
    exact List.mem_filter.mpr ⟨ha.1, ha.2.1⟩
  · exact (Still.refl p.keys).shrinks _

theorem top_still (i : Input) (p : Producer) : Still p.keys (top i p).2.keys := by
  have hdue := KeyMap.promoteGo_still i.now p.keys.delayed p.keys
  unfold top
  dsimp only
  split
  · exact hdue
  · rename_i q m hpop
    have hready := hdue.trans (KeyMap.readyPop_still q hpop)
    have hall := hready.trans (KeyMap.keyQueuePopTask_still q m)
    split
    · rename_i m' he
      rwa [he] at hall
    · rename_i t m' he
      rwa [he] at hall

/-- A step of a sender adds queues, frees some, or writes down a result. -/
theorem step_recalls (i : Input) (pc : Pc) (p : Producer) (r : Pc × Producer)
    (hs : Sound cfg.toKeyConfig p.keys)
    (hheld : ∀ q, queue pc = some q → Held cfg.toKeyConfig p.keys q)
    (h : step cfg i pc p = some r) :
    Grows cfg.toKeyConfig p.keys r.2.keys ∨
      Shrinks cfg.toKeyConfig (· ∈ frees cfg i p pc) p.keys r.2.keys ∨
      ∃ q t sent, pc = .keyResult q t sent ∧
        r = (.release (some q) t, keyResult cfg i q sent p) := by
  unfold step at h
  split at h
  · cases h
  · rename_i ha
    have hsame : ∀ p' : Producer, p'.keys = p.keys → Grows cfg.toKeyConfig p.keys p'.keys := by
      intro p' he
      rw [he]
      exact .refl p.keys
    cases pc with
    | top =>
      obtain rfl := Option.some.inj h
      exact Or.inl (top_still i p).grows
    | popSendQueue block =>
      refine Or.inl (hsame _ ?_)
      dsimp only at h
      unfold popSendQueue at h
      split at h
      · cases h
        rfl
      · split at h
        · cases h
        · split at h <;> cases h <;> rfl
    | pushing t =>
      obtain rfl := Option.some.inj h
      exact Or.inl (KeyMap.keyQueuePushTask_grows hs.hashed i.addr _ t ha)
    | stopCheck =>
      obtain rfl := Option.some.inj h
      unfold stopCheck frees
      split
      · exact Or.inl (.refl p.keys)
      · exact Or.inr (Or.inl (idleCleanup_shrinks i p hs))
    | exitPop pending =>
      obtain rfl := Option.some.inj h
      refine Or.inl (hsame _ ?_)
      unfold exitPop
      split <;> rfl
    | exitCheck pending =>
      obtain rfl := Option.some.inj h
      cases pending with
      | true => exact Or.inr (Or.inl (idleCleanup_shrinks i p hs))
      | false => exact Or.inl (.refl p.keys)
    | requeue q t next =>
      obtain rfl := Option.some.inj h
      exact Or.inl (KeyMap.gateRequeue_still q t next p.keys).grows
    | breakerWait q s =>
      dsimp only at h
      split at h
      · cases h
      · cases h
        exact Or.inl (.refl p.keys)
    | breakerEnter q s =>
      obtain rfl := Option.some.inj h
      refine Or.inl (hsame _ ?_)
      unfold breakerEnter
      split
      · rfl
      · split <;> rfl
    | attempt q s =>
      obtain rfl := Option.some.inj h
      refine Or.inl (hsame _ ?_)
      unfold attempt
      split <;> rfl
    | breakerResult q s sent =>
      obtain rfl := Option.some.inj h
      obtain ⟨a, b, c, d, he⟩ := breakerResult_aside i s sent p
      exact Or.inl (hsame _ (by rw [he]))
    | keyResult q t sent =>
      obtain rfl := Option.some.inj h
      exact Or.inr (Or.inr ⟨q, t, sent, rfl, rfl⟩)
    | finish q =>
      obtain rfl := Option.some.inj h
      refine Or.inr (Or.inl ?_)
      refine (KeyMap.keyQueueFinish_shrinks hs i.now q (hheld q rfl).1).mono fun a hgone => ?_
      obtain ⟨rfl, hempty, httl⟩ := hgone
      show a ∈ if p.keys.tasks a = [] ∧ cfg.keyQueueIdleTtlMs ≤ 0 then [a] else []
      rw [if_pos ⟨hempty, httl⟩]
      exact List.mem_singleton_self a
    | exited => cases h
    | moving t | counting t | keyDrop t | dropRelease t | gate q s | report q s sent | release q t
    | uncount =>
      obtain rfl := Option.some.inj h
      exact Or.inl (hsame _ rfl)

end Sender

namespace Sys

variable {st : Setup}

/-- The queues that a step frees. -/
def freedBy (st : Setup) (s : Sys) : Act → List Addr
  | .sender i input => Sender.frees st.cfg input s.prod (s.senders i)
  | _ => []

theorem step_recalls (s s' : Sys) (a : Act) (hgood : Good st s) (h : step st s a = some s') :
    Grows st.cfg.toKeyConfig s.prod.keys s'.prod.keys ∨
      Shrinks st.cfg.toKeyConfig (· ∈ freedBy st s a) s.prod.keys s'.prod.keys ∨
      ∃ i input q t sent, a = .sender i input ∧ i < st.cfg.senderCount ∧
        s.senders i = .keyResult q t sent ∧
        s' = s.setSender i (.release (some q) t, Sender.keyResult st.cfg input q sent s.prod) := by
  cases a with
  | call i c =>
    simp only [step] at h
    split at h
    · obtain ⟨r, hr, rfl⟩ := Option.map_eq_some_iff.mp h
      have hkeys := (Writer.call_publishes st.me (s.writers i) s.prod c r hr).keys
      exact Or.inl (Recalls.of_keys hgood.sound hkeys).grows
    · cases h
  | writer i input =>
    simp only [step] at h
    split at h
    · obtain ⟨r, hr, rfl⟩ := Option.map_eq_some_iff.mp h
      exact Or.inl (Writer.go_recalls st.me _ input (s.writers i) s.prod r hgood.sound hr).grows
    · cases h
  | worker i input =>
    simp only [step] at h
    split at h
    · obtain ⟨r, hr, rfl⟩ := Option.map_eq_some_iff.mp h
      exact Or.inl (Worker.step_recalls input (s.workers i) s.prod r hgood.sound hr).grows
    · cases h
  | sender i input =>
    simp only [step] at h
    split at h
    · rename_i hlt
      obtain ⟨r, hr, rfl⟩ := Option.map_eq_some_iff.mp h
      rcases Sender.step_recalls input (s.senders i) s.prod r hgood.sound
        (fun q hq => (hgood.held q).mpr ⟨i, hlt, hq⟩) hr with hg | hsh | ⟨q, t, sent, hpc, rfl⟩
      · exact Or.inl hg
      · exact Or.inr (Or.inl hsh)
      · exact Or.inr (Or.inr ⟨i, input, q, t, sent, rfl, hlt, hpc, rfl⟩)
    · cases h

/-- A task waits under its own key, and a sender that has it has the queue of
that key. -/
structure Filed (st : Setup) (s : Sys) : Prop where
  ring : ∀ k, ∀ t ∈ ring st.cfg.toKeyConfig s.prod.keys k, st.cfg.normalizeHashKey t.hashKey = k
  hands : ∀ i < st.cfg.senderCount, ∀ q t, Sender.queue (s.senders i) = some q →
    Sender.carried (s.senders i) = some t →
      st.cfg.normalizeHashKey t.hashKey = (s.prod.keys.info q).key

theorem Filed.keep {s s' : Sys} (h : Filed st s) (hc : Core st s) (hs : s'.senders = s.senders)
    (hkey : ∀ a, Held st.cfg.toKeyConfig s.prod.keys a →
      (s'.prod.keys.info a).key = (s.prod.keys.info a).key)
    (hring : ∀ k, KeyMap.ring st.cfg.toKeyConfig s'.prod.keys k =
      KeyMap.ring st.cfg.toKeyConfig s.prod.keys k) : Filed st s' := by
  constructor
  · intro k
    rw [hring]
    exact h.ring k
  · intro i hi q t hq ht
    rw [hs] at hq ht
    rw [hkey q ((hc.held q).mpr ⟨i, hi, hq⟩)]
    exact h.hands i hi q t hq ht

theorem senders_self (s : Sys) (i : ℕ) (r : Sender.Pc × Producer) :
    (s.setSender i r).senders i = r.1 := by
  simp [setSender]

theorem senders_other (s : Sys) (i j : ℕ) (r : Sender.Pc × Producer) (h : j ≠ i) :
    (s.setSender i r).senders j = s.senders j := by
  simp [setSender, h]

/-- The queues that stay in flight keep their key; what is left to show is
about the sender that moved. -/
theorem Filed.sender {s : Sys} (h : Filed st s) (hc : Core st s) (i : ℕ) (r : Sender.Pc × Producer)
    (hc' : Core st (s.setSender i r))
    (hkey : ∀ a, Held st.cfg.toKeyConfig s.prod.keys a → Held st.cfg.toKeyConfig r.2.keys a →
      (r.2.keys.info a).key = (s.prod.keys.info a).key)
    (hring : ∀ k, ∀ t ∈ KeyMap.ring st.cfg.toKeyConfig r.2.keys k,
      st.cfg.normalizeHashKey t.hashKey = k)
    (hmine : ∀ q t, Sender.queue r.1 = some q → Sender.carried r.1 = some t →
      st.cfg.normalizeHashKey t.hashKey = (r.2.keys.info q).key) :
    Filed st (s.setSender i r) := by
  refine ⟨hring, fun j hj q t hq ht => ?_⟩
  by_cases hji : j = i
  · subst hji
    rw [senders_self] at hq ht
    exact hmine q t hq ht
  · have hheld' := (hc'.held q).mpr ⟨j, hj, hq⟩
    rw [senders_other s i j r hji] at hq ht
    have hheld := (hc.held q).mpr ⟨j, hj, hq⟩
    show _ = (r.2.keys.info q).key
    rw [hkey q hheld hheld']
    exact h.hands j hj q t hq ht

theorem Filed.send {s : Sys} (h : Filed st s) (hc : Core st s) (i : ℕ)
    (hi : i < st.cfg.senderCount) (r : Sender.Pc × Producer)
    (hm : Sender.Move st.cfg (s.senders i, s.prod) r) : Filed st (s.setSender i r) := by
  have hc' := hc.sender i hi r hm
  have hmine := h.hands i hi
  have hring := h.ring
  have hheld : ∀ q, Sender.queue (s.senders i) = some q → Held st.cfg.toKeyConfig s.prod.keys q :=
    fun q hq => (hc.held q).mpr ⟨i, hi, hq⟩
  generalize hpc : s.senders i = pc at hm hmine hheld
  generalize hp : s.prod = p at hm hmine hring hheld
  cases hm with
  | idle pc pc' p p' ha hsame hcarry =>
    obtain ⟨a, b, c, d, rfl⟩ := ha
    refine h.sender hc i _ hc' (fun a _ _ => by rw [hp]) hring fun q t hq ht => ?_
    exact hmine q t (hsame.queue ▸ hq) (hcarry ▸ ht)
  | keyed pc pc' p m hk hsame hcarry =>
    refine h.sender hc i _ hc' (fun a ha ha' => ?_) (fun k t ht => hring k t ?_)
      fun q t hq ht => ?_
    · rw [hp] at ha ⊢
      exact (hk.same a ha ha').1
    · rwa [← hk.ring k]
    · have hq' : Sender.queue pc = some q := hsame.queue ▸ hq
      have hh := hheld q hq'
      show _ = (m.info q).key
      rw [(hk.same q hh ((hk.held q).mpr hh)).1]
      exact hmine q t hq' (hcarry ▸ ht)
  | take p q t rest now m hfree hfirst he =>
    have htask := hring (m.info q).key t (by rw [hfirst]; exact List.mem_cons_self)
    refine h.sender hc i _ hc' (fun a ha ha' => ?_) (fun k x hx => ?_) fun q' t' hq ht => ?_
    · rw [hp] at ha ⊢
      exact (he.same a ha ha').1
    · rw [he.ring k] at hx
      split at hx
      · rename_i hk
        rw [hk]
        exact hring _ x (by rw [hfirst]; exact List.mem_cons_of_mem t hx)
      · exact hring k x hx
    · cases hq
      cases ht
      exact htask
  | pop pc p t rest hpc' hq' =>
    refine h.sender hc i _ hc' (fun a _ _ => by rw [hp]) hring fun q t hq _ => ?_
    cases hq
  | move p t =>
    refine h.sender hc i _ hc' (fun a _ _ => by rw [hp]; rfl) hring fun q t' hq _ => ?_
    dsimp only at hq
    split at hq <;> cases hq
  | put p t m he =>
    refine h.sender hc i _ hc' (fun a ha ha' => ?_) (fun k x hx => ?_) fun q t' hq _ => ?_
    · rw [hp] at ha ⊢
      exact (he.same a ha ha').1
    · rw [he.ring k] at hx
      split at hx
      · rename_i hk
        rcases List.mem_append.mp hx with hx | hx
        · exact hring k x hx
        · rw [List.mem_singleton.mp hx]
          exact hk.symm
      · exact hring k x hx
    · cases hq
  | count p t now =>
    refine h.sender hc i _ hc' (fun a _ _ => by rw [hp]) hring fun q t' hq _ => ?_
    cases hq
  | drop p t =>
    refine h.sender hc i _ hc' (fun a _ _ => by rw [hp]; rfl) hring fun q t' hq _ => ?_
    cases hq
  | release pc pc' p t hsame hcarry hnone =>
    refine h.sender hc i _ hc' (fun a _ _ => by rw [hp]; rfl) hring fun q t' _ ht => ?_
    rw [hnone] at ht
    cases ht
  | requeue p q t next m he =>
    have htask := hmine q t rfl rfl
    refine h.sender hc i _ hc' (fun a ha ha' => ?_) (fun k x hx => ?_) fun q' t' hq _ => ?_
    · rw [hp] at ha ⊢
      exact (he.same a ha ha').1
    · rw [he.ring k] at hx
      split at hx
      · rename_i hk
        rcases List.mem_cons.mp hx with hx | hx
        · rw [hx, hk]
          exact htask
        · exact hring k x hx
      · exact hring k x hx
    · cases hq
  | attempt pc' p q s' hsame hcarry =>
    refine h.sender hc i _ hc' (fun a _ _ => by rw [hp]; rfl) hring fun q' t hq ht => ?_
    exact hmine q' t (hsame.queue ▸ hq) (hcarry.symm.trans ht)
  | report p q s' sent =>
    refine h.sender hc i _ hc' (fun a _ _ => by rw [hp]; rfl) hring fun q' t hq ht => ?_
    cases q with
    | none => cases hq
    | some q => exact hmine q' t hq ht
  | finish p q m gone he hg =>
    refine h.sender hc i _ hc' (fun a ha ha' => ?_) (fun k x hx => ?_) fun q' t' hq _ => ?_
    · rw [hp] at ha ⊢
      exact (he.same a ha ha').1
    · rw [he.ring k] at hx
      exact hring k x hx
    · cases hq
  | uncount p =>
    refine h.sender hc i _ hc' (fun a _ _ => by rw [hp]) hring fun q t' hq _ => ?_
    cases hq
  | cleanup pc pc' p next m gone hsame he hg hcarry =>
    refine h.sender hc i _ hc' (fun a ha ha' => ?_) (fun k t ht => hring k t ?_)
      fun q t hq ht => ?_
    · rw [hp] at ha ⊢
      exact (he.same a ha ha').1
    · rwa [← he.ring k]
    · have hq' : Sender.queue pc = some q := hsame.queue ▸ hq
      have hh := hheld q hq'
      show _ = (m.info q).key
      rw [(he.same q hh ((he.held q).mpr hh)).1]
      exact hmine q t hq' (hcarry ▸ ht)
  | commit p =>
    refine h.sender hc i _ hc' (fun a _ _ => by rw [hp]) hring fun q t' hq _ => ?_
    cases hq
  | exitFast p block hf =>
    refine h.sender hc i _ hc' (fun a _ _ => by rw [hp]) hring fun q t' hq _ => ?_
    cases hq

theorem filed_step (s s' : Sys) (a : Act) (hgood : Good st s) (hi : Filed st s)
    (h : step st s a = some s') : Filed st s' := by
  refine step_rule (Filed st) s s' a hgood hi ?_ ?_ ?_ ?_ ?_ h
  · intro t i r _ hc hI hm
    have hf := hm.frame hc.sound
    exact hI.keep hc rfl hf.key hf.ring
  · intro i r _ _ hl
    have hf := hl.frame hgood.sound
    exact hi.keep hgood.toCore rfl hf.key hf.ring
  · intro t i r _ hc hI hm
    have hf := hm.frame hc.sound
    exact hI.keep hc rfl hf.key hf.ring
  · intro i r _ _ hp
    have hf := hp.frame hgood.sound
    exact hi.keep hgood.toCore rfl hf.key hf.ring
  · intro i r hlt _ hm
    exact hi.send hgood.toCore i hlt r hm

theorem filed_start (st : Setup) : Filed st (start st) := by
  constructor
  · intro k t ht
    rcases KeyMap.ring_cases st.cfg.toKeyConfig (start st).prod.keys k with hn | ⟨q, _, _, hr⟩
    · rw [hn] at ht
      cases ht
    · rw [hr] at ht
      cases ht
  · intro i _ q t hq
    simp only [start, Sender.start] at hq
    split at hq <;> cases hq

/-- A log of the key `K` is added with a flush, and packed. -/
def packKeyed (addr : Addr) : List Act :=
  [.call 0 (.addKv ⟨5, 0, false, [([65], [66])]⟩ [75] true), .writer 0 ⟨1, 1, addr⟩]++
    List.replicate 8 (.worker 0 ⟨1, 1, [8], none, none⟩)

end Sys

end VeTls
