import VeTls.Lib.Machine
import VeTls.Pipeline.Turns

/-!
# What a flush reaches

A flush sets `flushRequested`, which the next worker to take its work turns
into a seal of all builders. Before that the worker merges the ingress queue,
so that nothing is left upstream but the batches of the threads. A run is
written down with the logs that each thread was told are accepted.
-/

set_option autoImplicit false

namespace VeTls

open VeTls.Keys (Addr CStr KeyMap)

variable {cfg : Config}

/-- The flag is not cleared, and no add ends. -/
structure Hushed (p p' : Producer) : Prop where
  flag : p.flushRequested = true → p'.flushRequested = true
  nextId : p.nextId ≤ p'.nextId
  accepted : p'.accepted = p.accepted

theorem Hushed.refl (p : Producer) : Hushed p p := ⟨id, le_rfl, rfl⟩

theorem Hushed.trans {p₁ p₂ p₃ : Producer} (h : Hushed p₁ p₂) (h' : Hushed p₂ p₃) :
    Hushed p₁ p₃ :=
  ⟨fun hf => h'.flag (h.flag hf), h.nextId.trans h'.nextId, h'.accepted.trans h.accepted⟩

theorem Raised.hushed {p p' : Producer} (h : Raised p p') : Hushed p p' := by
  obtain rfl | rfl := h
  · exact .refl _
  · exact ⟨fun _ => rfl, le_rfl, rfl⟩

theorem mapWaitErrorToResult_hushed (rc : WaitRc) (p : Producer) :
    Hushed p (mapWaitErrorToResult rc p).2 := by
  cases rc <;> exact ⟨id, le_rfl, rfl⟩

theorem ingressBreakerDropLocked_hushed (p p' : Producer) (bytes : ℕ) (now : ℤ)
    (h : ingressBreakerDropLocked cfg p bytes now = some p') : Hushed p p' := by
  unfold ingressBreakerDropLocked at h
  split at h
  · cases h
  · split at h
    · obtain rfl := Option.some.inj h
      refine ⟨id, ?_, rfl⟩
      show p.nextId ≤ p.nextId+1
      omega
    · obtain rfl := Option.some.inj h
      exact ⟨id, le_rfl, rfl⟩

/-- The flag is not cleared, no id is given out, and no add ends. -/
structure Calm (p p' : Producer) : Prop where
  flag : p.flushRequested = true → p'.flushRequested = true
  nextId : p'.nextId = p.nextId
  accepted : p'.accepted = p.accepted

theorem Calm.refl (p : Producer) : Calm p p := ⟨id, rfl, rfl⟩

theorem Calm.trans {p₁ p₂ p₃ : Producer} (h : Calm p₁ p₂) (h' : Calm p₂ p₃) : Calm p₁ p₃ :=
  ⟨fun hf => h'.flag (h.flag hf), h'.nextId.trans h.nextId, h'.accepted.trans h.accepted⟩

theorem setSlot_calm (b : Option Builder) (p : Producer) (slot : Slot) :
    Calm p (setSlot b p slot) := by
  cases slot <;> exact ⟨id, rfl, rfl⟩

theorem sealSlot_calm (slot : Slot) (b : Builder) (p : Producer) : Calm p (sealSlot slot b p) := by
  obtain ⟨hf, hn, ha⟩ := setSlot_calm none p slot
  exact ⟨hf, hn, ha⟩

theorem storeBuilder_calm (flush : Bool) (slot : Slot) (b : Builder) (p : Producer) :
    Calm p (storeBuilder cfg flush slot b p) := by
  unfold storeBuilder
  split
  · obtain ⟨_, hn, ha⟩ := sealSlot_calm slot b p
    exact ⟨fun _ => rfl, hn, ha⟩
  · exact setSlot_calm (some b) p slot

theorem findSlot_calm (p : Producer) (useDefault : Bool) (key : CStr) (addr : Addr) :
    Calm p (findSlot cfg p useDefault key addr).2 := by
  unfold findSlot
  split <;> exact ⟨id, rfl, rfl⟩

namespace Writer

/-- The logs in a thread's batch for this producer. -/
def ownIds (me : ℕ) (w : Writer) : List ℤ :=
  if w.batch.producer = some me then (w.batch.builder.map Builder.ids).getD [] else []

/-- The log in the batch, or one of its logs, belongs to an add that has not
returned. -/
def Pending (pc : Pc) (id : ℤ) : Prop := flushing pc = some id ∨ ∃ rc, pc = .flushFail rc

/-- What a step of a call does to the thread's batch and to the logs that are
accepted. -/
structure Adds (me : ℕ) (w : Writer) (p : Producer) (r : Writer × Producer) : Prop where
  flag : p.flushRequested = true → r.2.flushRequested = true
  nextId : p.nextId ≤ r.2.nextId
  own : ∀ id ∈ ownIds me r.1, id ∈ ownIds me w ∨ p.nextId ≤ id ∧ id < r.2.nextId
  added : ∃ l, r.2.accepted = p.accepted++l ∧
    (∀ id ∈ l, flushing w.pc = some id ∨ p.nextId ≤ id ∧ id < r.2.nextId) ∧
    ∀ id ∈ ownIds me r.1, id ∈ ownIds me w ∧ ¬ Pending w.pc id ∨ id ∈ l ∨ Pending r.1.pc id

variable {me : ℕ} {w : Writer} {p : Producer}

theorem ownIds_congr {w' : Writer} (h : w'.batch = w.batch) : ownIds me w' = ownIds me w := by
  rw [ownIds, ownIds, h]

theorem ownIds_own (h : w.batch.producer = some me) : ownIds me w = (tlsBuilder cfg w).ids := by
  rw [ownIds, if_pos h, tlsBuilder]
  cases w.batch.builder <;> rfl

theorem ownIds_other (h : w.batch.producer ≠ some me) : ownIds me w = [] := if_neg h

/-- A log that is being flushed is in the thread's batch. -/
theorem Ok.flushing_own {id : ℤ} (h : Ok cfg me w) (hf : flushing w.pc = some id) :
    id ∈ ownIds me w := by
  have hbatch : batched w.pc = true := by
    generalize w.pc = pc at hf
    cases pc with
    | flushWait who d | pushWait who d =>
      cases who with
      | add x f => rfl
      | close t => cases hf
    | flushLock x f => rfl
    | _ => cases hf
  rw [ownIds_own (h.own hbatch)]
  exact h.log id hf

theorem ownIds_reset : ownIds me (setBuilder (some (tlsBatchReset (tlsBuilder cfg w))) w) = [] := by
  unfold ownIds
  split <;> rfl

/-- The batch stays, and so does what is pending in it. -/
theorem Adds.keeps {w' : Writer} {p' : Producer} (hb : w'.batch = w.batch)
    (hpc : ∀ id, Pending w.pc id → Pending w'.pc id) (h : Hushed p p') :
    Adds me w p (w', p') := by
  refine ⟨h.flag, h.nextId, ?_, [], ?_, nofun, ?_⟩
  · intro id hid
    rw [ownIds_congr hb] at hid
    exact .inl hid
  · rw [h.accepted, List.append_nil]
  · intro id hid
    rw [ownIds_congr hb] at hid
    by_cases hp : Pending w.pc id
    · exact .inr (.inr (hpc id hp))
    · exact .inl ⟨hid, hp⟩

/-- The batch is emptied. -/
theorem Adds.empties {r : Writer × Producer} (l : List ℤ) (hown : ownIds me r.1 = [])
    (hflag : p.flushRequested = true → r.2.flushRequested = true) (hnext : p.nextId ≤ r.2.nextId)
    (hacc : r.2.accepted = p.accepted++l)
    (hl : ∀ id ∈ l, flushing w.pc = some id ∨ p.nextId ≤ id ∧ id < r.2.nextId) :
    Adds me w p r := by
  refine ⟨hflag, hnext, ?_, l, hacc, hl, ?_⟩
  · rw [hown]
    nofun
  · rw [hown]
    nofun

/-- A new log is accepted beside the batch. -/
theorem Adds.beside {w' : Writer} {p' : Producer} (hb : w'.batch = w.batch)
    (hpc : ∀ id, ¬ Pending w.pc id) (hflag : p.flushRequested = true → p'.flushRequested = true)
    (hnext : p'.nextId = p.nextId+1) (hacc : p'.accepted = p.accepted++[p.nextId]) :
    Adds me w p (w', p') := by
  refine ⟨hflag, by dsimp only; omega, ?_, [p.nextId], hacc, ?_, ?_⟩
  · intro id hid
    rw [ownIds_congr hb] at hid
    exact .inl hid
  · intro id hid
    obtain rfl := List.mem_singleton.mp hid
    exact .inr ⟨le_rfl, by dsimp only; omega⟩
  · intro id hid
    rw [ownIds_congr hb] at hid
    exact .inl ⟨hid, hpc id⟩

theorem Adds.after {p' : Producer} {r : Writer × Producer} (h : Hushed p p')
    (hr : Adds me w p' r) : Adds me w p r := by
  obtain ⟨l, hacc, hl, hids⟩ := hr.added
  have hwide : ∀ id, p'.nextId ≤ id ∧ id < r.2.nextId → p.nextId ≤ id ∧ id < r.2.nextId :=
    fun id hid => ⟨h.nextId.trans hid.1, hid.2⟩
  refine ⟨fun hf => hr.flag (h.flag hf), h.nextId.trans hr.nextId,
    fun id hid => (hr.own id hid).imp_right (hwide id), l, ?_,
    fun id hid => (hl id hid).imp_right (hwide id), hids⟩
  rw [hacc, h.accepted]

theorem ret_hushed {p' : Producer} (res : Result) (hpc : ∀ id, ¬ Pending w.pc id)
    (h : Hushed p p') : Adds me w p (ret res w, p') :=
  .keeps rfl (fun id hp => absurd hp (hpc id)) h

theorem admitted_adds (again : ℤ → Pc) (go : Producer → Writer × Producer) (x : Wait × Producer)
    (hpc : ∀ id, ¬ Pending w.pc id) (hx : Hushed p x.2) (hok : x.1 = .rc .ok → x.2 = p)
    (hgo : Adds me w p (go p)) : Adds me w p (admitted w again go x) := by
  obtain ⟨res, p'⟩ := x
  have herr : ∀ rc, Adds me w p
      (ret (mapWaitErrorToResult rc p').1 w, (mapWaitErrorToResult rc p').2) :=
    fun rc => ret_hushed _ hpc (hx.trans (mapWaitErrorToResult_hushed rc p'))
  cases res with
  | block d => exact .keeps rfl (fun id hp => absurd hp (hpc id)) hx
  | rc rc =>
    cases rc with
    | ok =>
      obtain rfl : p' = p := hok rfl
      exact hgo
    | full => exact herr .full
    | closed => exact herr .closed
    | timeout => exact herr .timeout

theorem enter_adds (i : Input) (bytes : ℕ) (again : ℤ → Pc) (go : Producer → Writer × Producer)
    (hpc : ∀ id, ¬ Pending w.pc id) (hgo : Adds me w p (go p)) :
    Adds me w p (enter cfg i bytes again go w p) := by
  unfold enter
  split
  · exact ret_hushed _ hpc (.refl p)
  · split
    · rename_i p' hd
      exact ret_hushed _ hpc (ingressBreakerDropLocked_hushed p p' bytes i.now hd)
    · exact admitted_adds again go _ hpc (waitBufferSpaceLocked_raised p bytes false i.now i.now2).hushed
        (fun hx => ((waitBufferSpaceLocked_waited p bytes false i.now i.now2).ok hx).1) hgo

theorem closeLoop_hushed (timeoutMs start now : ℤ) (w : Writer) (p : Producer) :
    (closeLoop cfg timeoutMs start now w p).1.batch = w.batch ∧
      Hushed p (closeLoop cfg timeoutMs start now w p).2 := by
  generalize hr : closeLoop cfg timeoutMs start now w p = r
  have ht := @closeLoop_tested cfg timeoutMs start now w p
  rw [hr] at ht
  cases ht with
  | stops hd => exact ⟨rfl, id, le_rfl, rfl⟩
  | late hd => exact ⟨rfl, .refl p⟩
  | waits hd => exact ⟨rfl, .refl p⟩

/-- The thread is where it flushes its batch for `who`. -/
def Flushes (pc : Pc) : FlushBy → Prop
  | .add id _ => flushing pc = some id ∧ ∀ rc, pc ≠ .flushFail rc
  | .close _ => ∀ id, ¬ Pending pc id

theorem Flushes.pending {pc pc' : Pc} {who : FlushBy} (h : Flushes pc who)
    (hpc : ∀ id f, who = .add id f → flushing pc' = some id) (id : ℤ) (hid : Pending pc id) :
    Pending pc' id := by
  cases who with
  | close timeoutMs => exact absurd hid (h id)
  | add x f =>
    rcases hid with hid | ⟨rc, hrc⟩
    · rw [h.1] at hid
      obtain rfl := Option.some.inj hid
      exact .inl (hpc x f rfl)
    · exact absurd hrc (h.2 rc)

/-- The batch is out of the thread's hands, or was empty. -/
theorem flushed_adds (i : Input) (who : FlushBy) (w' : Writer) (p' : Producer)
    (hwho : Flushes w.pc who) (hb : w'.batch = w.batch ∨ ownIds me w' = []) (h : Hushed p p') :
    Adds me w p (flushed cfg i w' p' who) := by
  cases who with
  | add id f =>
    obtain ⟨hid, hfail⟩ := hwho
    have hsub : ∀ x ∈ ownIds me (ret .ok w'), x ∈ ownIds me w := by
      intro x hx
      rcases hb with hb | hb
      · rwa [@ownIds_congr me w (ret .ok w') hb] at hx
      · rw [@ownIds_congr me w' (ret .ok w') rfl, hb] at hx
        cases hx
    refine ⟨h.flag, h.nextId, fun x hx => .inl (hsub x hx), [id], ?_, ?_, ?_⟩
    · exact congrArg (·++[id]) h.accepted
    · intro x hx
      rw [List.mem_singleton.mp hx]
      exact .inl hid
    · intro x hx
      by_cases hp : Pending w.pc x
      · rcases hp with hp | ⟨rc, hrc⟩
        · rw [hid] at hp
          exact .inr (.inl (List.mem_singleton.mpr (Option.some.inj hp).symm))
        · exact absurd hrc (hfail rc)
      · exact .inl ⟨hsub x hx, hp⟩
  | close timeoutMs =>
    obtain ⟨hbatch, hq⟩ := @closeLoop_hushed cfg timeoutMs i.now i.now2 w' (closeBegin p')
    have hbegin : Hushed p' (closeBegin p') := ⟨fun _ => rfl, le_rfl, rfl⟩
    have hall : Hushed p (flushed cfg i w' p' (.close timeoutMs)).2 := (h.trans hbegin).trans hq
    rcases hb with hb | hb
    · exact .keeps (hbatch.trans hb) (fun id hid => absurd hid (hwho id)) hall
    · refine .empties [] ?_ hall.flag hall.nextId ?_ nofun
      · rw [← hb]
        exact ownIds_congr hbatch
      · rw [hall.accepted, List.append_nil]

theorem flushFailed_adds (rc : WaitRc) (who : FlushBy) (p' : Producer) (hwho : Flushes w.pc who)
    (h : Hushed p p') : Adds me w p (flushFailed rc w p' who) := by
  cases who with
  | add id f => exact .keeps rfl (fun _ _ => .inr ⟨rc, rfl⟩) h
  | close timeoutMs => exact .keeps rfl (fun id hid => absurd hid (hwho id)) h

theorem flushPush_adds (i : Input) (start : ℤ) (who : FlushBy) (p' : Producer)
    (hwho : Flushes w.pc who) (h : Hushed p p') :
    Adds me w p (flushPush cfg i start who w p') := by
  unfold flushPush
  obtain he | ⟨x, hx, he⟩ := ingressQueuePushLocked_cases cfg p' cfg.hashKey (tlsBuilder cfg w)
    (forceFlush who) (ingressWaitMs cfg) start i.now2
  · rw [he]
    exact flushed_adds i who _ _ hwho (.inr ownIds_reset) (h.trans ⟨id, le_rfl, rfl⟩)
  · rw [he]
    cases x with
    | block d =>
      refine .keeps rfl (hwho.pending fun id f hw => ?_) h
      rw [hw]
      rfl
    | rc rc =>
      cases rc with
      | ok => exact absurd rfl hx
      | full => exact flushFailed_adds .full who p' hwho h
      | closed => exact flushFailed_adds .closed who p' hwho h
      | timeout => exact flushFailed_adds .timeout who p' hwho h

theorem flushAdmit_adds (i : Input) (who : FlushBy) (x : Wait × Producer)
    (hwho : Flushes w.pc who) (hx : Hushed p x.2) : Adds me w p (flushAdmit cfg i who w x) := by
  obtain ⟨res, p'⟩ := x
  cases res with
  | block d =>
    refine .keeps rfl (hwho.pending fun id f hw => ?_) hx
    rw [hw]
    rfl
  | rc rc =>
    cases rc with
    | ok => exact flushPush_adds i i.now who p' hwho hx
    | full => exact flushFailed_adds .full who p' hwho hx
    | closed => exact flushFailed_adds .closed who p' hwho hx
    | timeout => exact flushFailed_adds .timeout who p' hwho hx

theorem tlsBatchFlushLocked_adds (i : Input) (who : FlushBy) (hwho : Flushes w.pc who) :
    Adds me w p (tlsBatchFlushLocked cfg i who w p) := by
  unfold tlsBatchFlushLocked
  split
  · exact flushed_adds i who w p hwho (.inl rfl) (.refl p)
  · exact flushAdmit_adds i who _ hwho (waitBufferSpaceLocked_raised p _ false i.now i.now2).hushed

theorem ids_addKv (b b' : Builder) (id : ℤ) (kv : Wire.KvLog)
    (h : logBuilderAddKvLens b id kv = some b') : b'.ids = b.ids++[id] := by
  unfold logBuilderAddKvLens at h
  dsimp only at h
  split at h
  · cases h
  · obtain rfl := Option.some.inj h
    show (b.logs++[storedLog id kv]).map Log.id = _
    rw [List.map_append]
    rfl

theorem tlsAppend_adds (kv : Wire.KvLog) (flush : Bool) (hpc : ∀ id, ¬ Pending w.pc id) :
    Adds me w p (tlsAppend cfg kv flush w p) := by
  unfold tlsAppend
  dsimp only
  split
  · refine .empties [] ownIds_reset id ?_ (List.append_nil _).symm nofun
    show p.nextId ≤ p.nextId+1
    omega
  · rename_i b hb
    have hids := ids_addKv _ _ _ _ hb
    have hown : ∀ id ∈ ownIds me (setBuilder (some b) w), id ∈ ownIds me w ∨ id = p.nextId := by
      intro id hid
      by_cases hme : w.batch.producer = some me
      · rw [@ownIds_own cfg me (setBuilder (some b) w) hme] at hid
        have hin : id ∈ (tlsBuilder cfg w).ids++[p.nextId] := hids ▸ hid
        rw [@ownIds_own cfg me w hme]
        exact (List.mem_append.mp hin).imp_right List.mem_singleton.mp
      · rw [@ownIds_other me (setBuilder (some b) w) hme] at hid
        cases hid
    have hnew : p.nextId ≤ p.nextId ∧ p.nextId < p.nextId+1 := ⟨le_rfl, by omega⟩
    rw [settleTls_eq]
    split
    · refine ⟨id, by dsimp only; omega, ?_, [], (List.append_nil _).symm, nofun, ?_⟩
      · exact fun id hid => (hown id hid).imp_right fun he => by rw [he]; exact hnew
      · intro id hid
        rcases hown id hid with hold | rfl
        · exact .inl ⟨hold, hpc id⟩
        · exact .inr (.inr (.inl rfl))
    · refine ⟨id, ?_, ?_, [p.nextId], rfl, ?_, ?_⟩
      · show p.nextId ≤ p.nextId+1
        omega
      · exact fun id hid => (hown id hid).imp_right fun he => by rw [he]; exact hnew
      · intro id hid
        obtain rfl := List.mem_singleton.mp hid
        exact .inr hnew
      · intro id hid
        rcases hown id hid with hold | rfl
        · exact .inl ⟨hold, hpc id⟩
        · exact .inr (.inl (List.mem_singleton.mpr rfl))

theorem rawPush_adds (log : RawLog) (hpc : ∀ id, ¬ Pending w.pc id) :
    Adds me w p (rawPush cfg log w p) := by
  unfold rawPush
  split
  · exact ret_hushed _ hpc ⟨id, le_rfl, rfl⟩
  · dsimp only
    split
    · exact .beside rfl hpc (fun _ => rfl) rfl rfl
    · exact .beside rfl hpc id rfl rfl

theorem settleQueue_calm (estimated delta : ℕ) (p : Producer) :
    Calm p (settleQueue estimated delta p) := by
  unfold settleQueue
  split
  · exact ⟨id, rfl, rfl⟩
  · split <;> exact ⟨id, rfl, rfl⟩

theorem kvRefuse_adds (kv : Wire.KvLog) (p' : Producer) (hpc : ∀ id, ¬ Pending w.pc id)
    (h : Calm (kvReserve kv p) p') : Adds me w p (kvRefuse cfg kv p.nextId w p') := by
  have hnext : p'.nextId = p.nextId+1 := h.nextId
  unfold kvRefuse
  dsimp only
  split
  · exact .beside rfl hpc h.flag hnext (congrArg (·++[p.nextId]) h.accepted)
  · refine ret_hushed _ hpc ⟨h.flag, ?_, h.accepted⟩
    show p.nextId ≤ p'.nextId
    omega

theorem kvStore_adds (kv : Wire.KvLog) (flush : Bool) (slot : Slot) (b : Builder) (p' : Producer)
    (hpc : ∀ id, ¬ Pending w.pc id) (h : Calm (kvReserve kv p) p') :
    Adds me w p (kvStore cfg kv p.nextId flush slot b w p') := by
  unfold kvStore
  split
  · obtain ⟨hf, hn, ha⟩ := h.trans (setSlot_calm (some b) p' slot)
    have hnext : (setSlot (some b) p' slot).nextId = p.nextId+1 := hn
    refine ret_hushed _ hpc ⟨hf, ?_, ha⟩
    show p.nextId ≤ (setSlot (some b) p' slot).nextId
    omega
  · rename_i b' _
    have hs := (h.trans (settleQueue_calm (estimate kv) (b'.logsLen-b.logsLen) p')).trans
      (@storeBuilder_calm cfg flush slot b' _)
    exact .beside rfl hpc hs.flag hs.nextId (congrArg (·++[p.nextId]) hs.accepted)

theorem kvAdd_adds (i : Input) (kv : Wire.KvLog) (hashKey : CStr) (flush : Bool)
    (hpc : ∀ id, ¬ Pending w.pc id) : Adds me w p (kvAdd cfg i kv hashKey flush w p) := by
  have hslot := @findSlot_calm cfg (kvReserve kv p) (cfg.fastBuilder && hashKey.isEmpty)
    (cfg.normalizeHashKey hashKey) i.addr
  unfold kvAdd
  dsimp only
  split
  · rename_i p' hp
    rw [hp] at hslot
    exact kvRefuse_adds kv p' hpc hslot
  · rename_i slot p' hp
    rw [hp] at hslot
    exact kvStore_adds kv flush slot _ p' hpc hslot

theorem go_adds (joined : Bool) (i : Input) (r : Writer × Producer)
    (h : go cfg me joined i w p = some r) : Adds me w p r := by
  unfold go at h
  split at h
  · cases h
  · have none : ∀ pc, w.pc = pc → flushing pc = none → (∀ rc, pc ≠ .flushFail rc) →
        ∀ id, ¬ Pending w.pc id := by
      rintro pc hpc hflush hfail id (hp | ⟨rc, hp⟩)
      · rw [hpc, hflush] at hp
        cases hp
      · exact hfail rc (hpc.symm.trans hp)
    have flushes : ∀ who, (∃ d, w.pc = .flushWait who d) ∨ (∃ d, w.pc = .pushWait who d) →
        Flushes w.pc who := by
      rintro (⟨id, f⟩ | t) (⟨d, hpc⟩ | ⟨d, hpc⟩)
      · rw [hpc]
        exact ⟨rfl, nofun⟩
      · rw [hpc]
        exact ⟨rfl, nofun⟩
      · exact none _ hpc rfl nofun
      · exact none _ hpc rfl nofun
    cases hpc : w.pc with
    | idle => simp [hpc] at h
    | tlsLock kv flush =>
      simp only [hpc, Option.some.injEq] at h
      subst h
      have hn := none _ hpc rfl nofun
      exact enter_adds i _ _ _ hn (.keeps rfl (fun id hp => absurd hp (hn id)) ⟨id, le_rfl, rfl⟩)
    | tlsWait kv flush deadline =>
      simp only [hpc, Option.some.injEq] at h
      subst h
      have hn := none _ hpc rfl nofun
      exact admitted_adds _ _ _ hn (waitLoop_raised p _ false deadline i.now).hushed
        (fun hx => ((waitLoop_waited p _ false deadline i.now).ok hx).1)
        (.keeps rfl (fun id hp => absurd hp (hn id)) ⟨id, le_rfl, rfl⟩)
    | tlsAppend kv flush =>
      simp only [hpc, Option.some.injEq] at h
      subst h
      exact tlsAppend_adds kv flush (none _ hpc rfl nofun)
    | flushLock id flush =>
      simp only [hpc, Option.some.injEq] at h
      subst h
      apply tlsBatchFlushLocked_adds
      rw [hpc]
      exact ⟨rfl, nofun⟩
    | flushWait who deadline =>
      simp only [hpc, Option.some.injEq] at h
      subst h
      exact flushAdmit_adds i who _ (flushes who (.inl ⟨deadline, hpc⟩))
        (waitLoop_raised p _ false deadline i.now).hushed
    | pushWait who start =>
      simp only [hpc, Option.some.injEq] at h
      subst h
      exact flushPush_adds i start who p (flushes who (.inr ⟨start, hpc⟩)) (.refl p)
    | flushFail rc =>
      simp only [hpc, Option.some.injEq] at h
      subst h
      exact .empties [] ownIds_reset id le_rfl (List.append_nil _).symm nofun
    | rawLock log =>
      simp only [hpc, Option.some.injEq] at h
      subst h
      have hn := none _ hpc rfl nofun
      exact enter_adds i _ _ _ hn (.keeps rfl (fun id hp => absurd hp (hn id)) ⟨id, le_rfl, rfl⟩)
    | rawWait log deadline =>
      simp only [hpc, Option.some.injEq] at h
      subst h
      have hn := none _ hpc rfl nofun
      exact admitted_adds _ _ _ hn (waitLoop_raised p _ false deadline i.now).hushed
        (fun hx => ((waitLoop_waited p _ false deadline i.now).ok hx).1)
        (.keeps rfl (fun id hp => absurd hp (hn id)) ⟨id, le_rfl, rfl⟩)
    | rawPush log =>
      simp only [hpc, Option.some.injEq] at h
      subst h
      exact rawPush_adds log (none _ hpc rfl nofun)
    | kvLock kv hashKey flush =>
      simp only [hpc, Option.some.injEq] at h
      subst h
      have hn := none _ hpc rfl nofun
      exact enter_adds i _ _ _ hn (kvAdd_adds i kv hashKey flush hn)
    | kvWait kv hashKey flush deadline =>
      simp only [hpc, Option.some.injEq] at h
      subst h
      have hn := none _ hpc rfl nofun
      exact admitted_adds _ _ _ hn (waitLoop_raised p _ false deadline i.now).hushed
        (fun hx => ((waitLoop_waited p _ false deadline i.now).ok hx).1)
        (kvAdd_adds i kv hashKey flush hn)
    | closeLock timeoutMs =>
      simp only [hpc] at h
      have hn : Flushes w.pc (.close timeoutMs) := none _ hpc rfl nofun
      split at h
      · obtain rfl := Option.some.inj h
        exact tlsBatchFlushLocked_adds i _ hn
      · obtain rfl := Option.some.inj h
        exact flushed_adds i _ w p hn (.inl rfl) (.refl p)
    | closeWait timeoutMs start =>
      simp only [hpc, Option.some.injEq] at h
      subst h
      obtain ⟨hb, hh⟩ := @closeLoop_hushed cfg timeoutMs start i.now w p
      exact .keeps hb (fun id hp => absurd hp (none _ hpc rfl nofun id)) hh
    | closeStop =>
      simp only [hpc, Option.some.injEq] at h
      subst h
      exact .keeps rfl (fun id hp => absurd hp (none _ hpc rfl nofun id)) ⟨id, le_rfl, rfl⟩
    | closeJoin =>
      simp only [hpc] at h
      split at h
      · obtain rfl := Option.some.inj h
        exact ret_hushed _ (none _ hpc rfl nofun) (.refl p)
      · cases h

theorem call_adds (c : Call) (r : Writer × Producer) (hidle : w.pc = .idle)
    (h : call cfg me w p c = some r) : Adds me w p r := by
  have hn : ∀ id, ¬ Pending w.pc id := by
    rw [hidle]
    rintro id (hp | ⟨rc, hp⟩) <;> cases hp
  have begins : ∀ pc, Adds me w p ({ w with pc := pc }, p) := fun pc =>
    .keeps rfl (fun id hp => absurd hp (hn id)) (.refl p)
  cases c with
  | addRaw log =>
    simp only [call] at h
    split at h
    · obtain rfl := Option.some.inj h
      exact ret_hushed _ hn (.refl p)
    · obtain rfl := Option.some.inj h
      exact begins _
  | addKv kv hashKey flush =>
    simp only [call] at h
    split at h
    · obtain rfl := Option.some.inj h
      exact ret_hushed _ hn (.refl p)
    · split at h
      · obtain rfl := Option.some.inj h
        by_cases hme : w.batch.producer = some me
        · have hb : switchBatch me w.batch = w.batch := if_pos hme
          exact .keeps hb (fun id hp => absurd hp (hn id)) (.refl p)
        · refine .empties [] ?_ id le_rfl (List.append_nil _).symm (by simp)
          have hb : switchBatch me w.batch = ⟨some me, none⟩ := if_neg hme
          simp [ownIds, hb]
      · obtain rfl := Option.some.inj h
        exact begins _
  | flush =>
    obtain rfl := Option.some.inj h
    exact ret_hushed _ hn ⟨fun _ => rfl, le_rfl, rfl⟩
  | close timeoutMs =>
    obtain rfl := Option.some.inj h
    exact begins _
  | elsewhere other builder =>
    simp only [call] at h
    split at h
    · cases h
    · rename_i hne
      obtain rfl := Option.some.inj h
      have hown : (some other : Option ℕ) ≠ some me := fun he => hne (Option.some.inj he)
      rw [leaveBatch_eq]
      exact .empties [] (ownIds_other hown) id le_rfl (List.append_nil _).symm (by simp)

end Writer

namespace Worker

variable {w : Worker} {p : Producer} {r : Worker × Producer}

theorem mergeInto_calm (t : IngressTask) (slot : Slot) (b : Builder) (p : Producer) :
    Calm p (mergeInto cfg t slot b p).2 := by
  unfold mergeInto
  split
  · exact setSlot_calm _ p slot
  · rename_i b' _
    have hp : Calm p { p with queueBytes := p.queueBytes+(b'.logsLen-b.logsLen) } := ⟨id, rfl, rfl⟩
    exact hp.trans (storeBuilder_calm t.forceFlush slot b' _)

theorem mergeOne_calm (now : ℤ) (t : IngressTask) (rest : List IngressTask) (addr : Addr)
    (p : Producer) : Calm p (mergeOne cfg now t rest addr p) := by
  have hpop : Calm p (ingressQueuePopLocked t rest p) := ⟨id, rfl, rfl⟩
  have hmerge : Calm p (ingressTaskMergeLocked cfg t addr now (ingressQueuePopLocked t rest p)).2 :=
    by
      unfold ingressTaskMergeLocked
      split
      · exact hpop
      · have hslot := hpop.trans (@findSlot_calm cfg (ingressQueuePopLocked t rest p)
          (mergeDefault cfg t.normKey) t.normKey addr)
        split
        · rename_i p' hp
          rwa [hp] at hslot
        · rename_i slot p' hp
          rw [hp] at hslot
          exact hslot.trans (mergeInto_calm t slot _ p')
  unfold mergeOne
  split
  · rename_i p' hp
    rwa [hp] at hmerge
  · rename_i p' hp
    rw [hp] at hmerge
    exact ⟨hmerge.flag, hmerge.nextId, hmerge.accepted⟩

theorem mergeAll_calm (now : ℤ) (l : List IngressTask) (addrs : List Addr) (p p' : Producer)
    (h : mergeAll cfg now l addrs p = some p') : Calm p p' := by
  induction l generalizing addrs p with
  | nil =>
    obtain rfl : p = p' := Option.some.inj h
    exact .refl p
  | cons t rest ih =>
    cases addrs with
    | nil => cases h
    | cons a addrs =>
      rw [mergeAll] at h
      split at h
      · cases h
      · exact (mergeOne_calm now t rest a p).trans (ih addrs _ h)

/-- Sealed by a flush, a builder is out of its slot, or has no logs. -/
theorem sealDue_self (now : ℤ) (p : Producer) (slot : Slot) :
    builderLogs (slotBuilder (sealDue cfg true now p slot) slot) = false := by
  have hout : ∀ b, slotBuilder (sealSlot slot b p) slot = none := by
    intro b
    cases slot with
    | default => rfl
    | key q => simp [sealSlot, setSlot, slotBuilder]
  unfold sealDue
  cases hb : slotBuilder p slot with
  | none =>
    dsimp only
    rw [hb]
    rfl
  | some b =>
    dsimp only
    split
    · rw [hout b]
      rfl
    · rename_i hdue
      have hzero : b.logCount = 0 := by
        by_contra hne
        exact hdue (by simp [builderDue, hne])
      rw [hb]
      simp [builderLogs, hzero]

theorem sealDue_other (flushAll : Bool) (now : ℤ) (p : Producer) (slot slot' : Slot)
    (hne : slot' ≠ slot) :
    slotBuilder (sealDue cfg flushAll now p slot) slot' = slotBuilder p slot' := by
  unfold sealDue
  split
  · rfl
  · split
    · cases slot with
      | default =>
        cases slot' with
        | default => exact absurd rfl hne
        | key q => rfl
      | key q =>
        cases slot' with
        | default => rfl
        | key a =>
          have haq : a ≠ q := fun he => hne (congrArg Slot.key he)
          simp only [sealSlot, setSlot, slotBuilder, KeyMap.setInfo_other q a _ p.keys haq]
    · rfl

theorem sealAll_slot (now : ℤ) (p : Producer) (slot : Slot) (hs : slot ∈ slots cfg p) :
    builderLogs (slotBuilder (sealAll cfg true now p) slot) = false := by
  have hgo : ∀ (l : List Slot) (p : Producer),
      builderLogs (slotBuilder p slot) = false ∨ slot ∈ l →
      builderLogs (slotBuilder (l.foldl (sealDue cfg true now) p) slot) = false := by
    intro l
    induction l with
    | nil =>
      rintro p (h | h)
      · exact h
      · cases h
    | cons x l ih =>
      intro p h
      apply ih
      by_cases hx : slot = x
      · rw [hx]
        exact .inl (sealDue_self now p x)
      · rw [sealDue_other true now p x slot hx]
        exact h.imp_right fun hm => (List.mem_cons.mp hm).resolve_left hx
  exact hgo (slots cfg p) p (.inr hs)

theorem sealAll_live (flushAll : Bool) (now : ℤ) (p : Producer) :
    KeyMap.live cfg.toKeyConfig (sealAll cfg flushAll now p).keys =
      KeyMap.live cfg.toKeyConfig p.keys := by
  have hgo : ∀ (l : List Slot) (q : Producer),
      KeyMap.live cfg.toKeyConfig (l.foldl (sealDue cfg flushAll now) q).keys =
        KeyMap.live cfg.toKeyConfig q.keys := by
    intro l
    induction l with
    | nil => exact fun _ => rfl
    | cons x l ih => exact fun q => (ih _).trans (sealDue_live flushAll now q x)
  exact hgo (slots cfg p) p

theorem sealAll_ingressQueue (flushAll : Bool) (now : ℤ) (p : Producer) :
    (sealAll cfg flushAll now p).ingressQueue = p.ingressQueue := by
  have hdue : ∀ (q : Producer) slot,
      (sealDue cfg flushAll now q slot).ingressQueue = q.ingressQueue := by
    intro q slot
    unfold sealDue
    split
    · rfl
    · split
      · cases slot <;> rfl
      · rfl
  have hgo : ∀ (l : List Slot) (q : Producer),
      (l.foldl (sealDue cfg flushAll now) q).ingressQueue = q.ingressQueue := by
    intro l
    induction l with
    | nil => exact fun _ => rfl
    | cons x l ih => exact fun q => (ih _).trans (hdue q x)
  exact hgo (slots cfg p) p

/-- No log waits between the threads' batches and the send queue. -/
structure Bare (cfg : Config) (p : Producer) : Prop where
  ingressQueue : p.ingressQueue = []
  sealedList : p.sealedList = []
  slots : ∀ slot ∈ slots cfg p, builderLogs (slotBuilder p slot) = false

theorem Bare.kept (h : Bare cfg p) (b : Builder) (hb : b ∈ VeTls.kept cfg p) : b.logCount = 0 := by
  have hzero : ∀ o : Option Builder, o = some b → builderLogs o = false → b.logCount = 0 := by
    rintro o rfl hl
    simpa [builderLogs] using hl
  rw [mem_kept] at hb
  obtain hd | hk | ⟨s, hs, _⟩ := hb
  · exact hzero _ hd (h.slots .default List.mem_cons_self)
  · obtain ⟨q, hq, hbq⟩ := List.mem_filterMap.mp hk
    exact hzero _ hbq
      (h.slots (.key q) (List.mem_cons_of_mem _ (List.mem_map.mpr ⟨q, hq, rfl⟩)))
  · rw [h.sealedList] at hs
    cases hs

theorem body_bare (i : Input) (haveAny haveIngress : Bool) (hs : KeyMap.Sound cfg.toKeyConfig p.keys)
    (hf : p.flushRequested = true) (hany : haveAny = false → anyBuilder cfg p = false)
    (h : body cfg i haveAny haveIngress w p = some r) : Bare cfg r.2 := by
  unfold body at h
  split at h
  · rename_i hexit
    obtain rfl := Option.some.inj h
    simp only [Bool.and_eq_true, Bool.not_eq_true', List.isEmpty_iff] at hexit
    obtain ⟨⟨⟨⟨⟨_, _⟩, hi⟩, hl⟩, ha⟩, _⟩ := hexit
    refine ⟨hi, hl, fun slot hslot => ?_⟩
    obtain ⟨hd, hk⟩ := Bool.or_eq_false_iff.mp (hany ha)
    obtain rfl | hslot := List.mem_cons.mp hslot
    · exact hd
    · obtain ⟨q, hq, rfl⟩ := List.mem_map.mp hslot
      exact Bool.eq_false_iff.mpr (List.any_eq_false.mp hk q hq)
  · cases hm : mergeAll cfg i.now p.ingressQueue i.addrs p with
    | none => simp [hm] at h
    | some p₁ =>
      obtain ⟨_, _, hi⟩ := mergeAll_moves i.now _ i.addrs w p p₁ hs rfl hm
      have hflag : p₁.flushRequested = true := (mergeAll_calm i.now _ i.addrs p p₁ hm).flag hf
      simp only [hm, Option.bind_eq_bind, Option.bind_some, hflag, Bool.true_or,
        Option.some.injEq] at h
      subst h
      refine ⟨(sealAll_ingressQueue true i.now2 _).trans hi, rfl, fun slot hslot => ?_⟩
      refine sealAll_slot i.now2 (beginFlush p₁) slot ?_
      have hlive := @sealAll_live cfg true i.now2 (beginFlush p₁)
      unfold slots at hslot ⊢
      rwa [← hlive]

/-- After a flush, the next take leaves nothing behind. -/
theorem take_bare (i : Input) (hs : KeyMap.Sound cfg.toKeyConfig p.keys)
    (hf : p.flushRequested = true) (ht : takes w.pc r.1.pc = true)
    (h : step cfg i w p = some r) : Bare cfg r.2 := by
  obtain ⟨_, haveAny, b, hany, hb⟩ | ⟨hno, _⟩ := step_cases i hs h
  · exact body_bare i haveAny b hs hf hany hb
  · rw [ht] at hno
    cases hno

/-- Only a take clears the flag. -/
theorem step_flag (i : Input) (hs : KeyMap.Sound cfg.toKeyConfig p.keys)
    (hf : p.flushRequested = true) (ht : takes w.pc r.1.pc = false)
    (h : step cfg i w p = some r) : r.2.flushRequested = true := by
  obtain ⟨hyes, _⟩ | ⟨_, _, hp⟩ := step_cases i hs h
  · rw [ht] at hyes
    cases hyes
  · exact hp.flag hf

end Worker

theorem Sender.Move.flag {a b : Sender.Pc × Producer} (h : Sender.Move cfg a b) :
    b.2.flushRequested = a.2.flushRequested := by
  cases h with
  | idle pc pc' p p' ha =>
    obtain ⟨_, _, _, _, rfl⟩ := ha
    rfl
  | _ => rfl

/-- None of the logs has an id of the list. -/
def Avoids (A : List ℤ) (logs : List Log) (_ _ : ℕ) : Prop := ∀ l ∈ logs, l.id ∉ A

theorem avoids_additive (A : List ℤ) : Additive (Avoids A) := by
  refine ⟨nofun, fun l l' n n' c c' h h' x hx => ?_⟩
  obtain hx | hx := List.mem_append.mp hx
  · exact h x hx
  · exact h' x hx

theorem avoids_stores {A : List ℤ} {N : ℤ} (hA : ∀ id ∈ A, id < N) (id : ℤ) (hid : N ≤ id) :
    Stores (Avoids A) id := by
  intro kv l hl
  obtain rfl := List.mem_singleton.mp hl
  intro hin
  have hlt : id < N := hA id hin
  omega

theorem avoids_ids {A : List ℤ} {b : Builder} : b.Has (Avoids A) ↔ ∀ id ∈ b.ids, id ∉ A := by
  constructor
  · intro h id hid
    obtain ⟨l, hl, rfl⟩ := List.mem_map.mp hid
    exact h l hl
  · exact fun h l hl => h l.id (List.mem_map_of_mem hl)

theorem Upstream.of_bare {A : List ℤ} {p : Producer} (hz : Upstream cfg Sized p)
    (hb : Worker.Bare cfg p) : Upstream cfg (Avoids A) p := by
  constructor
  · rw [hb.ingressQueue]
    nofun
  · intro b hin l hl
    rw [(hz.kept b hin).empty (.inl (hb.kept b hin))] at hl
    cases hl

namespace Sys

variable {st : Setup}

/-- No log of the list is in a thread's batch, the ingress queue, a builder
or the sealed list. -/
structure Reached (st : Setup) (A : List ℤ) (s : Sys) : Prop where
  own : ∀ j, ∀ id ∈ Writer.ownIds st.me (s.writers j), id ∉ A
  ingress : ∀ t ∈ s.prod.ingressQueue, ∀ id ∈ t.batch.ids, id ∉ A
  kept : ∀ b ∈ kept st.cfg s.prod, ∀ id ∈ b.ids, id ∉ A

/-- The thread whose call the step is part of. -/
def caller : Act → Option ℕ
  | .call i _ | .writer i _ => some i
  | _ => none

/-- The step is the one in which a worker takes its work. -/
def takesWork (s s' : Sys) : Act → Bool
  | .worker j _ => Worker.takes (s.workers j).pc (s'.workers j).pc
  | _ => false

/-- A step of a thread, and the steps of all others. -/
theorem adds_step (s s' : Sys) (a : Act) (h : step st s a = some s') :
    (∃ i r, caller a = some i ∧ Writer.Adds st.me (s.writers i) s.prod r ∧ s' = s.setWriter i r) ∨
      caller a = none ∧ s'.writers = s.writers := by
  cases a with
  | call i c =>
    simp only [step] at h
    split at h
    · rename_i hi
      obtain ⟨r, hr, rfl⟩ := Option.map_eq_some_iff.mp h
      exact .inl ⟨i, r, rfl, Writer.call_adds c r hi.2 hr, rfl⟩
    · cases h
  | writer i input =>
    simp only [step] at h
    split at h
    · obtain ⟨r, hr, rfl⟩ := Option.map_eq_some_iff.mp h
      exact .inl ⟨i, r, rfl, Writer.go_adds _ input r hr, rfl⟩
    · cases h
  | worker i input | sender i input =>
    simp only [step] at h
    split at h
    · obtain ⟨r, -, rfl⟩ := Option.map_eq_some_iff.mp h
      exact .inr ⟨rfl, rfl⟩
    · cases h

/-- Between two steps; the threads' batches have no log of the list. -/
structure Apart (st : Setup) (A : List ℤ) (N : ℤ) (s : Sys) : Prop where
  sized : Every st Sized s
  next : N ≤ s.prod.nextId
  own : ∀ j, ∀ id ∈ Writer.ownIds st.me (s.writers j), id ∉ A

theorem apart_step {A : List ℤ} {N : ℤ} (hA : ∀ id ∈ A, id < N) (s s' : Sys) (a : Act)
    (hgood : Good st s) (hi : Apart st A N s) (h : step st s a = some s') : Apart st A N s' := by
  obtain ⟨hle, hsized⟩ := every_step sized_additive s s' a hgood (fun id _ => sized_stores id)
    hi.sized h
  refine ⟨hsized, hi.next.trans hle, ?_⟩
  obtain ⟨i, r, -, hr, rfl⟩ | ⟨-, hw⟩ := adds_step s s' a h
  · refine forall_update (fun w => ∀ id ∈ Writer.ownIds st.me w, id ∉ A) s.writers i r.1 hi.own ?_
    intro id hid
    rcases hr.own id hid with hold | ⟨hnew, -⟩
    · exact hi.own i id hold
    · intro hin
      have hlt := hA id hin
      have hN := hi.next
      omega
  · rw [hw]
    exact hi.own

theorem Apart.every {A : List ℤ} {N : ℤ} {s : Sys} (h : Apart st A N s)
    (hup : Upstream st.cfg (Avoids A) s.prod) : Every st (Avoids A) s := by
  refine ⟨fun j hme => avoids_ids.mpr ?_, hup⟩
  rw [← Writer.ownIds_own hme]
  exact h.own j

theorem Apart.reached {A : List ℤ} {N : ℤ} {s : Sys} (h : Apart st A N s)
    (hup : Upstream st.cfg (Avoids A) s.prod) : Reached st A s :=
  ⟨h.own, fun t ht => avoids_ids.mp (hup.ingress t ht), fun b hb => avoids_ids.mp (hup.kept b hb)⟩

theorem upstream_step {A : List ℤ} {N : ℤ} (hA : ∀ id ∈ A, id < N) (s s' : Sys) (a : Act)
    (hgood : Good st s) (hi : Apart st A N s) (hup : Upstream st.cfg (Avoids A) s.prod)
    (h : step st s a = some s') : Upstream st.cfg (Avoids A) s'.prod :=
  (every_step (avoids_additive A) s s' a hgood
    (fun id hid => avoids_stores hA id (hi.next.trans hid)) (hi.every hup) h).2.upstream

/-- The flag is still set, or the logs have left. -/
def Sweeping (st : Setup) (A : List ℤ) (s : Sys) : Prop :=
  s.prod.flushRequested = true ∨ Upstream st.cfg (Avoids A) s.prod

theorem sweeping_step {A : List ℤ} {N : ℤ} (hA : ∀ id ∈ A, id < N) (s s' : Sys) (a : Act)
    (hgood : Good st s) (hi : Apart st A N s) (hs : Sweeping st A s)
    (h : step st s a = some s') :
    Sweeping st A s' ∧ (takesWork s s' a = true → Upstream st.cfg (Avoids A) s'.prod) := by
  rcases hs with hf | hup
  · have hz := (sized_step s s' a hgood hi.sized h).upstream
    cases a with
    | call i c =>
      refine ⟨.inl ?_, by simp [takesWork]⟩
      obtain ⟨_, r, _, hr, rfl⟩ | ⟨hc, _⟩ := adds_step s s' _ h
      · exact hr.flag hf
      · cases hc
    | writer i input =>
      refine ⟨.inl ?_, by simp [takesWork]⟩
      obtain ⟨_, r, _, hr, rfl⟩ | ⟨hc, _⟩ := adds_step s s' _ h
      · exact hr.flag hf
      · cases hc
    | worker i input =>
      simp only [step] at h
      split at h
      · obtain ⟨r, hr, rfl⟩ := Option.map_eq_some_iff.mp h
        have hself : (s.setWorker i r).workers i = r.1 := Function.update_self _ _ _
        cases ht : Worker.takes (s.workers i).pc r.1.pc with
        | true =>
          have hup := Upstream.of_bare (A := A) hz (Worker.take_bare input hgood.sound hf ht hr)
          exact ⟨.inr hup, fun _ => hup⟩
        | false =>
          refine ⟨.inl (Worker.step_flag input hgood.sound hf ht hr), fun htake => ?_⟩
          rw [takesWork, hself, ht] at htake
          cases htake
      · cases h
    | sender i input =>
      obtain ⟨_, r, _, hm, rfl⟩ := sender_move s s' i input hgood h
      exact ⟨.inl (hm.flag.trans hf), by simp [takesWork]⟩
  · have hup' := upstream_step hA s s' a hgood hi hup h
    exact ⟨.inr hup', fun _ => hup'⟩

theorem sweeping_run {A : List ℤ} {N : ℤ} (hA : ∀ id ∈ A, id < N) (acts : List Act) (s s' : Sys)
    (hgood : Good st s) (hi : Apart st A N s) (hs : Sweeping st A s) (h : run st acts s = some s') :
    Good st s' ∧ Apart st A N s' ∧ Sweeping st A s' :=
  run_rule (fun t => Apart st A N t ∧ Sweeping st A t) (fun _ _ => True)
    (fun t a t' hg hI _ hst => ⟨apart_step hA t t' a hg hI.1 hst,
      (sweeping_step hA t t' a hg hI.1 hI.2 hst).1⟩)
    acts s s' hgood ⟨hi, hs⟩ (along_forall acts s fun _ _ => trivial) h

theorem upstream_run {A : List ℤ} {N : ℤ} (hA : ∀ id ∈ A, id < N) (acts : List Act) (s s' : Sys)
    (hgood : Good st s) (hi : Apart st A N s) (hup : Upstream st.cfg (Avoids A) s.prod)
    (h : run st acts s = some s') : Apart st A N s' ∧ Upstream st.cfg (Avoids A) s'.prod :=
  (run_rule (fun t => Apart st A N t ∧ Upstream st.cfg (Avoids A) t.prod) (fun _ _ => True)
    (fun t a t' hg hI _ hst => ⟨apart_step hA t t' a hg hI.1 hst,
      upstream_step hA t t' a hg hI.1 hI.2 hst⟩)
    acts s s' hgood ⟨hi, hup⟩ (along_forall acts s fun _ _ => trivial) h).2

/-- A flush, any steps, a worker that takes its work, any steps. -/
theorem reached_of_apart {A : List ℤ} {N : ℤ} (hA : ∀ id ∈ A, id < N) (rest later : List Act)
    (a : Act) (s₁ s₂ s₃ s₄ : Sys) (hgood : Good st s₁) (hi : Apart st A N s₁)
    (hf : s₁.prod.flushRequested = true) (hrest : run st rest s₁ = some s₂)
    (htake : step st s₂ a = some s₃) (ht : takesWork s₂ s₃ a = true)
    (hlater : run st later s₃ = some s₄) : Reached st A s₄ := by
  obtain ⟨hgood₂, hi₂, hs₂⟩ := sweeping_run hA rest s₁ s₂ hgood hi (.inl hf) hrest
  have hup₃ := (sweeping_step hA s₂ s₃ a hgood₂ hi₂ hs₂ htake).2 ht
  obtain ⟨hi₄, hup₄⟩ := upstream_run hA later s₃ s₄ (good_step s₂ s₃ a hgood₂ htake)
    (apart_step hA s₂ s₃ a hgood₂ hi₂ htake) hup₃ hlater
  exact hi₄.reached hup₄

theorem silent_step (i : ℕ) (s s' : Sys) (a : Act) (ha : caller a ≠ some i)
    (h : step st s a = some s') : s'.writers i = s.writers i := by
  obtain ⟨j, r, hc, _, rfl⟩ | ⟨_, hw⟩ := adds_step s s' a h
  · have hij : i ≠ j := by
      rintro rfl
      exact ha hc
    exact Function.update_of_ne hij _ _
  · rw [hw]

theorem silent_run (i : ℕ) (acts : List Act) (s s' : Sys) (ha : ∀ a ∈ acts, caller a ≠ some i)
    (h : run st acts s = some s') : s'.writers i = s.writers i := by
  induction acts generalizing s with
  | nil =>
    obtain rfl := Option.some.inj h
    rfl
  | cons a acts ih =>
    obtain ⟨m, hm, hrest⟩ := Option.bind_eq_some_iff.mp h
    rw [ih m (fun b hb => ha b (List.mem_cons_of_mem a hb)) hrest]
    exact silent_step i s m a (ha a List.mem_cons_self) hm

theorem flush_step (i : ℕ) (s s' : Sys) (h : step st s (.call i .flush) = some s') :
    (s.writers i).pc = .idle ∧
      s' = s.setWriter i (Writer.ret .ok (s.writers i), { s.prod with flushRequested := true }) := by
  simp only [step] at h
  split at h
  · rename_i hi
    exact ⟨hi.2, (Option.some.inj h).symm⟩
  · cases h

end Sys

/-- A pipeline, and the logs each thread was told are accepted. -/
structure Told where
  sys : Sys
  added : ℕ → List ℤ

namespace Told

variable {st : Setup}

def start (st : Setup) : Told := ⟨Sys.start st, fun _ => []⟩

/-- What a step accepts, it accepts from its caller. -/
def hear (s s' : Sys) (added : ℕ → List ℤ) : Option ℕ → ℕ → List ℤ
  | some i => Function.update added i (added i++s'.prod.accepted.drop s.prod.accepted.length)
  | none => added

def step (st : Setup) (w : Told) (a : Act) : Option Told :=
  (Sys.step st w.sys a).map fun s => ⟨s, hear w.sys s w.added (Sys.caller a)⟩

/-- Every log belongs to the thread that added it, and a log in a batch was
accepted or its add still runs. -/
structure Issued (st : Setup) (issuer : ℤ → ℕ) (w : Told) : Prop where
  own : ∀ j, ∀ id ∈ Writer.ownIds st.me (w.sys.writers j),
    (issuer id = j ∧ id < w.sys.prod.nextId) ∧
      (id ∈ w.added j ∨ Writer.Pending (w.sys.writers j).pc id)
  added : ∀ j, ∀ id ∈ w.added j, issuer id = j ∧ id < w.sys.prod.nextId

theorem issued_call {issuer : ℤ → ℕ} {w : Told} (hi : Issued st issuer w) (i : ℕ)
    (hok : Writer.Ok st.cfg st.me (w.sys.writers i)) (r : Writer × Producer)
    (hr : Writer.Adds st.me (w.sys.writers i) w.sys.prod r) :
    ∃ issuer', Issued st issuer'
      ⟨w.sys.setWriter i r, hear w.sys (w.sys.setWriter i r) w.added (some i)⟩ := by
  obtain ⟨l, hacc, hl, hids⟩ := hr.added
  let issuer' : ℤ → ℕ := fun id => if w.sys.prod.nextId ≤ id then i else issuer id
  have hnext : ∀ id, w.sys.prod.nextId ≤ id ∧ id < r.2.nextId →
      issuer' id = i ∧ id < r.2.nextId := fun id hid => ⟨if_pos hid.1, hid.2⟩
  have hkeep : ∀ j id, issuer id = j ∧ id < w.sys.prod.nextId → issuer' id = j ∧ id < r.2.nextId :=
    fun j id hid => ⟨(if_neg (not_le.mpr hid.2)).trans hid.1, hid.2.trans_le hr.nextId⟩
  have hdrop : r.2.accepted.drop w.sys.prod.accepted.length = l := by
    rw [hacc, List.drop_left]
  have hadded : ∀ id ∈ l, issuer' id = i ∧ id < r.2.nextId := by
    intro id hid
    rcases hl id hid with hf | hnew
    · exact hkeep i id (hi.own i id (hok.flushing_own hf)).1
    · exact hnext id hnew
  have hself : (w.sys.setWriter i r).writers i = r.1 := Function.update_self _ _ _
  have hother : ∀ j, j ≠ i → (w.sys.setWriter i r).writers j = w.sys.writers j :=
    fun j hj => Function.update_of_ne hj _ _
  have hmine : hear w.sys (w.sys.setWriter i r) w.added (some i) i = w.added i++l := by
    rw [hear, Function.update_self]
    exact congrArg (w.added i++·) hdrop
  have hbeside : ∀ j, j ≠ i →
      hear w.sys (w.sys.setWriter i r) w.added (some i) j = w.added j :=
    fun j hj => Function.update_of_ne hj _ _
  refine ⟨issuer', ?_, ?_⟩
  · intro j id hid
    dsimp only at hid ⊢
    by_cases hj : j = i
    · subst hj
      rw [hself] at hid ⊢
      rw [hmine]
      constructor
      · exact (hr.own id hid).elim (fun hold => hkeep j id (hi.own j id hold).1) (hnext id)
      · rcases hids id hid with ⟨hold, hp⟩ | hin | hp
        · exact .inl (List.mem_append_left l ((hi.own j id hold).2.resolve_right hp))
        · exact .inl (List.mem_append_right _ hin)
        · exact .inr hp
    · rw [hother j hj] at hid ⊢
      rw [hbeside j hj]
      exact ⟨hkeep j id (hi.own j id hid).1, (hi.own j id hid).2⟩
  · intro j id hid
    dsimp only at hid
    by_cases hj : j = i
    · subst hj
      rw [hmine] at hid
      rcases List.mem_append.mp hid with hold | hnew
      · exact hkeep j id (hi.added j id hold)
      · exact hadded id hnew
    · rw [hbeside j hj] at hid
      exact hkeep j id (hi.added j id hid)

structure Inv (st : Setup) (w : Told) : Prop where
  good : Sys.Good st w.sys
  sized : Sys.Every st Sized w.sys
  issued : ∃ issuer, Issued st issuer w

theorem inv_start (st : Setup) : Inv st (start st) :=
  ⟨Sys.good_start st, Sys.every_start sized_additive st, fun _ => 0, nofun, nofun⟩

theorem inv_step (w w' : Told) (a : Act) (hi : Inv st w) (h : step st w a = some w') :
    Inv st w' := by
  obtain ⟨s, hs, rfl⟩ := Option.map_eq_some_iff.mp h
  obtain ⟨hle, hsized⟩ := Sys.every_step sized_additive w.sys s a hi.good
    (fun id _ => sized_stores id) hi.sized hs
  refine ⟨Sys.good_step _ _ a hi.good hs, hsized, ?_⟩
  obtain ⟨issuer, hissued⟩ := hi.issued
  obtain ⟨i, r, hc, hr, rfl⟩ | ⟨hc, hw⟩ := Sys.adds_step w.sys s a hs
  · rw [hc]
    exact issued_call hissued i (hi.good.writers i) r hr
  · have hlt : ∀ j id, issuer id = j ∧ id < w.sys.prod.nextId →
        issuer id = j ∧ id < s.prod.nextId := fun j id hid => ⟨hid.1, hid.2.trans_le hle⟩
    rw [hc]
    refine ⟨issuer, ?_, fun j id hid => hlt j id (hissued.added j id hid)⟩
    intro j id hid
    dsimp only at hid ⊢
    rw [hw] at hid ⊢
    exact ⟨hlt j id (hissued.own j id hid).1, (hissued.own j id hid).2⟩

/-- After its flush a thread with an empty batch has its logs in no batch. -/
theorem Inv.apart {w : Told} (h : Inv st w) (i : ℕ)
    (hown : Writer.ownIds st.me (w.sys.writers i) = []) :
    Sys.Apart st (w.added i) w.sys.prod.nextId w.sys ∧
      ∀ id ∈ w.added i, id < w.sys.prod.nextId := by
  obtain ⟨issuer, hissued⟩ := h.issued
  refine ⟨⟨h.sized, le_rfl, fun j id hid hin => ?_⟩, fun id hid => (hissued.added i id hid).2⟩
  have hj : issuer id = j := (hissued.own j id hid).1.1
  have hi : issuer id = i := (hissued.added i id hin).1
  have hji : j = i := hj.symm.trans hi
  rw [hji, hown] at hid
  cases hid

/-- After a flush by a thread whose own batch is empty, and after a worker has
taken its work, no log that the thread had added before is left in a batch,
the ingress queue, a builder or the sealed list. If the thread makes no
further step, this is so only if its batch was empty. -/
theorem run_flush_reaches (st : Setup) (acts rest later : List Act) (i : ℕ) (a : Act) (w : Told)
    (s₁ s₂ s₃ s₄ : Sys) (h : Machine.run (step st) acts (start st) = some w)
    (hflush : Sys.step st w.sys (.call i .flush) = some s₁) (hrest : Sys.run st rest s₁ = some s₂)
    (htake : Sys.step st s₂ a = some s₃) (ht : Sys.takesWork s₂ s₃ a = true)
    (hlater : Sys.run st later s₃ = some s₄) :
    (Writer.ownIds st.me (w.sys.writers i) = [] → Sys.Reached st (w.added i) s₄) ∧
      ((∀ b ∈ rest++a::later, Sys.caller b ≠ some i) →
        (Sys.Reached st (w.added i) s₄ ↔ Writer.ownIds st.me (w.sys.writers i) = [])) := by
  have hinv : Inv st w := Machine.run_invariant (step st) (Inv st) (fun _ _ => True)
    (fun v a v' hi _ hst => inv_step v v' a hi hst) acts (start st) w (inv_start st)
    (Machine.along_of_forall (step st) (fun _ => True) acts _ fun _ _ => trivial) h
  have hreach : Writer.ownIds st.me (w.sys.writers i) = [] → Sys.Reached st (w.added i) s₄ := by
    intro hown
    obtain ⟨hapart, hA⟩ := hinv.apart i hown
    refine Sys.reached_of_apart hA rest later a s₁ s₂ s₃ s₄
      (Sys.good_step _ _ _ hinv.good hflush) (Sys.apart_step hA _ _ _ hinv.good hapart hflush) ?_
      hrest htake ht hlater
    obtain ⟨_, rfl⟩ := Sys.flush_step i w.sys s₁ hflush
    rfl
  refine ⟨hreach, fun hsilent => ⟨fun hr => ?_, hreach⟩⟩
  obtain ⟨hidle, rfl⟩ := Sys.flush_step i w.sys s₁ hflush
  have hrun : Sys.run st (rest++a::later) (w.sys.setWriter i
      (Writer.ret .ok (w.sys.writers i), { w.sys.prod with flushRequested := true })) = some s₄ := by
    rw [Sys.run_append, hrest]
    show Sys.run st (a::later) s₂ = some s₄
    rw [Sys.run, htake]
    exact hlater
  have hsame : s₄.writers i = Writer.ret .ok (w.sys.writers i) :=
    (Sys.silent_run i _ _ s₄ hsilent hrun).trans (Function.update_self _ _ _)
  rw [List.eq_nil_iff_forall_not_mem]
  intro id hid
  obtain ⟨issuer, hissued⟩ := hinv.issued
  have hadded : id ∈ w.added i := by
    apply (hissued.own i id hid).2.resolve_right
    rw [hidle]
    rintro (hp | ⟨rc, hp⟩) <;> cases hp
  refine hr.own i id ?_ hadded
  rw [hsame]
  exact hid

def oneWorker : Setup := ⟨{ keyQueueBucketCount := 1 }, 1, 0⟩

def smallLog : Wire.KvLog := ⟨5, 0, false, [([65], [66])]⟩

def addOne : List Act :=
  [.call 0 (.addKv smallLog [] false), .writer 0 ⟨1, 1, 9⟩, .writer 0 ⟨1, 1, 9⟩]

/-- The second add carries the flush flag and publishes the batch. -/
def addTwo : List Act :=
  addOne++[.call 0 (.addKv smallLog [] true), .writer 0 ⟨1, 1, 9⟩, .writer 0 ⟨1, 1, 9⟩,
    .writer 0 ⟨1, 1, 9⟩]

def work : Act := .worker 0 ⟨1, 1, [8], none, none⟩

/-- From the top of the worker's loop to its top again. -/
theorem addTwo_reached : ∃ w s₁ s₃ s₄,
    Machine.run (step oneWorker) addTwo (start oneWorker) = some w ∧ w.added 0 = [1, 2] ∧
    Sys.step oneWorker w.sys (.call 0 .flush) = some s₁ ∧ Sys.step oneWorker s₁ work = some s₃ ∧
    Sys.run oneWorker (List.replicate 6 work) s₃ = some s₄ ∧ (s₄.workers 0).pc = .top ∧
    Sys.Reached oneWorker (w.added 0) s₄ :=
  ⟨_, _, _, _, rfl, rfl, rfl, rfl, rfl, rfl, (run_flush_reaches oneWorker addTwo []
    (List.replicate 6 work) 0 work _ _ _ _ _ rfl rfl rfl rfl rfl rfl).1 rfl⟩

/-- The log of one add is still in its thread's batch after a flush and a whole
round of the worker. -/
theorem addOne_left : ∃ w s₁ s₃ s₄,
    Machine.run (step oneWorker) addOne (start oneWorker) = some w ∧ w.added 0 = [1] ∧
    Sys.step oneWorker w.sys (.call 0 .flush) = some s₁ ∧ (s₁.writers 0).result = some .ok ∧
    Sys.step oneWorker s₁ work = some s₃ ∧ Sys.takesWork s₁ s₃ work = true ∧
    Sys.run oneWorker (List.replicate 2 work) s₃ = some s₄ ∧ (s₄.workers 0).pc = .top ∧
    ¬ Sys.Reached oneWorker (w.added 0) s₄ := by
  refine ⟨_, _, _, _, rfl, rfl, rfl, rfl, rfl, rfl, rfl, rfl, fun h => ?_⟩
  exact h.own 0 1 (by decide) (by decide)

end Told

end VeTls
