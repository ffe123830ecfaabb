import VeTls.Pipeline.Tidy

/-!
# Key slots come back

Workers and senders carry the batches that a slack queue waits for. A worker
that drops one leaves the queue behind, and so does a fast sender, which
does not know the queues. Apart from that the queues of the map are idle or
in use, and with nothing on the way all of them are idle.
-/

set_option autoImplicit false

namespace VeTls

open VeTls.Keys (Addr CStr KeyMap Info)
open VeTls.Keys.KeyMap (Sound Held Slack Tightens Opens)

variable {cfg : Config} {W R : CStr → Prop}

namespace Worker

/-- The keys of the batches in the hands of a worker. -/
def keys (cfg : Config) (w : Worker) : List CStr :=
  (jobs cfg w).map fun b => cfg.normalizeHashKey b.key

def Brings (cfg : Config) (R : CStr → Prop) (w : Worker) (k : CStr) : Prop :=
  k ∈ keys cfg w ∨ R k

section Merge

theorem mergeInto_tidy {p : Producer} {slot : Slot} (t : IngressTask) (b : Builder)
    (h : SlotTidy cfg W t.normKey p slot) (hn : ¬ (t.batch.logCount = 0 ∨ t.batch.logsLen = 0))
    (hb : slot ≠ .default → cfg.normalizeHashKey b.normKey = t.normKey) :
    Tidy cfg W (mergeInto cfg t slot b p).2 := by
  obtain ⟨b', hb'⟩ := Option.isSome_iff_exists.mp
    (show (logBuilderAppend b t.batch).isSome = true by
      unfold logBuilderAppend
      rw [if_neg (fun hx => hn hx.symm)]
      rfl)
  obtain ⟨hkey, hlogs⟩ := append_normKey b t.batch b' hb'
  unfold mergeInto
  rw [hb']
  have hs : SlotTidy cfg W t.normKey { p with queueBytes := p.queueBytes+(b'.logsLen-b.logsLen) }
      slot := h.mono rfl rfl rfl rfl
  exact hs.store t.forceFlush b' (fun hne => by rw [hkey]; exact hb hne) hlogs

/-- A merge opens the queue of the default key only for logs it has. -/
theorem ingressTaskMergeLocked_tidy {p : Producer} (t : IngressTask) (addr : Addr) (now : ℤ)
    (h : Tidy cfg W p) (ha : addr ∉ KeyMap.live cfg.toKeyConfig p.keys)
    (hf : cfg.fastBuilder = true ∨ cfg.fastSend = false) (ht : t.normKey = cfg.hashKey) :
    Tidy cfg W (ingressTaskMergeLocked cfg t addr now p).2 := by
  have hd : mergeDefault cfg t.normKey = true ∨ cfg.fastSend = false := by
    refine hf.imp (fun hb => ?_) id
    simp [mergeDefault, hb, ht]
  obtain ⟨hnone, hsome⟩ := findSlot_tidy h (mergeDefault cfg t.normKey) t.normKey addr ha hd
  unfold ingressTaskMergeLocked
  split
  · exact h
  · rename_i hn
    split
    · rename_i p' he
      rw [he] at hnone
      exact hnone rfl
    · rename_i slot p' he
      rw [he] at hsome
      have hs := hsome slot rfl
      apply mergeInto_tidy t _ hs hn
      intro hne
      have hstamp : ∀ b, (stampFirst t now b).normKey = b.normKey := by
        intro b
        unfold stampFirst
        split <;> rfl
      rw [hstamp]
      cases slot with
      | default => exact absurd rfl hne
      | key q => exact openBuilder_named q now hs (ht ▸ normalizeHashKey_hashKey cfg)

theorem mergeOne_tidy {p : Producer} (now : ℤ) (t : IngressTask) (rest : List IngressTask)
    (addr : Addr) (h : Tidy cfg W p) (ha : addr ∉ KeyMap.live cfg.toKeyConfig p.keys)
    (hf : cfg.fastBuilder = true ∨ cfg.fastSend = false) (ht : t.normKey = cfg.hashKey)
    (hrest : ∀ t ∈ rest, t.normKey = cfg.hashKey) :
    Tidy cfg W (mergeOne cfg now t rest addr p) := by
  have hpop : Tidy cfg W (ingressQueuePopLocked t rest p) :=
    h.mono rfl (fun x hx => Or.inr (hrest x hx)) fun _ hc => hc
  have hm := ingressTaskMergeLocked_tidy t addr now hpop ha hf ht
  unfold mergeOne
  split
  · rename_i p' he
    rw [he] at hm
    exact hm
  · rename_i p' he
    rw [he] at hm
    exact hm.alike ⟨rfl, rfl, rfl, rfl⟩

theorem mergeAll_tidy (now : ℤ) (l : List IngressTask) (addrs : List Addr) (p p' : Producer)
    (h : Tidy cfg W p) (hf : l ≠ [] → cfg.fastBuilder = true ∨ cfg.fastSend = false)
    (hl : ∀ t ∈ l, t.normKey = cfg.hashKey) (hm : mergeAll cfg now l addrs p = some p') :
    Tidy cfg W p' := by
  induction l generalizing addrs p with
  | nil =>
    obtain rfl := Option.some.inj hm
    exact h
  | cons t rest ih =>
    cases addrs with
    | nil => simp [mergeAll] at hm
    | cons a addrs =>
      simp only [mergeAll] at hm
      split at hm
      · simp at hm
      · rename_i ha
        have hrest : ∀ x ∈ rest, x.normKey = cfg.hashKey := fun x hx => hl x (by simp [hx])
        exact ih addrs _ (mergeOne_tidy now t rest a h ha (hf (by simp)) (hl t (by simp)) hrest)
          (fun _ => hf (by simp)) hrest hm

end Merge

theorem sealDue_tidy {p : Producer} (flushAll : Bool) (now : ℤ) (slot : Slot) (h : Tidy cfg W p)
    (hs : SlotOk cfg p slot) : Tidy cfg W (sealDue cfg flushAll now p slot) := by
  unfold sealDue
  split
  · exact h
  · rename_i b hb
    split
    · cases slot with
      | default => exact h.sealDefault b
      | key q =>
        have hmore : Tidy cfg (fun k => W k ∨ k = (p.keys.info q).key) p := h.weaken fun k => Or.inl
        exact hmore.sealSlot q hs rfl b (h.named q hs b hb)
    · exact h

theorem sealAll_tidy {p : Producer} (flushAll : Bool) (now : ℤ) (h : Tidy cfg W p) :
    Tidy cfg W (sealAll cfg flushAll now p) := by
  have hgo : ∀ (l : List Slot) (p : Producer), Tidy cfg W p → (∀ s ∈ l, SlotOk cfg p s) →
      Tidy cfg W (l.foldl (sealDue cfg flushAll now) p) := by
    intro l
    induction l with
    | nil => exact fun p h _ => h
    | cons s l ih =>
      intro p h hok
      refine ih _ (sealDue_tidy flushAll now s h (hok s (by simp))) ?_
      intro x hx
      have hx' := hok x (by simp [hx])
      cases x with
      | default => trivial
      | key q =>
        unfold SlotOk at hx' ⊢
        dsimp only at hx' ⊢
        rwa [sealDue_live]
  refine hgo (slots cfg p) p h ?_
  intro s hmem
  simp only [slots, List.mem_cons, List.mem_map] at hmem
  rcases hmem with rfl | ⟨q, hq, rfl⟩
  · trivial
  · exact hq

/-- The batches a worker takes are in its hands afterwards. -/
theorem takeSealed_tidy {p : Producer} (w : Worker) (hw : keys cfg w = [])
    (h : Tidy cfg (Brings cfg R w) p) :
    Tidy cfg (Brings cfg R ⟨.pop, (takeSealed cfg p).1⟩) (takeSealed cfg p).2 := by
  have hkeys : keys cfg ⟨.pop, p.sealedList⟩ = sealedKeys cfg p := by
    simp [keys, jobs, job, sealedKeys, sealedBatch]
  refine h.mono rfl (fun _ ht => Or.inl ht) ?_
  intro k hc
  rcases hc with hc | hc | hc | hc
  · exact Or.inr (Or.inr (Or.inl (hkeys ▸ hc)))
  · exact Or.inr (Or.inl hc)
  · simp [hw] at hc
  · exact Or.inr (Or.inr (Or.inr hc))

/-- Fast workers reserve no queue. -/
def Slow (cfg : Config) : Pc → Prop
  | .keyReserve _ => cfg.fastSend = false
  | _ => True

theorem body_tidy {p p' : Producer} {w w' : Worker} (i : Input) (haveAny haveIngress : Bool)
    (hw : keys cfg w = []) (h : Tidy cfg (Brings cfg R w) p)
    (hf : p.ingressQueue ≠ [] → cfg.fastBuilder = true ∨ cfg.fastSend = false)
    (hb : body cfg i haveAny haveIngress w p = some (w', p')) :
    Tidy cfg (Brings cfg R w') p' ∧ Slow cfg w'.pc := by
  unfold body at hb
  split at hb
  · obtain ⟨rfl, rfl⟩ := Prod.mk.inj (Option.some.inj hb)
    refine ⟨h.weaken fun k hk => hk.imp (fun hm => ?_) id, trivial⟩
    simp [hw] at hm
  · cases hm : mergeAll cfg i.now p.ingressQueue i.addrs p with
    | none => simp [hm] at hb
    | some p₁ =>
      have h₁ := mergeAll_tidy i.now _ i.addrs p p₁ h hf h.ingress hm
      simp only [hm, Option.bind_eq_bind, Option.bind_some, Option.some.injEq] at hb
      obtain ⟨rfl, rfl⟩ := Prod.mk.inj hb
      have h₂ : Tidy cfg (Brings cfg R w) (beginFlush p₁) := h₁.alike ⟨rfl, rfl, rfl, rfl⟩
      exact ⟨takeSealed_tidy w hw (sealAll_tidy _ i.now2 h₂), trivial⟩

theorem top_tidy {p p' : Producer} {w w' : Worker} (i : Input) (hw : keys cfg w = [])
    (h : Tidy cfg (Brings cfg R w) p)
    (hf : p.ingressQueue ≠ [] → cfg.fastBuilder = true ∨ cfg.fastSend = false)
    (ht : top cfg i w p = some (w', p')) : Tidy cfg (Brings cfg R w') p' ∧ Slow cfg w'.pc := by
  have htimed : ∀ b, Tidy cfg (Brings cfg R { w with pc := .timed b }) p := by
    intro b
    refine h.weaken fun k hk => hk.imp (fun hm => ?_) id
    simp [hw] at hm
  unfold top at ht
  dsimp only at ht
  split at ht
  · split at ht
    · simp at ht
    · split at ht
      · split at ht
        · obtain ⟨rfl, rfl⟩ := Prod.mk.inj (Option.some.inj ht)
          exact ⟨htimed _, trivial⟩
        · exact body_tidy i _ _ hw h hf ht
      · obtain ⟨rfl, rfl⟩ := Prod.mk.inj (Option.some.inj ht)
        exact ⟨htimed _, trivial⟩
  · exact body_tidy i _ _ hw h hf ht

/-- The condition on a step of a worker. When it drops a batch, the queue of
the batch's key has another reason to be there. -/
def Fits (cfg : Config) (p : Producer) (R : CStr → Prop) (w : Worker) : Prop :=
  match w.pc with
  | .top | .timed _ => p.ingressQueue ≠ [] → cfg.fastBuilder = true ∨ cfg.fastSend = false
  | .drop j => ∀ q, Slack cfg.toKeyConfig p.keys q →
      (p.keys.info q).key = cfg.normalizeHashKey j.task.hashKey →
      builderLogs (p.keys.info q).builder = true ∨
        Coming cfg p (Brings cfg R (done j w)) (p.keys.info q).key
  | _ => True

theorem Same.tidy {w w' : Worker} {p p' : Producer} (hs : Same cfg w w')
    (h : Tidy cfg (Brings cfg R w) p) (ha : Alike p p') : Tidy cfg (Brings cfg R w') p' := by
  refine (h.alike ha).weaken fun k hk => hk.imp (fun hm => ?_) id
  unfold keys at hm ⊢
  rwa [hs.jobs]

theorem keys_job (w : Worker) (pc : Pc) (j j' : Job) (hj : job w.pc = some j)
    (hj' : job pc = some j') (ht : j'.task.hashKey = j.task.hashKey) :
    keys cfg { w with pc := pc } = keys cfg w := by
  simp [keys, jobs, hj, hj', SendTask.batch, ht]

theorem tidy_job {w : Worker} {p p' : Producer} (pc : Pc) (j j' : Job) (hj : job w.pc = some j)
    (hj' : job pc = some j') (ht : j'.task.hashKey = j.task.hashKey)
    (h : Tidy cfg (Brings cfg R w) p) (ha : Alike p p') :
    Tidy cfg (Brings cfg R { w with pc := pc }) p' := by
  refine (h.alike ha).weaken fun k hk => hk.imp (fun hm => ?_) id
  rwa [keys_job w pc j j' hj hj' ht]

theorem prepared_slow (j : Job) : Slow cfg (prepared cfg j) := by
  unfold prepared
  split
  · trivial
  · split
    · trivial
    · rename_i hf
      simpa [Slow] using hf

theorem prepare_slow (i : Input) (j : Job) : Slow cfg (prepare cfg i j) := by
  unfold prepare
  split
  · trivial
  · split
    · exact prepared_slow j
    · split
      · split
        · exact prepared_slow _
        · trivial
      · trivial

theorem compressDone_slow (i : Input) (j : Job) : Slow cfg (compressDone cfg i j) := by
  unfold compressDone
  split
  · split
    · exact prepared_slow _
    · trivial
  · trivial

theorem next_keys (w : Worker) (hj : job w.pc = none) : keys cfg (next cfg w) = keys cfg w := by
  have hs := @next_same cfg w
  unfold keys
  rw [hs.jobs]
  simp only [jobs]
  rw [hj]
  rfl

theorem next_slow (w : Worker) : Slow cfg (next cfg w).pc := by
  unfold next
  split <;> trivial

theorem done_keys (j : Job) (w : Worker) (hj : job w.pc = some j) :
    keys cfg w = cfg.normalizeHashKey j.task.hashKey::keys cfg (done j w) := by
  have hdone : job (done j w).pc = none ∧ (done j w).sealedRest = w.sealedRest := by
    unfold done
    split <;> exact ⟨rfl, rfl⟩
  simp only [keys, jobs]
  rw [hdone.1, hdone.2, hj]
  rfl

theorem done_slow (j : Job) (w : Worker) : Slow cfg (done j w).pc := by
  unfold done
  split <;> trivial

theorem alike_scratch (p : Producer) (bytes : ℕ) : Alike p { p with scratchBytes := bytes } :=
  ⟨rfl, rfl, rfl, rfl⟩

theorem alike_release (p : Producer) (bytes : ℕ) : Alike p (releaseScratchBytes bytes p) :=
  ⟨rfl, rfl, rfl, rfl⟩

theorem scratchAdmit_tidy {w : Worker} {p : Producer} (j : Job) (hj : job w.pc = some j)
    (need : ℕ) (r : Wait × Producer) (hr : Waited cfg p need true r)
    (h : Tidy cfg (Brings cfg R w) p) :
    Tidy cfg (Brings cfg R (scratchAdmit j w r).1) (scratchAdmit j w r).2 ∧
      Slow cfg (scratchAdmit j w r).1.pc := by
  obtain ⟨res, p'⟩ := r
  have ha := hr.quiet.alike
  unfold scratchAdmit
  split
  · rename_i d q he
    obtain ⟨-, rfl⟩ := Prod.mk.inj he
    exact ⟨tidy_job _ j j hj rfl rfl h ha, trivial⟩
  · rename_i q he
    obtain ⟨-, rfl⟩ := Prod.mk.inj he
    exact ⟨tidy_job _ j j hj rfl rfl h (ha.trans (alike_scratch p' _)), trivial⟩
  · rename_i c q _ he
    obtain ⟨-, rfl⟩ := Prod.mk.inj he
    exact ⟨tidy_job _ j j hj rfl rfl h ha, trivial⟩

theorem sendAdmit_tidy {w : Worker} {p : Producer} (i : Input) (j : Job) (hj : job w.pc = some j)
    (need : ℕ) (r : Wait × Producer) (hr : Waited cfg p need true r)
    (h : Tidy cfg (Brings cfg R w) p) :
    Tidy cfg (Brings cfg R (sendAdmit i j w r).1) (sendAdmit i j w r).2 ∧
      Slow cfg (sendAdmit i j w r).1.pc := by
  obtain ⟨res, p'⟩ := r
  have ha := hr.quiet.alike
  unfold sendAdmit
  split
  · rename_i d q he
    obtain ⟨-, rfl⟩ := Prod.mk.inj he
    exact ⟨tidy_job _ j j hj rfl rfl h ha, trivial⟩
  · rename_i q he
    obtain ⟨-, rfl⟩ := Prod.mk.inj he
    exact ⟨tidy_job _ j j hj rfl rfl h ⟨ha.keys, ha.ingressQueue, ha.sealedList, ha.sendQueue⟩,
      trivial⟩
  · rename_i c q _ he
    obtain ⟨-, rfl⟩ := Prod.mk.inj he
    exact ⟨tidy_job _ j j hj rfl rfl h ha, trivial⟩

/-- The batch goes from the hands of the worker to the send queue. -/
theorem sendQueuePush_tidy {w : Worker} {p : Producer} (i : Input) (j : Job) (start : ℤ)
    (hpc : w.pc = .push j start) (h : Tidy cfg (Brings cfg R w) p) :
    Tidy cfg (Brings cfg R (sendQueuePush cfg i j start w p).1)
      (sendQueuePush cfg i j start w p).2 ∧ Slow cfg (sendQueuePush cfg i j start w p).1.pc := by
  have hj : job w.pc = some j := by rw [hpc]; rfl
  have hun := tidy_job (.unreserve j) j j hj rfl rfl h ⟨rfl, rfl, rfl, rfl⟩
  unfold sendQueuePush
  split
  · exact ⟨hun, trivial⟩
  · split
    · dsimp only
      split
      · exact ⟨hun, trivial⟩
      · split
        · exact ⟨hun, trivial⟩
        · exact ⟨h, by rw [hpc]; trivial⟩
    · refine ⟨h.mono rfl (fun _ ht => Or.inl ht) ?_, done_slow j w⟩
      intro k hc
      have hsend : ∀ k, k ∈ sendKeys cfg p ∨ k = cfg.normalizeHashKey j.task.hashKey →
          k ∈ sendKeys cfg { p with sendQueue := p.sendQueue++[j.task] } := by
        intro k hk
        simpa [sendKeys, eq_comm] using hk
      rcases hc with hc | hc | hc | hc
      · exact Or.inl hc
      · exact Or.inr (Or.inl (hsend k (Or.inl hc)))
      · rw [done_keys j w hj] at hc
        rcases List.mem_cons.mp hc with hc | hc
        · exact Or.inr (Or.inl (hsend k (Or.inr hc)))
        · exact Or.inr (Or.inr (Or.inl hc))
      · exact Or.inr (Or.inr (Or.inr hc))

/-- The queue a worker reserves is for the batch in its hands. -/
theorem keyReserve_tidy {w : Worker} {p : Producer} (addr : Addr) (j : Job)
    (ha : addr ∉ KeyMap.live cfg.toKeyConfig p.keys) (hpc : w.pc = .keyReserve j)
    (hf : cfg.fastSend = false) (h : Tidy cfg (Brings cfg R w) p) :
    Tidy cfg (Brings cfg R (keyReserve cfg addr j w p).1) (keyReserve cfg addr j w p).2 ∧
      Slow cfg (keyReserve cfg addr j w p).1.pc := by
  have hj : job w.pc = some j := by rw [hpc]; rfl
  have hmine : cfg.normalizeHashKey j.task.hashKey ∈ keys cfg w := by
    rw [done_keys j w hj]
    exact List.mem_cons_self
  have hopen := h.opens (KeyMap.keyQueueReserve_sound h.sound addr _ ha)
    (KeyMap.keyQueueGetOrCreate_opens h.sound addr (cfg.normalizeHashKey j.task.hashKey) ha) hf
  have htidy : Tidy cfg (Brings cfg R w) (keyReserve cfg addr j w p).2 := by
    refine hopen.weaken fun k hk => ?_
    rcases hk with hk | rfl
    · exact hk
    · exact Or.inl hmine
  refine ⟨?_, ?_⟩
  · unfold keyReserve at htidy ⊢
    dsimp only at htidy ⊢
    split <;> exact tidy_job _ j j hj rfl rfl htidy ⟨rfl, rfl, rfl, rfl⟩
  · unfold keyReserve
    dsimp only
    split <;> trivial

/-- A batch may be dropped whose key has no slack queue without it. -/
theorem drop_tidy {w : Worker} {p : Producer} (j : Job) (hpc : w.pc = .drop j)
    (hfit : Fits cfg p R w) (h : Tidy cfg (Brings cfg R w) p) :
    Tidy cfg (Brings cfg R (done j w)) (dropTask j.task p) := by
  have hj : job w.pc = some j := by rw [hpc]; rfl
  simp only [Fits, hpc] at hfit
  have hdone : Tidy cfg (Brings cfg R (done j w)) p := by
    refine ⟨h.sound, ?_, h.named, h.ingress, h.idle, h.fast⟩
    intro q hq
    by_cases hk : (p.keys.info q).key = cfg.normalizeHashKey j.task.hashKey
    · exact hfit q hq hk
    · refine (h.used q hq).imp id fun hc => hc.imp id (Or.imp id fun hw => hw.imp (fun hm => ?_) id)
      rw [done_keys j w hj] at hm
      exact (List.mem_cons.mp hm).resolve_left hk
  exact hdone.alike ⟨rfl, rfl, rfl, rfl⟩

theorem pop_tidy {w : Worker} {p : Producer} (hpc : w.pc = .pop)
    (h : Tidy cfg (Brings cfg R w) p) :
    Tidy cfg (Brings cfg R (pop cfg w p).1) (pop cfg w p).2 ∧ Slow cfg (pop cfg w p).1.pc := by
  have hj : job w.pc = none := by rw [hpc]; rfl
  unfold pop
  split
  · refine ⟨?_, next_slow w⟩
    refine h.weaken fun k hk => hk.imp (fun hm => ?_) id
    rwa [next_keys w hj]
  · rename_i item rest hq
    refine ⟨h.mono rfl (fun _ ht => Or.inl ht) ?_, trivial⟩
    intro k hc
    refine hc.imp id (Or.imp id fun hw => hw.imp (fun hm => ?_) id)
    simp only [keys, jobs] at hm ⊢
    rw [hj] at hm
    rw [List.map_append]
    exact List.mem_append_right _ hm

theorem step_tidy {w w' : Worker} {p p' : Producer} (i : Input) (hok : Ok w)
    (hslow : Slow cfg w.pc) (hfit : Fits cfg p R w) (h : Tidy cfg (Brings cfg R w) p)
    (hs : step cfg i w p = some (w', p')) :
    Tidy cfg (Brings cfg R w') p' ∧ Slow cfg w'.pc := by
  have hplain : ∀ v q, keys cfg v = keys cfg w → Alike p q → Tidy cfg (Brings cfg R v) q := by
    intro v q hv ha
    refine (h.alike ha).weaken fun k hk => hk.imp (fun hm => ?_) id
    rwa [hv]
  have hempty : job w.pc = none → w.sealedRest = [] → keys cfg w = [] := by
    intro hj hr
    simp only [keys, jobs]
    rw [hj, hr]
    rfl
  cases hpc : w.pc with
  | top =>
    have hw : keys cfg w = [] := hempty (by rw [hpc]; rfl) (by simpa [Ok, hpc] using hok)
    simp only [Fits, hpc] at hfit
    simp only [step, hpc] at hs
    exact top_tidy i hw h hfit hs
  | timed haveIngress =>
    have hw : keys cfg w = [] := hempty (by rw [hpc]; rfl) (by simpa [Ok, hpc] using hok)
    simp only [Fits, hpc] at hfit
    simp only [step, hpc] at hs
    exact body_tidy i true haveIngress hw h hfit hs
  | pop =>
    simp only [step, hpc, Option.some.injEq] at hs
    have hp := pop_tidy hpc h
    rwa [hs] at hp
  | prepare j =>
    simp only [step, hpc, Option.some.injEq] at hs
    obtain ⟨rfl, rfl⟩ := Prod.mk.inj hs
    have hsame := @prepare_same cfg i w j (by rw [hpc]; rfl) (by rw [hpc]; rfl)
    exact ⟨hsame.tidy h ⟨rfl, rfl, rfl, rfl⟩, prepare_slow i j⟩
  | scratchLock j =>
    have hj : job w.pc = some j := by rw [hpc]; rfl
    simp only [step, hpc] at hs
    split at hs
    · obtain ⟨rfl, rfl⟩ := Prod.mk.inj (Option.some.inj hs)
      exact ⟨tidy_job (.drop j) j j hj rfl rfl h ⟨rfl, rfl, rfl, rfl⟩, trivial⟩
    · have ha := scratchAdmit_tidy j hj _ _ (waitBufferSpaceLocked_waited p
        (compressScratchBound j.task.bodySize) true i.now i.now2) h
      rwa [Option.some.inj hs] at ha
  | scratchWait j deadline =>
    simp only [step, hpc, Option.some.injEq] at hs
    have ha := scratchAdmit_tidy j (by rw [hpc]; rfl) _ _
      (waitLoop_waited p (compressScratchBound j.task.bodySize) true deadline i.now) h
    rwa [hs] at ha
  | compress j =>
    simp only [step, hpc, Option.some.injEq] at hs
    obtain ⟨rfl, rfl⟩ := Prod.mk.inj hs
    have hsame := @compressDone_same cfg i w j (by rw [hpc]; rfl) (by rw [hpc]; rfl)
    exact ⟨hsame.tidy h (alike_release p _), compressDone_slow i j⟩
  | keyReserve j =>
    rw [hpc] at hslow
    simp only [step, hpc] at hs
    split at hs
    · simp at hs
    · split at hs
      · simp at hs
      · rename_i a _ _ haddr
        have hk := keyReserve_tidy a j haddr hpc hslow h
        rwa [Option.some.inj hs] at hk
  | sendLock j =>
    simp only [step, hpc, Option.some.injEq] at hs
    have ha := sendAdmit_tidy i j (by rw [hpc]; rfl) _ _
      (waitBufferSpaceLocked_waited p (sendTaskMemoryBytes j.task) true i.now i.now2) h
    rwa [hs] at ha
  | sendWait j deadline =>
    simp only [step, hpc, Option.some.injEq] at hs
    have ha := sendAdmit_tidy i j (by rw [hpc]; rfl) _ _
      (waitLoop_waited p (sendTaskMemoryBytes j.task) true deadline i.now) h
    rwa [hs] at ha
  | push j start =>
    simp only [step, hpc, Option.some.injEq] at hs
    have hp := sendQueuePush_tidy i j start hpc h
    rwa [hs] at hp
  | unreserve j =>
    simp only [step, hpc, Option.some.injEq] at hs
    obtain ⟨rfl, rfl⟩ := Prod.mk.inj hs
    exact ⟨tidy_job (.drop j) j j (by rw [hpc]; rfl) rfl rfl h ⟨rfl, rfl, rfl, rfl⟩, trivial⟩
  | drop j =>
    simp only [step, hpc, Option.some.injEq] at hs
    obtain ⟨rfl, rfl⟩ := Prod.mk.inj hs
    exact ⟨drop_tidy j hpc hfit h, done_slow j w⟩
  | release bytes =>
    simp only [step, hpc, Option.some.injEq] at hs
    obtain ⟨rfl, rfl⟩ := Prod.mk.inj hs
    exact ⟨hplain _ _ (next_keys w (by rw [hpc]; rfl)) ⟨rfl, rfl, rfl, rfl⟩, next_slow w⟩
  | finish =>
    simp only [step, hpc, Option.some.injEq] at hs
    obtain ⟨rfl, rfl⟩ := Prod.mk.inj hs
    refine ⟨hplain _ _ ?_ ⟨rfl, rfl, rfl, rfl⟩, trivial⟩
    simp only [keys, jobs, hpc]
    rfl
  | exited => simp [step, hpc] at hs

end Worker

namespace Sender

/-- The task on its way from the send queue to the queue of its key. -/
def onWay : Pc → Option SendTask
  | .moving t | .pushing t => some t
  | _ => none

def keys (cfg : Config) (pc : Pc) : List CStr :=
  (onWay pc).toList.map fun t => cfg.normalizeHashKey t.hashKey

def Brings (cfg : Config) (R : CStr → Prop) (pc : Pc) (k : CStr) : Prop :=
  k ∈ keys cfg pc ∨ R k

/-- Fast senders push to no key queue. -/
def Slow (cfg : Config) : Pc → Prop
  | .pushing _ => cfg.fastSend = false
  | _ => True

theorem brings_free (pc pc' : Pc) (h : onWay pc = none) (k : CStr) (hk : Brings cfg R pc k) :
    Brings cfg R pc' k := by
  refine hk.imp (fun hm => ?_) id
  rw [keys, h] at hm
  simp at hm

theorem Aside.alike {p p' : Producer} (h : Aside p p') : Alike p p' := by
  obtain ⟨_, _, _, _, rfl⟩ := h
  exact ⟨rfl, rfl, rfl, rfl⟩

theorem top_tidy {p : Producer} (i : Input) (h : Tidy cfg R p) : Tidy cfg R (top i p).2 := by
  have hs := KeyMap.delayedPromoteDue_sound h.sound i.now
  have ht : Tightens cfg.toKeyConfig p.keys (KeyMap.delayedPromoteDue i.now p.keys) :=
    KeyMap.delayedPromoteDue_tightens i.now p.keys
  unfold top
  dsimp only
  split
  · exact h.tighten hs ht
  · rename_i q m hpop
    obtain ⟨hs', ht', hlive, hf, _⟩ := KeyMap.readyPop_sound hs q hpop
    have hpopped := ht.trans (KeyMap.readyPop_tightens hs q hpop)
    have hsound := KeyMap.keyQueuePopTask_sound hs' q (by rwa [ht'.live]) hf
    have htask := hpopped.trans (KeyMap.keyQueuePopTask_tightens q hf)
    split
    · rename_i m' he
      rw [he] at hsound htask
      exact h.tighten hsound htask
    · rename_i t m' he
      rw [he] at hsound htask
      exact h.tighten hsound htask

theorem top_slow (i : Input) (p : Producer) : Slow cfg (top i p).1 := by
  unfold top
  dsimp only
  split
  · trivial
  · split <;> trivial

/-- With fast senders there is no queue that would miss the batch. -/
theorem moving_tidy {p : Producer} (t : SendTask) (h : Tidy cfg (Brings cfg R (.moving t)) p) :
    Tidy cfg (Brings cfg R (if cfg.fastSend then .counting t else .pushing t))
      (moveSendTaskToInflight t p) ∧
      Slow cfg (if cfg.fastSend then .counting t else .pushing t) := by
  split
  · rename_i hf
    have hnone : Tidy cfg (Brings cfg R (.counting t)) p := by
      refine ⟨h.sound, ?_, h.named, h.ingress, h.idle, h.fast⟩
      intro q hq
      have hl := hq.live
      rw [h.fast hf] at hl
      simp at hl
    exact ⟨hnone.alike ⟨rfl, rfl, rfl, rfl⟩, trivial⟩
  · rename_i hf
    have hpush : Tidy cfg (Brings cfg R (.pushing t)) p := h.weaken fun _ hk => hk
    exact ⟨hpush.alike ⟨rfl, rfl, rfl, rfl⟩, by simpa [Slow] using hf⟩

/-- The first task leaves the send queue and is in the sender's hands. -/
theorem pop_tidy {p : Producer} {pc : Pc} (t : SendTask) (rest : List SendTask)
    (hq : p.sendQueue = t::rest) (hpc : onWay pc = none) (h : Tidy cfg (Brings cfg R pc) p) :
    Tidy cfg (Brings cfg R (.moving t)) { p with sendQueue := rest } := by
  refine h.mono rfl (fun _ ht => Or.inl ht) ?_
  intro k hc
  rcases hc with hc | hc | hc
  · exact Or.inl hc
  · rw [sendKeys, hq, List.map_cons, List.mem_cons] at hc
    rcases hc with hc | hc
    · exact Or.inr (Or.inr (Or.inl (by simp [keys, onWay, hc])))
    · exact Or.inr (Or.inl hc)
  · exact Or.inr (Or.inr (brings_free pc _ hpc k hc))

/-- Without a slack queue of its key a batch is not missed. -/
theorem retire {p : Producer} {V : CStr → Prop} (key : CStr) (h : Tidy cfg W p)
    (hno : ∀ q, Slack cfg.toKeyConfig p.keys q → (p.keys.info q).key ≠ key)
    (hw : ∀ k, k ≠ key → W k → V k) : Tidy cfg V p := by
  refine ⟨h.sound, ?_, h.named, h.ingress, h.idle, h.fast⟩
  intro q hq
  exact (h.used q hq).imp id fun hc => hc.imp id (Or.imp id (hw _ (hno q hq)))

theorem brings_pushing (t : SendTask) (pc : Pc) (k : CStr)
    (hk : k ≠ cfg.normalizeHashKey t.hashKey) (hc : Brings cfg R (.pushing t) k) :
    Brings cfg R pc k := by
  refine hc.imp (fun hm => ?_) id
  simp [keys, onWay, hk] at hm

/-- The task is now in the ring of its queue, or there is no queue. -/
theorem pushing_tidy {p : Producer} (i : Input) (t : SendTask)
    (ha : i.addr ∉ KeyMap.live cfg.toKeyConfig p.keys) (hf : cfg.fastSend = false)
    (h : Tidy cfg (Brings cfg R (.pushing t)) p) (pc : Pc) :
    Tidy cfg (Brings cfg R pc) (pushing cfg i t p).2 := by
  have hsound := KeyMap.keyQueuePushTask_sound h.sound i.addr (cfg.normalizeHashKey t.hashKey) t ha
  obtain ⟨hs, hspec⟩ :=
    KeyMap.keyQueueGetOrCreate_spec h.sound i.addr (cfg.normalizeHashKey t.hashKey) ha
  have hopen := h.opens hs
    (KeyMap.keyQueueGetOrCreate_opens h.sound i.addr (cfg.normalizeHashKey t.hashKey) ha) hf
  have hno := @keyQueueGetOrCreate_none cfg p.keys (cfg.normalizeHashKey t.hashKey) i.addr
  unfold pushing
  dsimp only
  unfold KeyMap.keyQueuePushTask at hsound ⊢
  split
  · rename_i m he
    rw [he] at hno hopen
    obtain ⟨hm, hlookup⟩ := hno rfl
    have hm' : m = p.keys := hm
    subst hm'
    apply retire (cfg.normalizeHashKey t.hashKey) h
    · intro q hq
      exact KeyMap.lookup_none h.sound.hashed _ hlookup q hq.live
    · exact brings_pushing t pc
  · rename_i q m he
    rw [he] at hspec hopen hsound
    obtain ⟨hlive, _, hkey⟩ := hspec q rfl
    have hpush := hopen.tighten (m := KeyMap.enqueue q t m) hsound (KeyMap.enqueue_tightens q t m)
    apply retire (cfg.normalizeHashKey t.hashKey) hpush
    · intro a hslack hk
      have ht := KeyMap.enqueue_touches q t m
      have haq : a = q := by
        apply hpush.sound.hashed.key a q hslack.live
        · change q ∈ KeyMap.live _ (KeyMap.enqueue q t m)
          rw [ht.live]
          exact hlive
        · rw [hk]
          exact (ht.key.trans hkey).symm
      subst haq
      have htasks := hslack.tasks
      change (KeyMap.enqueue a t m).tasks a = [] at htasks
      simp [KeyMap.enqueue_tasks] at htasks
    · rintro k hk (hc | hc)
      · exact brings_pushing t pc k hk hc
      · exact absurd hc hk

theorem cleanup_tidy {p : Producer} (i : Input) (h : Tidy cfg R p) :
    Tidy cfg R (idleCleanup cfg i p) := by
  unfold idleCleanup
  split
  · have hc := h.tighten (KeyMap.idleCleanup_sound h.sound i.now2)
      (KeyMap.idleCleanup_tightens h.sound i.now2)
    exact hc.alike ⟨rfl, rfl, rfl, rfl⟩
  · exact h

theorem keyResult_tidy {p : Producer} (i : Input) (q : Addr) (sent : Bool) (h : Tidy cfg R p) :
    Tidy cfg R (keyResult cfg i q sent p) := by
  unfold keyResult
  split
  · exact h
  · apply h.tighten
    · apply KeyMap.setInfo_sound h.sound
      intro k
      split <;> exact ⟨rfl, rfl, rfl, rfl, rfl, rfl, rfl⟩
    · apply KeyMap.setInfo_tightens
      · intro k
        split <;> exact ⟨rfl, rfl⟩
      · intro k
        split <;> rfl
      · intro k
        split <;> exact ⟨rfl, rfl⟩

theorem step_tidy {pc pc' : Pc} {p p' : Producer} (i : Input) (hslow : Slow cfg pc)
    (hq : ∀ q, queue pc = some q → Held cfg.toKeyConfig p.keys q)
    (h : Tidy cfg (Brings cfg R pc) p) (hs : step cfg i pc p = some (pc', p')) :
    Tidy cfg (Brings cfg R pc') p' ∧ Slow cfg pc' := by
  unfold step at hs
  split at hs
  · simp at hs
  · rename_i ha
    have hto : ∀ {q : Producer} (c : Pc), onWay pc = none → Tidy cfg (Brings cfg R pc) q →
        Tidy cfg (Brings cfg R c) q := fun c hn hT => hT.weaken (brings_free pc c hn)
    cases pc with
    | top =>
      obtain ⟨rfl, rfl⟩ := Prod.mk.inj (Option.some.inj hs)
      exact ⟨hto _ rfl (top_tidy i h), top_slow i p⟩
    | popSendQueue block =>
      simp only at hs
      unfold popSendQueue at hs
      split at hs
      · rename_i t rest hsend
        obtain ⟨rfl, rfl⟩ := Prod.mk.inj (Option.some.inj hs)
        exact ⟨pop_tidy t rest hsend rfl h, trivial⟩
      · split at hs
        · simp at hs
        · split at hs <;> obtain ⟨rfl, rfl⟩ := Prod.mk.inj (Option.some.inj hs) <;>
            exact ⟨hto _ rfl h, trivial⟩
    | moving t =>
      obtain ⟨rfl, rfl⟩ := Prod.mk.inj (Option.some.inj hs)
      exact moving_tidy t h
    | pushing t =>
      obtain ⟨rfl, rfl⟩ := Prod.mk.inj (Option.some.inj hs)
      refine ⟨pushing_tidy i t ha hslow h _, ?_⟩
      split <;> trivial
    | counting t =>
      obtain ⟨rfl, rfl⟩ := Prod.mk.inj (Option.some.inj hs)
      exact ⟨hto _ rfl (h.alike ⟨rfl, rfl, rfl, rfl⟩), trivial⟩
    | keyDrop t =>
      obtain ⟨rfl, rfl⟩ := Prod.mk.inj (Option.some.inj hs)
      exact ⟨hto _ rfl (h.alike ⟨rfl, rfl, rfl, rfl⟩), trivial⟩
    | dropRelease t =>
      obtain ⟨rfl, rfl⟩ := Prod.mk.inj (Option.some.inj hs)
      exact ⟨hto _ rfl (h.alike ⟨rfl, rfl, rfl, rfl⟩), trivial⟩
    | stopCheck =>
      have hs := Option.some.inj hs
      unfold stopCheck at hs
      split at hs
      · obtain ⟨rfl, rfl⟩ := Prod.mk.inj hs
        exact ⟨hto _ rfl h, trivial⟩
      · obtain ⟨rfl, rfl⟩ := Prod.mk.inj hs
        exact ⟨hto _ rfl (cleanup_tidy i h), trivial⟩
    | exitPop pending =>
      have hs := Option.some.inj hs
      unfold exitPop at hs
      split at hs
      · rename_i t rest hsend
        obtain ⟨rfl, rfl⟩ := Prod.mk.inj hs
        exact ⟨pop_tidy t rest hsend rfl h, trivial⟩
      · obtain ⟨rfl, rfl⟩ := Prod.mk.inj hs
        exact ⟨hto _ rfl h, trivial⟩
    | exitCheck pending =>
      have hs := Option.some.inj hs
      unfold exitCheck at hs
      split at hs
      · obtain ⟨rfl, rfl⟩ := Prod.mk.inj hs
        exact ⟨hto _ rfl (cleanup_tidy i h), trivial⟩
      · obtain ⟨rfl, rfl⟩ := Prod.mk.inj hs
        exact ⟨hto _ rfl h, trivial⟩
    | gate q s =>
      obtain ⟨rfl, rfl⟩ := Prod.mk.inj (Option.some.inj hs)
      refine ⟨hto _ rfl h, ?_⟩
      unfold gate
      dsimp only
      split
      · split <;> trivial
      · trivial
    | requeue q t next =>
      obtain ⟨rfl, rfl⟩ := Prod.mk.inj (Option.some.inj hs)
      have hheld := hq q rfl
      exact ⟨hto _ rfl (h.tighten (KeyMap.gateRequeue_sound h.sound q t next hheld.1 hheld.2)
        (KeyMap.gateRequeue_tightens q t next p.keys)), trivial⟩
    | breakerWait q s =>
      simp only at hs
      split at hs
      · simp at hs
      · obtain ⟨rfl, rfl⟩ := Prod.mk.inj (Option.some.inj hs)
        exact ⟨hto _ rfl h, trivial⟩
    | breakerEnter q s =>
      have hs := Option.some.inj hs
      unfold breakerEnter at hs
      split at hs
      · obtain ⟨rfl, rfl⟩ := Prod.mk.inj hs
        exact ⟨hto _ rfl h, trivial⟩
      · split at hs
        · obtain ⟨rfl, rfl⟩ := Prod.mk.inj hs
          exact ⟨hto _ rfl (h.alike ⟨rfl, rfl, rfl, rfl⟩), trivial⟩
        · obtain ⟨rfl, rfl⟩ := Prod.mk.inj hs
          exact ⟨hto _ rfl h, trivial⟩
    | attempt q s =>
      have hs := Option.some.inj hs
      unfold attempt at hs
      split at hs
      · obtain ⟨rfl, rfl⟩ := Prod.mk.inj hs
        exact ⟨hto _ rfl h, trivial⟩
      · obtain ⟨rfl, rfl⟩ := Prod.mk.inj hs
        exact ⟨hto _ rfl (h.alike ⟨rfl, rfl, rfl, rfl⟩), trivial⟩
      · obtain ⟨rfl, rfl⟩ := Prod.mk.inj hs
        refine ⟨hto _ rfl (h.alike ⟨rfl, rfl, rfl, rfl⟩), ?_⟩
        split
        · cases q <;> trivial
        · trivial
    | report q s sent =>
      obtain ⟨rfl, rfl⟩ := Prod.mk.inj (Option.some.inj hs)
      refine ⟨hto _ rfl (h.alike ⟨rfl, rfl, rfl, rfl⟩), ?_⟩
      cases q <;> trivial
    | breakerResult q s sent =>
      obtain ⟨rfl, rfl⟩ := Prod.mk.inj (Option.some.inj hs)
      exact ⟨hto _ rfl (h.alike (breakerResult_aside i s sent p).alike), trivial⟩
    | keyResult q t sent =>
      obtain ⟨rfl, rfl⟩ := Prod.mk.inj (Option.some.inj hs)
      exact ⟨hto _ rfl (keyResult_tidy i q sent h), trivial⟩
    | release q t =>
      obtain ⟨rfl, rfl⟩ := Prod.mk.inj (Option.some.inj hs)
      refine ⟨hto _ rfl (h.alike ⟨rfl, rfl, rfl, rfl⟩), ?_⟩
      cases q <;> trivial
    | finish q =>
      obtain ⟨rfl, rfl⟩ := Prod.mk.inj (Option.some.inj hs)
      have hheld := hq q rfl
      exact ⟨hto _ rfl (h.tighten (KeyMap.keyQueueFinish_sound h.sound i.now q hheld.1 hheld.2)
        (KeyMap.keyQueueFinish_tightens h.sound i.now q hheld)), trivial⟩
    | uncount =>
      obtain ⟨rfl, rfl⟩ := Prod.mk.inj (Option.some.inj hs)
      exact ⟨hto _ rfl (h.alike ⟨rfl, rfl, rfl, rfl⟩), trivial⟩
    | exited => simp at hs

end Sender

namespace Sys

variable {st : Setup}

/-- The keys of the batches in the hands of workers and senders. -/
def handKeys (st : Setup) (s : Sys) : List CStr :=
  (List.range st.cfg.workerCount).flatMap (fun i => Worker.keys st.cfg (s.workers i))++
    (List.range st.cfg.senderCount).flatMap fun i => Sender.keys st.cfg (s.senders i)

def OnTheWay (st : Setup) (s : Sys) (k : CStr) : Prop :=
  Coming st.cfg s.prod (· ∈ handKeys st s) k

theorem mem_handKeys (s : Sys) (k : CStr) : k ∈ handKeys st s ↔
    (∃ i < st.cfg.workerCount, k ∈ Worker.keys st.cfg (s.workers i)) ∨
      ∃ i < st.cfg.senderCount, k ∈ Sender.keys st.cfg (s.senders i) := by
  simp [handKeys]

/-- What the threads other than worker `i` have in their hands. -/
def besideWorker (st : Setup) (s : Sys) (i : ℕ) (k : CStr) : Prop :=
  (∃ j < st.cfg.workerCount, j ≠ i ∧ k ∈ Worker.keys st.cfg (s.workers j)) ∨
    ∃ j < st.cfg.senderCount, k ∈ Sender.keys st.cfg (s.senders j)

def besideSender (st : Setup) (s : Sys) (i : ℕ) (k : CStr) : Prop :=
  (∃ j < st.cfg.workerCount, k ∈ Worker.keys st.cfg (s.workers j)) ∨
    ∃ j < st.cfg.senderCount, j ≠ i ∧ k ∈ Sender.keys st.cfg (s.senders j)

theorem handKeys_worker (s : Sys) (i : ℕ) (hi : i < st.cfg.workerCount) (w : Worker) (p : Producer)
    (k : CStr) : k ∈ handKeys st (s.setWorker i (w, p)) ↔
      Worker.Brings st.cfg (besideWorker st s i) w k := by
  rw [mem_handKeys]
  constructor
  · rintro (⟨j, hj, hk⟩ | hk)
    · by_cases hji : j = i
      · subst hji
        simp only [setWorker, Function.update_self] at hk
        exact Or.inl hk
      · simp only [setWorker, Function.update_of_ne hji] at hk
        exact Or.inr (Or.inl ⟨j, hj, hji, hk⟩)
    · exact Or.inr (Or.inr hk)
  · rintro (hk | ⟨j, hj, hji, hk⟩ | hk)
    · exact Or.inl ⟨i, hi, by simpa only [setWorker, Function.update_self] using hk⟩
    · exact Or.inl ⟨j, hj, by simpa only [setWorker, Function.update_of_ne hji] using hk⟩
    · exact Or.inr hk

theorem handKeys_sender (s : Sys) (i : ℕ) (hi : i < st.cfg.senderCount) (pc : Sender.Pc)
    (p : Producer) (k : CStr) : k ∈ handKeys st (s.setSender i (pc, p)) ↔
      Sender.Brings st.cfg (besideSender st s i) pc k := by
  rw [mem_handKeys]
  constructor
  · rintro (hk | ⟨j, hj, hk⟩)
    · exact Or.inr (Or.inl hk)
    · by_cases hji : j = i
      · subst hji
        simp only [setSender, Function.update_self] at hk
        exact Or.inl hk
      · simp only [setSender, Function.update_of_ne hji] at hk
        exact Or.inr (Or.inr ⟨j, hj, hji, hk⟩)
  · rintro (hk | hk | ⟨j, hj, hji, hk⟩)
    · exact Or.inr ⟨i, hi, by simpa only [setSender, Function.update_self] using hk⟩
    · exact Or.inl hk
    · exact Or.inr ⟨j, hj, by simpa only [setSender, Function.update_of_ne hji] using hk⟩

theorem setWorker_self (s : Sys) (i : ℕ) : s.setWorker i (s.workers i, s.prod) = s := by
  simp [setWorker]

theorem setSender_self (s : Sys) (i : ℕ) : s.setSender i (s.senders i, s.prod) = s := by
  simp [setSender]

/-- The queue of the key is idle, or needed without the batch at hand. -/
def Spared (st : Setup) (s : Sys) (key : CStr) : Prop :=
  ∀ q ∈ KeyMap.live st.cfg.toKeyConfig s.prod.keys, (s.prod.keys.info q).key = key →
    (s.prod.keys.info q).idle = true ∨ s.prod.keys.tasks q ≠ [] ∨
      (s.prod.keys.info q).inflight = true ∨ builderLogs (s.prod.keys.info q).builder = true ∨
      OnTheWay st s key

def WorkerMeets (st : Setup) (s : Sys) (i : ℕ) : Worker.Pc → Prop
  | .top | .timed _ => s.prod.ingressQueue = [] ∨ st.cfg.fastBuilder = true ∨ st.cfg.fastSend = false
  | .drop j => Spared st (s.setWorker i (Worker.done j (s.workers i), s.prod))
      (st.cfg.normalizeHashKey j.task.hashKey)
  | _ => True

/-- What a step must meet: a log that opens the queue of a key is taken by
its builder, with fast senders no queue is opened at all, and a worker drops
a batch only if the queue of its key, if there is one, is idle or has
something else to wait for. -/
def Meets (st : Setup) (s : Sys) : Act → Prop
  | .writer i _ => Writer.Fits st.cfg s.prod (s.writers i).pc
  | .worker i _ => WorkerMeets st s i (s.workers i).pc
  | _ => True

instance decidableOnTheWay (s : Sys) (k : CStr) : Decidable (OnTheWay st s k) :=
  inferInstanceAs (Decidable (_ ∈ _ ∨ _ ∈ _ ∨ _ ∈ _))

instance decidableSpared (s : Sys) (key : CStr) : Decidable (Spared st s key) :=
  inferInstanceAs (Decidable (∀ q ∈ KeyMap.live st.cfg.toKeyConfig s.prod.keys, _ → _))

instance decidableWorkerMeets (s : Sys) (i : ℕ) (pc : Worker.Pc) :
    Decidable (WorkerMeets st s i pc) :=
  match pc with
  | .top | .timed _ => inferInstanceAs (Decidable (_ ∨ _ ∨ _))
  | .drop j => inferInstanceAs (Decidable (Spared st
      (s.setWorker i (Worker.done j (s.workers i), s.prod))
      (st.cfg.normalizeHashKey j.task.hashKey)))
  | .pop | .prepare _ | .scratchLock _ | .scratchWait _ _ | .compress _ | .keyReserve _
  | .sendLock _ | .sendWait _ _ | .push _ _ | .unreserve _ | .release _ | .finish | .exited =>
    isTrue trivial

instance decidableMeets (s : Sys) (a : Act) : Decidable (Meets st s a) :=
  match a with
  | .call _ _ | .sender _ _ => isTrue trivial
  | .writer i _ => inferInstanceAs (Decidable (Writer.Fits st.cfg s.prod (s.writers i).pc))
  | .worker i _ => inferInstanceAs (Decidable (WorkerMeets st s i (s.workers i).pc))

structure Slots (st : Setup) (s : Sys) : Prop where
  tidy : Tidy st.cfg (· ∈ handKeys st s) s.prod
  workers : ∀ i, Worker.Slow st.cfg (s.workers i).pc
  senders : ∀ i, Sender.Slow st.cfg (s.senders i)

theorem slots_start (st : Setup) : Slots st (start st) := by
  have hlive : KeyMap.live st.cfg.toKeyConfig (start st).prod.keys = [] := by
    simp [start, producerCreate, KeyMap.empty, KeyMap.live]
  refine ⟨⟨KeyMap.empty_sound _, ?_, ?_, ?_, ?_, fun _ => hlive⟩, fun i => trivial, ?_⟩
  · intro q hq
    have hl := hq.live
    rw [hlive] at hl
    simp at hl
  · rw [hlive]
    simp
  · intro t ht
    simp [start, producerCreate] at ht
  · intro q hq
    simp [start, producerCreate, KeyMap.empty, Keys.blank] at hq
  · intro i
    simp only [start, Sender.start]
    split <;> trivial

theorem fits_of_meets {s : Sys} (i : ℕ) (hi : i < st.cfg.workerCount) (input : Worker.Input)
    (hm : Meets st s (.worker i input)) :
    Worker.Fits st.cfg s.prod (besideWorker st s i) (s.workers i) := by
  simp only [Meets] at hm
  unfold Worker.Fits
  cases hpc : (s.workers i).pc with
  | top | timed b =>
    rw [hpc] at hm
    exact hm.resolve_left
  | drop j =>
    rw [hpc] at hm
    intro q hq hk
    rcases hm q hq.live hk with h | h | h | h | h
    · exact absurd h (by simpa [setWorker] using hq.idle)
    · exact absurd hq.tasks h
    · exact absurd h (by simpa [setWorker] using hq.inflight)
    · exact Or.inl h
    · right
      rw [hk]
      refine h.imp id (Or.imp id fun hw => ?_)
      exact (handKeys_worker s i hi _ s.prod _).mp hw
  | _ => trivial

theorem slots_step (s s' : Sys) (a : Act) (hgood : Good st s) (hi : Slots st s)
    (hm : Meets st s a) (h : step st s a = some s') : Slots st s' := by
  cases a with
  | call i c =>
    simp only [step] at h
    split at h
    · obtain ⟨r, hr, rfl⟩ := Option.map_eq_some_iff.mp h
      exact ⟨Writer.call_tidy st.me _ s.prod c r hi.tidy hr, hi.workers, hi.senders⟩
    · simp at h
  | writer i input =>
    simp only [step] at h
    split at h
    · obtain ⟨r, hr, rfl⟩ := Option.map_eq_some_iff.mp h
      exact ⟨Writer.go_tidy st.me _ input _ s.prod r hi.tidy hm hr, hi.workers, hi.senders⟩
    · simp at h
  | worker i input =>
    simp only [step] at h
    split at h
    · rename_i hlt
      obtain ⟨r, hr, rfl⟩ := Option.map_eq_some_iff.mp h
      have htidy : Tidy st.cfg (Worker.Brings st.cfg (besideWorker st s i) (s.workers i)) s.prod :=
        hi.tidy.weaken fun k hk =>
          (handKeys_worker s i hlt _ s.prod k).mp (by rwa [setWorker_self])
      obtain ⟨htidy', hslow⟩ := Worker.step_tidy input (hgood.workers i) (hi.workers i)
        (fits_of_meets i hlt input hm) htidy hr
      refine ⟨htidy'.weaken fun k hk => (handKeys_worker s i hlt r.1 r.2 k).mpr hk, ?_, hi.senders⟩
      exact forall_update (fun w => Worker.Slow st.cfg w.pc) s.workers i r.1 hi.workers hslow
    · simp at h
  | sender i input =>
    simp only [step] at h
    split at h
    · rename_i hlt
      obtain ⟨r, hr, rfl⟩ := Option.map_eq_some_iff.mp h
      have htidy : Tidy st.cfg (Sender.Brings st.cfg (besideSender st s i) (s.senders i)) s.prod :=
        hi.tidy.weaken fun k hk =>
          (handKeys_sender s i hlt _ s.prod k).mp (by rwa [setSender_self])
      obtain ⟨htidy', hslow⟩ := Sender.step_tidy input (hi.senders i)
        (fun q hq => (hgood.held q).mpr ⟨i, hlt, hq⟩) htidy hr
      refine ⟨htidy'.weaken fun k hk => (handKeys_sender s i hlt r.1 r.2 k).mpr hk, hi.workers, ?_⟩
      exact forall_update (Sender.Slow st.cfg) s.senders i r.1 hi.senders hslow
    · simp at h

/-- The sender is between two batches. -/
def resting : Sender.Pc → Bool
  | .top | .popSendQueue _ | .stopCheck | .exitPop _ | .exitCheck _ | .exited => true
  | _ => false

/-- No log is held in a builder, the sealed list, a worker, the send queue, a
key queue or a sender. -/
structure NoneHeld (st : Setup) (s : Sys) : Prop where
  defaultBuilder : builderLogs s.prod.defaultBuilder = false
  builders : ∀ q ∈ KeyMap.live st.cfg.toKeyConfig s.prod.keys,
    builderLogs (s.prod.keys.info q).builder = false
  sealedList : s.prod.sealedList = []
  workers : ∀ i < st.cfg.workerCount, Worker.jobs st.cfg (s.workers i) = []
  sendQueue : s.prod.sendQueue = []
  tasks : ∀ q ∈ KeyMap.live st.cfg.toKeyConfig s.prod.keys, s.prod.keys.tasks q = []
  senders : ∀ i < st.cfg.senderCount, resting (s.senders i) = true

/-- The queue of the key is needed: it has a task, a send in flight or logs,
or a batch of its key is on the way. -/
def Active (st : Setup) (s : Sys) (q : Addr) : Prop :=
  s.prod.keys.tasks q ≠ [] ∨ (s.prod.keys.info q).inflight = true ∨
    builderLogs (s.prod.keys.info q).builder = true ∨ OnTheWay st s (s.prod.keys.info q).key

/-- With no log held all queues of the map are idle, and there is none
without an idle time; and a key is refused only when the map is full of
queues that are active or idle. -/
structure SlotsBack (st : Setup) (s : Sys) : Prop where
  idle : NoneHeld st s → ∀ q ∈ KeyMap.live st.cfg.toKeyConfig s.prod.keys, q ∈ s.prod.keys.idle
  empty : NoneHeld st s → st.cfg.keyQueueIdleTtlMs ≤ 0 →
    KeyMap.live st.cfg.toKeyConfig s.prod.keys = []
  refused : ∀ addr key,
    (KeyMap.keyQueueGetOrCreate st.cfg.toKeyConfig addr key s.prod.keys).1 = none →
      st.cfg.keyQueueMaxActive > 0 ∧
      st.cfg.keyQueueMaxActive.toNat ≤ (KeyMap.live st.cfg.toKeyConfig s.prod.keys).length ∧
      ∀ q ∈ KeyMap.live st.cfg.toKeyConfig s.prod.keys, q ∈ s.prod.keys.idle ∨ Active st s q

theorem active_or_idle {s : Sys} (h : Slots st s) (q : Addr)
    (hq : q ∈ KeyMap.live st.cfg.toKeyConfig s.prod.keys) :
    q ∈ s.prod.keys.idle ∨ Active st s q := by
  rw [h.tidy.sound.listed.idle]
  by_cases hi : (s.prod.keys.info q).idle = true
  · exact Or.inl hi
  · right
    by_cases ht : s.prod.keys.tasks q = []
    · by_cases hf : (s.prod.keys.info q).inflight = true
      · exact Or.inr (Or.inl hf)
      · exact Or.inr (Or.inr (h.tidy.used q ⟨hq, by simpa using hi, ht, by simpa using hf⟩))
    · exact Or.inl ht

theorem not_active {s : Sys} (hgood : Good st s) (hn : NoneHeld st s) (q : Addr)
    (hq : q ∈ KeyMap.live st.cfg.toKeyConfig s.prod.keys) : ¬ Active st s q := by
  rintro (h | h | h | h | h | h)
  · exact h (hn.tasks q hq)
  · obtain ⟨i, hi, hqueue⟩ := (hgood.held q).mp ⟨hq, h⟩
    have hrest := hn.senders i hi
    cases hpc : s.senders i <;> simp_all [resting, Sender.queue]
  · simp [hn.builders q hq] at h
  · simp [sealedKeys, hn.sealedList] at h
  · simp [sendKeys, hn.sendQueue] at h
  · rcases (mem_handKeys s _).mp h with ⟨i, hi, hk⟩ | ⟨i, hi, hk⟩
    · simp [Worker.keys, hn.workers i hi] at hk
    · have hrest := hn.senders i hi
      cases hpc : s.senders i <;> simp_all [resting, Sender.keys, Sender.onWay]

theorem Slots.back {s : Sys} (hgood : Good st s) (h : Slots st s) : SlotsBack st s := by
  have hidle : NoneHeld st s → ∀ q ∈ KeyMap.live st.cfg.toKeyConfig s.prod.keys,
      q ∈ s.prod.keys.idle :=
    fun hn q hq => (active_or_idle h q hq).resolve_right (not_active hgood hn q hq)
  refine ⟨hidle, ?_, ?_⟩
  · intro hn httl
    apply List.eq_nil_iff_forall_not_mem.mpr
    intro q hq
    have := h.tidy.idle q ((h.tidy.sound.listed.idle q).mp (hidle hn q hq))
    omega
  · intro addr key hnone
    have hlimit : KeyMap.atLimit st.cfg.toKeyConfig s.prod.keys = true := by
      unfold KeyMap.keyQueueGetOrCreate at hnone
      split at hnone
      · simp at hnone
      · split at hnone
        · assumption
        · simp at hnone
    simp only [KeyMap.atLimit, Bool.and_eq_true, decide_eq_true_eq] at hlimit
    refine ⟨hlimit.1, ?_, active_or_idle h⟩
    rw [← h.tidy.sound.hashed.count]
    exact hlimit.2

instance decidableNoneHeld (s : Sys) : Decidable (NoneHeld st s) :=
  decidable_of_iff (builderLogs s.prod.defaultBuilder = false ∧
    (∀ q ∈ KeyMap.live st.cfg.toKeyConfig s.prod.keys,
      builderLogs (s.prod.keys.info q).builder = false) ∧ s.prod.sealedList = [] ∧
    (∀ i < st.cfg.workerCount, Worker.jobs st.cfg (s.workers i) = []) ∧ s.prod.sendQueue = [] ∧
    (∀ q ∈ KeyMap.live st.cfg.toKeyConfig s.prod.keys, s.prod.keys.tasks q = []) ∧
    ∀ i < st.cfg.senderCount, resting (s.senders i) = true)
    ⟨fun ⟨a, b, c, d, e, f, g⟩ => ⟨a, b, c, d, e, f, g⟩, fun ⟨a, b, c, d, e, f, g⟩ =>
      ⟨a, b, c, d, e, f, g⟩⟩

/-- One key with an idle time, and room for no other. -/
def oneSlot : Setup :=
  ⟨{ keyQueueBucketCount := 1, keyQueueMaxActive := 1, keyQueueIdleTtlMs := 5, orderedSend := true },
    1, 0⟩

def slotLog : Wire.KvLog := ⟨5, 0, false, [([65], [66])]⟩

/-- A log of a key is added, packed and sent, with the end of the send. -/
def sendKeyed : List Act :=
  [.call 0 (.addKv slotLog [75] true), .writer 0 ⟨1, 1, 9⟩]++
    List.replicate 8 (.worker 0 ⟨1, 1, [8], none, none⟩)++
    List.replicate 14 (.sender 0 ⟨1, 1, 8, none, .sent⟩)

/-- The same with fast senders, which are the default. -/
def fastKeyed : Setup := ⟨{ keyQueueBucketCount := 1, keyQueueMaxActive := 1 }, 1, 0⟩

def sendFast : List Act :=
  [.call 0 (.addKv slotLog [75] true), .writer 0 ⟨1, 1, 9⟩]++
    List.replicate 7 (.worker 0 ⟨1, 1, [8], none, none⟩)++
    List.replicate 7 (.sender 0 ⟨1, 1, 8, none, .sent⟩)

end Sys

end VeTls
