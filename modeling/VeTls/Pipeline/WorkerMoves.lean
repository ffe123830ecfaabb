import VeTls.Pipeline.WriterMoves

/-!
# What a worker can do

The moves of a worker, and what it has in its hands between them: the jobs
that are not in the send queue yet, in the order in which it will push them,
and the bytes it still has to give back.
-/

set_option autoImplicit false

namespace VeTls

open VeTls.Keys (Addr CStr KeyMap)
open VeTls.Keys.KeyMap (Keeps Sound)

variable {cfg : Config}

namespace Worker

def job : Pc → Option Job
  | .prepare job | .scratchLock job | .scratchWait job _ | .compress job | .keyReserve job
  | .sendLock job | .sendWait job _ | .push job _ | .unreserve job | .drop job => some job
  | _ => none

def flushing : Pc → Bool
  | .top | .timed _ | .exited => false
  | _ => true

def jobs (cfg : Config) (w : Worker) : List Batch :=
  (job w.pc).toList.map (fun j => j.task.batch)++w.sealedRest.map (sealedBatch cfg)

def pcBytes : Pc → ℕ
  | .release bytes => bytes
  | pc => ((job pc).bind Job.builderBytes).getD 0

def queueCharge (w : Worker) : ℕ :=
  pcBytes w.pc+(w.sealedRest.map fun s => s.builder.logsLen).sum

def sendCharge : Pc → ℕ
  | .push job _ | .unreserve job => sendTaskMemoryBytes job.task
  | _ => 0

/-- The two states have the same in their hands. -/
structure Same (cfg : Config) (w w' : Worker) : Prop where
  jobs : jobs cfg w' = jobs cfg w
  queueCharge : queueCharge w' = queueCharge w
  sendCharge : sendCharge w'.pc = sendCharge w.pc
  flushing : flushing w'.pc = flushing w.pc
  rest : w'.sealedRest <:+ w.sealedRest

/-- Between two rounds, and at the end of one, nothing is left to pack. -/
def Ok (w : Worker) : Prop :=
  match w.pc with
  | .top | .timed _ | .finish | .exited => w.sealedRest = []
  | _ => True

inductive Move (cfg : Config) : Worker × Producer → Worker × Producer → Prop
  | idle (w w' : Worker) (p p' : Producer) (hq : Quiet p p') (hs : Same cfg w w') :
      Move cfg (w, p) (w', p')
  | keyed (w : Worker) (p : Producer) (m : KeyMap SendTask Builder)
      (hk : Keeps cfg.toKeyConfig p.keys m) : Move cfg (w, p) (w, { p with keys := m })
  | skip (w : Worker) (p : Producer) (t : IngressTask) (rest : List IngressTask)
      (hi : p.ingressQueue = t::rest) (he : t.batch.logCount = 0 ∨ t.batch.logsLen = 0) :
      Move cfg (w, p) (w, ingressQueuePopLocked t rest p)
  | refuse (w : Worker) (p : Producer) (t : IngressTask) (rest : List IngressTask)
      (hi : p.ingressQueue = t::rest) :
      Move cfg (w, p) (w, dropRange t.batch.logsLen t.batch (ingressQueuePopLocked t rest p))
  | merge (w : Worker) (p p' : Producer) (t : IngressTask) (rest : List IngressTask)
      (old : Option Builder) (b : Builder) (hi : p.ingressQueue = t::rest)
      (hf : Fill cfg p p' old b)
      (he : Extends old t.batch.logs t.batch.logsLen t.batch.logCount b)
      (hd : mergeDefault cfg t.normKey = true → p'.keys = p.keys)
      (happ : ∃ key now, logBuilderAppend (stampFirst t now (opened old key now)) t.batch = some b) :
      Move cfg (w, p) (w, { ingressQueuePopLocked t rest p' with
        queueBytes := p.queueBytes+t.batch.logsLen })
  | begin (w : Worker) (p : Producer) (hf : flushing w.pc = false) (hr : w.sealedRest = []) :
      Move cfg (w, p) (⟨.pop, []⟩, beginFlush p)
  | sealUp (w : Worker) (p p' : Producer) (b : Builder) (hf : Fill cfg p p' (some b) b)
      (hk : KeyMap.builders cfg.toKeyConfig p.keys = [] →
        KeyMap.builders cfg.toKeyConfig p'.keys = []) :
      Move cfg (w, p) (w, p')
  | take (p : Producer) :
      Move cfg (⟨.pop, []⟩, p) (⟨.pop, (takeSealed cfg p).1⟩, (takeSealed cfg p).2)
  | rawPop (w : Worker) (p : Producer) (item : RawItem) (rest : List RawItem)
      (hpc : w.pc = .pop) (hi : p.queue = item::rest) :
      Move cfg (w, p) ({ w with pc := .prepare ⟨rawToSendTask item, none⟩ }, { p with
        queue := rest
        queueBytes := wrapSub p.queueBytes item.size
        taken := p.taken++[rawBatch item] })
  | scratchReserve (w w' : Worker) (p : Producer) (bytes : ℕ) (hs : Same cfg w w')
      (hsp : Space cfg p bytes true) :
      Move cfg (w, p) (w', { p with scratchBytes := p.scratchBytes+bytes })
  | scratchRelease (w w' : Worker) (p : Producer) (bytes : ℕ) (hs : Same cfg w w') :
      Move cfg (w, p) (w', releaseScratchBytes bytes p)
  | sendReserve (w : Worker) (p : Producer) (j : Job) (now : ℤ)
      (hpc : w.pc = .sendLock j ∨ ∃ d, w.pc = .sendWait j d)
      (hsp : Space cfg p (sendTaskMemoryBytes j.task) true) :
      Move cfg (w, p) ({ w with pc := .push j now },
        { p with sendQueueBytes := p.sendQueueBytes+sendTaskMemoryBytes j.task })
  | unreserve (w : Worker) (p : Producer) (j : Job) (hpc : w.pc = .unreserve j) :
      Move cfg (w, p) ({ w with pc := .drop j }, releaseSendQueueTaskBytes j.task p)
  | drop (w : Worker) (p : Producer) (j : Job) (hpc : w.pc = .drop j) :
      Move cfg (w, p) (done j w, dropTask j.task p)
  | release (w : Worker) (p : Producer) (bytes : ℕ) (hpc : w.pc = .release bytes) :
      Move cfg (w, p) (next cfg w, releaseQueueReservationLocked p bytes)
  | finish (w : Worker) (p : Producer) (hpc : w.pc = .finish) :
      Move cfg (w, p) ({ w with pc := .top }, endFlush p)

abbrev Moves (cfg : Config) : Worker × Producer → Worker × Producer → Prop :=
  Relation.ReflTransGen (Move cfg)

/-- The push to the send queue, apart from the other moves because the order
of the batches is decided by it. -/
def Push (a b : Worker × Producer) : Prop :=
  ∃ j start, a.1.pc = .push j start ∧
    b = (done j a.1, { a.2 with sendQueue := a.2.sendQueue++[j.task] })

theorem Moves.one {a b : Worker × Producer} (h : Move cfg a b) : Moves cfg a b :=
  Relation.ReflTransGen.single h

/-- A change of the place in the program that keeps the job. -/
theorem same_job (w : Worker) (pc : Pc) (j j' : Job) (hj : job w.pc = some j)
    (hj' : job pc = some j') (ht : j'.task.batch = j.task.batch)
    (hb : j'.builderBytes = j.builderBytes) (hs : sendCharge w.pc = 0) (hs' : sendCharge pc = 0) :
    Same cfg w { w with pc := pc } := by
  have hp : pcBytes pc = pcBytes w.pc := by
    cases pc <;> cases hpc : w.pc <;> simp_all [pcBytes, job]
  have hf : ∀ c : Pc, ∀ k, job c = some k → flushing c = true := by
    intro c k hc
    cases c <;> simp_all [job, flushing]
  refine ⟨?_, ?_, ?_, ?_, List.suffix_rfl⟩
  · simp only [jobs, hj, hj', Option.toList_some, List.map_cons, List.map_nil, ht]
  · simp only [queueCharge, hp]
  · rw [hs, hs']
  · rw [hf pc j' hj', hf w.pc j hj]

theorem append_extends (p : Producer) (t : IngressTask) (slot : Slot) (key : CStr) (now : ℤ)
    (b : Builder)
    (h : logBuilderAppend (stampFirst t now (openBuilder p slot key now)) t.batch = some b) :
    Extends (slotBuilder p slot) t.batch.logs t.batch.logsLen t.batch.logCount b ∧
      b.logsLen-(stampFirst t now (openBuilder p slot key now)).logsLen = t.batch.logsLen := by
  have hopen := Writer.openBuilder_extends p slot key now
  have hstamp : ∀ x : Builder, (stampFirst t now x).logs = x.logs ∧
      (stampFirst t now x).logsLen = x.logsLen ∧ (stampFirst t now x).logCount = x.logCount := by
    intro x
    unfold stampFirst
    split <;> simp
  obtain ⟨hl, hn, hc⟩ := hstamp (openBuilder p slot key now)
  unfold logBuilderAppend at h
  split at h
  · simp at h
  · obtain rfl := Option.some.inj h
    refine ⟨⟨?_, ?_, ?_⟩, by simp⟩
    · simp [hl, hopen.logs]
    · simp [hn, hopen.logsLen]
    · simp [hc, hopen.logCount]

/-- A batch with logs can always be appended. -/
theorem append_some (b tb : Builder) (h : ¬ (tb.logCount = 0 ∨ tb.logsLen = 0)) :
    ∃ b', logBuilderAppend b tb = some b' := by
  have hn : ¬ (tb.logsLen = 0 ∨ tb.logCount = 0) := fun hc => h hc.symm
  exact ⟨_, if_neg hn⟩

theorem findSlot_popped (p : Producer) (t : IngressTask) (rest : List IngressTask)
    (useDefault : Bool) (key : CStr) (addr : Addr) :
    findSlot cfg (ingressQueuePopLocked t rest p) useDefault key addr =
      ((findSlot cfg p useDefault key addr).1,
        ingressQueuePopLocked t rest (findSlot cfg p useDefault key addr).2) := by
  unfold findSlot
  split <;> rfl

theorem storeBuilder_popped (flush : Bool) (slot : Slot) (b : Builder) (t : IngressTask)
    (rest : List IngressTask) (p : Producer) (x : ℕ) :
    storeBuilder cfg flush slot b { ingressQueuePopLocked t rest p with queueBytes := x } =
      { ingressQueuePopLocked t rest (storeBuilder cfg flush slot b p) with queueBytes := x } := by
  unfold storeBuilder
  cases slot with
  | default => split <;> rfl
  | key q => split <;> rfl

/-- One round of the merge loop, from a sound key map to a sound key map. -/
theorem mergeOne_moves (now : ℤ) (t : IngressTask) (rest : List IngressTask) (addr : Addr)
    (w : Worker) (p : Producer) (hs : Sound cfg.toKeyConfig p.keys)
    (ha : addr ∉ KeyMap.live cfg.toKeyConfig p.keys) (hi : p.ingressQueue = t::rest) :
    Moves cfg (w, p) (w, mergeOne cfg now t rest addr p) ∧
      Sound cfg.toKeyConfig (mergeOne cfg now t rest addr p).keys ∧
      (mergeOne cfg now t rest addr p).ingressQueue = rest := by
  unfold mergeOne ingressTaskMergeLocked
  split
  · rename_i p' he
    split at he
    · rename_i hempty
      have hp : ingressQueuePopLocked t rest p = p' := (Prod.mk.inj he).2
      rw [← hp]
      exact ⟨Moves.one (.skip w p t rest hi hempty), hs, rfl⟩
    · rename_i hne
      obtain ⟨m, hm, hk, hslot⟩ := findSlot_keeps p hs (mergeDefault cfg t.normKey) t.normKey addr
        ha
      rw [findSlot_popped, hm] at he
      cases hf : (findSlot cfg p (mergeDefault cfg t.normKey) t.normKey addr).1 with
      | none => simp [hf] at he
      | some slot =>
        have hopen : openBuilder (ingressQueuePopLocked t rest { p with keys := m }) slot t.normKey
            now = openBuilder { p with keys := m } slot t.normKey now := by cases slot <;> rfl
        simp only [hf, hopen, mergeInto] at he
        cases happ : logBuilderAppend
            (stampFirst t now (openBuilder { p with keys := m } slot t.normKey now)) t.batch with
        | none => simp [happ] at he
        | some b =>
          obtain ⟨hext, hdelta⟩ := append_extends { p with keys := m } t slot t.normKey now b happ
          simp only [happ, hdelta, Prod.mk.injEq, true_and] at he
          have hfill := storeBuilder_fill t.forceFlush slot b { p with keys := m } hk.sound
            (hslot slot hf).1 (hslot slot hf).2
          have hp' : p' = { ingressQueuePopLocked t rest
              (storeBuilder cfg t.forceFlush slot b { p with keys := m }) with
              queueBytes := p.queueBytes+t.batch.logsLen } := by
            rw [← he]
            exact storeBuilder_popped t.forceFlush slot b t rest { p with keys := m } _
          have hdef : mergeDefault cfg t.normKey = true →
              (storeBuilder cfg t.forceFlush slot b { p with keys := m }).keys = m := by
            intro hd
            rw [hd] at hf
            obtain rfl : Slot.default = slot := by simpa [findSlot] using hf
            unfold storeBuilder
            split <;> rfl
          rw [hp']
          refine ⟨(Moves.one (.keyed w p m hk)).trans (Moves.one
            (.merge w { p with keys := m } _ t rest _ b hi hfill hext hdef
              ⟨t.normKey, now, happ⟩)), hfill.keys.sound, rfl⟩
  · rename_i p' he
    split at he
    · simp at he
    · rename_i hne
      obtain ⟨m, hm, hk, hslot⟩ := findSlot_keeps p hs (mergeDefault cfg t.normKey) t.normKey addr
        ha
      rw [findSlot_popped, hm] at he
      cases hf : (findSlot cfg p (mergeDefault cfg t.normKey) t.normKey addr).1 with
      | none =>
        simp only [hf, Prod.mk.injEq, true_and] at he
        rw [← he]
        exact ⟨(Moves.one (.keyed w p m hk)).trans
          (Moves.one (.refuse w { p with keys := m } t rest hi)), hk.sound, rfl⟩
      | some slot =>
        obtain ⟨b, hb⟩ := append_some (stampFirst t now (openBuilder
          (ingressQueuePopLocked t rest { p with keys := m }) slot t.normKey now)) t.batch hne
        simp [hf, mergeInto, hb] at he

theorem mergeAll_moves (now : ℤ) (l : List IngressTask) (addrs : List Addr) (w : Worker)
    (p p' : Producer) (hs : Sound cfg.toKeyConfig p.keys) (hi : p.ingressQueue = l)
    (h : mergeAll cfg now l addrs p = some p') :
    Moves cfg (w, p) (w, p') ∧ Sound cfg.toKeyConfig p'.keys ∧ p'.ingressQueue = [] := by
  induction l generalizing addrs p with
  | nil =>
    have hp : p = p' := by simpa [mergeAll] using h
    rw [← hp]
    exact ⟨Relation.ReflTransGen.refl, hs, hi⟩
  | cons t rest ih =>
    cases addrs with
    | nil => simp [mergeAll] at h
    | cons a addrs =>
      rw [mergeAll] at h
      split at h
      · simp at h
      · rename_i ha
        obtain ⟨hm, hs', hi'⟩ := mergeOne_moves now t rest a w p hs ha hi
        obtain ⟨hm', hs'', hi''⟩ := ih addrs _ hs' hi' h
        exact ⟨hm.trans hm', hs'', hi''⟩

theorem sealSlot_builders (p : Producer) (slot : Slot) (b : Builder)
    (h : KeyMap.builders cfg.toKeyConfig p.keys = []) :
    KeyMap.builders cfg.toKeyConfig (sealSlot slot b p).keys = [] := by
  cases slot with
  | default => exact h
  | key q =>
    simp only [KeyMap.builders, List.filterMap_eq_nil_iff] at h ⊢
    intro a ha
    by_cases he : a = q
    · subst he
      simp [sealSlot, setSlot]
    · simp only [sealSlot, setSlot, KeyMap.setInfo_other q a _ _ he]
      exact h a ha

theorem sealDue_moves (flushAll : Bool) (now : ℤ) (w : Worker) (p : Producer) (slot : Slot)
    (hs : Sound cfg.toKeyConfig p.keys) (hslot : SlotOk cfg p slot) :
    Moves cfg (w, p) (w, sealDue cfg flushAll now p slot) ∧
      Shelved cfg p.keys (sealDue cfg flushAll now p slot).keys := by
  unfold sealDue
  cases hb : slotBuilder p slot with
  | none => exact ⟨Relation.ReflTransGen.refl, Shelved.refl hs⟩
  | some b =>
    dsimp only
    split
    · have hf := sealSlot_fill p hs slot hslot b
      rw [hb] at hf
      exact ⟨Moves.one (.sealUp w p _ b hf (sealSlot_builders p slot b)), hf.keys⟩
    · exact ⟨Relation.ReflTransGen.refl, Shelved.refl hs⟩

theorem sealDue_live (flushAll : Bool) (now : ℤ) (p : Producer) (slot : Slot) :
    KeyMap.live cfg.toKeyConfig (sealDue cfg flushAll now p slot).keys =
      KeyMap.live cfg.toKeyConfig p.keys := by
  unfold sealDue
  split
  · rfl
  · split
    · cases slot <;> rfl
    · rfl

theorem sealAll_moves (flushAll : Bool) (now : ℤ) (w : Worker) (p : Producer)
    (hs : Sound cfg.toKeyConfig p.keys) :
    Moves cfg (w, p) (w, sealAll cfg flushAll now p) := by
  have hgo : ∀ (l : List Slot) (p : Producer), Sound cfg.toKeyConfig p.keys →
      (∀ s ∈ l, SlotOk cfg p s) →
      Moves cfg (w, p) (w, l.foldl (sealDue cfg flushAll now) p) := by
    intro l
    induction l with
    | nil => exact fun p _ _ => Relation.ReflTransGen.refl
    | cons s l ih =>
      intro p hs hok
      obtain ⟨hm, hk⟩ := sealDue_moves flushAll now w p s hs (hok s (by simp))
      refine hm.trans (ih _ hk.sound ?_)
      intro x hx
      have hx' := hok x (by simp [hx])
      cases x with
      | default => trivial
      | key q =>
        unfold SlotOk at hx' ⊢
        dsimp only at hx' ⊢
        rwa [sealDue_live]
  refine hgo (slots cfg p) p hs ?_
  intro s hmem
  simp only [slots, List.mem_cons, List.mem_map] at hmem
  rcases hmem with rfl | ⟨q, hq, rfl⟩
  · trivial
  · exact hq

theorem body_moves (i : Input) (haveAny haveIngress : Bool) (w w' : Worker) (p p' : Producer)
    (hs : Sound cfg.toKeyConfig p.keys) (hf : flushing w.pc = false) (hr : w.sealedRest = [])
    (h : body cfg i haveAny haveIngress w p = some (w', p')) : Moves cfg (w, p) (w', p') := by
  unfold body at h
  split at h
  · rw [← Option.some.inj h]
    refine Moves.one (.idle w _ p p (Quiet.refl p) ⟨?_, ?_, ?_, hf.symm, List.suffix_rfl⟩)
    · cases hpc : w.pc <;> simp_all [jobs, job, flushing]
    · cases hpc : w.pc <;> simp_all [queueCharge, pcBytes, job, flushing]
    · cases hpc : w.pc <;> simp_all [sendCharge, flushing]
  · cases hm : mergeAll cfg i.now p.ingressQueue i.addrs p with
    | none => simp [hm] at h
    | some p₁ =>
      obtain ⟨hmoves, hs₁, _⟩ := mergeAll_moves i.now _ i.addrs w p p₁ hs rfl hm
      simp only [hm, Option.bind_eq_bind, Option.bind_some, Option.some.injEq] at h
      rw [← h]
      refine hmoves.trans ((Moves.one (.begin w p₁ hf hr)).trans ?_)
      exact (sealAll_moves _ i.now2 _ (beginFlush p₁) hs₁).trans (Moves.one (.take _))

/-- The next builder becomes the job; before, it headed the rest. -/
theorem next_same (w : Worker) : Same cfg { w with pc := .pop } (next cfg w) := by
  unfold next
  split
  · exact ⟨by simp [jobs, job], by simp [queueCharge, pcBytes, job], rfl, rfl, List.suffix_rfl⟩
  · rename_i s rest hr
    refine ⟨?_, ?_, rfl, rfl, ⟨[s], hr.symm⟩⟩
    · simp [jobs, hr, job, SendTask.batch, builderToSendTask, sealedBatch]
    · simp [queueCharge, hr, pcBytes, job]

theorem pop_moves (w : Worker) (p : Producer) (hpc : w.pc = .pop) :
    Moves cfg (w, p) (pop cfg w p) := by
  unfold pop
  cases hq : p.queue with
  | nil =>
    have hw : w = { w with pc := .pop } := by rw [← hpc]
    refine Moves.one (.idle w _ p p (Quiet.refl p) ?_)
    have hs := @next_same cfg w
    rwa [← hw] at hs
  | cons item rest => exact Moves.one (.rawPop w p item rest hpc hq)

theorem prepared_same (w : Worker) (j j' : Job) (hj : job w.pc = some j)
    (ht : j'.task.batch = j.task.batch) (hb : j'.builderBytes = j.builderBytes)
    (hs : sendCharge w.pc = 0) : Same cfg w { w with pc := prepared cfg j' } := by
  unfold prepared
  split
  · exact same_job w _ j j' hj rfl ht hb hs rfl
  · split
    · exact same_job w _ j j' hj rfl ht hb hs rfl
    · exact same_job w _ j j' hj rfl ht hb hs rfl

theorem prepare_same (i : Input) (w : Worker) (j : Job) (hj : job w.pc = some j)
    (hs : sendCharge w.pc = 0) : Same cfg w { w with pc := prepare cfg i j } := by
  unfold prepare
  split
  · exact same_job w _ j j hj rfl rfl rfl hs rfl
  · split
    · exact prepared_same w j j hj rfl rfl hs
    · split
      · split
        · exact prepared_same w j _ hj rfl rfl hs
        · exact same_job w _ j j hj rfl rfl rfl hs rfl
      · exact same_job w _ j j hj rfl rfl rfl hs rfl

theorem compressDone_same (i : Input) (w : Worker) (j : Job) (hj : job w.pc = some j)
    (hs : sendCharge w.pc = 0) : Same cfg w { w with pc := compressDone cfg i j } := by
  unfold compressDone
  split
  · split
    · exact prepared_same w j _ hj rfl rfl hs
    · exact same_job w _ j j hj rfl rfl rfl hs rfl
  · exact same_job w _ j j hj rfl rfl rfl hs rfl

theorem scratchAdmit_moves (w : Worker) (p : Producer) (j : Job) (r : Wait × Producer)
    (hw : Waited cfg p (compressScratchBound j.task.bodySize) true r) (hj : job w.pc = some j)
    (hs : sendCharge w.pc = 0) : Moves cfg (w, p) (scratchAdmit j w r) := by
  have hsame : ∀ pc, job pc = some j → sendCharge pc = 0 → Same cfg w { w with pc := pc } :=
    fun pc h h' => same_job w pc j j hj h rfl rfl hs h'
  obtain ⟨a, p'⟩ := r
  cases a with
  | block d => exact Moves.one (.idle w _ p p' hw.quiet (hsame _ rfl rfl))
  | rc rc =>
    cases rc with
    | ok =>
      obtain ⟨he, hsp⟩ := hw.ok rfl
      have hp : p' = p := he
      subst hp
      exact Moves.one (.scratchReserve w _ p' _ (hsame _ rfl rfl) hsp)
    | full => exact Moves.one (.idle w _ p p' hw.quiet (hsame _ rfl rfl))
    | closed => exact Moves.one (.idle w _ p p' hw.quiet (hsame _ rfl rfl))
    | timeout => exact Moves.one (.idle w _ p p' hw.quiet (hsame _ rfl rfl))

theorem sendAdmit_moves (i : Input) (w : Worker) (p : Producer) (j : Job) (r : Wait × Producer)
    (hw : Waited cfg p (sendTaskMemoryBytes j.task) true r)
    (hpc : w.pc = .sendLock j ∨ ∃ d, w.pc = .sendWait j d) :
    Moves cfg (w, p) (sendAdmit i j w r) := by
  have hj : job w.pc = some j ∧ sendCharge w.pc = 0 := by
    rcases hpc with h | ⟨d, h⟩ <;> (rw [h]; exact ⟨rfl, rfl⟩)
  have hsame : ∀ pc, job pc = some j → sendCharge pc = 0 → Same cfg w { w with pc := pc } :=
    fun pc h h' => same_job w pc j j hj.1 h rfl rfl hj.2 h'
  obtain ⟨a, p'⟩ := r
  cases a with
  | block d => exact Moves.one (.idle w _ p p' hw.quiet (hsame _ rfl rfl))
  | rc rc =>
    cases rc with
    | ok =>
      obtain ⟨he, hsp⟩ := hw.ok rfl
      have hp : p' = p := he
      subst hp
      exact Moves.one (.sendReserve w p' j i.now hpc hsp)
    | full => exact Moves.one (.idle w _ p p' hw.quiet (hsame _ rfl rfl))
    | closed => exact Moves.one (.idle w _ p p' hw.quiet (hsame _ rfl rfl))
    | timeout => exact Moves.one (.idle w _ p p' hw.quiet (hsame _ rfl rfl))

theorem unreserve_same (w : Worker) (j : Job) (start : ℤ) (hpc : w.pc = .push j start) :
    Same cfg w { w with pc := .unreserve j } :=
  ⟨by simp [jobs, hpc, job], by simp [queueCharge, hpc, pcBytes, job], by
    simp [hpc, sendCharge], by simp [hpc, flushing], List.suffix_rfl⟩

theorem sendQueuePush_moves (i : Input) (w : Worker) (p : Producer) (j : Job) (start : ℤ)
    (hpc : w.pc = .push j start) :
    Moves cfg (w, p) (sendQueuePush cfg i j start w p) ∨
      Push (w, p) (sendQueuePush cfg i j start w p) := by
  have back : Moves cfg (w, p) ({ w with pc := .unreserve j }, p) :=
    Moves.one (.idle w _ p p (Quiet.refl p) (unreserve_same w j start hpc))
  unfold sendQueuePush
  split
  · exact Or.inl back
  · split
    · dsimp only
      split
      · exact Or.inl back
      · split
        · exact Or.inl back
        · exact Or.inl Relation.ReflTransGen.refl
    · exact Or.inr ⟨j, start, hpc, rfl⟩

theorem keyReserve_moves (addr : Addr) (w : Worker) (p : Producer) (j : Job)
    (hpc : w.pc = .keyReserve j) (hs : Sound cfg.toKeyConfig p.keys)
    (ha : addr ∉ KeyMap.live cfg.toKeyConfig p.keys) :
    Moves cfg (w, p) (keyReserve cfg addr j w p) := by
  unfold keyReserve
  dsimp only
  refine (Moves.one (.keyed w p _ (KeyMap.keyQueueReserve_keeps hs addr
    (cfg.normalizeHashKey j.task.hashKey) ha))).trans ?_
  refine Moves.one (.idle w _ _ _ (Quiet.refl _) ?_)
  split
  · exact same_job w _ j j (by rw [hpc]; rfl) rfl rfl rfl (by rw [hpc]; rfl) rfl
  · exact same_job w _ j j (by rw [hpc]; rfl) rfl rfl rfl (by rw [hpc]; rfl) rfl

/-- Every step of a worker is a sequence of moves, or its push. -/
theorem step_moves (i : Input) (w w' : Worker) (p p' : Producer) (hok : Ok w)
    (hs : Sound cfg.toKeyConfig p.keys) (h : step cfg i w p = some (w', p')) :
    Moves cfg (w, p) (w', p') ∨ Push (w, p) (w', p') := by
  unfold step at h
  cases hpc : w.pc with
  | top =>
    left
    simp only [hpc, top] at h
    have hf : flushing w.pc = false := by rw [hpc]; rfl
    have hr : w.sealedRest = [] := by simpa [Ok, hpc] using hok
    have hwait : ∀ b, Same cfg w { w with pc := .timed b } := fun b =>
      ⟨by simp [jobs, hpc, job], by simp [queueCharge, hpc, pcBytes, job], by
        simp [hpc, sendCharge], by simp [hpc, flushing], List.suffix_rfl⟩
    split at h
    · split at h
      · simp at h
      · split at h
        · split at h
          · rw [← Option.some.inj h]
            exact Moves.one (.idle w _ p p (Quiet.refl p) (hwait _))
          · exact body_moves i _ _ w w' p p' hs hf hr h
        · rw [← Option.some.inj h]
          exact Moves.one (.idle w _ p p (Quiet.refl p) (hwait _))
    · exact body_moves i _ _ w w' p p' hs hf hr h
  | timed haveIngress =>
    left
    simp only [hpc] at h
    exact body_moves i _ _ w w' p p' hs (by rw [hpc]; rfl) (by simpa [Ok, hpc] using hok) h
  | pop =>
    left
    simp only [hpc, Option.some.injEq] at h
    rw [← h]
    exact pop_moves w p hpc
  | prepare j =>
    left
    simp only [hpc, Option.some.injEq] at h
    rw [← h]
    exact Moves.one (.idle w _ p p (Quiet.refl p)
      (prepare_same i w j (by rw [hpc]; rfl) (by rw [hpc]; rfl)))
  | scratchLock j =>
    left
    simp only [hpc] at h
    split at h
    · rw [← Option.some.inj h]
      exact Moves.one (.idle w _ p p (Quiet.refl p)
        (same_job w _ j j (by rw [hpc]; rfl) rfl rfl rfl (by rw [hpc]; rfl) rfl))
    · rw [← Option.some.inj h]
      exact scratchAdmit_moves w p j _ (waitBufferSpaceLocked_waited p _ true i.now i.now2)
        (by rw [hpc]; rfl) (by rw [hpc]; rfl)
  | scratchWait j deadline =>
    left
    simp only [hpc, Option.some.injEq] at h
    rw [← h]
    exact scratchAdmit_moves w p j _ (waitLoop_waited p _ true deadline i.now)
      (by rw [hpc]; rfl) (by rw [hpc]; rfl)
  | compress j =>
    left
    simp only [hpc, Option.some.injEq] at h
    rw [← h]
    exact Moves.one (.scratchRelease w _ p _
      (compressDone_same i w j (by rw [hpc]; rfl) (by rw [hpc]; rfl)))
  | keyReserve j =>
    left
    simp only [hpc] at h
    split at h
    · simp at h
    · split at h
      · simp at h
      · rename_i ha
        rw [← Option.some.inj h]
        exact keyReserve_moves _ w p j hpc hs ha
  | sendLock j =>
    left
    simp only [hpc, Option.some.injEq] at h
    rw [← h]
    exact sendAdmit_moves i w p j _ (waitBufferSpaceLocked_waited p _ true i.now i.now2)
      (Or.inl hpc)
  | sendWait j deadline =>
    left
    simp only [hpc, Option.some.injEq] at h
    rw [← h]
    exact sendAdmit_moves i w p j _ (waitLoop_waited p _ true deadline i.now)
      (Or.inr ⟨deadline, hpc⟩)
  | push j start =>
    simp only [hpc, Option.some.injEq] at h
    rw [← h]
    exact sendQueuePush_moves i w p j start hpc
  | unreserve j =>
    left
    simp only [hpc, Option.some.injEq] at h
    rw [← h]
    exact Moves.one (.unreserve w p j hpc)
  | drop j =>
    left
    simp only [hpc, Option.some.injEq] at h
    rw [← h]
    exact Moves.one (.drop w p j hpc)
  | release bytes =>
    left
    simp only [hpc, Option.some.injEq] at h
    rw [← h]
    exact Moves.one (.release w p bytes hpc)
  | finish =>
    left
    simp only [hpc, Option.some.injEq] at h
    rw [← h]
    exact Moves.one (.finish w p hpc)
  | exited => simp [hpc] at h

theorem next_ok (w : Worker) : Ok (next cfg w) := by
  unfold next
  split
  · assumption
  · trivial

theorem body_ok (i : Input) (haveAny haveIngress : Bool) (w w' : Worker) (p p' : Producer)
    (hr : w.sealedRest = []) (h : body cfg i haveAny haveIngress w p = some (w', p')) : Ok w' := by
  unfold body at h
  split at h
  · obtain ⟨rfl, _⟩ := Prod.mk.inj (Option.some.inj h)
    exact hr
  · cases hm : mergeAll cfg i.now p.ingressQueue i.addrs p with
    | none => simp [hm] at h
    | some p₁ =>
      simp only [hm, Option.bind_eq_bind, Option.bind_some, Option.some.injEq, Prod.mk.injEq] at h
      rw [← h.1]
      trivial

theorem top_ok (i : Input) (w w' : Worker) (p p' : Producer) (hr : w.sealedRest = [])
    (h : top cfg i w p = some (w', p')) : Ok w' := by
  unfold top at h
  dsimp only at h
  have timed : ∀ b, Ok { w with pc := .timed b } := fun _ => hr
  split at h
  · split at h
    · simp at h
    · split at h
      · split at h
        · obtain ⟨rfl, _⟩ := Prod.mk.inj (Option.some.inj h)
          exact timed _
        · exact body_ok i _ _ w w' p p' hr h
      · obtain ⟨rfl, _⟩ := Prod.mk.inj (Option.some.inj h)
        exact timed _
  · exact body_ok i _ _ w w' p p' hr h

theorem done_ok (j : Job) (w : Worker) : Ok (done j w) := by
  unfold done
  split <;> trivial

theorem prepared_ok (j : Job) (w : Worker) : Ok { w with pc := prepared cfg j } := by
  unfold prepared
  split
  · trivial
  · split <;> trivial

theorem prepare_ok (i : Input) (j : Job) (w : Worker) : Ok { w with pc := prepare cfg i j } := by
  unfold prepare
  split
  · trivial
  · split
    · exact prepared_ok j w
    · split
      · split
        · exact prepared_ok _ w
        · trivial
      · trivial

theorem compressDone_ok (i : Input) (j : Job) (w : Worker) :
    Ok { w with pc := compressDone cfg i j } := by
  unfold compressDone
  split
  · split
    · exact prepared_ok _ w
    · trivial
  · trivial

theorem scratchAdmit_ok (j : Job) (w : Worker) (r : Wait × Producer) :
    Ok (scratchAdmit j w r).1 := by
  unfold scratchAdmit
  split <;> trivial

theorem sendAdmit_ok (i : Input) (j : Job) (w : Worker) (r : Wait × Producer) :
    Ok (sendAdmit i j w r).1 := by
  unfold sendAdmit
  split <;> trivial

theorem sendQueuePush_ok (i : Input) (j : Job) (start : ℤ) (w : Worker) (p : Producer)
    (h : Ok w) : Ok (sendQueuePush cfg i j start w p).1 := by
  unfold sendQueuePush
  split
  · trivial
  · split
    · dsimp only
      split
      · trivial
      · split
        · trivial
        · exact h
    · exact done_ok j w

theorem keyReserve_ok (addr : Addr) (j : Job) (w : Worker) (p : Producer) :
    Ok (keyReserve cfg addr j w p).1 := by
  unfold keyReserve
  dsimp only
  split <;> trivial

theorem step_ok (i : Input) (w w' : Worker) (p p' : Producer) (hok : Ok w)
    (h : step cfg i w p = some (w', p')) : Ok w' := by
  unfold step at h
  cases hpc : w.pc with
  | top =>
    simp only [hpc] at h
    exact top_ok i w w' p p' (by simpa [Ok, hpc] using hok) h
  | timed haveIngress =>
    simp only [hpc] at h
    exact body_ok i _ _ w w' p p' (by simpa [Ok, hpc] using hok) h
  | pop =>
    simp only [hpc, pop] at h
    split at h
    · obtain ⟨rfl, _⟩ := Prod.mk.inj (Option.some.inj h)
      exact next_ok w
    · obtain ⟨rfl, _⟩ := Prod.mk.inj (Option.some.inj h)
      trivial
  | prepare j =>
    simp only [hpc, Option.some.injEq, Prod.mk.injEq] at h
    rw [← h.1]
    exact prepare_ok i j w
  | scratchLock j =>
    simp only [hpc] at h
    split at h
    · obtain ⟨rfl, _⟩ := Prod.mk.inj (Option.some.inj h)
      trivial
    · have hr := scratchAdmit_ok j w (waitBufferSpaceLocked cfg p
        (compressScratchBound j.task.bodySize) true i.now i.now2)
      rwa [Option.some.inj h] at hr
  | scratchWait j deadline =>
    simp only [hpc] at h
    have hr := scratchAdmit_ok j w (waitLoop cfg p (compressScratchBound j.task.bodySize) true
      deadline i.now)
    rwa [Option.some.inj h] at hr
  | compress j =>
    simp only [hpc, Option.some.injEq, Prod.mk.injEq] at h
    rw [← h.1]
    exact compressDone_ok i j w
  | keyReserve j =>
    simp only [hpc] at h
    split at h
    · simp at h
    · split at h
      · simp at h
      · rename_i a _ _ _
        have hr := @keyReserve_ok cfg a j w p
        rwa [Option.some.inj h] at hr
  | sendLock j =>
    simp only [hpc] at h
    have hr := sendAdmit_ok i j w (waitBufferSpaceLocked cfg p (sendTaskMemoryBytes j.task) true
      i.now i.now2)
    rwa [Option.some.inj h] at hr
  | sendWait j deadline =>
    simp only [hpc] at h
    have hr := sendAdmit_ok i j w (waitLoop cfg p (sendTaskMemoryBytes j.task) true deadline i.now)
    rwa [Option.some.inj h] at hr
  | push j start =>
    simp only [hpc] at h
    have hr := @sendQueuePush_ok cfg i j start w p hok
    rwa [Option.some.inj h] at hr
  | unreserve j =>
    simp only [hpc, Option.some.injEq, Prod.mk.injEq] at h
    rw [← h.1]
    trivial
  | drop j =>
    simp only [hpc, Option.some.injEq, Prod.mk.injEq] at h
    rw [← h.1]
    exact done_ok j w
  | release bytes =>
    simp only [hpc, Option.some.injEq, Prod.mk.injEq] at h
    rw [← h.1]
    exact next_ok w
  | finish =>
    simp only [hpc, Option.some.injEq, Prod.mk.injEq] at h
    rw [← h.1]
    simpa [Ok, hpc] using hok
  | exited => simp [hpc] at h

end Worker

end VeTls
