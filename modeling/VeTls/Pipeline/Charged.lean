import VeTls.Pipeline.Budget
import VeTls.Proto.Export

/-!
# Batches that are charged twice

The bytes of a thread's batch are counted in `tls_bytes` before the batch is
flushed or merged. Both moves first ask for as much room again, and give the
first charge back only afterwards.
-/

set_option autoImplicit false

namespace VeTls

open VeTls.Keys (KeyMap)

variable {cfg : Config} {p : Producer}

/-- Only the batches of threads are charged. -/
structure OnlyTls (p : Producer) : Prop where
  queue : p.queueBytes = 0
  ingressQueue : p.ingressQueueBytes = 0
  sendQueue : p.sendQueueBytes = 0
  inflight : p.inflightBytes = 0
  scratch : p.scratchBytes = 0

theorem OnlyTls.ingressBytes (h : OnlyTls p) (htls : p.tlsBytes < 2^64) :
    ingressBytesLocked p = p.tlsBytes := by
  rw [ingressBytesLocked, h.queue, h.ingressQueue, show sizeAddSat 0 0 = 0 from rfl,
    sizeAddSat_eq 0 _ (by omega), Nat.zero_add]

theorem OnlyTls.sendSide (h : OnlyTls p) : sendSideBytes p = 0 := by
  rw [sendSideBytes, h.sendQueue, h.inflight, h.scratch]
  rfl

theorem OnlyTls.hasSpace (h : OnlyTls p) (hmax : 0 < cfg.maxBufferBytes) (htls : p.tlsBytes < 2^64)
    (need : ℕ) :
    hasBufferSpaceLocked cfg p need false = true ↔ p.tlsBytes+need ≤ ingressLimit cfg := by
  unfold hasBufferSpaceLocked
  rw [if_neg (by omega), if_neg Bool.false_ne_true]
  dsimp only
  rw [h.sendSide, if_neg (Nat.not_lt_zero _), h.ingressBytes htls, sizeFitsLimit_iff]
  rfl

/-- With the policy DROP there is no wait. -/
theorem OnlyTls.wait (h : OnlyTls p) (hmax : 0 < cfg.maxBufferBytes)
    (hdrop : cfg.bufferFullPolicy = .drop) (htls : p.tlsBytes < 2^64) (need : ℕ) (now now2 : ℤ) :
    waitBufferSpaceLocked cfg p need false now now2 =
      (if p.tlsBytes+need ≤ ingressLimit cfg then .rc .ok else .rc .full, p) := by
  have hspace := h.hasSpace hmax htls need
  unfold waitBufferSpaceLocked
  rw [if_neg (by omega), hdrop]
  by_cases hfits : p.tlsBytes+need ≤ ingressLimit cfg
  · rw [if_pos (hspace.mpr hfits), if_pos hfits]
  · rw [if_neg (fun hs => hfits (hspace.mp hs)), if_pos (by decide), if_neg hfits]

namespace Writer

def noLogs (cfg : Config) (w : Writer) : Prop :=
  (tlsBuilder cfg w).logCount = 0 ∨ (tlsBuilder cfg w).logsLen = 0

instance decidableNoLogs (cfg : Config) (w : Writer) : Decidable (noLogs cfg w) :=
  inferInstanceAs (Decidable (_ ∨ _))

/-- What `ve_tls_tls_batch_flush_locked` returns, or that it waits. -/
def flushRc (cfg : Config) (i : Input) (who : FlushBy) (w : Writer) (p : Producer) : Wait :=
  if noLogs cfg w then .rc .ok
  else
    match waitBufferSpaceLocked cfg p (tlsBuilder cfg w).logsLen false i.now i.now2 with
    | (.rc .ok, p) =>
      (ingressQueuePushLocked cfg p cfg.hashKey (tlsBuilder cfg w) (forceFlush who)
        (ingressWaitMs cfg) i.now i.now2).1
    | (r, _) => r

theorem tlsBatchFlushLocked_eq (i : Input) (who : FlushBy) (w : Writer) (p : Producer) :
    tlsBatchFlushLocked cfg i who w p =
      if noLogs cfg w then flushed cfg i w p who
      else flushAdmit cfg i who w
        (waitBufferSpaceLocked cfg p (tlsBuilder cfg w).logsLen false i.now i.now2) := rfl

theorem flush_ok (i : Input) (who : FlushBy) (w : Writer) (p : Producer)
    (h : flushRc cfg i who w p = .rc .ok) :
    ∃ w' p', tlsBatchFlushLocked cfg i who w p = flushed cfg i w' p' who ∧ noLogs cfg w' := by
  unfold flushRc at h
  rw [tlsBatchFlushLocked_eq]
  split at h
  · rename_i hno
    exact ⟨w, p, if_pos hno, hno⟩
  · rename_i hlogs
    rw [if_neg hlogs]
    split at h
    · rename_i q hwait
      rw [hwait, flushAdmit, flushPush]
      split
      · rename_i hpush
        rw [hpush] at h
        cases h
      · exact ⟨_, _, rfl, .inl rfl⟩
      · rename_i rc q' hne hpush
        rw [hpush] at h
        exact absurd (Wait.rc.inj h) hne
    · rename_i r q hne hwait
      exact absurd h hne

theorem flush_refused (i : Input) (who : FlushBy) (w : Writer) (p : Producer) (rc : WaitRc)
    (hrc : rc ≠ .ok) (h : flushRc cfg i who w p = .rc rc) :
    ∃ p', tlsBatchFlushLocked cfg i who w p = flushFailed rc w p' who := by
  unfold flushRc at h
  rw [tlsBatchFlushLocked_eq]
  split at h
  · exact absurd (Wait.rc.inj h).symm hrc
  · rename_i hlogs
    rw [if_neg hlogs]
    split at h
    · rename_i q hwait
      rw [hwait, flushAdmit, flushPush]
      split
      · rename_i hpush
        rw [hpush] at h
        cases h
      · rename_i q' hpush
        rw [hpush] at h
        exact absurd (Wait.rc.inj h).symm hrc
      · rename_i rc' q' _ hpush
        rw [hpush] at h
        obtain rfl := Wait.rc.inj h
        exact ⟨q', rfl⟩
    · rename_i r q hne hwait
      rw [hwait]
      subst h
      cases rc with
      | ok => exact absurd rfl hrc
      | full | closed | timeout => exact ⟨q, rfl⟩

end Writer

open Writer (tlsBuilder noLogs flushRc)

theorem flushRc_iff (i : Input) (who : FlushBy) (w : Writer) (hmax : 0 < cfg.maxBufferBytes)
    (hdrop : cfg.bufferFullPolicy = .drop) (hlogs : ¬ noLogs cfg w) (htls : p.tlsBytes < 2^64)
    (h : OnlyTls p) (hroom : p.ingressQueue.length < cfg.ingressQueueCap) :
    flushRc cfg i who w p = .rc .ok ↔
      p.tlsBytes+(tlsBuilder cfg w).logsLen ≤ ingressLimit cfg := by
  unfold flushRc
  rw [if_neg hlogs, h.wait hmax hdrop htls]
  by_cases hfits : p.tlsBytes+(tlsBuilder cfg w).logsLen ≤ ingressLimit cfg
  · rw [if_pos hfits]
    refine iff_of_true ?_ hfits
    show (ingressQueuePushLocked cfg p cfg.hashKey (tlsBuilder cfg w) (Writer.forceFlush who)
      (ingressWaitMs cfg) i.now i.now2).1 = .rc .ok
    unfold ingressQueuePushLocked
    rw [if_neg (by omega)]
  · rw [if_neg hfits]
    exact iff_of_false (fun he => nomatch he) hfits

/-- The default key has a builder to merge into, or may get one. -/
def HasSlot (cfg : Config) (p : Producer) : Prop :=
  (KeyMap.lookup cfg.toKeyConfig cfg.hashKey p.keys).isSome = true ∨
    KeyMap.atLimit cfg.toKeyConfig p.keys = false

theorem findSlot_iff (addr : ℕ) :
    (findSlot cfg p (mergeDefault cfg cfg.hashKey) cfg.hashKey addr).1.isSome = true ↔
      HasSlot cfg p := by
  unfold findSlot
  split
  · rename_i hdefault
    refine iff_of_true rfl (.inr ?_)
    have hactive : cfg.keyQueueMaxActive ≤ 0 := by
      simp only [mergeDefault, Config.fastBuilder, Bool.and_eq_true, decide_eq_true_eq] at hdefault
      exact hdefault.1.1.1.1.1.2
    rw [KeyMap.atLimit, decide_eq_false (by omega), Bool.false_and]
  · unfold HasSlot KeyMap.keyQueueGetOrCreate
    cases hl : KeyMap.lookup cfg.toKeyConfig cfg.hashKey p.keys with
    | some q => simp
    | none => cases hat : KeyMap.atLimit cfg.toKeyConfig p.keys <;> simp

theorem merge_iff (t : IngressTask) (addr : ℕ) (now : ℤ) (hkey : t.normKey = cfg.hashKey)
    (hlogs : ¬ (t.batch.logCount = 0 ∨ t.batch.logsLen = 0)) :
    (ingressTaskMergeLocked cfg t addr now p).1 = true ↔ HasSlot cfg p := by
  rw [← findSlot_iff addr]
  unfold ingressTaskMergeLocked
  rw [if_neg hlogs, hkey]
  split
  · rename_i hfind
    rw [hfind]
    exact iff_of_false Bool.false_ne_true Bool.false_ne_true
  · rename_i slot q hfind
    rw [hfind]
    refine iff_of_true ?_ rfl
    obtain ⟨b', hb'⟩ := Worker.append_some
      (stampFirst t now (openBuilder q slot cfg.hashKey now)) t.batch hlogs
    rw [mergeInto, hb']

theorem tlsBatchMerge_iff (now now2 : ℤ) (addr : ℕ) (w : Writer) (hmax : 0 < cfg.maxBufferBytes)
    (hdrop : cfg.bufferFullPolicy = .drop) (hlogs : ¬ noLogs cfg w) (htls : p.tlsBytes < 2^64)
    (h : OnlyTls p) :
    (Export.tlsBatchMergeLocked cfg now now2 addr w p).1 = .rc .ok ↔
      p.tlsBytes+(tlsBuilder cfg w).logsLen ≤ ingressLimit cfg ∧ HasSlot cfg p := by
  have hmerge := merge_iff (p := p) ⟨cfg.hashKey, tlsBuilder cfg w, false⟩ addr now rfl hlogs
  unfold Export.tlsBatchMergeLocked
  dsimp only
  unfold noLogs at hlogs
  rw [if_neg hlogs, h.wait hmax hdrop htls]
  by_cases hfits : p.tlsBytes+(tlsBuilder cfg w).logsLen ≤ ingressLimit cfg
  · rw [if_pos hfits, ← hmerge, and_iff_right hfits]
    dsimp only
    split
    · rename_i hm
      rw [hm]
      exact iff_of_true rfl rfl
    · rename_i hm
      rw [hm]
      exact iff_of_false (fun he => nomatch he) Bool.false_ne_true
  · rw [if_neg hfits]
    exact iff_of_false (fun he => nomatch he) fun he => hfits he.1

/-- When only batches of threads are charged and the ingress queue has room,
a batch can be flushed and merged exactly when the budget has room for its
bytes a second time and the default key has a builder or may get one. -/
theorem charged_batch_moves_iff (cfg : Config) (i : Input) (who : FlushBy) (w : Writer)
    (p : Producer) (hmax : 0 < cfg.maxBufferBytes) (hdrop : cfg.bufferFullPolicy = .drop)
    (hlogs : ¬ noLogs cfg w) (htls : p.tlsBytes < 2^64) (h : OnlyTls p)
    (hroom : p.ingressQueue.length < cfg.ingressQueueCap) :
    (flushRc cfg i who w p = .rc .ok ∧
        (Export.tlsBatchMergeLocked cfg i.now i.now2 i.addr w p).1 = .rc .ok) ↔
      p.tlsBytes+(tlsBuilder cfg w).logsLen ≤ ingressLimit cfg ∧ HasSlot cfg p := by
  rw [flushRc_iff i who w hmax hdrop hlogs htls h hroom,
    tlsBatchMerge_iff i.now i.now2 i.addr w hmax hdrop hlogs htls h, ← and_assoc, and_self]

def budgetOf (bytes : ℤ) : Setup := ⟨{ keyQueueBucketCount := 1, maxBufferBytes := bytes }, 1, 0⟩

/-- A log is in the batch of its thread, which is about to flush it. -/
def aboutToFlush : List Act :=
  [.call 0 (.addKv ⟨5, 0, false, [([65], [66])]⟩ [] true), .writer 0 ⟨1, 1, 9⟩,
    .writer 0 ⟨1, 1, 9⟩]

/-- The counters, what the batch holds, and what the flush returns. -/
def flushView (cfg : Config) (s : Sys) : List ℕ × Wait :=
  ([s.prod.queueBytes, s.prod.ingressQueueBytes, s.prod.sendQueueBytes, s.prod.inflightBytes,
    s.prod.scratchBytes, s.prod.tlsBytes, (tlsBuilder cfg (s.writers 0)).logsLen,
    (tlsBuilder cfg (s.writers 0)).logCount, s.prod.ingressQueue.length],
    flushRc cfg ⟨1, 1, 9⟩ (.add 1 true) (s.writers 0) s.prod)

theorem OnlyTls.ofView {s : Sys} {tls len count tasks : ℕ} {r : Wait} (cfg : Config)
    (h : flushView cfg s = ([0, 0, 0, 0, 0, tls, len, count, tasks], r)) :
    OnlyTls s.prod ∧ s.prod.tlsBytes = tls ∧ (tlsBuilder cfg (s.writers 0)).logsLen = len ∧
      (tlsBuilder cfg (s.writers 0)).logCount = count ∧ s.prod.ingressQueue.length = tasks ∧
      flushRc cfg ⟨1, 1, 9⟩ (.add 1 true) (s.writers 0) s.prod = r := by
  simp only [flushView, Prod.mk.injEq, List.cons.injEq, and_true] at h
  obtain ⟨⟨hq, hi, hs, hf, hx, htls, hlen, hcount, htasks⟩, hr⟩ := h
  exact ⟨⟨hq, hi, hs, hf, hx⟩, htls, hlen, hcount, htasks, hr⟩

theorem charged_batch_moves_twice :
    ∃ s, Sys.run (budgetOf 64) aboutToFlush (Sys.start (budgetOf 64)) = some s ∧
      ((flushRc (budgetOf 64).cfg ⟨1, 1, 9⟩ (.add 1 true) (s.writers 0) s.prod = .rc .ok ∧
          (Export.tlsBatchMergeLocked (budgetOf 64).cfg 1 1 9 (s.writers 0) s.prod).1 = .rc .ok) ↔
        s.prod.tlsBytes+(tlsBuilder (budgetOf 64).cfg (s.writers 0)).logsLen ≤
            ingressLimit (budgetOf 64).cfg ∧ HasSlot (budgetOf 64).cfg s.prod) := by
  have hview : (Sys.run (budgetOf 64) aboutToFlush (Sys.start (budgetOf 64))).map
      (flushView (budgetOf 64).cfg) = some ([0, 0, 0, 0, 0, 12, 12, 1, 0], .rc .ok) := by
    decide +kernel
  obtain ⟨s, hs, hv⟩ := Option.map_eq_some_iff.mp hview
  obtain ⟨honly, htls, hlen, hcount, htasks, -⟩ := OnlyTls.ofView (budgetOf 64).cfg hv
  refine ⟨s, hs, charged_batch_moves_iff (budgetOf 64).cfg ⟨1, 1, 9⟩ (.add 1 true) (s.writers 0)
    s.prod (by decide) rfl ?_ (by omega) honly ?_⟩
  · unfold noLogs
    rw [hlen, hcount]
    decide
  · rw [htasks]
    decide

/-- A budget of 40 bytes leaves writers 20 of them: the 12 bytes of the batch
do not fit a second time. -/
theorem charged_batch_refused : ¬ ∀ (st : Setup) (acts : List Act) (s : Sys) (i : Input)
    (who : FlushBy), Sys.run st acts (Sys.start st) = some s → 0 < st.cfg.maxBufferBytes →
      st.cfg.bufferFullPolicy = .drop → OnlyTls s.prod →
      (tlsBuilder st.cfg (s.writers 0)).logsLen = s.prod.tlsBytes →
      s.prod.ingressQueue.length < st.cfg.ingressQueueCap →
        flushRc st.cfg i who (s.writers 0) s.prod = .rc .ok ∧
          (Export.tlsBatchMergeLocked st.cfg i.now i.now2 i.addr (s.writers 0) s.prod).1 =
            .rc .ok := by
  intro h
  have hview : (Sys.run (budgetOf 40) aboutToFlush (Sys.start (budgetOf 40))).map
      (flushView (budgetOf 40).cfg) = some ([0, 0, 0, 0, 0, 12, 12, 1, 0], .rc .full) := by
    decide +kernel
  obtain ⟨s, hs, hv⟩ := Option.map_eq_some_iff.mp hview
  obtain ⟨honly, htls, hlen, -, htasks, hfull⟩ := OnlyTls.ofView (budgetOf 40).cfg hv
  have hok := (h (budgetOf 40) aboutToFlush s ⟨1, 1, 9⟩ (.add 1 true) hs (by decide) rfl honly
    (hlen.trans htls.symm) (by rw [htasks]; decide)).1
  rw [hfull] at hok
  cases hok

end VeTls
