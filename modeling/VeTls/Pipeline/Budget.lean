import VeTls.Pipeline.Calls
import VeTls.Pipeline.Ledger

/-!
# The memory budget

What a counter gives up it has, so that bytes that move from one counter to
another stay within the same sum. What enters the sum is admitted first, and
the two admission rules keep the sum within the budget.
-/

set_option autoImplicit false

namespace VeTls

open VeTls.Keys (Addr CStr KeyMap)
open VeTls.Keys.KeyMap (Keeps Effect Sound Held ring)
open VeTls.Threads (le_total)

variable {cfg : Config}

def usedIngress (p : Producer) : ℕ := p.queueBytes+p.ingressQueueBytes+p.tlsBytes

def used (p : Producer) : ℕ := usedIngress p+p.sendQueueBytes+p.inflightBytes+p.scratchBytes

def ingressLimit (cfg : Config) : ℕ :=
  cfg.maxBufferBytes.toNat-min cfg.effectiveSendReservedBytes cfg.maxBufferBytes.toNat

/-- The sum of the counters, and the part writers fill, keep their limits. -/
structure Within (cfg : Config) (p : Producer) : Prop where
  all : used p ≤ cfg.maxBufferBytes.toNat
  ingress : usedIngress p ≤ ingressLimit cfg

/-- A budget as the source's `int32_t` can hold it. -/
structure Bounded (cfg : Config) : Prop where
  pos : 0 < cfg.maxBufferBytes
  lt : cfg.maxBufferBytes < 2^31

theorem sizeAddSat_eq (a b : ℕ) (h : a+b < 2^64) : sizeAddSat a b = a+b := by
  unfold sizeAddSat
  split
  · omega
  · rfl

section Admission

variable {p : Producer} {need : ℕ}

/-- Within the budget no sum of counters saturates. -/
theorem Within.sums (h : Within cfg p) (hb : Bounded cfg) :
    bufferedBytesLocked p = used p ∧ ingressBytesLocked p = usedIngress p ∧
      sendSideBytes p = p.sendQueueBytes+p.inflightBytes+p.scratchBytes := by
  have hall := h.all
  have hlt := hb.lt
  simp only [used, usedIngress] at hall ⊢
  have hm : cfg.maxBufferBytes.toNat < 2^31 := by omega
  refine ⟨?_, ?_, ?_⟩
  · unfold bufferedBytesLocked
    rw [sizeAddSat_eq p.queueBytes _ (by omega), sizeAddSat_eq _ p.sendQueueBytes (by omega),
      sizeAddSat_eq _ p.inflightBytes (by omega), sizeAddSat_eq _ p.scratchBytes (by omega),
      sizeAddSat_eq _ p.tlsBytes (by omega)]
    omega
  · unfold ingressBytesLocked
    rw [sizeAddSat_eq p.queueBytes _ (by omega), sizeAddSat_eq _ p.tlsBytes (by omega)]
  · unfold sendSideBytes
    rw [sizeAddSat_eq p.sendQueueBytes _ (by omega), sizeAddSat_eq _ p.scratchBytes (by omega)]

theorem sizeFitsLimit_iff (u n limit : ℕ) : sizeFitsLimit u n limit = true ↔ u+n ≤ limit := by
  simp only [sizeFitsLimit, Bool.and_eq_true, decide_eq_true_eq]
  omega

/-- What a worker or a sender is admitted with fits. -/
theorem Within.admit_send (h : Within cfg p) (hb : Bounded cfg) (hs : Space cfg p need true) :
    used p+need ≤ cfg.maxBufferBytes.toNat := by
  have hpos := hb.pos
  obtain ⟨hall, _, _⟩ := h.sums hb
  rcases hs with hs | hs
  · omega
  · simp only [hasBufferSpaceLocked, if_neg (show ¬ cfg.maxBufferBytes ≤ 0 by omega), if_true,
      sizeFitsLimit_iff, hall] at hs
    exact hs

/-- What a writer is admitted with fits, and leaves the senders their share. -/
theorem Within.admit_ingress (h : Within cfg p) (hb : Bounded cfg) (hs : Space cfg p need false) :
    used p+need ≤ cfg.maxBufferBytes.toNat ∧ usedIngress p+need ≤ ingressLimit cfg := by
  have hpos := hb.pos
  have hall := h.all
  have hing := h.ingress
  obtain ⟨_, hi, hside⟩ := h.sums hb
  rcases hs with hs | hs
  · omega
  · simp only [hasBufferSpaceLocked, if_neg (show ¬ cfg.maxBufferBytes ≤ 0 by omega),
      Bool.false_eq_true, if_false, hi, hside] at hs
    unfold ingressLimit at hing ⊢
    unfold used at hall ⊢
    split at hs
    · split at hs
      · simp only [Bool.and_eq_true, decide_eq_true_eq] at hs
        omega
      · rw [sizeFitsLimit_iff] at hs
        omega
    · rw [sizeFitsLimit_iff] at hs
      omega

end Admission

theorem Within.mono {p p' : Producer} (h : Within cfg p) (hall : used p' ≤ used p)
    (hing : usedIngress p' ≤ usedIngress p) : Within cfg p' :=
  ⟨hall.trans h.all, hing.trans h.ingress⟩

/-- The log of the call is as long as its estimate. -/
theorem stored_size (id : ℤ) (kv : Wire.KvLog) (h : Wire.entryLen kv < 2^63) :
    (storedLog id kv).size = Writer.estimate kv :=
  (Wire.logBuilderEstimateKvLensSize_eq kv (by omega)).symm

theorem Writer.Move.within {me : ℕ} {src : Writer.Pc} {w : Writer} {p : Producer}
    {r : Writer × Producer} (hm : Writer.Move cfg me src (w, p) r) (h : Within cfg p)
    (hb : Bounded cfg) (hadds : ∀ kv, Writer.kvLog src = some kv → Wire.entryLen kv < 2^63)
    (htls : Writer.tlsCharge me w ≤ p.tlsBytes) : Within cfg r.2 := by
  cases hm with
  | quiet _ w' _ p' hq hbatch hr hr' =>
    obtain ⟨f, n, k, l, _, _, rfl⟩ := hq
    exact ⟨h.all, h.ingress⟩
  | switch _ w' _ hne hbatch hr hr' => exact h
  | reserve _ _ kv flush hkv hown hr hsp =>
    obtain ⟨h₁, h₂⟩ := h.admit_ingress hb hsp
    simp only [used, usedIngress] at h₁ h₂
    constructor
    · simp only [Writer.tlsReserve, used, usedIngress]
      omega
    · simp only [Writer.tlsReserve, usedIngress]
      omega
  | append _ w' _ kv flush b hkv hown hpc hadd hbatch hr' =>
    have hext := addKv_extends _ (logBuilderCreate cfg.hashKey) b p.nextId kv ⟨rfl, rfl, rfl⟩ hadd
    have hlen : b.logsLen = (Writer.tlsBuilder cfg w).logsLen+Writer.estimate kv := by
      rw [hext.logsLen, stored_size p.nextId kv (hadds kv hkv), Writer.tlsBuilder_len,
        Writer.builderLen]
      cases w.batch.builder <;> rfl
    dsimp only
    rw [Writer.settleTls, if_neg (by omega), if_neg (by omega)]
    exact ⟨h.all, h.ingress⟩
  | publish _ w' _ t hown ht hbatch hr hr' =>
    have hlen : t.batch.logsLen = Writer.builderLen w.batch := by rw [ht, Writer.tlsBuilder_len]
    rw [Writer.tlsCharge_own me w hown hr] at htls
    have hsub := wrapSub_eq p.tlsBytes t.batch.logsLen (by omega)
    apply h.mono
    · simp only [used, usedIngress, hsub]
      omega
    · simp only [usedIngress, hsub]
      omega
  | accept _ _ id hid => exact ⟨h.all, h.ingress⟩
  | rawReserve _ _ log hr hsp =>
    obtain ⟨h₁, h₂⟩ := h.admit_ingress hb hsp
    simp only [used, usedIngress] at h₁ h₂
    constructor
    · simp only [Writer.rawReserve, used, usedIngress]
      omega
    · simp only [Writer.rawReserve, usedIngress]
      omega
  | rawPush _ w' _ log hpc hbatch hr' hopen hacc => exact ⟨h.all, h.ingress⟩
  | rawRelease _ w' _ log hpc hbatch hr' =>
    apply h.mono
    · simp only [releaseQueueReservationLocked, used, usedIngress]
      omega
    · simp only [releaseQueueReservationLocked, usedIngress]
      omega
  | keyed _ _ m hr hk => exact ⟨h.all, h.ingress⟩
  | store _ w' _ p' kv old b hkv hbatch hr hr' hsp hfill hext =>
    obtain ⟨h₁, h₂⟩ := h.admit_ingress hb hsp
    simp only [used, usedIngress] at h₁ h₂
    have hsize := stored_size p.nextId kv (hadds kv hkv)
    obtain ⟨d, m, l, n, f, he⟩ := hfill.frame
    subst he
    constructor
    · simp only [used, usedIngress]
      omega
    · simp only [usedIngress]
      omega
  | openSlot _ _ p' old b hr hfill hext =>
    obtain ⟨d, m, l, n, f, he⟩ := hfill.frame
    subst he
    exact ⟨h.all, h.ingress⟩
  | closeBegin _ _ => exact ⟨h.all, h.ingress⟩
  | stop _ w' _ hd hbatch hr hr' => exact ⟨h.all, h.ingress⟩
  | stopSendQueue _ w' _ hbatch hr hr' => exact ⟨h.all, h.ingress⟩

theorem Writer.Loss.within {me : ℕ} {w : Writer} {p : Producer} {r : Writer × Producer}
    (hl : Writer.Loss cfg me (w, p) r) (h : Within cfg p)
    (htls : Writer.tlsCharge me w ≤ p.tlsBytes) : Within cfg r.2 := by
  have hbal := (hl.balance htls).tls
  cases hl with
  | leave _ w' _ hne hr hr' =>
    dsimp only at hbal
    have hnew : Writer.tlsCharge me w' = 0 := by rw [Writer.tlsCharge_eq me w' hr', if_neg hne]
    rw [Writer.leaveBatch_eq]
    apply h.mono
    · simp only [used, usedIngress]
      omega
    · simp only [usedIngress]
      omega
  | overflow _ w' _ kv flush hown hpc hadd hbatch hr' =>
    have hnew : Writer.tlsCharge me w' = 0 := by
      rw [Writer.tlsCharge_own me w' (by rw [hbatch]; exact hown) hr', hbatch]
      rfl
    simp only [countDropped] at hbal ⊢
    apply h.mono
    · simp only [used, usedIngress]
      omega
    · simp only [usedIngress]
      omega
  | discard _ w' _ rc hown hpc hbatch hr' =>
    dsimp only at hbal
    have hnew : Writer.tlsCharge me w' = 0 := by
      rw [Writer.tlsCharge_own me w' (by rw [hbatch]; exact hown) hr', hbatch]
      rfl
    apply h.mono
    · simp only [used, usedIngress]
      omega
    · simp only [usedIngress]
      omega

theorem Worker.Move.within {w : Worker} {p : Producer} {r : Worker × Producer}
    (hm : Worker.Move cfg (w, p) r) (h : Within cfg p) (hb : Bounded cfg)
    (hing : ingressBytes p ≤ p.ingressQueueBytes)
    (hraw : rawBytes p ≤ p.queueBytes) : Within cfg r.2 := by
  cases hm with
  | idle _ w' _ p' hq hsame =>
    obtain ⟨f, n, k, l, _, _, rfl⟩ := hq
    exact ⟨h.all, h.ingress⟩
  | keyed _ _ m hk => exact ⟨h.all, h.ingress⟩
  | skip _ _ t rest hin he =>
    apply h.mono
    · simp only [Worker.ingressQueuePopLocked, used, usedIngress]
      omega
    · simp only [Worker.ingressQueuePopLocked, usedIngress]
      omega
  | refuse _ _ t rest hin =>
    apply h.mono
    · simp only [Worker.dropRange, report, Worker.ingressQueuePopLocked, used, usedIngress]
      omega
    · simp only [Worker.dropRange, report, Worker.ingressQueuePopLocked, usedIngress]
      omega
  | merge _ _ p' t rest old b hin hfill hext =>
    have hc : ingressBytes p = t.batch.logsLen+(rest.map fun t => t.batch.logsLen).sum := by
      rw [ingressBytes, hin, List.map_cons, List.sum_cons]
    obtain ⟨d, m, l, n, f, he⟩ := hfill.frame
    subst he
    apply h.mono
    · simp only [Worker.ingressQueuePopLocked, used, usedIngress]
      omega
    · simp only [Worker.ingressQueuePopLocked, usedIngress]
      omega
  | begin _ _ hf hr => exact ⟨h.all, h.ingress⟩
  | sealUp _ _ p' b hfill =>
    obtain ⟨d, m, l, n, f, he⟩ := hfill.frame
    subst he
    exact ⟨h.all, h.ingress⟩
  | take _ => exact ⟨h.all, h.ingress⟩
  | rawPop _ _ item rest hpc hin =>
    have hc : rawBytes p = item.size+(rest.map RawItem.size).sum := by
      rw [rawBytes, hin, List.map_cons, List.sum_cons]
    have hsub := wrapSub_eq p.queueBytes item.size (by omega)
    apply h.mono
    · simp only [used, usedIngress, hsub]
      omega
    · simp only [usedIngress, hsub]
      omega
  | scratchReserve _ w' _ bytes hsame hsp =>
    have h₁ := h.admit_send hb hsp
    simp only [used, usedIngress] at h₁
    refine ⟨?_, h.ingress⟩
    simp only [used, usedIngress]
    omega
  | scratchRelease _ w' _ bytes hsame =>
    apply h.mono
    · simp only [Worker.releaseScratchBytes, used, usedIngress]
      omega
    · exact Nat.le_refl _
  | sendReserve _ _ j now hpc hsp =>
    have h₁ := h.admit_send hb hsp
    simp only [used, usedIngress] at h₁
    refine ⟨?_, h.ingress⟩
    simp only [used, usedIngress]
    omega
  | unreserve _ _ j hpc =>
    apply h.mono
    · simp only [Worker.releaseSendQueueTaskBytes, used, usedIngress]
      omega
    · exact Nat.le_refl _
  | drop _ _ j hpc => exact ⟨h.all, h.ingress⟩
  | release _ _ bytes hpc =>
    apply h.mono
    · simp only [releaseQueueReservationLocked, used, usedIngress]
      omega
    · simp only [releaseQueueReservationLocked, usedIngress]
      omega
  | finish _ _ hpc => exact ⟨h.all, h.ingress⟩

theorem Sender.Move.within {pc : Sender.Pc} {p : Producer} {r : Sender.Pc × Producer}
    (hm : Sender.Move cfg (pc, p) r) (h : Within cfg p)
    (hpop : Sender.popped pc ≤ p.sendQueueBytes) : Within cfg r.2 := by
  cases hm with
  | idle _ pc' _ p' ha hsame =>
    obtain ⟨_, _, _, _, rfl⟩ := ha
    exact ⟨h.all, h.ingress⟩
  | move _ t =>
    have hle : sendTaskMemoryBytes t ≤ p.sendQueueBytes := hpop
    apply h.mono
    · simp only [Sender.moveSendTaskToInflight, used, usedIngress]
      omega
    · exact Nat.le_refl _
  | release _ pc' _ t hsame =>
    apply h.mono
    · simp only [Sender.releaseInflightTaskBytes, used, usedIngress]
      omega
    · exact Nat.le_refl _
  | _ => exact ⟨h.all, h.ingress⟩

namespace Sys

variable {st : Setup}

/-- The logs of the running calls have encoded sizes below `2^63`. -/
def LogsFit (s : Sys) : Prop :=
  ∀ i kv, Writer.kvLog (s.writers i).pc = some kv → Wire.entryLen kv < 2^63

def CallFits (a : Act) : Prop :=
  match a with
  | .call _ (.addKv kv _ _) => Wire.entryLen kv < 2^63
  | _ => True

theorem logsFit_step (s s' : Sys) (a : Act) (hl : LogsFit s) (ha : CallFits a)
    (h : step st s a = some s') : LogsFit s' := by
  have one : ∀ i (r : Writer × Producer), (∀ kv, Writer.kvLog r.1.pc = some kv →
      Wire.entryLen kv < 2^63) → LogsFit (s.setWriter i r) := fun i r hr =>
    forall_update (fun w : Writer => ∀ kv, Writer.kvLog w.pc = some kv → Wire.entryLen kv < 2^63)
      s.writers i r.1 hl hr
  cases a with
  | call i c =>
    simp only [step] at h
    split at h
    · rename_i hlt
      obtain ⟨r, hr, rfl⟩ := Option.map_eq_some_iff.mp h
      apply one
      intro kv hkv
      obtain ⟨hashKey, flush, rfl⟩ := Writer.call_kvLog _ _ c r hlt.2 hr kv hkv
      exact ha
    · simp at h
  | writer i input =>
    simp only [step] at h
    split at h
    · obtain ⟨r, hr, rfl⟩ := Option.map_eq_some_iff.mp h
      apply one
      intro kv hkv
      exact hl i kv (Writer.go_kvLog _ input _ _ r hr kv hkv)
    · simp at h
  | worker i input =>
    simp only [step] at h
    split at h
    · obtain ⟨r, hr, rfl⟩ := Option.map_eq_some_iff.mp h
      exact hl
    · simp at h
  | sender i input =>
    simp only [step] at h
    split at h
    · obtain ⟨r, hr, rfl⟩ := Option.map_eq_some_iff.mp h
      exact hl
    · simp at h

/-- The counters are exact, and their sum is within the budget. -/
structure Budget (st : Setup) (s : Sys) : Prop where
  books : Books st s
  send : SendExact st s
  within : Within st.cfg s.prod

theorem within_step (hb : Bounded st.cfg) (s s' : Sys) (a : Act) (hgood : Good st s)
    (hl : LogsFit s) (hi : Budget st s) (h : step st s a = some s') : Budget st s' := by
  apply step_rule (Budget st) s s' a hgood hi ?_ ?_ ?_ ?_ ?_ h
  · intro t i r hlt hc hI hm
    have hle := le_total st.writerCount i hlt t.writers (Writer.tlsCharge st.me)
    have htls := hI.books.tls
    exact ⟨books_move hI.books hc i hlt _ r hm, exact_writer hI.send hc i r (hm.frame hc.sound),
      hm.within hI.within hb (hl i) (by omega)⟩
  · intro i r hlt _ hloss
    have hle := le_total st.writerCount i hlt s.writers (Writer.tlsCharge st.me)
    have htls := hi.books.tls
    exact ⟨books_loss hi.books hgood.toCore i hlt r hloss,
      exact_writer hi.send hgood.toCore i r (hloss.frame hgood.sound),
      hloss.within hi.within (by omega)⟩
  · intro t i r hlt hc hI hm
    have hing := hI.books.ingress
    have hqueue := hI.books.queue
    exact ⟨books_work hI.books hc i hlt r hm, exact_work hI.send hc i hlt r hm,
      hm.within hI.within hb (by omega) (by omega)⟩
  · intro i r hlt _ hp
    refine ⟨books_worker hi.books i hlt r hp.balance (hp.frame hgood.sound).freed,
      exact_push hi.send hgood.toCore i hlt r hp, ?_⟩
    obtain ⟨j, start, _, rfl⟩ := hp
    exact ⟨hi.within.all, hi.within.ingress⟩
  · intro i r hlt _ hm
    have hle := le_total st.cfg.senderCount i hlt s.senders Sender.popped
    have hsend := hi.send.sendQueue
    exact ⟨books_send hi.books i r hm, exact_send hi.send hgood.toCore i hlt _ _ r rfl rfl hm,
      hm.within hi.within (by omega)⟩

theorem within_start (st : Setup) : Budget st (start st) :=
  ⟨books_start st, exact_start st, Nat.zero_le _, Nat.zero_le _⟩

/-- Between the steps of every run the six counters together stay within the
budget, and those of the write path leave the senders their reserved share. -/
theorem run_within_budget (st : Setup) (hpos : 0 < st.cfg.maxBufferBytes)
    (hmax : st.cfg.maxBufferBytes < 2^31) (acts : List Act) (hfit : ∀ a ∈ acts, CallFits a)
    (s : Sys) (h : run st acts (start st) = some s) :
    s.prod.queueBytes+s.prod.ingressQueueBytes+s.prod.tlsBytes+s.prod.sendQueueBytes+
        s.prod.inflightBytes+s.prod.scratchBytes ≤ st.cfg.maxBufferBytes.toNat ∧
      s.prod.queueBytes+s.prod.ingressQueueBytes+s.prod.tlsBytes ≤
        st.cfg.maxBufferBytes.toNat-
          min st.cfg.effectiveSendReservedBytes st.cfg.maxBufferBytes.toNat := by
  have hstep : ∀ s a s', Good st s → LogsFit s ∧ Budget st s → CallFits a → step st s a = some s' →
      LogsFit s' ∧ Budget st s' := fun s a s' hgood hi ha hs =>
    ⟨logsFit_step s s' a hi.1 ha hs, within_step ⟨hpos, hmax⟩ s s' a hgood hi.1 hi.2 hs⟩
  obtain ⟨_, _, hbud⟩ := run_rule (fun s => LogsFit s ∧ Budget st s) (fun _ a => CallFits a) hstep
    acts (start st) s (good_start st) ⟨nofun, within_start st⟩ (along_forall acts _ hfit) h
  exact ⟨hbud.within.all, hbud.within.ingress⟩

/-- A log is added with the flush flag and packed by the worker. -/
def smallBuffer : Setup := ⟨{ keyQueueBucketCount := 1, maxBufferBytes := 64 }, 1, 0⟩

def packOne : List Act :=
  [.call 0 (.addKv ⟨5, 0, false, [([65], [66])]⟩ [] true), .writer 0 ⟨1, 1, 9⟩,
    .writer 0 ⟨1, 1, 9⟩, .writer 0 ⟨1, 1, 9⟩, .worker 0 ⟨1, 1, [3], none, none⟩]

theorem packOne_within_budget : ∃ s, run smallBuffer packOne (start smallBuffer) = some s ∧
    s.prod.queueBytes = 12 ∧
    s.prod.queueBytes+s.prod.ingressQueueBytes+s.prod.tlsBytes+s.prod.sendQueueBytes+
      s.prod.inflightBytes+s.prod.scratchBytes ≤ 64 ∧
    s.prod.queueBytes+s.prod.ingressQueueBytes+s.prod.tlsBytes ≤ 32 := by
  have hfit : ∀ a ∈ packOne, CallFits a := by
    intro a ha
    simp only [packOne, List.mem_cons, List.not_mem_nil, or_false] at ha
    rcases ha with rfl | rfl | rfl | rfl | rfl
    · show Wire.entryLen _ < 2^63
      decide
    · trivial
    · trivial
    · trivial
    · trivial
  exact ⟨_, rfl, by decide,
    run_within_budget smallBuffer (by decide) (by decide) packOne hfit _ rfl⟩

end Sys

end VeTls
