import VeTls.Pipeline.Runs

/-!
# The accounts of the write side

`tlsBytes` has the batches of the threads, `ingressQueueBytes` the batches
handed over, `queueBytes` the raw logs and the builders. Every move changes
a counter by what it moves; an add reserves from an estimate first. What a
key queue had in its builder when it was freed stays in `queueBytes`.
-/

set_option autoImplicit false

namespace VeTls

open VeTls.Keys (Addr CStr KeyMap)
open VeTls.Keys.KeyMap (Keeps Effect Sound Held ring)
open VeTls.Threads (total total_update total_same le_total)

variable {cfg : Config}

def rawBytes (p : Producer) : ℕ := (p.queue.map RawItem.size).sum

def keptBytes (cfg : Config) (p : Producer) : ℕ := ((kept cfg p).map Builder.logsLen).sum

def ingressBytes (p : Producer) : ℕ := (p.ingressQueue.map fun t => t.batch.logsLen).sum

/-- Bytes of the builders that went with their key queues. -/
def freedBytes (p : Producer) : ℕ :=
  ((p.keys.freed.filterMap Keys.Info.builder).map Builder.logsLen).sum

namespace Writer

/-- Bytes of `tlsBytes` that are the thread's. -/
def tlsCharge (me : ℕ) (w : Writer) : ℕ :=
  (if w.batch.producer = some me then builderLen w.batch else 0)+
    match w.pc with
    | .tlsAppend kv _ => estimate kv
    | _ => 0

/-- Bytes of `queueBytes` reserved for a raw log. -/
def rawCharge (w : Writer) : ℕ :=
  match w.pc with
  | .rawPush log => log.size
  | _ => 0

theorem tlsCharge_eq (me : ℕ) (w : Writer) (h : Unreserved w.pc) :
    tlsCharge me w = if w.batch.producer = some me then builderLen w.batch else 0 := by
  unfold tlsCharge
  cases hpc : w.pc <;> simp_all [Unreserved]

theorem rawCharge_eq (w : Writer) (h : Unreserved w.pc) : rawCharge w = 0 := by
  unfold rawCharge
  cases hpc : w.pc <;> simp_all [Unreserved]

theorem tlsCharge_own (me : ℕ) (w : Writer) (hp : w.batch.producer = some me)
    (h : Unreserved w.pc) : tlsCharge me w = builderLen w.batch := by
  rw [tlsCharge_eq me w h, if_pos hp]

theorem tlsCharge_reserved (me : ℕ) (w : Writer) (kv : Wire.KvLog) (flush : Bool)
    (hp : w.batch.producer = some me) (hpc : w.pc = .tlsAppend kv flush) :
    tlsCharge me w = builderLen w.batch+estimate kv := by
  simp [tlsCharge, hp, hpc]

theorem tlsBuilder_len (cfg : Config) (w : Writer) :
    (tlsBuilder cfg w).logsLen = builderLen w.batch := by
  unfold tlsBuilder builderLen
  cases w.batch.builder <;> rfl

/-- The counters change with what is charged to them. -/
structure Balance (cfg : Config) (me : ℕ) (a b : Writer × Producer) : Prop where
  tls : b.2.tlsBytes+tlsCharge me a.1 = a.2.tlsBytes+tlsCharge me b.1
  ingress : b.2.ingressQueueBytes+ingressBytes a.2 = a.2.ingressQueueBytes+ingressBytes b.2
  queue : b.2.queueBytes+rawBytes a.2+keptBytes cfg a.2+rawCharge a.1 =
    a.2.queueBytes+rawBytes b.2+keptBytes cfg b.2+rawCharge b.1

end Writer

theorem wrapSub_eq (a b : ℕ) (h : b ≤ a) : wrapSub a b = a-b := if_pos h

theorem sum_perm {l l' : List Builder} (h : l.Perm l') :
    (l.map Builder.logsLen).sum = (l'.map Builder.logsLen).sum :=
  (h.map Builder.logsLen).sum_eq

theorem Fill.bytes {p p' : Producer} {old : Option Builder} {b : Builder} {new : List Log}
    {len count : ℕ} (hf : Fill cfg p p' old b) (he : Extends old new len count b) :
    keptBytes cfg p' = keptBytes cfg p+len := by
  obtain ⟨rest, hp, hp'⟩ := hf.kept
  unfold keptBytes
  rw [sum_perm hp, sum_perm hp', List.map_cons, List.sum_cons, he.logsLen]
  cases old with
  | none =>
    simp only [Option.elim_none, Option.toList_none, List.nil_append]
    omega
  | some x =>
    simp only [Option.elim_some, Option.toList_some, List.cons_append, List.nil_append,
      List.map_cons, List.sum_cons]
    omega

/-- Builders that leave the map are among the freed ones. -/
theorem keptBytes_effect {p : Producer} {m : KeyMap SendTask Builder} {taken : Addr → Prop}
    {waiting : CStr → List SendTask} {gone : List (Keys.Info Builder)}
    (he : Effect cfg.toKeyConfig p.keys m taken waiting gone) :
    keptBytes cfg { p with keys := m }+freedBytes { p with keys := m } =
      keptBytes cfg p+freedBytes p := by
  have hs := sum_perm he.builders
  simp only [keptBytes, kept, freedBytes, he.freed, List.filterMap_append, List.map_append,
    List.sum_append] at hs ⊢
  omega

theorem keptBytes_keeps {p : Producer} {m : KeyMap SendTask Builder}
    (hk : Keeps cfg.toKeyConfig p.keys m) : keptBytes cfg { p with keys := m } = keptBytes cfg p := by
  have he := keptBytes_effect hk
  simp only [freedBytes, hk.freed, List.append_nil] at he
  omega

namespace Writer

/-- A move that leaves the write side of the producer as it is. -/
theorem Balance.still {me : ℕ} {a b : Writer × Producer}
    (htls : tlsCharge me b.1 = tlsCharge me a.1) (hraw : rawCharge b.1 = rawCharge a.1)
    (h₁ : b.2.tlsBytes = a.2.tlsBytes)
    (h₂ : b.2.ingressQueue = a.2.ingressQueue ∧ b.2.ingressQueueBytes = a.2.ingressQueueBytes)
    (h₃ : b.2.queue = a.2.queue ∧ b.2.queueBytes = a.2.queueBytes)
    (h₄ : keptBytes cfg b.2 = keptBytes cfg a.2) : Balance cfg me a b := by
  apply Balance.mk
  · rw [htls, h₁]
  · rw [h₂.2, ingressBytes, ingressBytes, h₂.1]
  · rw [hraw, h₃.2, h₄, rawBytes, rawBytes, h₃.1]

theorem settleTls_bytes (estimated delta : ℕ) (p : Producer) (h : estimated ≤ p.tlsBytes) :
    (settleTls estimated delta p).tlsBytes+estimated = p.tlsBytes+delta := by
  unfold settleTls
  split
  · dsimp only
    omega
  · split
    · dsimp only
      rw [wrapSub_eq _ _ (by omega)]
      omega
    · omega

theorem Move.balance {me : ℕ} {src : Pc} {w : Writer} {p : Producer} {r : Writer × Producer}
    (h : Move cfg me src (w, p) r) (htls : tlsCharge me w ≤ p.tlsBytes)
    (hraw : rawCharge w ≤ p.queueBytes) : Balance cfg me (w, p) r := by
  cases h with
  | quiet _ w' _ p' hq hb hr hr' =>
    obtain ⟨f, n, k, l, _, _, rfl⟩ := hq
    refine Balance.still ?_ ?_ rfl ⟨rfl, rfl⟩ ⟨rfl, rfl⟩ rfl
    · rw [tlsCharge_eq me w' hr', tlsCharge_eq me w hr, hb]
    · rw [rawCharge_eq w' hr', rawCharge_eq w hr]
  | switch _ w' _ hne hb hr hr' =>
    refine Balance.still ?_ ?_ rfl ⟨rfl, rfl⟩ ⟨rfl, rfl⟩ rfl
    · rw [tlsCharge_eq me w' hr', tlsCharge_eq me w hr, hb, if_neg hne]
      simp [builderLen]
    · rw [rawCharge_eq w' hr', rawCharge_eq w hr]
  | reserve _ _ kv flush hkv hown hr hsp =>
    apply Balance.mk
    · rw [tlsCharge_own me w hown hr,
        tlsCharge_reserved me (tlsReserve kv flush w p).1 kv flush hown rfl]
      simp only [tlsReserve]
      omega
    · rfl
    · rw [rawCharge_eq w hr]
      rfl
  | append _ w' _ kv flush b hkv hown hpc hadd hb hr' =>
    have hext := addKv_extends _ (logBuilderCreate cfg.hashKey) b p.nextId kv ⟨rfl, rfl, rfl⟩ hadd
    have hgrow : (tlsBuilder cfg w).logsLen ≤ b.logsLen := by
      rw [hext.logsLen, tlsBuilder_len, builderLen]
      cases w.batch.builder <;> simp
    have hlen := tlsBuilder_len cfg w
    have hnew : tlsCharge me w' = b.logsLen := by
      rw [tlsCharge_own me w' (by rw [hb]; exact hown) hr', hb]
      rfl
    rw [tlsCharge_reserved me w kv flush hown hpc] at htls
    have hset := settleTls_bytes (estimate kv) (b.logsLen-(tlsBuilder cfg w).logsLen)
      { p with nextId := p.nextId+1 } (by dsimp only; omega)
    have hkeep := settleTls_eq (estimate kv) (b.logsLen-(tlsBuilder cfg w).logsLen)
      { p with nextId := p.nextId+1 }
    apply Balance.mk
    · rw [tlsCharge_reserved me w kv flush hown hpc, hnew]
      dsimp only at hset ⊢
      omega
    · rw [hkeep]
      rfl
    · rw [hkeep, rawCharge_eq w' hr', rawCharge, hpc]
      rfl
  | publish _ w' _ t hown ht hb hr hr' =>
    have hlen : t.batch.logsLen = builderLen w.batch := by rw [ht, tlsBuilder_len]
    have hnew : tlsCharge me w' = 0 := by
      rw [tlsCharge_own me w' (by rw [hb]; exact hown) hr', hb]
      rfl
    rw [tlsCharge_own me w hown hr] at htls
    apply Balance.mk
    · rw [tlsCharge_own me w hown hr, hnew]
      dsimp only
      rw [wrapSub_eq _ _ (by omega)]
      omega
    · simp only [ingressBytes, List.map_append, List.map_cons, List.map_nil, List.sum_append,
        List.sum_cons, List.sum_nil]
      omega
    · rw [rawCharge_eq w' hr', rawCharge_eq w hr]
      rfl
  | accept _ _ id hid => exact ⟨rfl, rfl, rfl⟩
  | rawReserve _ _ log hr hsp =>
    apply Balance.mk
    · rw [tlsCharge_eq me w hr]
      rfl
    · rfl
    · rw [rawCharge_eq w hr]
      simp only [Writer.rawReserve, rawCharge, rawBytes, keptBytes, kept]
      omega
  | rawPush _ w' _ log hpc hb hr' hopen hacc =>
    apply Balance.mk
    · rw [tlsCharge_eq me w' hr', hb, tlsCharge, hpc]
      rfl
    · rfl
    · rw [rawCharge_eq w' hr', rawCharge, hpc]
      simp only [rawBytes, keptBytes, kept, List.map_append, List.map_cons, List.map_nil,
        List.sum_append, List.sum_cons, List.sum_nil, rawItem_size]
      omega
  | rawRelease _ w' _ log hpc hb hr' =>
    have hc : rawCharge w = log.size := by rw [rawCharge, hpc]
    apply Balance.mk
    · rw [tlsCharge_eq me w' hr', hb, tlsCharge, hpc]
      rfl
    · rfl
    · rw [rawCharge_eq w' hr', hc]
      simp only [releaseQueueReservationLocked, rawBytes, keptBytes, kept]
      omega
  | keyed _ _ m hr hk => exact Balance.still rfl rfl rfl ⟨rfl, rfl⟩ ⟨rfl, rfl⟩ (keptBytes_keeps hk)
  | store _ w' _ p' kv old b hkv hb hr hr' hsp hfill hext =>
    have hkept := hfill.bytes hext
    obtain ⟨d, m, l, n, f, he⟩ := hfill.frame
    subst he
    apply Balance.mk
    · rw [tlsCharge_eq me w' hr', tlsCharge_eq me w hr, hb]
    · rfl
    · rw [rawCharge_eq w' hr', rawCharge_eq w hr]
      simp only [rawBytes, keptBytes, kept] at hkept ⊢
      omega
  | openSlot _ _ p' old b hr hfill hext =>
    have hkept := hfill.bytes hext
    obtain ⟨d, m, l, n, f, he⟩ := hfill.frame
    subst he
    exact Balance.still rfl rfl rfl ⟨rfl, rfl⟩ ⟨rfl, rfl⟩ hkept
  | closeBegin _ _ => exact ⟨rfl, rfl, rfl⟩
  | stop _ w' _ hd hb hr hr' =>
    refine Balance.still ?_ ?_ rfl ⟨rfl, rfl⟩ ⟨rfl, rfl⟩ rfl
    · rw [tlsCharge_eq me w' hr', tlsCharge_eq me w hr, hb]
    · rw [rawCharge_eq w' hr', rawCharge_eq w hr]
  | stopSendQueue _ w' _ hb hr hr' =>
    refine Balance.still ?_ ?_ rfl ⟨rfl, rfl⟩ ⟨rfl, rfl⟩ rfl
    · rw [tlsCharge_eq me w' hr', tlsCharge_eq me w hr, hb]
    · rw [rawCharge_eq w' hr', rawCharge_eq w hr]

/-- A loss takes the thread's charge off `tlsBytes` and nothing else. -/
theorem Loss.balance {me : ℕ} {w : Writer} {p : Producer} {r : Writer × Producer}
    (h : Loss cfg me (w, p) r) (htls : tlsCharge me w ≤ p.tlsBytes) :
    Balance cfg me (w, p) r := by
  cases h with
  | leave _ w' _ hne hr hr' =>
    have hnew : tlsCharge me w' = 0 := by rw [tlsCharge_eq me w' hr', if_neg hne]
    have hraw := (rawCharge_eq w' hr').trans (rawCharge_eq w hr).symm
    by_cases hown : w.batch.producer = some me
    · have hc := tlsCharge_own me w hown hr
      rw [leaveBatch, if_pos hown]
      apply Balance.mk
      · rw [hnew]
        dsimp only
        rw [wrapSub_eq _ _ (by omega)]
        omega
      · rfl
      · rw [hraw]
        rfl
    · have hc : tlsCharge me w = 0 := by rw [tlsCharge_eq me w hr, if_neg hown]
      rw [leaveBatch, if_neg hown]
      exact Balance.still (hnew.trans hc.symm) hraw rfl ⟨rfl, rfl⟩ ⟨rfl, rfl⟩ rfl
  | overflow _ w' _ kv flush hown hpc hadd hb hr' =>
    have hc := tlsCharge_reserved me w kv flush hown hpc
    have hlen := tlsBuilder_len cfg w
    have hnew : tlsCharge me w' = 0 := by
      rw [tlsCharge_own me w' (by rw [hb]; exact hown) hr', hb]
      rfl
    apply Balance.mk
    · rw [hnew]
      simp only [countDropped]
      rw [wrapSub_eq p.tlsBytes _ (by omega), wrapSub_eq _ _ (by omega)]
      omega
    · rfl
    · rw [rawCharge_eq w' hr', rawCharge, hpc]
      rfl
  | discard _ w' _ rc hown hpc hb hr' =>
    have hr : Unreserved w.pc := by rw [hpc]; trivial
    have hc := tlsCharge_own me w hown hr
    have hlen := tlsBuilder_len cfg w
    have hnew : tlsCharge me w' = 0 := by
      rw [tlsCharge_own me w' (by rw [hb]; exact hown) hr', hb]
      rfl
    apply Balance.mk
    · rw [hnew]
      dsimp only
      rw [wrapSub_eq _ _ (by omega)]
      omega
    · rfl
    · rw [rawCharge_eq w' hr', rawCharge_eq w hr]
      rfl

end Writer

namespace Worker

structure Balance (cfg : Config) (a b : Worker × Producer) : Prop where
  tls : b.2.tlsBytes = a.2.tlsBytes
  ingress : b.2.ingressQueueBytes+ingressBytes a.2 = a.2.ingressQueueBytes+ingressBytes b.2
  queue : b.2.queueBytes+rawBytes a.2+keptBytes cfg a.2+queueCharge a.1 =
    a.2.queueBytes+rawBytes b.2+keptBytes cfg b.2+queueCharge b.1

theorem Balance.still {a b : Worker × Producer} (hq : queueCharge b.1 = queueCharge a.1)
    (h₁ : b.2.tlsBytes = a.2.tlsBytes)
    (h₂ : b.2.ingressQueue = a.2.ingressQueue ∧ b.2.ingressQueueBytes = a.2.ingressQueueBytes)
    (h₃ : b.2.queue = a.2.queue ∧ b.2.queueBytes = a.2.queueBytes)
    (h₄ : keptBytes cfg b.2 = keptBytes cfg a.2) : Balance cfg a b := by
  apply Balance.mk h₁
  · rw [h₂.2, ingressBytes, ingressBytes, h₂.1]
  · rw [hq, h₃.2, h₄, rawBytes, rawBytes, h₃.1]

theorem done_queueCharge (j : Job) (w : Worker) (hj : job w.pc = some j) :
    queueCharge (done j w) = queueCharge w := by
  have hb : pcBytes w.pc = j.builderBytes.getD 0 := by
    cases hpc : w.pc <;> simp_all [job, pcBytes]
  unfold done queueCharge
  rw [hb]
  cases j.builderBytes <;> rfl

/-- A batch popped from the ingress queue is taken off its counter. -/
theorem pop_ingress (p : Producer) (t : IngressTask) (rest : List IngressTask)
    (hi : p.ingressQueue = t::rest) (hle : ingressBytes p ≤ p.ingressQueueBytes) :
    p.ingressQueueBytes-t.batch.logsLen+ingressBytes p =
      p.ingressQueueBytes+(rest.map fun t => t.batch.logsLen).sum := by
  have hc : ingressBytes p = t.batch.logsLen+(rest.map fun t => t.batch.logsLen).sum := by
    rw [ingressBytes, hi, List.map_cons, List.sum_cons]
  omega

theorem Move.balance {w : Worker} {p : Producer} {r : Worker × Producer}
    (h : Move cfg (w, p) r) (hing : ingressBytes p ≤ p.ingressQueueBytes)
    (hle : rawBytes p+queueCharge w ≤ p.queueBytes) : Balance cfg (w, p) r := by
  cases h with
  | idle _ w' _ p' hq hsame =>
    obtain ⟨f, n, k, l, _, _, rfl⟩ := hq
    exact Balance.still hsame.queueCharge rfl ⟨rfl, rfl⟩ ⟨rfl, rfl⟩ rfl
  | keyed _ _ m hk => exact Balance.still rfl rfl ⟨rfl, rfl⟩ ⟨rfl, rfl⟩ (keptBytes_keeps hk)
  | skip _ _ t rest hi he => exact ⟨rfl, pop_ingress p t rest hi hing, rfl⟩
  | refuse _ _ t rest hi => exact ⟨rfl, pop_ingress p t rest hi hing, rfl⟩
  | merge _ _ p' t rest old b hi hfill hext =>
    have hkept := hfill.bytes hext
    obtain ⟨d, m, l, n, f, he⟩ := hfill.frame
    subst he
    refine ⟨rfl, pop_ingress p t rest hi hing, ?_⟩
    simp only [ingressQueuePopLocked, rawBytes, keptBytes, kept] at hkept ⊢
    omega
  | begin _ _ hf hr =>
    have hc : queueCharge w = 0 := by
      cases hpc : w.pc <;> simp_all [queueCharge, pcBytes, job, flushing]
    exact Balance.still hc.symm rfl ⟨rfl, rfl⟩ ⟨rfl, rfl⟩ rfl
  | sealUp _ _ p' b hfill =>
    have hkept := hfill.bytes (⟨by simp, by simp, by simp⟩ : Extends (some b) [] 0 0 b)
    obtain ⟨d, m, l, n, f, he⟩ := hfill.frame
    subst he
    exact Balance.still rfl rfl ⟨rfl, rfl⟩ ⟨rfl, rfl⟩ hkept
  | take _ =>
    refine ⟨rfl, rfl, ?_⟩
    simp only [takeSealed, rawBytes, keptBytes, kept, queueCharge, List.map_append, List.map_map,
      List.sum_append, List.map_nil, List.sum_nil, Function.comp_def]
    omega
  | rawPop _ _ item rest hpc hi =>
    have hc : rawBytes p = item.size+(rest.map RawItem.size).sum := by
      rw [rawBytes, hi, List.map_cons, List.sum_cons]
    have hsize : item.size ≤ p.queueBytes := by omega
    refine ⟨rfl, rfl, ?_⟩
    dsimp only
    rw [wrapSub_eq _ _ hsize]
    simp only [rawBytes, keptBytes, kept, queueCharge, hpc, pcBytes, job, Option.bind_some,
      Option.bind_none, Option.getD_none] at hc ⊢
    omega
  | scratchReserve _ w' _ bytes hsame hsp =>
    exact Balance.still hsame.queueCharge rfl ⟨rfl, rfl⟩ ⟨rfl, rfl⟩ rfl
  | scratchRelease _ w' _ bytes hsame =>
    exact Balance.still hsame.queueCharge rfl ⟨rfl, rfl⟩ ⟨rfl, rfl⟩ rfl
  | sendReserve _ _ j now hpc hsp =>
    have hc : queueCharge { w with pc := .push j now } = queueCharge w := by
      rcases hpc with hpc | ⟨d, hpc⟩ <;> simp [queueCharge, hpc, pcBytes, job]
    exact Balance.still hc rfl ⟨rfl, rfl⟩ ⟨rfl, rfl⟩ rfl
  | unreserve _ _ j hpc =>
    have hc : queueCharge { w with pc := .drop j } = queueCharge w := by
      simp [queueCharge, hpc, pcBytes, job]
    exact Balance.still hc rfl ⟨rfl, rfl⟩ ⟨rfl, rfl⟩ rfl
  | drop _ _ j hpc =>
    exact Balance.still (done_queueCharge j w (by rw [hpc]; rfl)) rfl ⟨rfl, rfl⟩ ⟨rfl, rfl⟩ rfl
  | release _ _ bytes hpc =>
    have hc : queueCharge w = bytes+queueCharge (next cfg w) := by
      rw [(@next_same cfg w).queueCharge]
      simp [queueCharge, hpc, pcBytes, job]
    refine ⟨rfl, rfl, ?_⟩
    simp only [releaseQueueReservationLocked, rawBytes, keptBytes, kept] at hle ⊢
    omega
  | finish _ _ hpc =>
    have hc : queueCharge { w with pc := .top } = queueCharge w := by
      simp [queueCharge, hpc, pcBytes, job]
    exact Balance.still hc rfl ⟨rfl, rfl⟩ ⟨rfl, rfl⟩ rfl

theorem Push.balance {w : Worker} {p : Producer} {r : Worker × Producer} (h : Push (w, p) r) :
    Balance cfg (w, p) r := by
  obtain ⟨j, start, hpc, rfl⟩ := h
  have hpc' : w.pc = .push j start := hpc
  exact Balance.still (done_queueCharge j w (by rw [hpc']; rfl)) rfl ⟨rfl, rfl⟩ ⟨rfl, rfl⟩ rfl

end Worker

/-- To a sender the write side is the builders of the keys. -/
theorem Sender.Move.balance {a b : Sender.Pc × Producer} (h : Sender.Move cfg a b) :
    b.2.tlsBytes = a.2.tlsBytes ∧
      (b.2.ingressQueue = a.2.ingressQueue ∧ b.2.ingressQueueBytes = a.2.ingressQueueBytes) ∧
      (b.2.queue = a.2.queue ∧ b.2.queueBytes = a.2.queueBytes) ∧
      keptBytes cfg b.2+freedBytes b.2 = keptBytes cfg a.2+freedBytes a.2 := by
  cases h with
  | idle pc pc' p p' ha hsame =>
    obtain ⟨_, _, _, _, rfl⟩ := ha
    exact ⟨rfl, ⟨rfl, rfl⟩, ⟨rfl, rfl⟩, rfl⟩
  | keyed pc pc' p m hk hsame => exact ⟨rfl, ⟨rfl, rfl⟩, ⟨rfl, rfl⟩, keptBytes_effect hk⟩
  | take p q t rest now m hfree hring he =>
    exact ⟨rfl, ⟨rfl, rfl⟩, ⟨rfl, rfl⟩, keptBytes_effect he⟩
  | put p t m he => exact ⟨rfl, ⟨rfl, rfl⟩, ⟨rfl, rfl⟩, keptBytes_effect he⟩
  | requeue p q t next m he => exact ⟨rfl, ⟨rfl, rfl⟩, ⟨rfl, rfl⟩, keptBytes_effect he⟩
  | finish p q m gone he hg => exact ⟨rfl, ⟨rfl, rfl⟩, ⟨rfl, rfl⟩, keptBytes_effect he⟩
  | cleanup pc pc' p next m gone hsame he hg =>
    exact ⟨rfl, ⟨rfl, rfl⟩, ⟨rfl, rfl⟩, keptBytes_effect he⟩
  | _ => exact ⟨rfl, ⟨rfl, rfl⟩, ⟨rfl, rfl⟩, rfl⟩

namespace Sys

variable {st : Setup}

/-- The counters of the write side are what is charged to them. -/
structure Books (st : Setup) (s : Sys) : Prop where
  tls : s.prod.tlsBytes = total st.writerCount s.writers (Writer.tlsCharge st.me)
  ingress : s.prod.ingressQueueBytes = ingressBytes s.prod
  queue : s.prod.queueBytes = rawBytes s.prod+keptBytes st.cfg s.prod+
    total st.cfg.workerCount s.workers Worker.queueCharge+
    total st.writerCount s.writers Writer.rawCharge+freedBytes s.prod

theorem books_writer {s : Sys} (h : Books st s) (i : ℕ) (hi : i < st.writerCount)
    (r : Writer × Producer) (hb : Writer.Balance st.cfg st.me (s.writers i, s.prod) r)
    (hf : r.2.keys.freed = s.prod.keys.freed) : Books st (s.setWriter i r) := by
  have ht := total_update st.writerCount i hi s.writers (Writer.tlsCharge st.me) r.1
  have hr := total_update st.writerCount i hi s.writers Writer.rawCharge r.1
  have hfreed : freedBytes r.2 = freedBytes s.prod := by rw [freedBytes, hf, freedBytes]
  obtain ⟨h₁, h₂, h₃⟩ := h
  obtain ⟨b₁, b₂, b₃⟩ := hb
  dsimp only at b₁ b₂ b₃
  apply Books.mk
  · show r.2.tlsBytes = total st.writerCount (Function.update s.writers i r.1) _
    omega
  · show r.2.ingressQueueBytes = ingressBytes r.2
    omega
  · show r.2.queueBytes = rawBytes r.2+keptBytes st.cfg r.2+total st.cfg.workerCount s.workers _+
      total st.writerCount (Function.update s.writers i r.1) _+freedBytes r.2
    omega

theorem books_worker {s : Sys} (h : Books st s) (i : ℕ) (hi : i < st.cfg.workerCount)
    (r : Worker × Producer) (hb : Worker.Balance st.cfg (s.workers i, s.prod) r)
    (hf : r.2.keys.freed = s.prod.keys.freed) : Books st (s.setWorker i r) := by
  have hq := total_update st.cfg.workerCount i hi s.workers Worker.queueCharge r.1
  have hfreed : freedBytes r.2 = freedBytes s.prod := by rw [freedBytes, hf, freedBytes]
  obtain ⟨h₁, h₂, h₃⟩ := h
  obtain ⟨b₁, b₂, b₃⟩ := hb
  dsimp only at b₁ b₂ b₃
  apply Books.mk
  · show r.2.tlsBytes = total st.writerCount s.writers _
    omega
  · show r.2.ingressQueueBytes = ingressBytes r.2
    omega
  · show r.2.queueBytes = rawBytes r.2+keptBytes st.cfg r.2+
      total st.cfg.workerCount (Function.update s.workers i r.1) _+
      total st.writerCount s.writers _+freedBytes r.2
    omega

theorem books_move {s : Sys} (h : Books st s) (hc : Core st s) (i : ℕ) (hi : i < st.writerCount)
    (src : Writer.Pc) (r : Writer × Producer)
    (hm : Writer.Move st.cfg st.me src (s.writers i, s.prod) r) : Books st (s.setWriter i r) := by
  have htls := le_total st.writerCount i hi s.writers (Writer.tlsCharge st.me)
  have hraw := le_total st.writerCount i hi s.writers Writer.rawCharge
  have h₁ := h.tls
  have h₃ := h.queue
  exact books_writer h i hi r (hm.balance (by omega) (by omega)) (hm.frame hc.sound).freed

theorem books_loss {s : Sys} (h : Books st s) (hc : Core st s) (i : ℕ) (hi : i < st.writerCount)
    (r : Writer × Producer) (hl : Writer.Loss st.cfg st.me (s.writers i, s.prod) r) :
    Books st (s.setWriter i r) := by
  have htls := le_total st.writerCount i hi s.writers (Writer.tlsCharge st.me)
  have h₁ := h.tls
  exact books_writer h i hi r (hl.balance (by omega)) (hl.frame hc.sound).freed

theorem books_work {s : Sys} (h : Books st s) (hc : Core st s) (i : ℕ)
    (hi : i < st.cfg.workerCount) (r : Worker × Producer)
    (hm : Worker.Move st.cfg (s.workers i, s.prod) r) : Books st (s.setWorker i r) := by
  have hq := le_total st.cfg.workerCount i hi s.workers Worker.queueCharge
  have h₂ := h.ingress
  have h₃ := h.queue
  exact books_worker h i hi r (hm.balance (by omega) (by omega)) (hm.frame hc.sound).freed

theorem books_send {s : Sys} (h : Books st s) (i : ℕ) (r : Sender.Pc × Producer)
    (hm : Sender.Move st.cfg (s.senders i, s.prod) r) : Books st (s.setSender i r) := by
  obtain ⟨h₁, h₂, h₃⟩ := h
  obtain ⟨b₁, b₂, b₃, b₄⟩ := hm.balance
  dsimp only at b₁ b₂ b₃ b₄
  apply Books.mk
  · exact b₁.trans h₁
  · show r.2.ingressQueueBytes = ingressBytes r.2
    rw [b₂.2, ingressBytes, b₂.1]
    exact h₂
  · show r.2.queueBytes = rawBytes r.2+keptBytes st.cfg r.2+total st.cfg.workerCount s.workers _+
      total st.writerCount s.writers _+freedBytes r.2
    rw [b₃.2, rawBytes, b₃.1, ← rawBytes]
    omega

theorem books_step (s s' : Sys) (a : Act) (hgood : Good st s) (hi : Books st s)
    (h : step st s a = some s') : Books st s' :=
  step_rule (Books st) s s' a hgood hi
    (fun _ i r hlt hc hI hm => books_move hI hc i hlt _ r hm)
    (fun i r hlt _ hl => books_loss hi hgood.toCore i hlt r hl)
    (fun _ i r hlt hc hI hm => books_work hI hc i hlt r hm)
    (fun i r hlt _ hp => books_worker hi i hlt r hp.balance (hp.frame hgood.sound).freed)
    (fun i r _ _ hm => books_send hi i r hm) h

theorem books_start (st : Setup) : Books st (start st) := by
  have hlive : KeyMap.live st.cfg.toKeyConfig (KeyMap.empty : KeyMap SendTask Builder) = [] := by
    simp [KeyMap.live, KeyMap.empty]
  have hk : keptBytes st.cfg (start st).prod = 0 := by
    simp [keptBytes, kept, start, producerCreate, KeyMap.builders, hlive]
  apply Books.mk
  · exact (Threads.total_eq_zero _ (start st).writers _ (fun _ => rfl)).symm
  · rfl
  · rw [Threads.total_eq_zero _ (start st).workers Worker.queueCharge (fun _ => rfl),
      Threads.total_eq_zero _ (start st).writers Writer.rawCharge (fun _ => rfl), hk]
    rfl

end Sys

end VeTls
