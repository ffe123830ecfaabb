import VeTls.Keys.Slack
import VeTls.Pipeline.Runs

/-!
# Queues with a reason

A key queue that is slack in the key map has a reason to be there: logs in
its builder, or a batch of its key that is on the way to it. `Tidy` says so
of the producer, where `W` are the keys of the batches that threads have in
their hands. Writers keep it as long as the builder of a key takes every log
that its queue was opened for.
-/

set_option autoImplicit false

namespace VeTls

open VeTls.Keys (Addr CStr KeyMap Info)
open VeTls.Keys.KeyMap (Sound Held Slack Tightens Opens)

variable {cfg : Config} {W : CStr → Prop}

theorem normalizeHashKey_idem (cfg : Config) (k : CStr) :
    cfg.normalizeHashKey (cfg.normalizeHashKey k) = cfg.normalizeHashKey k := by
  cases k with
  | nil =>
    simp only [Config.normalizeHashKey, List.isEmpty_nil, if_true]
    split <;> rfl
  | cons c k => rfl

theorem normalizeHashKey_hashKey (cfg : Config) :
    cfg.normalizeHashKey cfg.hashKey = cfg.hashKey := by
  unfold Config.normalizeHashKey
  split <;> rfl

def sealedKeys (cfg : Config) (p : Producer) : List CStr :=
  p.sealedList.map fun s => cfg.normalizeHashKey s.builder.normKey

def sendKeys (cfg : Config) (p : Producer) : List CStr :=
  p.sendQueue.map fun t => cfg.normalizeHashKey t.hashKey

/-- A batch of the key is sealed, in the send queue or in some hands. -/
def Coming (cfg : Config) (p : Producer) (W : CStr → Prop) (k : CStr) : Prop :=
  k ∈ sealedKeys cfg p ∨ k ∈ sendKeys cfg p ∨ W k

structure Tidy (cfg : Config) (W : CStr → Prop) (p : Producer) : Prop where
  sound : Sound cfg.toKeyConfig p.keys
  used : ∀ q, Slack cfg.toKeyConfig p.keys q → builderLogs (p.keys.info q).builder = true ∨
    Coming cfg p W (p.keys.info q).key
  named : ∀ q ∈ KeyMap.live cfg.toKeyConfig p.keys, ∀ b, (p.keys.info q).builder = some b →
    cfg.normalizeHashKey b.normKey = (p.keys.info q).key
  ingress : ∀ t ∈ p.ingressQueue, t.normKey = cfg.hashKey
  idle : ∀ q, (p.keys.info q).idle = true → cfg.keyQueueIdleTtlMs > 0
  fast : cfg.fastSend = true → KeyMap.live cfg.toKeyConfig p.keys = []

/-- Nothing happens to the keys, and no batch is lost. -/
theorem Tidy.mono {W' : CStr → Prop} {p p' : Producer} (h : Tidy cfg W p)
    (hk : p'.keys = p.keys) (hi : ∀ t ∈ p'.ingressQueue, t ∈ p.ingressQueue ∨ t.normKey = cfg.hashKey)
    (hw : ∀ k, Coming cfg p W k → Coming cfg p' W' k) : Tidy cfg W' p' := by
  refine ⟨hk ▸ h.sound, ?_, hk ▸ h.named, ?_, hk ▸ h.idle, hk ▸ h.fast⟩
  · rw [hk]
    intro q hq
    exact (h.used q hq).imp id (hw _)
  · intro t ht
    rcases hi t ht with ht | ht
    · exact h.ingress t ht
    · exact ht

theorem Tidy.weaken {W' : CStr → Prop} {p : Producer} (h : Tidy cfg W p)
    (hw : ∀ k, W k → W' k) : Tidy cfg W' p :=
  h.mono rfl (fun _ ht => Or.inl ht) fun k hk => hk.imp id (Or.imp id (hw k))

/-- What the scheduler does leaves the producer tidy. -/
theorem Tidy.tighten {p : Producer} {m : KeyMap SendTask Builder} (h : Tidy cfg W p)
    (hs : Sound cfg.toKeyConfig m) (ht : Tightens cfg.toKeyConfig p.keys m) :
    Tidy cfg W { p with keys := m } := by
  refine ⟨hs, ?_, ?_, h.ingress, ?_, ?_⟩
  · intro q hq
    obtain ⟨_, hk, hb⟩ := ht.live q hq.live
    change builderLogs (m.info q).builder = true ∨ Coming cfg p W (m.info q).key
    rw [hk, hb]
    exact h.used q (ht.slack q hq)
  · intro q hq b hbuilder
    obtain ⟨hl, hk, hb⟩ := ht.live q hq
    rw [hk]
    exact h.named q hl b (hb ▸ hbuilder)
  · intro q hq
    exact (ht.idle q hq).elim (h.idle q) id
  · intro hf
    apply List.eq_nil_iff_forall_not_mem.mpr
    intro q hq
    have := (ht.live q hq).1
    rw [h.fast hf] at this
    simp at this

/-- A lookup or creation is in order while a batch of the key is coming. -/
theorem Tidy.opens {p : Producer} {m : KeyMap SendTask Builder} {key : CStr} (h : Tidy cfg W p)
    (hs : Sound cfg.toKeyConfig m) (ho : Opens cfg.toKeyConfig key p.keys m)
    (hf : cfg.fastSend = false) : Tidy cfg (fun k => W k ∨ k = key) { p with keys := m } := by
  refine ⟨hs, ?_, ?_, h.ingress, ?_, by simp [hf]⟩
  · intro q hq
    change builderLogs (m.info q).builder = true ∨
      Coming cfg p (fun k => W k ∨ k = key) (m.info q).key
    rcases ho.live q hq.live with ⟨_, hk, hb⟩ | ⟨hk, _⟩
    · rcases ho.slack q hq with hslack | hkey
      · rw [hk, hb]
        exact (h.used q hslack).imp id fun hc => hc.imp id (Or.imp id Or.inl)
      · exact Or.inr (Or.inr (Or.inr (Or.inr hkey)))
    · exact Or.inr (Or.inr (Or.inr (Or.inr hk)))
  · intro q hq b hbuilder
    rcases ho.live q hq with ⟨hl, hk, hb⟩ | ⟨_, hb⟩
    · rw [hk]
      exact h.named q hl b (hb ▸ hbuilder)
    · simp [hb] at hbuilder
  · intro q hq
    exact h.idle q (ho.idle q hq)

/-- The one queue of a key can be dealt with apart from the others. -/
theorem Tidy.used_other {p : Producer} {key : CStr} (h : Tidy cfg (fun k => W k ∨ k = key) p)
    (q a : Addr) (hq : q ∈ KeyMap.live cfg.toKeyConfig p.keys) (hk : (p.keys.info q).key = key)
    (hne : a ≠ q) (ha : Slack cfg.toKeyConfig p.keys a) :
    builderLogs (p.keys.info a).builder = true ∨ Coming cfg p W (p.keys.info a).key := by
  refine (h.used a ha).imp id fun hc => hc.imp id (Or.imp id fun hw => ?_)
  rcases hw with hw | hw
  · exact hw
  · exact absurd (h.sound.hashed.key a q ha.live hq (hw.trans hk.symm)) hne

section Builders

variable {p : Producer} {key : CStr} (h : Tidy cfg (fun k => W k ∨ k = key) p) (q : Addr)
  (hq : q ∈ KeyMap.live cfg.toKeyConfig p.keys) (hk : (p.keys.info q).key = key)

include h hq hk

/-- The slack queues are the same when only a builder is exchanged. -/
theorem Tidy.setBuilder (b : Option Builder)
    (hb : ∀ x, b = some x → cfg.normalizeHashKey x.normKey = key)
    (hcome : builderLogs b = true ∨ W key) : Tidy cfg W (setSlot b p (.key q)) := by
  have hinfo : ∀ a, a ≠ q → (setSlot b p (.key q)).keys.info a = p.keys.info a :=
    fun a ha => KeyMap.setInfo_other q a (fun i => { i with builder := b }) p.keys ha
  have hself : (setSlot b p (.key q)).keys.info q = { p.keys.info q with builder := b } :=
    KeyMap.setInfo_self q (fun i => { i with builder := b }) p.keys
  have hlive : KeyMap.live cfg.toKeyConfig (setSlot b p (.key q)).keys =
      KeyMap.live cfg.toKeyConfig p.keys := rfl
  refine ⟨?_, ?_, ?_, h.ingress, ?_, ?_⟩
  · exact KeyMap.setInfo_sound h.sound q (fun i => { i with builder := b })
      fun _ => ⟨rfl, rfl, rfl, rfl, rfl, rfl, rfl⟩
  · intro a ha
    by_cases hne : a = q
    · subst hne
      rw [hself]
      exact hcome.imp id fun hw => Or.inr (Or.inr (hk ▸ hw))
    · have hi := ha.idle
      have hf := ha.inflight
      rw [hinfo a hne] at hi hf ⊢
      exact h.used_other q a hq hk hne ⟨hlive ▸ ha.live, hi, ha.tasks, hf⟩
  · intro a ha x hx
    by_cases hne : a = q
    · subst hne
      rw [hself] at hx ⊢
      exact (hb x hx).trans hk.symm
    · rw [hinfo a hne] at hx ⊢
      exact h.named a (hlive ▸ ha) x hx
  · intro a ha
    by_cases hne : a = q
    · subst hne
      rw [hself] at ha
      exact h.idle a ha
    · rw [hinfo a hne] at ha
      exact h.idle a ha
  · rw [hlive]
    exact h.fast

theorem Tidy.sealSlot (b : Builder) (hb : cfg.normalizeHashKey b.normKey = key) :
    Tidy cfg W (sealSlot (.key q) b p) := by
  have hmore : Tidy cfg (fun k => (W k ∨ k = key) ∨ k = key) p := h.weaken fun k => Or.inl
  have hset := hmore.setBuilder q hq hk none nofun (Or.inr (Or.inr rfl))
  refine hset.mono rfl (fun _ ht => Or.inl ht) ?_
  intro k hc
  rcases hc with hc | hc | hc | hc
  · left
    rw [sealedKeys, VeTls.sealSlot, List.map_append]
    exact List.mem_append_left _ hc
  · exact Or.inr (Or.inl hc)
  · exact Or.inr (Or.inr hc)
  · exact Or.inl (by simp [sealedKeys, VeTls.sealSlot, hb, hc])

theorem Tidy.storeBuilder (flush : Bool) (b : Builder) (hb : cfg.normalizeHashKey b.normKey = key)
    (hlogs : 0 < b.logCount) : Tidy cfg W (storeBuilder cfg flush (.key q) b p) := by
  unfold VeTls.storeBuilder
  split
  · exact (h.sealSlot q hq hk b hb).mono rfl (fun _ ht => Or.inl ht) fun _ hc => hc
  · refine h.setBuilder q hq hk (some b) ?_ (Or.inl (by simp [builderLogs, hlogs]))
    intro x hx
    obtain rfl := Option.some.inj hx
    exact hb

end Builders

/-- The default builder is nobody's queue. -/
theorem Tidy.sealDefault {p : Producer} (h : Tidy cfg W p) (b : Builder) :
    Tidy cfg W (VeTls.sealSlot .default b p) := by
  refine h.mono rfl (fun _ ht => Or.inl ht) fun k hc => hc.imp (fun hs => ?_) id
  rw [sealedKeys, VeTls.sealSlot, List.map_append]
  exact List.mem_append_left _ hs

theorem Tidy.storeDefault {p : Producer} (h : Tidy cfg W p) (flush : Bool) (b : Builder) :
    Tidy cfg W (VeTls.storeBuilder cfg flush .default b p) := by
  unfold VeTls.storeBuilder
  split
  · exact (h.sealDefault b).mono rfl (fun _ ht => Or.inl ht) fun _ hc => hc
  · exact h.mono rfl (fun _ ht => Or.inl ht) fun _ hc => hc

/-- A slot that was found for a log of the key. Until the log is in its
builder, a queue may be there for nothing else. -/
def SlotTidy (cfg : Config) (W : CStr → Prop) (key : CStr) (p : Producer) : Slot → Prop
  | .default => Tidy cfg W p
  | .key q => Tidy cfg (fun k => W k ∨ k = key) p ∧ q ∈ KeyMap.live cfg.toKeyConfig p.keys ∧
      (p.keys.info q).key = key

/-- A key that is refused has no queue. -/
theorem keyQueueGetOrCreate_none (m : KeyMap SendTask Builder) (key : CStr) (addr : Addr)
    (hn : (KeyMap.keyQueueGetOrCreate cfg.toKeyConfig addr key m).1 = none) :
    (KeyMap.keyQueueGetOrCreate cfg.toKeyConfig addr key m).2 = m ∧
      KeyMap.lookup cfg.toKeyConfig key m = none := by
  unfold KeyMap.keyQueueGetOrCreate at hn ⊢
  cases hl : KeyMap.lookup cfg.toKeyConfig key m with
  | some q => simp [hl] at hn
  | none =>
    simp only [hl] at hn ⊢
    split
    · exact ⟨rfl, trivial⟩
    · rename_i ha
      simp [ha] at hn

theorem findSlot_tidy {p : Producer} (h : Tidy cfg W p) (useDefault : Bool) (key : CStr)
    (addr : Addr) (ha : addr ∉ KeyMap.live cfg.toKeyConfig p.keys)
    (hf : useDefault = true ∨ cfg.fastSend = false) :
    ((findSlot cfg p useDefault key addr).1 = none → Tidy cfg W (findSlot cfg p useDefault key addr).2) ∧
      ∀ slot, (findSlot cfg p useDefault key addr).1 = some slot →
        SlotTidy cfg W key (findSlot cfg p useDefault key addr).2 slot := by
  unfold findSlot
  split
  · rename_i hd
    refine ⟨nofun, ?_⟩
    intro slot he
    obtain rfl := Option.some.inj he
    exact h
  · rename_i hd
    obtain ⟨hs, hspec⟩ := KeyMap.keyQueueGetOrCreate_spec h.sound addr key ha
    constructor
    · intro hn
      rw [(keyQueueGetOrCreate_none p.keys key addr (Option.map_eq_none_iff.mp hn)).1]
      exact h
    · intro slot he
      obtain ⟨q, hq, rfl⟩ := Option.map_eq_some_iff.mp he
      obtain ⟨hlive, _, hkey⟩ := hspec q hq
      exact ⟨h.opens hs (KeyMap.keyQueueGetOrCreate_opens h.sound addr key ha)
        (hf.resolve_left hd), hlive, hkey⟩

theorem openBuilder_named {p : Producer} {key : CStr} (q : Addr) (now : ℤ)
    (h : SlotTidy cfg W key p (.key q)) (hkey : cfg.normalizeHashKey key = key) :
    cfg.normalizeHashKey (openBuilder p (.key q) key now).normKey = key := by
  obtain ⟨ht, hlive, hname⟩ := h
  unfold openBuilder
  change cfg.normalizeHashKey (((p.keys.info q).builder).getD _).normKey = key
  cases hb : (p.keys.info q).builder with
  | none => exact hkey
  | some b => exact (ht.named q hlive b hb).trans hname

theorem addKv_normKey (b b' : Builder) (id : ℤ) (kv : Wire.KvLog)
    (h : logBuilderAddKvLens b id kv = some b') : b'.normKey = b.normKey ∧ 0 < b'.logCount := by
  unfold logBuilderAddKvLens at h
  dsimp only at h
  split at h
  · simp at h
  · obtain rfl := Option.some.inj h
    exact ⟨rfl, Nat.succ_pos _⟩

theorem append_normKey (b tb b' : Builder) (h : logBuilderAppend b tb = some b') :
    b'.normKey = b.normKey ∧ 0 < b'.logCount := by
  unfold logBuilderAppend at h
  split at h
  · simp at h
  · rename_i hn
    obtain rfl := Option.some.inj h
    refine ⟨rfl, ?_⟩
    change 0 < b.logCount+tb.logCount
    omega

/-- A builder that has got logs goes back to its slot, or is sealed. -/
theorem SlotTidy.store {p : Producer} {key : CStr} {slot : Slot} (h : SlotTidy cfg W key p slot)
    (flush : Bool) (b : Builder) (hb : slot ≠ .default → cfg.normalizeHashKey b.normKey = key)
    (hlogs : 0 < b.logCount) : Tidy cfg W (storeBuilder cfg flush slot b p) := by
  cases slot with
  | default => exact Tidy.storeDefault h flush b
  | key q => exact h.1.storeBuilder q h.2.1 h.2.2 flush b (hb nofun) hlogs

/-- Fields that nothing here reads may change. -/
theorem SlotTidy.mono {p p' : Producer} {key : CStr} {slot : Slot} (h : SlotTidy cfg W key p slot)
    (hk : p'.keys = p.keys) (hi : p'.ingressQueue = p.ingressQueue)
    (hs : p'.sealedList = p.sealedList) (hq : p'.sendQueue = p.sendQueue) :
    SlotTidy cfg W key p' slot := by
  have hmono : ∀ V : CStr → Prop, Tidy cfg V p → Tidy cfg V p' := by
    intro V hV
    refine hV.mono hk (fun t ht => Or.inl (hi ▸ ht)) fun k hc => ?_
    unfold Coming sealedKeys sendKeys at hc ⊢
    rwa [hs, hq]
  cases slot with
  | default => exact hmono W h
  | key q =>
    unfold SlotTidy at h ⊢
    rw [hk]
    exact ⟨hmono _ h.1, h.2⟩

/-- The builder a log of the key would go to. -/
def keyBuilder (cfg : Config) (p : Producer) (key : CStr) : Builder :=
  ((KeyMap.lookup cfg.toKeyConfig key p.keys).bind fun q => (p.keys.info q).builder).getD
    (logBuilderCreate key)

/-- A log that goes to the queue of a key is taken by its builder, and there
are senders that look after the queue. -/
def AddFits (cfg : Config) (p : Producer) (kv : Wire.KvLog) (hashKey : CStr) : Prop :=
  (cfg.fastBuilder && hashKey.isEmpty) = true ∨ cfg.fastSend = false ∧
    (logBuilderAddKvLens (keyBuilder cfg p (cfg.normalizeHashKey hashKey)) 0 kv).isSome = true

instance decidableAddFits (p : Producer) (kv : Wire.KvLog) (hashKey : CStr) :
    Decidable (AddFits cfg p kv hashKey) :=
  inferInstanceAs (Decidable (_ ∨ _ ∧ _))

/-- Whether a builder takes a log depends on its length only. -/
theorem addKv_isSome (b b' : Builder) (id id' : ℤ) (kv : Wire.KvLog) (h : b.logsLen = b'.logsLen) :
    (logBuilderAddKvLens b id kv).isSome = (logBuilderAddKvLens b' id' kv).isSome := by
  unfold logBuilderAddKvLens
  dsimp only
  rw [h]
  split <;> rfl

/-- The queue that is found or created for a key has the key's builder. -/
theorem openBuilder_len (cfg : Config) (p : Producer) (key : CStr) (addr : Addr) (now : ℤ) (q : Addr)
    (hq : (findSlot cfg p false key addr).1 = some (.key q)) :
    (openBuilder (findSlot cfg p false key addr).2 (.key q) key now).logsLen =
      (keyBuilder cfg p key).logsLen := by
  have hget : (KeyMap.keyQueueGetOrCreate cfg.toKeyConfig addr key p.keys).1 = some q := by
    simpa [findSlot] using hq
  have hinfo : ((findSlot cfg p false key addr).2.keys.info q).builder =
      (KeyMap.lookup cfg.toKeyConfig key p.keys).bind fun q => (p.keys.info q).builder := by
    change ((KeyMap.keyQueueGetOrCreate cfg.toKeyConfig addr key p.keys).2.info q).builder = _
    unfold KeyMap.keyQueueGetOrCreate at hget ⊢
    cases hl : KeyMap.lookup cfg.toKeyConfig key p.keys with
    | some a =>
      simp only [hl, Option.some.injEq] at hget
      subst hget
      exact (KeyMap.idleRemove_relists a p.keys).builder
    | none =>
      simp only [hl] at hget ⊢
      split at hget
      · simp at hget
      · rename_i hlimit
        obtain rfl := Option.some.inj hget
        rw [if_neg hlimit]
        simp [KeyMap.create, Keys.blank]
  unfold openBuilder keyBuilder
  change ((((findSlot cfg p false key addr).2.keys.info q).builder).getD _).logsLen = _
  rw [hinfo]
  cases (KeyMap.lookup cfg.toKeyConfig key p.keys).bind fun q => (p.keys.info q).builder <;> rfl

/-- Nothing that matters here is different. -/
structure Alike (p p' : Producer) : Prop where
  keys : p'.keys = p.keys
  ingressQueue : p'.ingressQueue = p.ingressQueue
  sealedList : p'.sealedList = p.sealedList
  sendQueue : p'.sendQueue = p.sendQueue

theorem Alike.trans {p₁ p₂ p₃ : Producer} (h : Alike p₁ p₂) (h' : Alike p₂ p₃) : Alike p₁ p₃ :=
  ⟨h'.keys.trans h.keys, h'.ingressQueue.trans h.ingressQueue, h'.sealedList.trans h.sealedList,
    h'.sendQueue.trans h.sendQueue⟩

theorem Quiet.alike {p p' : Producer} (h : Quiet p p') : Alike p p' := by
  obtain ⟨f, n, k, l, _, _, rfl⟩ := h
  exact ⟨rfl, rfl, rfl, rfl⟩

theorem Tidy.alike {p p' : Producer} (h : Tidy cfg W p) (ha : Alike p p') : Tidy cfg W p' := by
  refine h.mono ha.keys (fun t ht => Or.inl (ha.ingressQueue ▸ ht)) fun k hc => ?_
  unfold Coming sealedKeys sendKeys at hc ⊢
  rwa [ha.sealedList, ha.sendQueue]

namespace Writer

theorem settleQueue_alike (estimated delta : ℕ) (p : Producer) :
    Alike p (settleQueue estimated delta p) := by
  unfold settleQueue
  split
  · exact ⟨rfl, rfl, rfl, rfl⟩
  · split <;> exact ⟨rfl, rfl, rfl, rfl⟩

theorem kvRefuse_alike (kv : Wire.KvLog) (id : ℤ) (w : Writer) (p : Producer) :
    Alike p (kvRefuse cfg kv id w p).2 := by
  unfold kvRefuse
  dsimp only
  split <;> exact ⟨rfl, rfl, rfl, rfl⟩

/-- The log is taken, so the queue it needed is there for it. -/
theorem kvStore_tidy {p : Producer} {key : CStr} {slot : Slot} (kv : Wire.KvLog) (id : ℤ)
    (flush : Bool) (b : Builder) (w : Writer) (h : SlotTidy cfg W key p slot)
    (hb : slot ≠ .default → cfg.normalizeHashKey b.normKey = key)
    (hfit : slot ≠ .default → (logBuilderAddKvLens b id kv).isSome = true) :
    Tidy cfg W (kvStore cfg kv id flush slot b w p).2 := by
  unfold kvStore
  split
  · rename_i hn
    cases slot with
    | default => exact Tidy.alike h ⟨rfl, rfl, rfl, rfl⟩
    | key q =>
      have hsome := hfit nofun
      simp [hn] at hsome
  · rename_i b' hadd
    obtain ⟨hkey, hlogs⟩ := addKv_normKey b b' id kv hadd
    have ha := settleQueue_alike (estimate kv) (b'.logsLen-b.logsLen) p
    have hs := h.mono ha.keys ha.ingressQueue ha.sealedList ha.sendQueue
    have ht := hs.store flush b' (fun hne => by rw [hkey]; exact hb hne) hlogs
    exact ht.alike ⟨rfl, rfl, rfl, rfl⟩

theorem kvAdd_tidy {p : Producer} (i : Input) (kv : Wire.KvLog) (hashKey : CStr) (flush : Bool)
    (w : Writer) (h : Tidy cfg W p) (ha : i.addr ∉ KeyMap.live cfg.toKeyConfig p.keys)
    (hfit : AddFits cfg p kv hashKey) : Tidy cfg W (kvAdd cfg i kv hashKey flush w p).2 := by
  have hr : Tidy cfg W (kvReserve kv p) := h.alike ⟨rfl, rfl, rfl, rfl⟩
  obtain ⟨hnone, hsome⟩ := findSlot_tidy hr (cfg.fastBuilder && hashKey.isEmpty)
    (cfg.normalizeHashKey hashKey) i.addr ha (hfit.imp id And.left)
  unfold kvAdd
  dsimp only
  split
  · rename_i p' he
    rw [he] at hnone
    exact (hnone rfl).alike (kvRefuse_alike kv p.nextId w p')
  · rename_i slot p' he
    rw [he] at hsome
    have hs := hsome slot rfl
    apply kvStore_tidy kv p.nextId flush _ w hs
    · intro hne
      cases slot with
      | default => exact absurd rfl hne
      | key q => exact openBuilder_named q i.now2 hs (normalizeHashKey_idem cfg hashKey)
    · intro hne
      cases slot with
      | default => exact absurd rfl hne
      | key q =>
        have hd : (cfg.fastBuilder && hashKey.isEmpty) = false := by
          by_contra hd
          simp only [Bool.not_eq_false] at hd
          rw [hd] at he
          simp [findSlot] at he
        rw [hd] at he
        have hlen := openBuilder_len cfg (kvReserve kv p) (cfg.normalizeHashKey hashKey) i.addr i.now2
          q (by rw [he])
        rw [he] at hlen
        rw [addKv_isSome _ _ _ 0 kv hlen]
        exact (hfit.resolve_left (by simp [hd])).2

/-- What a writer does outside of an add under a key: at most it publishes
its batch. -/
structure Publishes (cfg : Config) (p p' : Producer) : Prop where
  keys : p'.keys = p.keys
  ingressQueue : ∀ t ∈ p'.ingressQueue, t ∈ p.ingressQueue ∨ t.normKey = cfg.hashKey
  sealedList : p'.sealedList = p.sealedList
  sendQueue : p'.sendQueue = p.sendQueue

theorem Publishes.of_alike {p p' : Producer} (h : Alike p p') : Publishes cfg p p' :=
  ⟨h.keys, fun _ ht => Or.inl (h.ingressQueue ▸ ht), h.sealedList, h.sendQueue⟩

theorem Publishes.refl (p : Producer) : Publishes cfg p p := .of_alike ⟨rfl, rfl, rfl, rfl⟩

theorem Publishes.trans {p₁ p₂ p₃ : Producer} (h : Publishes cfg p₁ p₂)
    (h' : Publishes cfg p₂ p₃) : Publishes cfg p₁ p₃ := by
  refine ⟨h'.keys.trans h.keys, ?_, h'.sealedList.trans h.sealedList, h'.sendQueue.trans h.sendQueue⟩
  intro t ht
  rcases h'.ingressQueue t ht with ht | ht
  · exact h.ingressQueue t ht
  · exact Or.inr ht

theorem Publishes.tidy {p p' : Producer} (hp : Publishes cfg p p') (h : Tidy cfg W p) :
    Tidy cfg W p' := by
  refine h.mono hp.keys hp.ingressQueue fun k hc => ?_
  unfold Coming sealedKeys sendKeys at hc ⊢
  rwa [hp.sealedList, hp.sendQueue]

/-- A wait changes nothing by itself. -/
theorem admitted_rule (P : Writer × Producer → Prop) (w : Writer) (again : ℤ → Pc)
    (go : Producer → Writer × Producer) (p : Producer) (need : ℕ) (r : Wait × Producer)
    (hr : Waited cfg p need false r) (hquiet : ∀ w' p', Publishes cfg p p' → P (w', p'))
    (hgo : P (go p)) : P (admitted w again go r) := by
  obtain ⟨res, p'⟩ := r
  have hq : Publishes cfg p p' := .of_alike hr.quiet.alike
  have herr : ∀ rc, Publishes cfg p (mapWaitErrorToResult rc p').2 :=
    fun rc => hq.trans (.of_alike (mapWaitErrorToResult_quiet rc p').alike)
  cases res with
  | block d => exact hquiet _ p' hq
  | rc c =>
    cases c with
    | ok =>
      obtain ⟨rfl, _⟩ := hr.ok rfl
      exact hgo
    | full => exact hquiet _ _ (herr .full)
    | closed => exact hquiet _ _ (herr .closed)
    | timeout => exact hquiet _ _ (herr .timeout)

theorem enter_rule (P : Writer × Producer → Prop) (i : Input) (bytes : ℕ) (again : ℤ → Pc)
    (go : Producer → Writer × Producer) (w : Writer) (p : Producer)
    (hquiet : ∀ w' p', Publishes cfg p p' → P (w', p')) (hgo : P (go p)) :
    P (enter cfg i bytes again go w p) := by
  unfold enter
  split
  · exact hquiet _ p (.refl p)
  · split
    · rename_i p' hd
      exact hquiet _ p' (.of_alike (ingressBreakerDropLocked_quiet p p' bytes i.now hd).alike)
    · exact admitted_rule P w again go p bytes _
        (waitBufferSpaceLocked_waited p bytes false i.now i.now2) hquiet hgo

theorem closeLoop_publishes (timeoutMs start now : ℤ) (w : Writer) (p : Producer) :
    Publishes cfg p (closeLoop cfg timeoutMs start now w p).2 := by
  unfold closeLoop
  split
  · exact .of_alike ⟨rfl, rfl, rfl, rfl⟩
  · split
    · exact .refl p
    · split <;> exact .refl p

theorem flushed_publishes (i : Input) (w : Writer) (p : Producer) (who : FlushBy) :
    Publishes cfg p (flushed cfg i w p who).2 := by
  cases who with
  | add id flush => exact .of_alike ⟨rfl, rfl, rfl, rfl⟩
  | close timeoutMs =>
    have hb : Publishes cfg p (closeBegin p) := .of_alike ⟨rfl, rfl, rfl, rfl⟩
    exact hb.trans (closeLoop_publishes timeoutMs i.now i.now2 w (closeBegin p))

theorem flushFailed_publishes (rc : WaitRc) (w : Writer) (p : Producer) (who : FlushBy) :
    Publishes cfg p (flushFailed rc w p who).2 := by
  cases who <;> exact .refl p

/-- A thread's batch has the default key. -/
theorem flushPush_publishes (i : Input) (start : ℤ) (who : FlushBy) (w : Writer) (p : Producer) :
    Publishes cfg p (flushPush cfg i start who w p).2 := by
  have hpush : Publishes cfg p (ingressQueuePushLocked cfg p cfg.hashKey (tlsBuilder cfg w)
      (forceFlush who) (ingressWaitMs cfg) start i.now2).2 := by
    unfold ingressQueuePushLocked
    split
    · split
      · exact .refl p
      · split
        · exact .refl p
        · split
          · exact .refl p
          · split <;> exact .refl p
    · refine ⟨rfl, ?_, rfl, rfl⟩
      intro t ht
      rcases List.mem_append.mp ht with ht | ht
      · exact Or.inl ht
      · obtain rfl := List.mem_singleton.mp ht
        exact Or.inr rfl
  unfold flushPush
  split
  · rename_i p' he
    rw [he] at hpush
    exact hpush
  · rename_i p' he
    rw [he] at hpush
    have hless : Publishes cfg p' { p' with
        tlsBytes := wrapSub p'.tlsBytes (tlsBuilder cfg w).logsLen } :=
      .of_alike ⟨rfl, rfl, rfl, rfl⟩
    exact (hpush.trans hless).trans (flushed_publishes i _ _ who)
  · rename_i rc p' _ he
    rw [he] at hpush
    exact hpush.trans (flushFailed_publishes rc w p' who)

theorem flushAdmit_publishes (i : Input) (who : FlushBy) (w : Writer) (p : Producer) (need : ℕ)
    (r : Wait × Producer) (hr : Waited cfg p need false r) :
    Publishes cfg p (flushAdmit cfg i who w r).2 := by
  obtain ⟨res, p'⟩ := r
  have hq : Publishes cfg p p' := .of_alike hr.quiet.alike
  unfold flushAdmit
  split
  · rename_i d q he
    obtain ⟨-, rfl⟩ := Prod.mk.inj he
    exact hq
  · rename_i q he
    obtain ⟨-, rfl⟩ := Prod.mk.inj he
    exact hq.trans (flushPush_publishes i i.now who w p')
  · rename_i rc q _ he
    obtain ⟨-, rfl⟩ := Prod.mk.inj he
    exact hq.trans (flushFailed_publishes rc w p' who)

theorem tlsBatchFlushLocked_publishes (i : Input) (who : FlushBy) (w : Writer) (p : Producer) :
    Publishes cfg p (tlsBatchFlushLocked cfg i who w p).2 := by
  unfold tlsBatchFlushLocked
  split
  · exact flushed_publishes i w p who
  · exact flushAdmit_publishes i who w p _ _
      (waitBufferSpaceLocked_waited p _ false i.now i.now2)

theorem tlsAppend_alike (kv : Wire.KvLog) (flush : Bool) (w : Writer) (p : Producer) :
    Alike p (tlsAppend cfg kv flush w p).2 := by
  unfold tlsAppend
  dsimp only
  split
  · exact ⟨rfl, rfl, rfl, rfl⟩
  · split
    · rw [settleTls_eq]
      exact ⟨rfl, rfl, rfl, rfl⟩
    · rw [settleTls_eq]
      exact ⟨rfl, rfl, rfl, rfl⟩

theorem rawPush_alike (log : RawLog) (w : Writer) (p : Producer) :
    Alike p (rawPush cfg log w p).2 := by
  unfold rawPush
  split
  · exact ⟨rfl, rfl, rfl, rfl⟩
  · dsimp only
    split <;> exact ⟨rfl, rfl, rfl, rfl⟩

/-- The condition on a step of a writer. -/
def Fits (cfg : Config) (p : Producer) : Pc → Prop
  | .kvLock kv hashKey _ | .kvWait kv hashKey _ _ => AddFits cfg p kv hashKey
  | _ => True

instance decidableFits (p : Producer) (pc : Pc) : Decidable (Fits cfg p pc) :=
  match pc with
  | .kvLock kv hashKey _ | .kvWait kv hashKey _ _ =>
    inferInstanceAs (Decidable (AddFits cfg p kv hashKey))
  | .idle | .tlsLock _ _ | .tlsWait _ _ _ | .tlsAppend _ _ | .flushLock _ _ | .flushWait _ _
  | .pushWait _ _ | .flushFail _ | .rawLock _ | .rawWait _ _ | .rawPush _ | .closeLock _
  | .closeWait _ _ | .closeStop | .closeJoin => isTrue trivial

/-- A step of a call publishes at most, or it is an add under a key. -/
theorem go_rule (P : Producer → Prop) (me : ℕ) (joined : Bool) (i : Input) (w : Writer)
    (p : Producer) (r : Writer × Producer) (hpub : ∀ p', Publishes cfg p p' → P p')
    (hadd : ∀ kv hashKey flush,
      (w.pc = .kvLock kv hashKey flush ∨ ∃ d, w.pc = .kvWait kv hashKey flush d) →
        i.addr ∉ KeyMap.live cfg.toKeyConfig p.keys → P (kvAdd cfg i kv hashKey flush w p).2)
    (hr : go cfg me joined i w p = some r) : P r.2 := by
  have hsame : ∀ p', Alike p p' → P p' := fun p' ha => hpub p' (.of_alike ha)
  have hquiet : ∀ (w' : Writer) p', Publishes cfg p p' → P p' := fun _ => hpub
  unfold go at hr
  split at hr
  · simp at hr
  · rename_i haddr
    cases hpc : w.pc with
    | idle => simp [hpc] at hr
    | tlsLock kv flush =>
      simp only [hpc, Option.some.injEq] at hr
      subst hr
      exact enter_rule (fun r => P r.2) i _ _ _ w p hquiet (hsame _ ⟨rfl, rfl, rfl, rfl⟩)
    | tlsWait kv flush deadline =>
      simp only [hpc, Option.some.injEq] at hr
      subst hr
      exact admitted_rule (fun r => P r.2) w _ _ p _ _
        (waitLoop_waited p _ false deadline i.now) hquiet (hsame _ ⟨rfl, rfl, rfl, rfl⟩)
    | tlsAppend kv flush =>
      simp only [hpc, Option.some.injEq] at hr
      subst hr
      exact hsame _ (tlsAppend_alike kv flush w p)
    | flushLock id flush =>
      simp only [hpc, Option.some.injEq] at hr
      subst hr
      exact hpub _ (tlsBatchFlushLocked_publishes i (.add id flush) w p)
    | flushWait who deadline =>
      simp only [hpc, Option.some.injEq] at hr
      subst hr
      exact hpub _ (flushAdmit_publishes i who w p _ _ (waitLoop_waited p _ false deadline i.now))
    | pushWait who start =>
      simp only [hpc, Option.some.injEq] at hr
      subst hr
      exact hpub _ (flushPush_publishes i start who w p)
    | flushFail rc =>
      simp only [hpc, Option.some.injEq] at hr
      subst hr
      exact hsame _ ⟨rfl, rfl, rfl, rfl⟩
    | rawLock log =>
      simp only [hpc, Option.some.injEq] at hr
      subst hr
      exact enter_rule (fun r => P r.2) i _ _ _ w p hquiet (hsame _ ⟨rfl, rfl, rfl, rfl⟩)
    | rawWait log deadline =>
      simp only [hpc, Option.some.injEq] at hr
      subst hr
      exact admitted_rule (fun r => P r.2) w _ _ p _ _
        (waitLoop_waited p _ false deadline i.now) hquiet (hsame _ ⟨rfl, rfl, rfl, rfl⟩)
    | rawPush log =>
      simp only [hpc, Option.some.injEq] at hr
      subst hr
      exact hsame _ (rawPush_alike log w p)
    | kvLock kv hashKey flush =>
      simp only [hpc, Option.some.injEq] at hr
      subst hr
      exact enter_rule (fun r => P r.2) i _ _ _ w p hquiet
        (hadd kv hashKey flush (Or.inl hpc) haddr)
    | kvWait kv hashKey flush deadline =>
      simp only [hpc, Option.some.injEq] at hr
      subst hr
      exact admitted_rule (fun r => P r.2) w _ _ p _ _
        (waitLoop_waited p _ false deadline i.now) hquiet
        (hadd kv hashKey flush (Or.inr ⟨deadline, hpc⟩) haddr)
    | closeLock timeoutMs =>
      simp only [hpc] at hr
      split at hr
      · obtain rfl := Option.some.inj hr
        exact hpub _ (tlsBatchFlushLocked_publishes i (.close timeoutMs) w p)
      · obtain rfl := Option.some.inj hr
        exact hpub _ (flushed_publishes i w p (.close timeoutMs))
    | closeWait timeoutMs start =>
      simp only [hpc, Option.some.injEq] at hr
      subst hr
      exact hpub _ (closeLoop_publishes timeoutMs start i.now w p)
    | closeStop =>
      simp only [hpc, Option.some.injEq] at hr
      subst hr
      exact hsame _ ⟨rfl, rfl, rfl, rfl⟩
    | closeJoin =>
      simp only [hpc] at hr
      split at hr
      · obtain rfl := Option.some.inj hr
        exact hpub p (.refl p)
      · simp at hr

theorem go_tidy (me : ℕ) (joined : Bool) (i : Input) (w : Writer) (p : Producer)
    (r : Writer × Producer) (h : Tidy cfg W p) (hfit : Fits cfg p w.pc)
    (hr : go cfg me joined i w p = some r) : Tidy cfg W r.2 := by
  apply go_rule (Tidy cfg W) me joined i w p r (fun p' hp => hp.tidy h) ?_ hr
  intro kv hashKey flush hpc haddr
  apply kvAdd_tidy i kv hashKey flush w h haddr
  rcases hpc with hpc | ⟨d, hpc⟩
  · rwa [hpc] at hfit
  · rwa [hpc] at hfit

theorem call_publishes (me : ℕ) (w : Writer) (p : Producer) (c : Call) (r : Writer × Producer)
    (hr : call cfg me w p c = some r) : Publishes cfg p r.2 := by
  cases c with
  | addRaw log =>
    simp only [call] at hr
    split at hr <;> obtain rfl := Option.some.inj hr <;> exact .refl p
  | addKv kv hashKey flush =>
    simp only [call] at hr
    split at hr
    · obtain rfl := Option.some.inj hr
      exact .refl p
    · split at hr <;> obtain rfl := Option.some.inj hr <;> exact .refl p
  | flush =>
    obtain rfl := Option.some.inj hr
    exact .of_alike ⟨rfl, rfl, rfl, rfl⟩
  | close timeoutMs =>
    obtain rfl := Option.some.inj hr
    exact .refl p
  | elsewhere other builder =>
    simp only [call] at hr
    split at hr
    · simp at hr
    · obtain rfl := Option.some.inj hr
      rw [leaveBatch_eq]
      exact .of_alike ⟨rfl, rfl, rfl, rfl⟩

theorem call_tidy (me : ℕ) (w : Writer) (p : Producer) (c : Call) (r : Writer × Producer)
    (h : Tidy cfg W p) (hr : call cfg me w p c = some r) : Tidy cfg W r.2 :=
  (call_publishes me w p c r hr).tidy h

end Writer

end VeTls
