import VeTls.Proto.Records
import VeTls.Pipeline.WorkerMoves

/-!
# What the export merges

Before it writes records the export merges the batch of the calling thread
and the ingress queue into the builder of the default key. Each merge may be
refused, for lack of memory or at the key limit, and may seal the builder it
has filled. The builder is followed here by two numbers, its logs and their
bytes.
-/

set_option autoImplicit false

namespace VeTls.Export

open VeTls.Keys (Addr CStr KeyMap)
open VeTls.Keys.KeyMap (Sound)
open VeTls.Wire (Bytes)
open VeTls.Worker (ingressQueuePopLocked)

/-- Which allocations of a merge succeed: those of a new queue, of a new
builder, and of its larger buffer. -/
structure MergeAllocs where
  queue : Bool
  builder : Bool
  append : Bool
  deriving DecidableEq, Repr

def allAllocs : MergeAllocs := ⟨true, true, true⟩

def findSlotWith (cfg : Config) (mem : MergeAllocs) (p : Producer) (useDefault : Bool)
    (normKey : CStr) (addr : Addr) : Option Slot × Producer :=
  if !useDefault && (KeyMap.lookup cfg.toKeyConfig normKey p.keys).isNone && !mem.queue then (none, p)
  else findSlot cfg p useDefault normKey addr

def ingressTaskMergeWith (cfg : Config) (mem : MergeAllocs) (t : IngressTask) (addr : Addr) (now : ℤ)
    (p : Producer) : Bool × Producer :=
  if t.batch.logCount = 0 ∨ t.batch.logsLen = 0 then (true, p)
  else
    match findSlotWith cfg mem p (mergeDefault cfg t.normKey) t.normKey addr with
    | (none, p) => (false, p)
    | (some slot, p) =>
      if (slotBuilder p slot).isNone && !mem.builder then (false, p)
      else
        let b := stampFirst t now (openBuilder p slot t.normKey now)
        if !mem.append then (false, setSlot (some b) p slot) else mergeInto cfg t slot b p

/-- The `i`-th merge of the export gets the `i`-th address and memory. -/
def exportMergeWith (cfg : Config) (now : ℤ) (addr : ℕ → Addr) (mem : ℕ → MergeAllocs) :
    ℕ → List IngressTask → Producer → Bool × Producer
  | _, [], p => (true, p)
  | i, t::rest, p =>
    match ingressTaskMergeWith cfg (mem i) t (addr i) now (ingressQueuePopLocked t rest p) with
    | (true, p) => exportMergeWith cfg now addr mem (i+1) rest p
    | (false, p) => (false, p)

/-- The wait for room for the thread's batch: when the call begins, or when
it is woken. -/
inductive Turn where
  | first (now now2 : ℤ)
  | woken (deadline now : ℤ)
  deriving DecidableEq, Repr

def Turn.wait (cfg : Config) (p : Producer) (need : ℕ) : Turn → Wait × Producer
  | .first now now2 => waitBufferSpaceLocked cfg p need false now now2
  | .woken deadline now => waitLoop cfg p need false deadline now

/-- What an export meets: `out` says whether the buffers for its result can
be allocated. -/
structure Env where
  turn : Turn
  now : ℤ
  addr : ℕ → Addr
  mem : ℕ → MergeAllocs
  out : Bool

def ownTask (cfg : Config) (w : Writer) : IngressTask :=
  ⟨cfg.hashKey, Writer.tlsBuilder cfg w, false⟩

def tlsBatchMergeWith (cfg : Config) (e : Env) (w : Writer) (p : Producer) :
    Wait × Writer × Producer :=
  let tb := Writer.tlsBuilder cfg w
  if tb.logCount = 0 ∨ tb.logsLen = 0 then (.rc .ok, w, p)
  else
    match e.turn.wait cfg p tb.logsLen with
    | (.rc .ok, p) =>
      match ingressTaskMergeWith cfg (e.mem 0) (ownTask cfg w) (e.addr 0) e.now p with
      | (true, p) => (.rc .ok, Writer.setBuilder (some (tlsBatchReset tb)) w,
          { p with tlsBytes := wrapSub p.tlsBytes tb.logsLen })
      | (false, p) => (.rc .full, w, p)
    | (r, p) => (r, w, p)

def exportRawBufferWith (cfg : Config) (me : ℕ) (suffix : Bytes) (e : Env) (w : Writer)
    (p : Producer) : Option ((Result × Bytes) × Writer × Producer) :=
  let merged := if ownLogs me w then tlsBatchMergeWith cfg e w p else (.rc .ok, w, p)
  match merged with
  | (.block _, _, _) => none
  | (.rc .closed, w, p) => some ((.closed, []), w, p)
  | (.rc .timeout, w, p) => some ((.timeout, []), w, p)
  | (.rc .full, w, p) => some ((.dropError, []), w, p)
  | (.rc .ok, w, p) =>
    match exportMergeWith cfg e.now e.addr e.mem 1 p.ingressQueue p with
    | (false, p) => some ((.dropError, []), w, p)
    | (true, p) => some (if e.out then exportRecords cfg suffix p else (.dropError, []), w, p)

section Allocated

theorem ingressTaskMergeWith_all (cfg : Config) (t : IngressTask) (addr : Addr) (now : ℤ)
    (p : Producer) :
    ingressTaskMergeWith cfg allAllocs t addr now p = ingressTaskMergeLocked cfg t addr now p := by
  have hfind : ∀ useDefault, findSlotWith cfg allAllocs p useDefault t.normKey addr =
      findSlot cfg p useDefault t.normKey addr := by
    intro useDefault
    rw [findSlotWith, if_neg (by simp [allAllocs])]
  unfold ingressTaskMergeWith ingressTaskMergeLocked
  split
  · rfl
  · rw [hfind]
    generalize findSlot cfg p _ t.normKey addr = r
    obtain ⟨slot, p'⟩ := r
    cases slot with
    | none => rfl
    | some slot => exact if_neg (by simp [allAllocs])

theorem exportMergeWith_all (cfg : Config) (now : ℤ) (addr : ℕ → Addr) (i : ℕ)
    (l : List IngressTask) (p : Producer) :
    exportMergeWith cfg now addr (fun _ => allAllocs) i l p =
      exportMerge cfg now l ((List.range' i l.length).map addr) p := by
  induction l generalizing i p with
  | nil => rfl
  | cons t rest ih =>
    rw [exportMergeWith, List.length_cons, List.range'_succ, List.map_cons, exportMerge,
      ingressTaskMergeWith_all]
    unfold ingressQueuePopLocked
    generalize ingressTaskMergeLocked cfg t (addr i) now _ = r
    obtain ⟨ok, p'⟩ := r
    cases ok with
    | true => exact ih (i+1) p'
    | false => rfl

end Allocated

section Home

variable {cfg : Config}

/-- The builder in the slot of the default key; there is no slot while its
queue is missing. -/
def homeOf (cfg : Config) (p : Producer) : Option (Option Builder) :=
  if cfg.fastBuilder then some p.defaultBuilder
  else (KeyMap.lookup cfg.toKeyConfig cfg.hashKey p.keys).map fun q => (p.keys.info q).builder

def homeBuilder (cfg : Config) (p : Producer) : Option Builder := (homeOf cfg p).join

/-- The logs and the bytes in a builder. -/
def sizes (b : Builder) : ℕ × ℕ := (b.logCount, b.logsLen)

/-- The key that a builder in the slot has, or would have. -/
def homeKey (cfg : Config) (p : Producer) : CStr :=
  (homeBuilder cfg p).elim cfg.hashKey Builder.normKey

/-- The slot of the default key by the sizes of its builder. -/
abbrev Home := Option (Option (ℕ × ℕ))

def homeSizes (cfg : Config) (p : Producer) : Home := (homeOf cfg p).map (Option.map sizes)

/-- A merge into the slot fails. -/
def refuses (limit : Bool) (mem : MergeAllocs) : Home → Bool
  | none => limit || !mem.queue || !mem.builder || !mem.append
  | some none => !mem.builder || !mem.append
  | some (some _) => !mem.append

def reaches (cfg : Config) (x : ℕ × ℕ) : Bool :=
  (decide (cfg.logCountPerPackage > 0) && decide (x.1 ≥ cfg.logCountPerPackage.toNat)) ||
    (decide (cfg.byteLimit > 0) && decide (x.2 ≥ cfg.byteLimit))

def added (t : IngressTask) (h : Home) : ℕ × ℕ :=
  h.join.getD (0, 0)+(t.batch.logCount, t.batch.logsLen)

def seals (cfg : Config) (t : IngressTask) (h : Home) : Bool :=
  t.forceFlush || reaches cfg (added t h)

def after (cfg : Config) (t : IngressTask) (h : Home) : Home :=
  if seals cfg t h then some none else some (some (added t h))

def noLogs (t : IngressTask) : Bool := decide (t.batch.logCount = 0 ∨ t.batch.logsLen = 0)

/-- Whether a list of merges seals anything, if none of them fails. -/
def merges (cfg : Config) (limit : Bool) (mem : ℕ → MergeAllocs) :
    ℕ → List IngressTask → Home → Option Bool
  | _, [], _ => some false
  | i, t::rest, h =>
    if noLogs t then merges cfg limit mem (i+1) rest h
    else if refuses limit (mem i) h then none
    else (merges cfg limit mem (i+1) rest (after cfg t h)).map (seals cfg t h || ·)

/-- The slot after a list of merges. -/
def homeAfter (cfg : Config) : List IngressTask → Home → Home
  | [], h => h
  | t::rest, h => homeAfter cfg rest (if noLogs t then h else after cfg t h)

def taskLogs (tasks : List IngressTask) : List Log := tasks.flatMap fun t => t.batch.logs

def keptLogs (cfg : Config) (p : Producer) : List Log := (kept cfg p).flatMap Builder.logs

def sealedLogs (p : Producer) : List Log := p.sealedList.flatMap fun s => s.builder.logs

/-- The builders that are not sealed. -/
def shelf (cfg : Config) (p : Producer) : List Builder :=
  p.defaultBuilder.toList++KeyMap.builders cfg.toKeyConfig p.keys

/-- The slot is the one of the default key. -/
def IsHome (cfg : Config) (p : Producer) : Slot → Prop
  | .default => cfg.fastBuilder = true
  | .key q => cfg.fastBuilder = false ∧ q ∈ KeyMap.live cfg.toKeyConfig p.keys ∧
      (p.keys.info q).key = cfg.hashKey

theorem lookup_live {m : KeyMap SendTask Builder} (h : KeyMap.Hashed cfg.toKeyConfig m) (q : Addr)
    (key : CStr) (hq : q ∈ KeyMap.live cfg.toKeyConfig m) (hk : (m.info q).key = key) :
    KeyMap.lookup cfg.toKeyConfig key m = some q := by
  cases hl : KeyMap.lookup cfg.toKeyConfig key m with
  | none => exact absurd hk (KeyMap.lookup_none h key hl q hq)
  | some a =>
    obtain ⟨ha, hka⟩ := KeyMap.lookup_some h key a hl
    rw [h.key a q ha hq (hka.trans hk.symm)]

theorem IsHome.homeOf {p : Producer} {slot : Slot} (h : IsHome cfg p slot)
    (hs : Sound cfg.toKeyConfig p.keys) : homeOf cfg p = some (slotBuilder p slot) := by
  unfold Export.homeOf
  cases slot with
  | default => exact if_pos h
  | key q =>
    obtain ⟨hf, hq, hk⟩ := h
    rw [hf, lookup_live hs.hashed q cfg.hashKey hq hk]
    rfl

theorem IsHome.homeBuilder {p : Producer} {slot : Slot} (h : IsHome cfg p slot)
    (hs : Sound cfg.toKeyConfig p.keys) : homeBuilder cfg p = slotBuilder p slot := by
  rw [Export.homeBuilder, h.homeOf hs]
  rfl

theorem homeSizes_join (p : Producer) :
    (homeSizes cfg p).join = (homeBuilder cfg p).map sizes := by
  unfold homeSizes homeBuilder
  cases homeOf cfg p <;> rfl

theorem slotBuilder_setSlot (b : Option Builder) (p : Producer) (slot : Slot) :
    slotBuilder (setSlot b p slot) slot = b := by
  cases slot with
  | default => rfl
  | key q => simp [slotBuilder, setSlot]

theorem setSlot_live (b : Option Builder) (p : Producer) (slot : Slot) :
    KeyMap.live cfg.toKeyConfig (setSlot b p slot).keys = KeyMap.live cfg.toKeyConfig p.keys := by
  cases slot <;> rfl

theorem IsHome.setSlot {p : Producer} {slot : Slot} (h : IsHome cfg p slot) (b : Option Builder) :
    IsHome cfg (setSlot b p slot) slot := by
  cases slot with
  | default => exact h
  | key q =>
    obtain ⟨hf, hq, hk⟩ := h
    refine ⟨hf, hq, ?_⟩
    simpa [VeTls.setSlot] using hk

theorem setSlot_shelf (p : Producer) (h : Sound cfg.toKeyConfig p.keys) (slot : Slot)
    (hs : SlotOk cfg p slot) (b : Option Builder) (rest : List Builder)
    (hrest : (shelf cfg p).Perm ((slotBuilder p slot).toList++rest)) :
    (shelf cfg (setSlot b p slot)).Perm (b.toList++rest) := by
  have hkept : ∀ q : Producer, kept cfg { q with sealedList := [] } = shelf cfg q := by
    intro q
    simp [kept, shelf]
  obtain ⟨other, hp, hp'⟩ := setSlot_kept { p with sealedList := [] } h slot (by cases slot <;> exact hs) b
  have hset : VeTls.setSlot b { p with sealedList := [] } slot =
      { VeTls.setSlot b p slot with sealedList := [] } := by cases slot <;> rfl
  have hsame : slotBuilder { p with sealedList := [] } slot = slotBuilder p slot := by
    cases slot <;> rfl
  rw [hkept, hsame] at hp
  rw [hset, hkept] at hp'
  have hother := (List.perm_append_left_iff _).mp (hrest.symm.trans hp)
  exact hp'.trans (hother.symm.append_left _)

theorem mergeDefault_home (cfg : Config) : mergeDefault cfg cfg.hashKey = cfg.fastBuilder := by
  simp [mergeDefault]

/-- A queue that is new has no builder, one that is found keeps it. -/
theorem keyQueueGetOrCreate_builder (m : KeyMap SendTask Builder) (addr q : Addr) (key : CStr)
    (h : (KeyMap.keyQueueGetOrCreate cfg.toKeyConfig addr key m).1 = some q) :
    ((KeyMap.keyQueueGetOrCreate cfg.toKeyConfig addr key m).2.info q).builder =
      (KeyMap.lookup cfg.toKeyConfig key m).bind fun a => (m.info a).builder := by
  unfold KeyMap.keyQueueGetOrCreate at h ⊢
  split at h
  case h_1 a ha =>
    obtain rfl := Option.some.inj h
    rw [ha]
    exact (KeyMap.idleRemove_relists a m).builder
  case h_2 hn =>
    rw [hn]
    split at h
    · cases h
    · rename_i hl
      obtain rfl := Option.some.inj h
      rw [if_neg hl]
      simp [KeyMap.create, Keys.blank]

theorem keyQueueGetOrCreate_live (m : KeyMap SendTask Builder) (addr : Addr) (key : CStr) (a : Addr)
    (h : a ∈ KeyMap.live cfg.toKeyConfig
      (KeyMap.keyQueueGetOrCreate cfg.toKeyConfig addr key m).2) :
    a ∈ KeyMap.live cfg.toKeyConfig m ∨ a = addr := by
  unfold KeyMap.keyQueueGetOrCreate at h
  split at h
  case h_1 q _ =>
    rw [(KeyMap.idleRemove_touches q m).live] at h
    exact Or.inl h
  case h_2 =>
    split at h
    · exact Or.inl h
    · rw [(KeyMap.create_live cfg.toKeyConfig addr key m).mem_iff, List.mem_cons] at h
      exact h.symm

/-- The slot of the default key is found, unless it is missing and cannot be
made. -/
theorem findSlotWith_home (mem : MergeAllocs) (p : Producer) (addr : Addr)
    (hs : Sound cfg.toKeyConfig p.keys) (ha : addr ∉ KeyMap.live cfg.toKeyConfig p.keys) :
    (findSlotWith cfg mem p cfg.fastBuilder cfg.hashKey addr = (none, p) ∧ homeOf cfg p = none ∧
        (KeyMap.atLimit cfg.toKeyConfig p.keys || !mem.queue) = true) ∨
      ∃ slot m, findSlotWith cfg mem p cfg.fastBuilder cfg.hashKey addr =
          (some slot, { p with keys := m }) ∧
        KeyMap.Keeps cfg.toKeyConfig p.keys m ∧ SlotOk cfg { p with keys := m } slot ∧
        SlotBusy { p with keys := m } slot ∧ IsHome cfg { p with keys := m } slot ∧
        slotBuilder { p with keys := m } slot = homeBuilder cfg p ∧
        (homeOf cfg p = none → (KeyMap.atLimit cfg.toKeyConfig p.keys || !mem.queue) = false) ∧
        ∀ a ∈ KeyMap.live cfg.toKeyConfig m, a ∈ KeyMap.live cfg.toKeyConfig p.keys ∨ a = addr := by
  obtain hfast | hfast : cfg.fastBuilder = true ∨ cfg.fastBuilder = false := by
    cases cfg.fastBuilder <;> simp
  · have hhome : homeOf cfg p = some p.defaultBuilder := if_pos hfast
    refine Or.inr ⟨.default, p.keys, ?_, KeyMap.keeps_refl hs, trivial, trivial, hfast, ?_, ?_, ?_⟩
    · rw [findSlotWith, hfast, if_neg (by simp), findSlot, if_pos rfl]
    · rw [homeBuilder, hhome]
      rfl
    · simp [hhome]
    · exact fun a ha => Or.inl ha
  · have hhome : homeOf cfg p = (KeyMap.lookup cfg.toKeyConfig cfg.hashKey p.keys).map
        fun q => (p.keys.info q).builder := if_neg (by simp [hfast])
    have hfind : findSlot cfg p false cfg.hashKey addr =
        ((KeyMap.keyQueueGetOrCreate cfg.toKeyConfig addr cfg.hashKey p.keys).1.map .key,
          { p with
            keys := (KeyMap.keyQueueGetOrCreate cfg.toKeyConfig addr cfg.hashKey p.keys).2 }) := rfl
    -- what is found in the map is the slot of the default key
    have hfound : ∀ q, (KeyMap.keyQueueGetOrCreate cfg.toKeyConfig addr cfg.hashKey p.keys).1 =
        some q → (homeOf cfg p = none →
          (KeyMap.atLimit cfg.toKeyConfig p.keys || !mem.queue) = false) →
        findSlotWith cfg mem p false cfg.hashKey addr = findSlot cfg p false cfg.hashKey addr →
        ∃ slot m, findSlotWith cfg mem p false cfg.hashKey addr = (some slot, { p with keys := m }) ∧
          KeyMap.Keeps cfg.toKeyConfig p.keys m ∧ SlotOk cfg { p with keys := m } slot ∧
          SlotBusy { p with keys := m } slot ∧ IsHome cfg { p with keys := m } slot ∧
          slotBuilder { p with keys := m } slot = homeBuilder cfg p ∧
          (homeOf cfg p = none → (KeyMap.atLimit cfg.toKeyConfig p.keys || !mem.queue) = false) ∧
          ∀ a ∈ KeyMap.live cfg.toKeyConfig m,
            a ∈ KeyMap.live cfg.toKeyConfig p.keys ∨ a = addr := by
      intro q hq hroom hsame
      obtain ⟨hlive, hidle, hkey⟩ :=
        (KeyMap.keyQueueGetOrCreate_spec hs addr cfg.hashKey ha).2 q hq
      refine ⟨.key q, _, ?_, KeyMap.keyQueueGetOrCreate_keeps hs addr cfg.hashKey ha, hlive, hidle,
        ⟨hfast, hlive, hkey⟩, ?_, hroom, keyQueueGetOrCreate_live p.keys addr cfg.hashKey⟩
      · rw [hsame, hfind, hq]
        rfl
      · rw [homeBuilder, hhome]
        refine (keyQueueGetOrCreate_builder p.keys addr q cfg.hashKey hq).trans ?_
        cases KeyMap.lookup cfg.toKeyConfig cfg.hashKey p.keys <;> rfl
    rw [hfast]
    cases hl : KeyMap.lookup cfg.toKeyConfig cfg.hashKey p.keys with
    | some q =>
      refine Or.inr (hfound q ?_ ?_ ?_)
      · rw [KeyMap.keyQueueGetOrCreate, hl]
      · simp [hhome, hl]
      · rw [findSlotWith, hl, if_neg (by simp)]
    | none =>
      have hnone : homeOf cfg p = none := by rw [hhome, hl]; rfl
      cases hq : mem.queue with
      | false =>
        refine Or.inl ⟨?_, hnone, Bool.or_true _⟩
        rw [findSlotWith, hl, hq]
        rfl
      | true =>
        have hsame : findSlotWith cfg mem p false cfg.hashKey addr =
            findSlot cfg p false cfg.hashKey addr := by rw [findSlotWith, hq, if_neg (by simp)]
        cases hlimit : KeyMap.atLimit cfg.toKeyConfig p.keys with
        | true =>
          refine Or.inl ⟨?_, hnone, rfl⟩
          rw [hsame, hfind, KeyMap.keyQueueGetOrCreate, hl, hlimit]
          rfl
        | false =>
          rw [hq, hlimit] at hfound
          refine Or.inr (hfound addr ?_ (fun _ => rfl) hsame)
          rw [KeyMap.keyQueueGetOrCreate, hl, hlimit]
          rfl

end Home

end VeTls.Export
