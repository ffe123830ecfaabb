import VeTls.Lib.Extremes
import VeTls.Pipeline.Contents
import VeTls.Proto.Fast

/-!
# What builders say of their logs

The source keeps one buffer for the logs of a builder, and next to it their
number, the range of their ids and the range of their times. These are right
if every log gets an id above the ids of the logs before it. Ids are given
out by one counter, so a batch that is merged late may still have ids below
those of the builder it is merged into.
-/

set_option autoImplicit false

namespace VeTls

open VeTls.Keys (Addr CStr KeyMap)
open VeTls.Keys.KeyMap (Effect)
open VeTls.Wire (Bytes)
open VeTls.Extremes

section Source

/-- A builder with its buffer. What is written goes to `logsLen`. -/
structure LogGroupBuilder where
  normKey : CStr
  logs : Bytes
  logsLen : ℕ
  logCount : ℕ
  earliest : ℤ
  latest : ℤ
  lastTimeMs : ℤ
  lastTimeNs : ℕ
  lastHasTimeNs : Bool
  startId : ℤ
  endId : ℤ
  firstAppendMs : ℤ
  deriving DecidableEq, Repr

namespace LogGroupBuilder

def create (normKey : CStr) : LogGroupBuilder := ⟨normKey, [], 0, 0, 0, 0, 0, 0, false, 0, 0, 0⟩

def addKvLens (b : LogGroupBuilder) (id : ℤ) (kv : Wire.KvLog) : Option LogGroupBuilder :=
  let timeMs := if kv.timeMs ≤ 0 then 0 else kv.timeMs
  let msgSize := Wire.logMsgSizeLens kv
  let entrySize := Wire.logBuilderEstimateKvLensSize kv
  if msgSize = 2^64-1 ∨ entrySize < msgSize ∨ b.logsLen > 2^64-1-entrySize then none
  else some { b with
    logs := b.logs.take b.logsLen++Wire.entryBytes kv
    logsLen := b.logsLen+(Wire.entryBytes kv).length
    logCount := b.logCount+1
    earliest := if timeMs > 0 ∧ (b.earliest = 0 ∨ timeMs < b.earliest) then timeMs else b.earliest
    latest := if timeMs > 0 ∧ (b.latest = 0 ∨ timeMs > b.latest) then timeMs else b.latest
    startId := if b.startId = 0 then id else b.startId
    endId := id
    lastTimeMs := timeMs
    lastTimeNs := if kv.timeMs ≤ 0 then 0 else kv.timeNs
    lastHasTimeNs := if kv.timeMs ≤ 0 then false else kv.hasTimeNs }

def append (b tb : LogGroupBuilder) : Option LogGroupBuilder :=
  if tb.logsLen = 0 ∨ tb.logCount = 0 then none
  else some { b with
    logs := b.logs.take b.logsLen++tb.logs.take tb.logsLen
    logsLen := b.logsLen+tb.logsLen
    logCount := b.logCount+tb.logCount
    earliest := if tb.earliest > 0 ∧ (b.earliest = 0 ∨ tb.earliest < b.earliest) then tb.earliest
      else b.earliest
    latest := if tb.latest > 0 ∧ tb.latest > b.latest then tb.latest else b.latest
    startId := if b.startId = 0 ∨ tb.startId < b.startId then tb.startId else b.startId
    endId := if tb.endId > b.endId then tb.endId else b.endId
    lastTimeMs := tb.lastTimeMs
    lastTimeNs := tb.lastTimeNs
    lastHasTimeNs := tb.lastHasTimeNs }

end LogGroupBuilder

end Source

/-- The builder with the bytes of its logs. -/
def Builder.group (b : Builder) : LogGroupBuilder :=
  ⟨b.normKey, b.bytes, b.logsLen, b.logCount, b.earliest, b.latest, b.lastTimeMs, b.lastTimeNs,
    b.lastHasTimeNs, b.startId, b.endId, b.firstAppendMs⟩

/-- The builder was given the logs, oldest first, one at a time under rising
ids or with a whole batch. -/
inductive Made : LogGroupBuilder → List Log → Prop
  | create (normKey : CStr) : Made (.create normKey) []
  | stamp (g : LogGroupBuilder) (l : List Log) (now : ℤ) (h : Made g l) :
      Made { g with firstAppendMs := now } l
  | add (g g' : LogGroupBuilder) (l : List Log) (id : ℤ) (kv : Wire.KvLog) (h : Made g l)
      (hpos : 0 < id) (hid : ∀ x ∈ l, x.id < id) (hadd : g.addKvLens id kv = some g') :
      Made g' (l++[storedLog id kv])
  | append (g t g' : LogGroupBuilder) (l l' : List Log) (h : Made g l) (ht : Made t l')
      (happ : g.append t = some g') : Made g' (l++l')

def logValues (f : Log → ℤ) (l : List Log) : Set ℤ := {i | ∃ x ∈ l, f x = i}

theorem logValues_nil (f : Log → ℤ) : logValues f [] = ∅ := by
  simp [logValues]

theorem logValues_append (f : Log → ℤ) (l l' : List Log) :
    logValues f (l++l') = logValues f l ∪ logValues f l' := by
  ext i
  simp only [logValues, Set.mem_ofPred_eq, List.mem_append, Set.mem_union, or_and_right, exists_or]

theorem logValues_one (f : Log → ℤ) (x : Log) : logValues f [x] = {f x} := by
  ext i
  simp [logValues, eq_comm]

/-- What the source's fields have to be for these logs. -/
structure Accurate (g : LogGroupBuilder) (l : List Log) : Prop where
  logs : g.logs = l.flatMap Log.bytes
  logsLen : g.logsLen = (l.map Log.size).sum
  logCount : g.logCount = l.length
  positive : ∀ x ∈ l, 0 < x.id
  startId : IsFirst (logValues Log.id l) g.startId
  endId : IsLast (logValues Log.id l) g.endId
  earliest : IsFirst (logValues Log.timeMs l) g.earliest
  latest : IsLast (logValues Log.timeMs l) g.latest

theorem length_flatMap_bytes (l : List Log) :
    (l.flatMap Log.bytes).length = (l.map Log.size).sum := by
  rw [List.length_flatMap]
  rfl

namespace Accurate

variable {g : LogGroupBuilder} {l : List Log}

theorem take_logs (h : Accurate g l) : g.logs.take g.logsLen = l.flatMap Log.bytes := by
  rw [h.logs, h.logsLen, ← length_flatMap_bytes, List.take_length]

theorem id_pos (h : Accurate g l) (i : ℤ) (hi : i ∈ logValues Log.id l) : 0 < i := by
  obtain ⟨x, hx, rfl⟩ := hi
  exact h.positive x hx

theorem add {g' : LogGroupBuilder} {id : ℤ} {kv : Wire.KvLog} (h : Accurate g l) (hpos : 0 < id)
    (hid : ∀ x ∈ l, x.id < id) (hadd : g.addKvLens id kv = some g') :
    Accurate g' (l++[storedLog id kv]) := by
  have habove : ∀ i ∈ logValues Log.id l, i < id := by
    rintro i ⟨x, hx, rfl⟩
    exact hid x hx
  have hone : logValues Log.id [storedLog id kv] = {id} := logValues_one Log.id _
  unfold LogGroupBuilder.addKvLens at hadd
  dsimp only at hadd
  split at hadd
  · cases hadd
  · obtain rfl := Option.some.inj hadd
    constructor
    · simp only [h.take_logs, List.flatMap_append, List.flatMap_singleton, storedLog]
    · simp only [h.logsLen, List.map_append, List.sum_append, List.map_singleton,
        List.sum_singleton, Log.size, storedLog]
    · simp only [h.logCount, List.length_append, List.length_singleton]
    · intro x hx
      obtain hx | hx := List.mem_append.mp hx
      · exact h.positive x hx
      · rw [List.mem_singleton.mp hx]
        exact hpos
    · rw [logValues_append, hone]
      have hfirst := h.startId.insert id
      rw [h.startId.above habove] at hfirst
      simpa only [hpos, and_true] using hfirst
    · rw [logValues_append, hone]
      have hlast := h.endId.insert id
      rwa [h.endId.above hpos habove] at hlast
    · rw [logValues_append, logValues_one]
      exact h.earliest.insert _
    · rw [logValues_append, logValues_one]
      have hlast := h.latest.insert (storedLog id kv).timeMs
      have hnonneg := h.latest.nonneg
      convert hlast using 1
      rw [last]
      simp only [storedLog, gt_iff_lt]
      omega

theorem append {t g' : LogGroupBuilder} {l' : List Log} (h : Accurate g l) (ht : Accurate t l')
    (happ : g.append t = some g') : Accurate g' (l++l') := by
  unfold LogGroupBuilder.append at happ
  split at happ
  · cases happ
  · rename_i hne
    obtain rfl := Option.some.inj happ
    have hl' : l' ≠ [] := by
      intro hc
      rw [hc] at ht
      exact hne (.inr ht.logCount)
    obtain ⟨x, hx⟩ := List.exists_mem_of_ne_nil l' hl'
    have hsome : (logValues Log.id l').Nonempty := ⟨x.id, x, hx, rfl⟩
    have hstart : 0 < t.startId := ht.id_pos _ (ht.startId.isLeast ht.id_pos hsome).1
    have hend : 0 < t.endId := ht.id_pos _ (ht.endId.isGreatest ht.id_pos hsome).1
    constructor
    · simp only [h.take_logs, ht.take_logs, List.flatMap_append]
    · simp only [h.logsLen, ht.logsLen, List.map_append, List.sum_append]
    · simp only [h.logCount, ht.logCount, List.length_append]
    · intro x hx
      exact (List.mem_append.mp hx).elim (h.positive x) (ht.positive x)
    · rw [logValues_append]
      have hfirst := h.startId.union ht.startId
      simpa only [first, hstart, true_and] using hfirst
    · rw [logValues_append]
      have hlast := h.endId.union ht.endId
      simpa only [last, hend, true_and] using hlast
    · rw [logValues_append]
      exact h.earliest.union ht.earliest
    · rw [logValues_append]
      exact h.latest.union ht.latest

end Accurate

theorem Made.accurate {g : LogGroupBuilder} {l : List Log} (h : Made g l) : Accurate g l := by
  induction h with
  | create normKey =>
    refine ⟨rfl, rfl, rfl, nofun, ?_, ?_, ?_, ?_⟩
    · exact logValues_nil Log.id ▸ isFirst_empty
    · exact logValues_nil Log.id ▸ isLast_empty
    · exact logValues_nil Log.timeMs ▸ isFirst_empty
    · exact logValues_nil Log.timeMs ▸ isLast_empty
  | stamp g l now h ih =>
    exact ⟨ih.logs, ih.logsLen, ih.logCount, ih.positive, ih.startId, ih.endId, ih.earliest,
      ih.latest⟩
  | add g g' l id kv h hpos hid hadd ih => exact ih.add hpos hid hadd
  | append g t g' l l' h ht happ ih iht => exact ih.append iht happ

section Steps

/-- A builder as the source makes it, and the ids of its logs are given out. -/
structure Builder.Made (next : ℤ) (b : Builder) : Prop where
  made : VeTls.Made b.group b.logs
  below : ∀ x ∈ b.logs, x.id < next

namespace Builder.Made

variable {next : ℤ} {b b' tb : Builder}

theorem bytes_length (h : b.Made next) : b.logsLen = b.bytes.length := by
  rw [Builder.bytes, length_flatMap_bytes]
  exact h.made.accurate.logsLen

theorem mono {later : ℤ} (h : b.Made next) (hle : next ≤ later) : b.Made later :=
  ⟨h.made, fun x hx => lt_of_lt_of_le (h.below x hx) hle⟩

theorem create (next : ℤ) (normKey : CStr) : (logBuilderCreate normKey).Made next :=
  ⟨.create normKey, nofun⟩

theorem stamp (h : b.Made next) (now : ℤ) : { b with firstAppendMs := now }.Made next :=
  ⟨.stamp _ _ now h.made, h.below⟩

theorem opened {old : Option Builder} (h : ∀ x, old = some x → x.Made next) (key : CStr)
    (now : ℤ) : (VeTls.opened old key now).Made next := by
  cases old with
  | none => exact (create next key).stamp now
  | some x => exact h x rfl

theorem stampFirst (h : b.Made next) (t : IngressTask) (now : ℤ) :
    (VeTls.stampFirst t now b).Made next := by
  unfold VeTls.stampFirst
  split
  · exact h.stamp _
  · exact h

/-- The list of logs grows by the log whose bytes are written. -/
theorem add {kv : Wire.KvLog} (h : b.Made next) (hpos : 0 < next)
    (hadd : logBuilderAddKvLens b next kv = some b') : b'.Made (next+1) := by
  have hbytes : b.group.logs.take b.group.logsLen = b.bytes := h.made.accurate.take_logs
  have hgroup : b.group.addKvLens next kv = some b'.group ∧
      b'.logs = b.logs++[storedLog next kv] := by
    unfold logBuilderAddKvLens at hadd
    dsimp only at hadd
    split at hadd
    · cases hadd
    · rename_i hguard
      obtain rfl := Option.some.inj hadd
      refine ⟨?_, rfl⟩
      refine (if_neg hguard).trans ?_
      have hbuffer : (b.logs++[storedLog next kv]).flatMap Log.bytes =
          b.bytes++Wire.entryBytes kv := by
        rw [List.flatMap_append, List.flatMap_singleton]
        rfl
      rw [hbytes, ← hbuffer]
      rfl
  obtain ⟨hg, hl⟩ := hgroup
  constructor
  · rw [hl]
    exact .add _ _ _ next kv h.made hpos h.below hg
  · rw [hl]
    intro x hx
    obtain hx | hx := List.mem_append.mp hx
    · have hlt := h.below x hx
      omega
    · rw [List.mem_singleton.mp hx]
      exact lt_add_one next

theorem append (h : b.Made next) (ht : tb.Made next) (happ : logBuilderAppend b tb = some b') :
    b'.Made next := by
  have hbytes : b.group.logs.take b.group.logsLen = b.bytes := h.made.accurate.take_logs
  have htaken : tb.group.logs.take tb.group.logsLen = tb.bytes := ht.made.accurate.take_logs
  have hgroup : b.group.append tb.group = some b'.group ∧ b'.logs = b.logs++tb.logs := by
    unfold logBuilderAppend at happ
    split at happ
    · cases happ
    · rename_i hguard
      obtain rfl := Option.some.inj happ
      refine ⟨?_, rfl⟩
      refine (if_neg hguard).trans ?_
      have hbuffer : (b.logs++tb.logs).flatMap Log.bytes = b.bytes++tb.bytes :=
        List.flatMap_append
      rw [hbytes, htaken, ← hbuffer]
      rfl
  obtain ⟨hg, hl⟩ := hgroup
  constructor
  · rw [hl]
    exact .append _ _ _ _ _ h.made ht.made hg
  · rw [hl]
    exact fun x hx => (List.mem_append.mp hx).elim (h.below x) (ht.below x)

end Builder.Made

end Steps

section State

variable {cfg : Config}

/-- What waits before the send queue was made as the source makes it. -/
structure Registered (cfg : Config) (p : Producer) : Prop where
  positive : 0 < p.nextId
  ingress : ∀ t ∈ p.ingressQueue, t.batch.Made p.nextId
  kept : ∀ b ∈ kept cfg p, b.Made p.nextId

theorem Registered.mono {p p' : Producer} (h : Registered cfg p) (hn : p.nextId ≤ p'.nextId)
    (hi : ∀ t ∈ p'.ingressQueue, t ∈ p.ingressQueue)
    (hk : ∀ b ∈ VeTls.kept cfg p', b ∈ VeTls.kept cfg p) : Registered cfg p' :=
  ⟨h.positive.trans_le hn, fun t ht => (h.ingress t (hi t ht)).mono hn,
    fun b hb => (h.kept b (hk b hb)).mono hn⟩

theorem Registered.congr {p p' : Producer} (h : Registered cfg p) (hn : p.nextId ≤ p'.nextId)
    (hi : p'.ingressQueue = p.ingressQueue) (hd : p'.defaultBuilder = p.defaultBuilder)
    (hk : p'.keys = p.keys) (hl : p'.sealedList = p.sealedList) : Registered cfg p' := by
  refine h.mono hn ?_ ?_
  · rw [hi]
    exact fun t ht => ht
  · rw [kept_congr hd hk hl]
    exact fun b hb => hb

theorem Registered.fill {p p' : Producer} {old : Option Builder} {b : Builder} {next : ℤ}
    (h : Registered cfg p) (hf : Fill cfg p p' old b) (hle : p.nextId ≤ next)
    (hb : b.Made next) : Registered cfg { p' with nextId := next } := by
  refine ⟨h.positive.trans_le hle, ?_, ?_⟩
  · obtain ⟨d, m, l, n, f, rfl⟩ := hf.frame
    exact fun t ht => (h.ingress t ht).mono hle
  · intro x hx
    obtain rfl | hx := hf.kept_cases x hx
    · exact hb
    · exact (h.kept x hx).mono hle

theorem Registered.fill_same {p p' : Producer} {old : Option Builder} {b : Builder}
    (h : Registered cfg p) (hf : Fill cfg p p' old b) (hb : b.Made p.nextId) :
    Registered cfg p' := by
  have hfill := h.fill hf le_rfl hb
  obtain ⟨d, m, l, n, f, rfl⟩ := hf.frame
  exact hfill

theorem Registered.old {p p' : Producer} {old : Option Builder} {b : Builder}
    (h : Registered cfg p) (hf : Fill cfg p p' old b) (x : Builder) (hx : old = some x) :
    x.Made p.nextId :=
  h.kept x (hf.old_mem x hx)

namespace Writer

/-- A batch for this producer was made as the source makes it. -/
def Registers (cfg : Config) (me : ℕ) (next : ℤ) (w : Writer) : Prop :=
  w.batch.producer = some me → (tlsBuilder cfg w).Made next

theorem Registers.congr {me : ℕ} {next later : ℤ} {w w' : Writer} (h : Registers cfg me next w)
    (hb : w'.batch = w.batch) (hle : next ≤ later) : Registers cfg me later w' := by
  unfold Registers tlsBuilder
  rw [hb]
  exact fun hp => (h hp).mono hle

theorem registers_of_made {me : ℕ} {next : ℤ} {w w' : Writer} {b : Builder}
    (hb : w'.batch = { w.batch with builder := some b }) (h : b.Made next) :
    Registers cfg me next w' := by
  intro _
  rw [tlsBuilder, hb]
  exact h

theorem registers_of_reset {me : ℕ} {next : ℤ} {w w' : Writer}
    (hb : w'.batch = { w.batch with builder := some (tlsBatchReset (tlsBuilder cfg w)) }) :
    Registers cfg me next w' :=
  registers_of_made hb (.create next _)

theorem Move.registers {me : ℕ} {src : Pc} {a b : Writer × Producer}
    (h : Move cfg me src a b) (hw : Registers cfg me a.2.nextId a.1)
    (hp : Registered cfg a.2) : Registers cfg me b.2.nextId b.1 ∧ Registered cfg b.2 := by
  have hnext := h.nextId
  cases h with
  | quiet w w' p p' hq hb =>
    obtain ⟨_, _, _, _, hle, _, rfl⟩ := hq
    exact ⟨hw.congr hb hle, hp.congr hle rfl rfl rfl rfl⟩
  | switch w w' p hprod hb =>
    refine ⟨fun _ => ?_, hp⟩
    rw [tlsBuilder, hb]
    exact .create p.nextId _
  | append w w' p kv flush b hkv hown hpc hadd hb =>
    dsimp only
    rw [settleTls_eq]
    exact ⟨registers_of_made hb ((hw hown).add hp.positive hadd),
      hp.congr (le_of_lt (lt_add_one _)) rfl rfl rfl rfl⟩
  | publish w w' p t hown ht hb =>
    refine ⟨registers_of_reset hb, hp.positive, ?_, hp.kept⟩
    intro x hx
    obtain hx | hx := List.mem_append.mp hx
    · exact hp.ingress x hx
    · rw [List.mem_singleton.mp hx, ht]
      exact hw hown
  | rawPush w w' p log hpc hb => exact ⟨hw.congr hb hnext, hp.congr hnext rfl rfl rfl rfl⟩
  | rawRelease w w' p log hpc hb => exact ⟨hw.congr hb hnext, hp.congr hnext rfl rfl rfl rfl⟩
  | keyed w p m hr hk =>
    exact ⟨hw, hp.mono le_rfl (fun t ht => ht) (kept_effect hk rfl rfl rfl)⟩
  | store w w' p p' kv old b hkv hb hr hr' hs hf he hkey hadd =>
    obtain ⟨key, now, hadd⟩ := hadd
    have hmade := (Builder.Made.opened (hp.old hf) key now).add hp.positive hadd
    exact ⟨hw.congr hb hnext, (hp.fill hf hnext hmade).congr le_rfl rfl rfl rfl rfl⟩
  | openSlot w p p' old b hr hf he hkey hopen =>
    obtain ⟨key, now, rfl⟩ := hopen
    exact ⟨hw.congr rfl hnext, hp.fill_same hf (.opened (hp.old hf) key now)⟩
  | stop w w' p hd hb => exact ⟨hw.congr hb hnext, hp.congr hnext rfl rfl rfl rfl⟩
  | stopSendQueue w w' p hb => exact ⟨hw.congr hb hnext, hp.congr hnext rfl rfl rfl rfl⟩
  | _ => exact ⟨hw, hp.congr hnext rfl rfl rfl rfl⟩

theorem Loss.registers {me : ℕ} {a b : Writer × Producer} (h : Loss cfg me a b)
    (hp : Registered cfg a.2) : Registers cfg me b.2.nextId b.1 ∧ Registered cfg b.2 := by
  have hnext := h.nextId
  cases h with
  | leave w w' p hprod =>
    refine ⟨fun h => absurd h hprod, ?_⟩
    dsimp only
    rw [leaveBatch_eq]
    exact hp.congr le_rfl rfl rfl rfl rfl
  | overflow w w' p kv flush hown hpc hadd hb =>
    exact ⟨registers_of_reset hb, hp.congr hnext rfl rfl rfl rfl⟩
  | discard w w' p rc hown hpc hb =>
    exact ⟨registers_of_reset hb, hp.congr hnext rfl rfl rfl rfl⟩

end Writer

/-- The builders a worker has taken were made as the source makes them. -/
def Worker.Registers (next : ℤ) (w : Worker) : Prop :=
  ∀ x ∈ w.sealedRest, x.builder.Made next

theorem Worker.Registers.mono {next later : ℤ} {w w' : Worker} (h : Worker.Registers next w)
    (hr : w'.sealedRest <:+ w.sealedRest) (hle : next ≤ later) : Worker.Registers later w' :=
  fun x hx => (h x (hr.subset hx)).mono hle

theorem Worker.next_rest (w : Worker) : (next cfg w).sealedRest <:+ w.sealedRest :=
  (next_same w).rest

theorem Worker.done_rest (job : Job) (w : Worker) : (done job w).sealedRest = w.sealedRest := by
  unfold done
  split <;> rfl

theorem Worker.Move.registers {a b : Worker × Producer} (h : Worker.Move cfg a b)
    (hw : Worker.Registers a.2.nextId a.1) (hp : Registered cfg a.2) :
    Worker.Registers b.2.nextId b.1 ∧ Registered cfg b.2 := by
  have hnext := h.nextId
  cases h with
  | idle w w' p p' hq hs =>
    obtain ⟨_, _, _, _, hle, _, rfl⟩ := hq
    exact ⟨hw.mono hs.rest hle, hp.congr hle rfl rfl rfl rfl⟩
  | keyed w p m hk =>
    exact ⟨hw, hp.mono le_rfl (fun t ht => ht) (kept_effect hk rfl rfl rfl)⟩
  | skip w p t rest hi =>
    refine ⟨hw, hp.mono le_rfl (fun x hx => ?_) (fun b hb => hb)⟩
    rw [hi]
    exact List.mem_cons_of_mem t hx
  | refuse w p t rest hi =>
    refine ⟨hw, hp.mono le_rfl (fun x hx => ?_) (fun b hb => hb)⟩
    rw [hi]
    exact List.mem_cons_of_mem t hx
  | merge w p p' t rest old b hi hf he hd happ =>
    obtain ⟨key, now, happ⟩ := happ
    have ht : t.batch.Made p.nextId := hp.ingress t (by rw [hi]; exact List.mem_cons_self)
    have hopen := (Builder.Made.opened (hp.old hf) key now).stampFirst t now
    have hfill := hp.fill_same hf (hopen.append ht happ)
    refine ⟨hw.mono List.suffix_rfl hnext, hfill.mono le_rfl (fun x hx => ?_) fun b hb => hb⟩
    obtain ⟨d, m, l, n, f, rfl⟩ := hf.frame
    rw [hi]
    exact List.mem_cons_of_mem t hx
  | begin w p hf hr => exact ⟨nofun, hp.congr le_rfl rfl rfl rfl rfl⟩
  | sealUp w p p' b hf =>
    exact ⟨hw.mono List.suffix_rfl hnext, hp.fill_same hf (hp.old hf b rfl)⟩
  | take p =>
    constructor
    · intro x hx
      exact hp.kept _ ((mem_kept p x.builder).mpr (.inr (.inr ⟨x, hx, rfl⟩)))
    · refine hp.mono le_rfl (fun t ht => ht) (fun b hb => ?_)
      rw [mem_kept] at hb ⊢
      obtain hb | hb | ⟨s, hs, _⟩ := hb
      · exact .inl hb
      · exact .inr (.inl hb)
      · cases hs
  | scratchReserve w w' p bytes hs =>
    exact ⟨hw.mono hs.rest hnext, hp.congr le_rfl rfl rfl rfl rfl⟩
  | scratchRelease w w' p bytes hs =>
    exact ⟨hw.mono hs.rest hnext, hp.congr le_rfl rfl rfl rfl rfl⟩
  | drop w p j =>
    refine ⟨hw.mono ?_ hnext, hp.congr le_rfl rfl rfl rfl rfl⟩
    rw [done_rest]
  | release w p bytes =>
    exact ⟨hw.mono (next_rest w) hnext, hp.congr le_rfl rfl rfl rfl rfl⟩
  | _ => exact ⟨hw, hp.congr le_rfl rfl rfl rfl rfl⟩

theorem Worker.Push.registers {a b : Worker × Producer} (h : Worker.Push a b)
    (hw : Worker.Registers a.2.nextId a.1) (hp : Registered cfg a.2) :
    Worker.Registers b.2.nextId b.1 ∧ Registered cfg b.2 := by
  obtain ⟨j, start, -, rfl⟩ := h
  refine ⟨hw.mono ?_ le_rfl, hp.congr le_rfl rfl rfl rfl rfl⟩
  rw [done_rest]

theorem Sender.Move.registers {a b : Sender.Pc × Producer} (h : Sender.Move cfg a b)
    (hp : Registered cfg a.2) : Registered cfg b.2 := by
  cases h with
  | idle pc pc' p p' ha =>
    obtain ⟨_, _, _, _, rfl⟩ := ha
    exact hp.congr le_rfl rfl rfl rfl rfl
  | keyed pc pc' p m hk => exact hp.mono le_rfl (fun t ht => ht) (kept_effect hk rfl rfl rfl)
  | take p q t rest now m hfree hring he =>
    exact hp.mono le_rfl (fun t ht => ht) (kept_effect he rfl rfl rfl)
  | put p t m he => exact hp.mono le_rfl (fun t ht => ht) (kept_effect he rfl rfl rfl)
  | requeue p q t next m he => exact hp.mono le_rfl (fun t ht => ht) (kept_effect he rfl rfl rfl)
  | finish p q m gone he => exact hp.mono le_rfl (fun t ht => ht) (kept_effect he rfl rfl rfl)
  | cleanup pc pc' p next m gone hs he =>
    exact hp.mono le_rfl (fun t ht => ht) (kept_effect he rfl rfl rfl)
  | _ => exact hp.congr le_rfl rfl rfl rfl rfl

end State

/-- What a builder says of its logs, and what the send task made of it
says. -/
structure Described (cfg : Config) (b : Builder) : Prop where
  made : Made b.group b.logs
  logs : b.group.logs = b.logs.flatMap Log.bytes
  logCount : b.logCount = b.logs.length
  logsLen : b.logsLen = (b.logs.map Log.size).sum
  ids : b.logs ≠ [] → IsLeast (logValues Log.id b.logs) b.startId ∧
    IsGreatest (logValues Log.id b.logs) b.endId
  earliest : IsFirst (logValues Log.timeMs b.logs) b.earliest
  latest : IsLast (logValues Log.timeMs b.logs) b.latest
  sent : ∀ no, let t := builderToSendTask cfg ⟨no, b⟩
    t.logCount = b.logCount ∧ t.startId = b.startId ∧ t.endId = b.endId ∧
      t.earliest = b.earliest ∧ t.latest = b.latest ∧
      t.batchBytes = b.logsLen+cfg.groupSuffixLen
  body : ∀ suffix body, Proto.builderBody suffix b = some body →
    body = Protobuf.Field.encode ⟨1, .bytes (b.logs.flatMap Log.bytes++suffix)⟩

theorem Builder.Made.described {next : ℤ} {b : Builder} (h : b.Made next) (cfg : Config) :
    Described cfg b := by
  have hacc := h.made.accurate
  refine ⟨h.made, hacc.logs, hacc.logCount, hacc.logsLen, ?_, hacc.earliest, hacc.latest,
    fun no => ⟨rfl, rfl, rfl, rfl, rfl, rfl⟩, ?_⟩
  · intro hne
    obtain ⟨x, hx⟩ := List.exists_mem_of_ne_nil b.logs hne
    have hsome : (logValues Log.id b.logs).Nonempty := ⟨x.id, x, hx, rfl⟩
    exact ⟨hacc.startId.isLeast hacc.id_pos hsome, hacc.endId.isGreatest hacc.id_pos hsome⟩
  · exact fun suffix body hbody => Proto.builderBody_some suffix body b h.bytes_length hbody

namespace Sys

variable {st : Setup}

/-- The builders of a producer: of its threads, in the ingress queue, kept
by default or for a key, sealed, and taken by a worker. -/
inductive HasBuilder (st : Setup) (s : Sys) (b : Builder) : Prop
  | thread (i : ℕ) (hown : (s.writers i).batch.producer = some st.me)
      (hb : b = Writer.tlsBuilder st.cfg (s.writers i))
  | ingress (t : IngressTask) (ht : t ∈ s.prod.ingressQueue) (hb : b = t.batch)
  | kept (hb : b ∈ kept st.cfg s.prod)
  | taken (i : ℕ) (x : Sealed) (hx : x ∈ (s.workers i).sealedRest) (hb : b = x.builder)

structure AllMade (st : Setup) (s : Sys) : Prop where
  own : ∀ i, Writer.Registers st.cfg st.me s.prod.nextId (s.writers i)
  prod : Registered st.cfg s.prod
  rest : ∀ i, Worker.Registers s.prod.nextId (s.workers i)

theorem AllMade.builder {s : Sys} (h : AllMade st s) {b : Builder} (hb : HasBuilder st s b) :
    b.Made s.prod.nextId := by
  cases hb with
  | thread i hown hb => exact hb ▸ h.own i hown
  | ingress t ht hb => exact hb ▸ h.prod.ingress t ht
  | kept hb => exact h.prod.kept b hb
  | taken i x hx hb => exact hb ▸ h.rest i x hx

theorem allMade_start (st : Setup) : AllMade st (start st) := by
  refine ⟨fun i _ => .create _ _, ⟨Int.one_pos, nofun, ?_⟩, fun i => nofun⟩
  intro b hb
  rw [mem_kept] at hb
  obtain hb | hb | ⟨s, hs, _⟩ := hb
  · cases hb
  · simp [start, producerCreate, KeyMap.builders, KeyMap.live, KeyMap.empty] at hb
  · cases hs

theorem AllMade.writer {s : Sys} (h : AllMade st s) (i : ℕ) (r : Writer × Producer)
    (hle : s.prod.nextId ≤ r.2.nextId) (hw : Writer.Registers st.cfg st.me r.2.nextId r.1)
    (hp : Registered st.cfg r.2) : AllMade st (s.setWriter i r) := by
  refine ⟨?_, hp, fun j => (h.rest j).mono List.suffix_rfl hle⟩
  exact forall_update _ s.writers i r.1 (fun j => (h.own j).congr rfl hle) hw

theorem AllMade.worker {s : Sys} (h : AllMade st s) (i : ℕ) (r : Worker × Producer)
    (hle : s.prod.nextId ≤ r.2.nextId) (hw : Worker.Registers r.2.nextId r.1)
    (hp : Registered st.cfg r.2) : AllMade st (s.setWorker i r) := by
  refine ⟨fun j => (h.own j).congr rfl hle, hp, ?_⟩
  exact forall_update _ s.workers i r.1 (fun j => (h.rest j).mono List.suffix_rfl hle) hw

theorem allMade_step (s s' : Sys) (a : Act) (hgood : Good st s) (hi : AllMade st s)
    (h : step st s a = some s') : AllMade st s' := by
  refine step_rule (AllMade st) s s' a hgood hi ?_ ?_ ?_ ?_ ?_ h
  · intro t i r _ _ hI hm
    obtain ⟨hw, hp⟩ := hm.registers (hI.own i) hI.prod
    exact hI.writer i r hm.nextId hw hp
  · intro i r _ _ hl
    obtain ⟨hw, hp⟩ := hl.registers hi.prod
    exact hi.writer i r hl.nextId hw hp
  · intro t i r _ _ hI hm
    obtain ⟨hw, hp⟩ := hm.registers (hI.rest i) hI.prod
    exact hI.worker i r hm.nextId hw hp
  · intro i r _ _ hpush
    obtain ⟨hw, hp⟩ := hpush.registers (hi.rest i) hi.prod
    obtain ⟨j, start, -, rfl⟩ := hpush
    exact hi.worker i _ le_rfl hw hp
  · intro i r _ _ hm
    have hn : r.2.nextId = s.prod.nextId := hm.nextId
    refine ⟨fun j => (hi.own j).congr rfl hn.ge, hm.registers hi.prod, fun j => ?_⟩
    exact (hi.rest j).mono List.suffix_rfl hn.ge

/-- In every state of every run, however adds under keys of their own and
merges of batches interleave, a builder tells the number, the size and the
ranges of the logs it holds, and so does the task made of it. -/
theorem builders_described (st : Setup) (acts : List Act) (s : Sys)
    (h : run st acts (start st) = some s) (b : Builder) (hb : HasBuilder st s b) :
    Described st.cfg b := by
  have hstep : ∀ s a s', Good st s → AllMade st s → True → step st s a = some s' →
      AllMade st s' := fun s a s' hgood hi _ => allMade_step s s' a hgood hi
  obtain ⟨-, hall⟩ := run_rule (AllMade st) (fun _ _ => True) hstep acts (start st) s
    (good_start st) (allMade_start st) (along_forall acts _ fun _ _ => trivial) h
  exact (hall.builder hb).described st.cfg

def keyedThreads : Setup :=
  ⟨{ keyQueueBucketCount := 1, keyQueueMaxActive := 2, hashKey := [107] }, 2, 0⟩

def timedLog (timeMs : ℤ) : Wire.KvLog := ⟨timeMs, 0, false, [([97], [98])]⟩

/-- A batch with the first and the third id is merged after an add with the
second. -/
def mergedLate : List Act :=
  [.call 0 (.addKv (timedLog 30) [] false), .writer 0 ⟨1, 1, 9⟩, .writer 0 ⟨1, 1, 9⟩,
    .call 1 (.addKv (timedLog 20) [107] false), .writer 1 ⟨1, 1, 9⟩,
    .call 0 (.addKv (timedLog (-5)) [] true), .writer 0 ⟨1, 1, 7⟩, .writer 0 ⟨1, 1, 7⟩,
    .writer 0 ⟨1, 1, 7⟩, .worker 0 ⟨1, 1, [8], none, none⟩]

theorem mergedLate_described :
    ∃ s, run keyedThreads mergedLate (start keyedThreads) = some s ∧
      ∃ x, (s.workers 0).sealedRest = [x] ∧ x.builder.ids = [2, 1, 3] ∧
        x.builder.startId = 1 ∧ x.builder.endId = 3 ∧ Described keyedThreads.cfg x.builder := by
  have hrun : ∃ s, run keyedThreads mergedLate (start keyedThreads) = some s ∧
      ∃ x, (s.workers 0).sealedRest = [x] ∧ x.builder.ids = [2, 1, 3] ∧
        x.builder.startId = 1 ∧ x.builder.endId = 3 :=
    ⟨_, rfl, _, rfl, by decide, by decide, by decide⟩
  obtain ⟨s, hs, x, hx, hids, hstart, hend⟩ := hrun
  have hmem : x ∈ (s.workers 0).sealedRest := by rw [hx]; exact List.mem_singleton_self x
  exact ⟨s, hs, x, hx, hids, hstart, hend,
    builders_described keyedThreads mergedLate s hs x.builder (.taken 0 x hmem rfl)⟩

end Sys

end VeTls
