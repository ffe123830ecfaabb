import VeTls.Keys.Contents
import VeTls.Proto.Fast
import VeTls.Writer

/-!
# Export and import of the raw buffer

What has not been taken by a worker can be written to one buffer and read
into another producer. A builder is written as one raw item, its request
body. The buffer begins with a magic word, the version, the number of
records and the next id; integers have their low byte first.
-/

set_option autoImplicit false

namespace VeTls

open VeTls.Keys (Addr CStr KeyMap)
open VeTls.Wire (Bytes)
open VeTls.Bytes (leBytes leValue readLe readLe_leBytes leBytes_length)
open VeTls.Protobuf (toInt64)

/-- The string in front of the first zero byte. -/
def cstr (b : Bytes) : CStr := b.takeWhile fun c => decide (c ≠ 0)

def asUint64 (n : ℤ) : ℕ := (n % 2^64).toNat

def uint32 (n : ℕ) : ℕ := n % 2^32

namespace Export

/-- The raw item a builder is exported as; the number is given anew when it
is imported. -/
def builderItem (suffix : Bytes) (b : Builder) : Option RawItem :=
  (Proto.builderBody suffix b).map fun body =>
    ⟨0, b.endId, b.lastTimeMs, b.lastTimeNs, b.lastHasTimeNs, body, b.normKey⟩

/-- The builders with logs, the default builder first. -/
def fullBuilders (cfg : Config) (p : Producer) : List Builder :=
  (p.defaultBuilder.toList++KeyMap.builders cfg.toKeyConfig p.keys).filter
    fun b => decide (b.logCount > 0)

def exportItems (cfg : Config) (suffix : Bytes) (p : Producer) : Option (List RawItem) :=
  ((fullBuilders cfg p).mapM (builderItem suffix)).map fun items => p.queue++items

/-- Lengths are cast to 32 bits before they are written and used. -/
def recBytes (i : RawItem) : Bytes :=
  leBytes 8 (asUint64 i.id)++leBytes 8 (asUint64 i.timeMs)++[if i.hasTimeNs then 1 else 0]++
    leBytes 4 i.timeNs++leBytes 4 (uint32 i.hashKey.length)++leBytes 4 (uint32 i.data.length)++
    i.hashKey.take (uint32 i.hashKey.length)++i.data.take (uint32 i.data.length)

def magic : Bytes := [86, 84, 76, 83]

def bufferBytes (nextId : ℤ) (items : List RawItem) : Bytes :=
  magic++leBytes 4 3++leBytes 4 items.length++leBytes 8 (asUint64 nextId)++items.flatMap recBytes

/-- The part of the export after everything was merged into builders. -/
def exportRecords (cfg : Config) (suffix : Bytes) (p : Producer) : Result × Bytes :=
  if p.queue.length+(fullBuilders cfg p).length > 2^32-1 then (.dropError, [])
  else
    match exportItems cfg suffix p with
    | none => (.dropError, [])
    | some items =>
      if (bufferBytes p.nextId items).length ≥ 2^64 then (.dropError, [])
      else (.ok, bufferBytes p.nextId items)

/-- The ingress queue is merged; the first task that cannot be merged ends
the export. -/
def exportMerge (cfg : Config) (now : ℤ) :
    List IngressTask → List Addr → Producer → Bool × Producer
  | [], _, p => (true, p)
  | _::_, [], p => (false, p)
  | t::rest, a::addrs, p =>
    match ingressTaskMergeLocked cfg t a now
        { p with ingressQueue := rest, ingressQueueBytes := p.ingressQueueBytes-t.batch.logsLen } with
    | (true, p) => exportMerge cfg now rest addrs p
    | (false, p) => (false, p)

/-- The batch of the calling thread is merged if there is room for it. -/
def tlsBatchMergeLocked (cfg : Config) (now now2 : ℤ) (addr : Addr) (w : Writer) (p : Producer) :
    Wait × Writer × Producer :=
  let tb := Writer.tlsBuilder cfg w
  if tb.logCount = 0 ∨ tb.logsLen = 0 then (.rc .ok, w, p)
  else
    match waitBufferSpaceLocked cfg p tb.logsLen false now now2 with
    | (.rc .ok, p) =>
      match ingressTaskMergeLocked cfg ⟨cfg.hashKey, tb, false⟩ addr now p with
      | (true, p) => (.rc .ok, Writer.setBuilder (some (tlsBatchReset tb)) w,
          { p with tlsBytes := wrapSub p.tlsBytes tb.logsLen })
      | (false, p) => (.rc .full, w, p)
    | (r, p) => (r, w, p)

/-- The thread's batch belongs to this producer and has logs. -/
def ownLogs (me : ℕ) (w : Writer) : Bool :=
  decide (w.batch.producer = some me) && w.batch.builder.any fun b => decide (b.logCount > 0)

/-- `none` when the caller has to wait for room. -/
def exportRawBuffer (cfg : Config) (me : ℕ) (suffix : Bytes) (now now2 : ℤ) (addrs : List Addr)
    (w : Writer) (p : Producer) : Option ((Result × Bytes) × Writer × Producer) :=
  let merged := if ownLogs me w then tlsBatchMergeLocked cfg now now2 (addrs.headD 0) w p
    else (.rc .ok, w, p)
  match merged with
  | (.block _, _, _) => none
  | (.rc .closed, w, p) => some ((.closed, []), w, p)
  | (.rc .timeout, w, p) => some ((.timeout, []), w, p)
  | (.rc .full, w, p) => some ((.dropError, []), w, p)
  | (.rc .ok, w, p) =>
    match exportMerge cfg now p.ingressQueue addrs.tail p with
    | (false, p) => some ((.dropError, []), w, p)
    | (true, p) => some (exportRecords cfg suffix p, w, p)

/-- The fixed part of a record. -/
structure Header where
  id : ℕ
  timeMs : ℕ
  hasNs : Bool
  timeNs : ℕ
  hkLen : ℕ
  dataSize : ℕ
  deriving DecidableEq, Repr

/-- Version 1 has no hash keys. -/
def readHeader (version : ℕ) (b : Bytes) : Option (Header × Bytes) :=
  (readLe 8 b).bind fun id => (readLe 8 id.2).bind fun time =>
    (readLe 1 time.2).bind fun flag => (readLe 4 flag.2).bind fun ns =>
      (if version ≥ 2 then readLe 4 ns.2 else some (0, ns.2)).bind fun hk =>
        (readLe 4 hk.2).map fun size =>
          (⟨id.1, time.1, decide (flag.1 ≠ 0), ns.1, hk.1, size.1⟩, size.2)

def importItem (p : Producer) (h : Header) (hk : CStr) (data : Bytes) : RawItem :=
  ⟨p.rawNo, toInt64 h.id, toInt64 h.timeMs, h.timeNs, h.hasNs, data, hk⟩

def queuePush (item : RawItem) (p : Producer) : Producer :=
  { p with queue := p.queue++[item], queueBytes := p.queueBytes+item.size, rawNo := p.rawNo+1 }

/-- Records that were read before an error stay in the queue. -/
def importGo (cfg : Config) (version : ℕ) : ℕ → Bytes → ℕ → Producer → Result × ℕ × Producer
  | 0, _, maxId, p => (.ok, maxId, p)
  | n+1, b, maxId, p =>
    match readHeader version b with
    | none => (.invalid, maxId, p)
    | some (h, b) =>
      if b.length < h.hkLen then (.invalid, maxId, p)
      else if cfg.maxBufferBytes > 0 ∧
          sizeFitsLimit p.queueBytes h.dataSize cfg.maxBufferBytes.toNat = false then
        (.dropError, maxId, p)
      else
        let hk := if version ≥ 2 ∧ h.hkLen > 0 then cstr (b.take h.hkLen) else []
        let b := b.drop h.hkLen
        if b.length < h.dataSize then (.invalid, maxId, p)
        else if h.dataSize = 0 then (.dropError, maxId, p)
        else importGo cfg version n (b.drop h.dataSize) (max maxId h.id)
          (queuePush (importItem p h hk (b.take h.dataSize)) p)

def advanceNextLogId (desired : ℕ) (p : Producer) : Producer :=
  if desired > 0 ∧ p.nextId < desired then { p with nextId := desired } else p

def importRawBuffer (cfg : Config) (buf : Bytes) (p : Producer) : Result × Producer :=
  if buf.length < 20 ∨ buf.take 4 ≠ magic then (.invalid, p)
  else
    let version := leValue ((buf.drop 4).take 4)
    let count := leValue ((buf.drop 8).take 4)
    let nextId := leValue ((buf.drop 12).take 8)
    if version ≠ 1 ∧ version ≠ 2 ∧ version ≠ 3 then (.invalid, p)
    else
      match importGo cfg version count (buf.drop 20) (p.nextId-1).toNat p with
      | (.ok, maxId, p) =>
        let desired := max ((maxId+1) % 2^64) nextId
        (.ok, if desired ≤ 2^63-1 then advanceNextLogId desired p else p)
      | (r, _, p) => (r, p)

section Records

/-- The item fits a record: sizes of 32 bits, a key without zero bytes. -/
structure Portable (i : RawItem) : Prop where
  data : i.data ≠ []
  size : i.data.length < 2^32
  hashKey : i.hashKey.length < 2^32
  noNul : ∀ c ∈ i.hashKey, c ≠ 0
  timeMs : -2^63 ≤ i.timeMs ∧ i.timeMs < 2^63
  timeNs : i.timeNs < 2^32
  id : -2^63 ≤ i.id ∧ i.id < 2^63

/-- An item apart from its number in the history of the producer. -/
def content (i : RawItem) : RawItem := { i with no := 0 }

theorem asUint64_lt (n : ℤ) : asUint64 n < 2^64 := by
  unfold asUint64
  omega

theorem toInt64_asUint64 (n : ℤ) (h : -2^63 ≤ n ∧ n < 2^63) : toInt64 (asUint64 n) = n := by
  unfold toInt64 asUint64
  split <;> omega

theorem cstr_of_noNul (s : CStr) (h : ∀ c ∈ s, c ≠ 0) : cstr s = s := by
  rw [cstr, List.takeWhile_eq_self_iff]
  exact fun c hc => decide_eq_true (h c hc)

def headerOf (i : RawItem) : Header :=
  ⟨asUint64 i.id, asUint64 i.timeMs, i.hasTimeNs, i.timeNs, i.hashKey.length, i.data.length⟩

theorem recBytes_eq (i : RawItem) (h : Portable i) : recBytes i =
    leBytes 8 (asUint64 i.id)++(leBytes 8 (asUint64 i.timeMs)++
      (leBytes 1 (if i.hasTimeNs then 1 else 0)++(leBytes 4 i.timeNs++
        (leBytes 4 i.hashKey.length++(leBytes 4 i.data.length++(i.hashKey++i.data)))))) := by
  have hk : uint32 i.hashKey.length = i.hashKey.length := Nat.mod_eq_of_lt h.hashKey
  have hd : uint32 i.data.length = i.data.length := Nat.mod_eq_of_lt h.size
  have hflag : [if i.hasTimeNs then (1 : UInt8) else 0] =
      leBytes 1 (if i.hasTimeNs then 1 else 0) := by
    split <;> rfl
  rw [recBytes, hk, hd, hflag, List.take_length, List.take_length]
  simp only [List.append_assoc]

theorem readHeader_recBytes (i : RawItem) (h : Portable i) (rest : Bytes) :
    readHeader 3 (recBytes i++rest) = some (headerOf i, i.hashKey++(i.data++rest)) := by
  have hns : i.timeNs < 256^4 := by have := h.timeNs; omega
  have hk : i.hashKey.length < 256^4 := by have := h.hashKey; omega
  have hd : i.data.length < 256^4 := by have := h.size; omega
  have hid : asUint64 i.id < 256^8 := asUint64_lt i.id
  have htime : asUint64 i.timeMs < 256^8 := asUint64_lt i.timeMs
  have hflag : (if i.hasTimeNs then 1 else 0) < 256^1 := by split <;> decide
  rw [recBytes_eq i h]
  simp only [List.append_assoc, readHeader]
  rw [readLe_leBytes 8 _ _ hid, Option.bind_some, readLe_leBytes 8 _ _ htime, Option.bind_some,
    readLe_leBytes 1 _ _ hflag, Option.bind_some, readLe_leBytes 4 _ _ hns, Option.bind_some,
    if_pos (by decide), readLe_leBytes 4 _ _ hk, Option.bind_some, readLe_leBytes 4 _ _ hd]
  cases hx : i.hasTimeNs <;> simp [headerOf, hx]

/-- One round of the loop on a record that is complete. -/
theorem importGo_step (cfg : Config) (hlimit : cfg.maxBufferBytes ≤ 0) (n maxId : ℕ) (b : Bytes)
    (p : Producer) (h : Header) (rest : Bytes) (hread : readHeader 3 b = some (h, rest))
    (hlen : h.hkLen+h.dataSize ≤ rest.length) (hpos : h.dataSize ≠ 0) :
    importGo cfg 3 (n+1) b maxId p =
      importGo cfg 3 n ((rest.drop h.hkLen).drop h.dataSize) (max maxId h.id)
        (queuePush (importItem p h
          (if (3 : ℕ) ≥ 2 ∧ h.hkLen > 0 then cstr (rest.take h.hkLen) else [])
          ((rest.drop h.hkLen).take h.dataSize)) p) := by
  rw [importGo, hread]
  dsimp only
  rw [if_neg (by omega), if_neg (by omega), if_neg (by rw [List.length_drop]; omega), if_neg hpos]

/-- A record is read back as the item it was written for. -/
theorem importGo_record (cfg : Config) (hlimit : cfg.maxBufferBytes ≤ 0) (i : RawItem)
    (h : Portable i) (n maxId : ℕ) (rest : Bytes) (p : Producer) :
    importGo cfg 3 (n+1) (recBytes i++rest) maxId p =
      importGo cfg 3 n rest (max maxId (asUint64 i.id)) (queuePush { i with no := p.rawNo } p) := by
  have hpos : i.data.length ≠ 0 := fun hz => h.data (List.length_eq_zero_iff.mp hz)
  have hlen : i.hashKey.length+i.data.length ≤ (i.hashKey++(i.data++rest)).length := by
    rw [List.length_append, List.length_append]
    omega
  have hkey : (if (3 : ℕ) ≥ 2 ∧ (headerOf i).hkLen > 0 then
      cstr ((i.hashKey++(i.data++rest)).take (headerOf i).hkLen) else []) = i.hashKey := by
    rw [show (headerOf i).hkLen = i.hashKey.length from rfl, List.take_left,
      cstr_of_noNul i.hashKey h.noNul]
    split
    · rfl
    · rename_i hz
      exact (List.length_eq_zero_iff.mp (by omega)).symm
  have hdrop : (i.hashKey++(i.data++rest)).drop (headerOf i).hkLen = i.data++rest := List.drop_left
  have htake : (i.data++rest).take (headerOf i).dataSize = i.data := List.take_left
  have hrest : (i.data++rest).drop (headerOf i).dataSize = rest := List.drop_left
  rw [importGo_step cfg hlimit n maxId _ p (headerOf i) _ (readHeader_recBytes i h rest) hlen hpos,
    hkey, hdrop, htake, hrest]
  show importGo cfg 3 n rest _ (queuePush ⟨p.rawNo, toInt64 (asUint64 i.id),
    toInt64 (asUint64 i.timeMs), i.timeNs, i.hasTimeNs, i.data, i.hashKey⟩ p) = _
  rw [toInt64_asUint64 i.id h.id, toInt64_asUint64 i.timeMs h.timeMs]
  rfl

/-- The rest of the producer is as it was. -/
structure Imported (p p' : Producer) (items : List RawItem) : Prop where
  queue : p'.queue.map content = p.queue.map content++items.map content
  nextId : p'.nextId = p.nextId
  defaultBuilder : p'.defaultBuilder = p.defaultBuilder
  keys : p'.keys = p.keys
  ingressQueue : p'.ingressQueue = p.ingressQueue

theorem importGo_records (cfg : Config) (hlimit : cfg.maxBufferBytes ≤ 0) (items : List RawItem)
    (h : ∀ i ∈ items, Portable i) (maxId : ℕ) (p : Producer) :
    ∃ p', importGo cfg 3 items.length (items.flatMap recBytes) maxId p =
        (.ok, items.foldl (fun m i => max m (asUint64 i.id)) maxId, p') ∧ Imported p p' items := by
  induction items generalizing maxId p with
  | nil => exact ⟨p, rfl, by simp, rfl, rfl, rfl, rfl⟩
  | cons i items ih =>
    obtain ⟨p', hgo, hp⟩ := ih (fun x hx => h x (List.mem_cons_of_mem i hx))
      (max maxId (asUint64 i.id)) (queuePush { i with no := p.rawNo } p)
    refine ⟨p', ?_, ?_, hp.nextId, hp.defaultBuilder, hp.keys, hp.ingressQueue⟩
    · rw [List.length_cons, List.flatMap_cons, importGo_record cfg hlimit i (h i List.mem_cons_self),
        hgo]
      rfl
    · rw [hp.queue]
      simp [queuePush, content]

theorem maxId_lt (items : List RawItem) (maxId nextId : ℕ) (hm : maxId < nextId)
    (h : ∀ i ∈ items, 0 ≤ i.id ∧ i.id < nextId) (hn : nextId < 2^64) :
    items.foldl (fun m i => max m (asUint64 i.id)) maxId < nextId := by
  induction items generalizing maxId with
  | nil => exact hm
  | cons i items ih =>
    have hi := h i List.mem_cons_self
    apply ih
    · have : asUint64 i.id < nextId := by
        unfold asUint64
        omega
      exact max_lt hm this
    · exact fun x hx => h x (List.mem_cons_of_mem i hx)

end Records

section Buffers

theorem bufferBytes_slices (nextId : ℤ) (items : List RawItem) :
    (bufferBytes nextId items).take 4 = magic ∧
      ((bufferBytes nextId items).drop 4).take 4 = leBytes 4 3 ∧
      ((bufferBytes nextId items).drop 8).take 4 = leBytes 4 items.length ∧
      ((bufferBytes nextId items).drop 12).take 8 = leBytes 8 (asUint64 nextId) ∧
      (bufferBytes nextId items).drop 20 = items.flatMap recBytes ∧
      20 ≤ (bufferBytes nextId items).length := by
  refine ⟨rfl, rfl, rfl, rfl, rfl, ?_⟩
  simp only [bufferBytes, magic, List.length_append, leBytes_length, List.length_cons,
    List.length_nil]
  omega

/-- The buffer of items is imported into a fresh producer. -/
theorem import_buffer (cfg : Config) (hlimit : cfg.maxBufferBytes ≤ 0) (nextId : ℤ)
    (items : List RawItem) (h : ∀ i ∈ items, Portable i) (hcount : items.length < 2^32)
    (hids : ∀ i ∈ items, 0 ≤ i.id ∧ i.id < nextId) (hnext : 0 < nextId ∧ nextId < 2^63) :
    ∃ p', importRawBuffer cfg (bufferBytes nextId items) producerCreate = (.ok, p') ∧
      p'.queue.map content = items.map content ∧ p'.nextId = nextId ∧ p'.defaultBuilder = none ∧
      p'.keys = KeyMap.empty ∧ p'.ingressQueue = [] := by
  obtain ⟨hmagic, hversion, hlen, hid, hrecs, hmin⟩ := bufferBytes_slices nextId items
  obtain ⟨p', hgo, hp⟩ := importGo_records cfg hlimit items h 0 producerCreate
  have hu : asUint64 nextId = nextId.toNat := by
    unfold asUint64
    omega
  have hmax := maxId_lt items 0 nextId.toNat (by omega) (fun i hi => by have := hids i hi; omega)
    (by omega)
  have hcurrent : (producerCreate.nextId-1).toNat = 0 := rfl
  have hp1 : p'.nextId = 1 := hp.nextId
  rw [importRawBuffer, hmagic, hversion, hlen, hid, hrecs, VeTls.Bytes.leValue_leBytes 4 3 (by decide),
    VeTls.Bytes.leValue_leBytes 4 _ (by omega), VeTls.Bytes.leValue_leBytes 8 _ (asUint64_lt nextId),
    if_neg (by simp; omega), hcurrent, hu]
  simp only [ne_eq, OfNat.ofNat_ne_one, not_false_eq_true, Nat.reduceEqDiff, not_true_eq_false,
    and_false, if_false, hgo]
  rw [Nat.mod_eq_of_lt (by omega), max_eq_right (by omega), if_pos (by omega)]
  refine ⟨_, rfl, ?_⟩
  unfold advanceNextLogId
  split
  · refine ⟨hp.queue, ?_, hp.defaultBuilder, hp.keys, hp.ingressQueue⟩
    dsimp only
    omega
  · refine ⟨hp.queue, ?_, hp.defaultBuilder, hp.keys, hp.ingressQueue⟩
    omega

theorem recBytes_content (l : List RawItem) : (l.map content).flatMap recBytes = l.flatMap recBytes := by
  rw [List.flatMap_map]
  rfl

theorem bufferBytes_content (nextId : ℤ) (l l' : List RawItem)
    (h : l'.map content = l.map content) : bufferBytes nextId l' = bufferBytes nextId l := by
  have hlen : l'.length = l.length := by
    rw [← List.length_map content, h, List.length_map]
  rw [bufferBytes, bufferBytes, hlen, ← recBytes_content l', h, recBytes_content]

/-- What an export that succeeded wrote. -/
theorem exportRecords_ok (cfg : Config) (suffix : Bytes) (p : Producer) (buf : Bytes)
    (h : exportRecords cfg suffix p = (.ok, buf)) :
    ∃ items, exportItems cfg suffix p = some items ∧ items.length < 2^32 ∧
      buf = bufferBytes p.nextId items ∧ buf.length < 2^64 := by
  unfold exportRecords at h
  split at h
  · simp at h
  · rename_i hcount
    split at h
    · simp at h
    · rename_i items hitems
      split at h
      · simp at h
      · rename_i hsize
        obtain rfl := (Prod.mk.inj h).2
        refine ⟨items, hitems, ?_, rfl, by omega⟩
        obtain ⟨bs, hbs, rfl⟩ := Option.map_eq_some_iff.mp hitems
        have hlen := VeTls.Protobuf.mapM_length _ _ _ hbs
        rw [List.length_append]
        omega

end Buffers

/-- The buffer brings the items and the next id back in a fresh producer,
which would then be exported to the same bytes. -/
def Restored (cfg : Config) (me : ℕ) (suffix : Bytes) (now now2 : ℤ) (addrs : List Addr)
    (w : Writer) (nextId : ℤ) (items : List RawItem) (buf : Bytes) : Prop :=
  ∃ p, importRawBuffer cfg buf producerCreate = (.ok, p) ∧
    p.queue.map content = items.map content ∧ p.nextId = nextId ∧
    exportRawBuffer cfg me suffix now now2 addrs w p = some ((.ok, buf), w, p)

/-- With nothing to merge an export only writes records. -/
theorem exportRawBuffer_eq (cfg : Config) (me : ℕ) (suffix : Bytes) (now now2 : ℤ)
    (addrs : List Addr) (w : Writer) (p : Producer) (hbatch : ownLogs me w = false)
    (hingress : p.ingressQueue = []) :
    exportRawBuffer cfg me suffix now now2 addrs w p =
      some (exportRecords cfg suffix p, w, p) := by
  rw [exportRawBuffer, hbatch]
  simp only [Bool.false_eq_true, if_false, hingress, exportMerge]

theorem exportRecords_queue (cfg : Config) (suffix : Bytes) (p : Producer)
    (hd : p.defaultBuilder = none) (hk : p.keys = KeyMap.empty) (hlen : p.queue.length < 2^32)
    (hsize : (bufferBytes p.nextId p.queue).length < 2^64) :
    exportRecords cfg suffix p = (.ok, bufferBytes p.nextId p.queue) := by
  have hb : fullBuilders cfg p = [] := by
    simp [fullBuilders, hd, hk, KeyMap.builders, KeyMap.live, KeyMap.empty]
  have hitems : exportItems cfg suffix p = some p.queue := by
    rw [exportItems, hb]
    simp
  rw [exportRecords, hb, if_neg (by simp only [List.length_nil]; omega), hitems]
  dsimp only
  rw [if_neg (by omega)]

/-- A producer whose thread batch and ingress queue are empty, and whose
records fit, survives export and import: the queue of the new producer holds
the raw items and one item for each builder, with the same next id, and a
second export gives the same bytes. -/
theorem import_export (cfg cfg' : Config) (me : ℕ) (suffix suffix' : Bytes) (now now2 : ℤ)
    (addrs : List Addr) (w : Writer) (p : Producer) (items : List RawItem) (buf : Bytes)
    (hbatch : ownLogs me w = false) (hingress : p.ingressQueue = [])
    (hnext : 0 < p.nextId ∧ p.nextId < 2^63) (hlimit : cfg'.maxBufferBytes ≤ 0)
    (hitems : exportItems cfg suffix p = some items)
    (hok : ∀ i ∈ items, Portable i ∧ 0 ≤ i.id ∧ i.id < p.nextId)
    (h : exportRawBuffer cfg me suffix now now2 addrs w p = some ((.ok, buf), w, p)) :
    Restored cfg' me suffix' now now2 addrs w p.nextId items buf := by
  rw [exportRawBuffer_eq cfg me suffix now now2 addrs w p hbatch hingress] at h
  obtain ⟨items', hitems', hcount, rfl, hsize⟩ := exportRecords_ok cfg suffix p buf
    (congrArg Prod.fst (Option.some.inj h))
  obtain rfl : items' = items := Option.some.inj (hitems'.symm.trans hitems)
  obtain ⟨p', himport, hqueue, hid, hd, hk, hi⟩ := import_buffer cfg' hlimit p.nextId items'
    (fun i hx => (hok i hx).1) hcount (fun i hx => (hok i hx).2) hnext
  have hbytes : bufferBytes p'.nextId p'.queue = bufferBytes p.nextId items' := by
    rw [hid]
    exact bufferBytes_content p.nextId items' p'.queue hqueue
  have hlen : p'.queue.length < 2^32 := by
    rw [← List.length_map content, hqueue, List.length_map]
    exact hcount
  refine ⟨p', himport, hqueue, hid, ?_⟩
  rw [exportRawBuffer_eq cfg' me suffix' now now2 addrs w p' hbatch hi,
    exportRecords_queue cfg' suffix' p' hd hk hlen (by rw [hbytes]; exact hsize), hbytes]

/-- A raw item and a builder with one log. -/
def twoHeld : Producer :=
  { producerCreate with
    queue := [⟨0, 1, 5, 7, true, [9], []⟩]
    defaultBuilder := logBuilderAddKvLens (logBuilderCreate [75]) 2 ⟨6, 0, false, []⟩
    nextId := 3 }

def twoItems : List RawItem :=
  [⟨0, 1, 5, 7, true, [9], []⟩, ⟨0, 2, 6, 0, false, [10, 4, 10, 2, 8, 6], [75]⟩]

theorem twoHeld_import_export :
    ∃ buf, exportRawBuffer {} 0 [] 1 1 [] Writer.start twoHeld =
        some ((.ok, buf), Writer.start, twoHeld) ∧
      Restored { maxBufferBytes := 0 } 0 [] 1 1 [] Writer.start twoHeld.nextId twoItems buf := by
  have hexport : exportRawBuffer {} 0 [] 1 1 [] Writer.start twoHeld =
      some ((.ok, bufferBytes 3 twoItems), Writer.start, twoHeld) := by
    have hrecs : exportRecords {} [] twoHeld = (.ok, bufferBytes 3 twoItems) := by decide +kernel
    rw [exportRawBuffer_eq _ _ _ _ _ _ _ _ rfl rfl, hrecs]
  refine ⟨_, hexport, import_export {} { maxBufferBytes := 0 } 0 [] [] 1 1 [] Writer.start twoHeld
    twoItems _ rfl rfl (by decide) (by decide) (by decide +kernel) ?_ hexport⟩
  intro i hi
  simp only [twoItems, List.mem_cons, List.not_mem_nil, or_false] at hi
  rcases hi with rfl | rfl
  · exact ⟨⟨by decide, by decide, by decide, by simp, by norm_num, by decide, by norm_num⟩, by decide⟩
  · exact ⟨⟨by decide, by decide, by decide, by simp, by norm_num, by decide, by norm_num⟩, by decide⟩

/-- A buffer with an id that is negative as an `int64_t`. -/
def strayBuffer : Bytes := bufferBytes 1 [⟨0, -2, 5, 0, false, [9], []⟩]

def strayLog : RawLog := ⟨6, 0, false, [9], false⟩

/-- The buffer is imported, and a raw log is added. -/
def strayHeld : Producer :=
  (Writer.rawPush {} strayLog Writer.start
    (Writer.rawReserve strayLog Writer.start
      (importRawBuffer {} strayBuffer producerCreate).2).2).2

/-- The unsigned maximum of the ids hides the next id. -/
theorem strayHeld_not_restored : ¬ ∀ (cfg cfg' : Config) (me : ℕ) (suffix suffix' : Bytes)
    (now now2 : ℤ) (addrs : List Addr) (w : Writer) (p : Producer) (items : List RawItem)
    (buf : Bytes), ownLogs me w = false → p.ingressQueue = [] →
    0 < p.nextId ∧ p.nextId < 2^63 → cfg'.maxBufferBytes ≤ 0 →
    exportItems cfg suffix p = some items →
    (∀ i ∈ items, Portable i ∧ i.id < p.nextId) →
    exportRawBuffer cfg me suffix now now2 addrs w p = some ((.ok, buf), w, p) →
      Restored cfg' me suffix' now now2 addrs w p.nextId items buf := by
  intro h
  have hitems : exportItems {} [] strayHeld =
      some [⟨0, -2, 5, 0, false, [9], []⟩, ⟨1, 1, 6, 0, false, [9], []⟩] := by decide +kernel
  obtain ⟨p, himport, _, hnext, _⟩ := h {} { maxBufferBytes := 0 } 0 [] [] 1 1 [] Writer.start
    strayHeld _ (bufferBytes 2 [⟨0, -2, 5, 0, false, [9], []⟩, ⟨1, 1, 6, 0, false, [9], []⟩]) rfl
    (by decide +kernel) (by decide +kernel) (by decide) hitems (by
      intro i hi
      simp only [List.mem_cons, List.not_mem_nil, or_false] at hi
      rcases hi with rfl | rfl
      · exact ⟨⟨by decide, by decide, by decide, by simp, by norm_num, by decide, by norm_num⟩,
          by decide⟩
      · exact ⟨⟨by decide, by decide, by decide, by simp, by norm_num, by decide, by norm_num⟩,
          by decide⟩) (by
      rw [exportRawBuffer_eq _ _ _ _ _ _ _ _ rfl (by decide +kernel)]
      have hrecs : exportRecords {} [] strayHeld = (.ok, bufferBytes 2
          [⟨0, -2, 5, 0, false, [9], []⟩, ⟨1, 1, 6, 0, false, [9], []⟩]) := by decide +kernel
      rw [hrecs])
  have hp : (importRawBuffer { maxBufferBytes := 0 } (bufferBytes 2
      [⟨0, -2, 5, 0, false, [9], []⟩, ⟨1, 1, 6, 0, false, [9], []⟩]) producerCreate).2.nextId = 1 := by
    decide +kernel
  have hs : strayHeld.nextId = 2 := by decide +kernel
  rw [himport, hnext, hs] at hp
  exact absurd hp (by decide)

end Export

end VeTls
