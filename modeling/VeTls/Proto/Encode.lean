import VeTls.Lib.Protobuf
import VeTls.Wire

/-!
# The reference encoder

The functions of `ve_tls_proto.c`. A buffer is the list of its bytes; a put
fails when the length would not be a `size_t`, allocations succeed. Strings
are the bytes before the terminator, `none` is a null pointer. Each function
comes with the bytes it appends.
-/

set_option autoImplicit false

namespace VeTls.Proto

open VeTls.Wire (Bytes)
open VeTls.Bytes (put Puts puts_put puts_nil leBytes)
open VeTls.Protobuf (Field Value encodeFields varint varintGo)

def sizeCap : ℕ := 2^64

def bufPut (p b : Bytes) : Option Bytes := put sizeCap p b

def bufPutU8 (v : UInt8) (b : Bytes) : Option Bytes := bufPut [v] b

/-- A 64-bit value leaves the loop after at most nine shifts. -/
def putVarintU64Go : ℕ → ℕ → Bytes → Option Bytes
  | 0, v, b => bufPutU8 (UInt8.ofNat v) b
  | k+1, v, b =>
    if v < 0x80 then bufPutU8 (UInt8.ofNat v) b
    else (bufPutU8 (UInt8.ofNat (v % 128+0x80)) b).bind (putVarintU64Go k (v/128))

def putVarintU64 (v : ℕ) (b : Bytes) : Option Bytes := putVarintU64Go 9 v b

def putKey (fieldNumber wireType : ℕ) (b : Bytes) : Option Bytes :=
  putVarintU64 (fieldNumber*8+wireType) b

def putLenDelimited (data b : Bytes) : Option Bytes :=
  (putVarintU64 data.length b).bind (bufPut data)

def putString (fieldNumber : ℕ) (s : Option Bytes) (b : Bytes) : Option Bytes :=
  (putKey fieldNumber 2 b).bind (putLenDelimited (s.getD []))

def putInt64 (fieldNumber : ℕ) (v : ℤ) (b : Bytes) : Option Bytes :=
  (putKey fieldNumber 0 b).bind (putVarintU64 (v % 2^64).toNat)

def putFixed32 (fieldNumber v : ℕ) (b : Bytes) : Option Bytes :=
  (putKey fieldNumber 5 b).bind (bufPut [UInt8.ofNat v, UInt8.ofNat (v/2^8), UInt8.ofNat (v/2^16),
    UInt8.ofNat (v/2^24)])

structure Kv where
  key : Option Bytes
  value : Option Bytes
  deriving DecidableEq, Repr

/-- The pair is written to a buffer of its own and then, with its length, to
`out`. -/
def encodeKv (fieldNumber : ℕ) (kv : Kv) (out : Bytes) : Option Bytes :=
  ((putString 1 kv.key []).bind (putString 2 kv.value)).bind fun tmp =>
    (putKey fieldNumber 2 out).bind (putLenDelimited tmp)

def encodeLogContent (kv : Kv) (out : Bytes) : Option Bytes := encodeKv 2 kv out

def encodeLogTag (kv : Kv) (out : Bytes) : Option Bytes := encodeKv 3 kv out

/-- The arguments of an add: a log before it is encoded. -/
structure Entry where
  timeMs : ℤ
  timeNs : ℕ
  hasTimeNs : Bool
  kvs : List Kv
  deriving DecidableEq, Repr

/-- Without a positive time there are no nanoseconds. -/
def Entry.normal (e : Entry) : Entry :=
  if e.timeMs ≤ 0 then { e with timeMs := 0, timeNs := 0, hasTimeNs := false } else e

def protoEncodeLogEx (e : Entry) : Option Bytes :=
  let e := e.normal
  (putInt64 1 e.timeMs []).bind fun b =>
    (e.kvs.foldlM (fun b kv => encodeLogContent kv b) b).bind fun b =>
      if e.hasTimeNs then putFixed32 3 e.timeNs b else some b

structure Meta where
  source : Option Bytes
  fileName : Option Bytes
  logTags : List Kv
  contextFlow : Option Bytes
  deriving DecidableEq, Repr

/-- A string that is null or empty is left out. -/
def putPresent (fieldNumber : ℕ) (s : Option Bytes) (b : Bytes) : Option Bytes :=
  if s.getD [] ≠ [] then putString fieldNumber s b else some b

def putLog (log b : Bytes) : Option Bytes := (putKey 1 2 b).bind (putLenDelimited log)

def encodeLogGroup (logs : List Bytes) (m : Meta) (out : Bytes) : Option Bytes :=
  ((((logs.foldlM (fun b log => putLog log b) []).bind (putPresent 2 m.source)).bind
    (putPresent 4 m.fileName)).bind fun b =>
      (m.logTags.foldlM (fun b kv => encodeLogTag kv b) b).bind (putPresent 5 m.contextFlow)).bind
        fun tmp => (putKey 1 2 out).bind (putLenDelimited tmp)

def perGroup (maxLogGroupLogs : ℕ) : ℕ :=
  if maxLogGroupLogs = 0 ∨ maxLogGroupLogs > 10000 then 10000 else maxLogGroupLogs

/-- Every round takes at least one log. -/
def encodeGroups (n : ℕ) (m : Meta) : ℕ → List Bytes → Bytes → Option Bytes
  | 0, _, b => some b
  | _+1, [], b => some b
  | k+1, log::logs, b =>
    (encodeLogGroup ((log::logs).take n) m b).bind (encodeGroups n m k ((log::logs).drop n))

def protoEncodeLogGroupListEx2 (logs : List Bytes) (m : Meta) (maxLogGroupLogs : ℕ) :
    Option Bytes :=
  if logs.isEmpty then some []
  else encodeGroups (perGroup maxLogGroupLogs) m logs.length logs []

section Pieces

theorem puts_u8 (v : UInt8) : Puts sizeCap (bufPutU8 v) [v] := puts_put [v]

theorem putVarintU64_puts (v : ℕ) : Puts sizeCap (putVarintU64 v) (varint v) := by
  have hgo : ∀ k v, Puts sizeCap (putVarintU64Go k v) (varintGo k v) := by
    intro k
    induction k with
    | zero => exact fun v => puts_u8 _
    | succ k ih =>
      intro v
      exact Puts.ite (fun _ => puts_u8 _) (fun _ => (puts_u8 _).bind (ih (v/128)))
  exact hgo 9 v

theorem putKey_puts (fieldNumber wireType : ℕ) :
    Puts sizeCap (putKey fieldNumber wireType) (varint (fieldNumber*8+wireType)) :=
  putVarintU64_puts _

/-- A field of bytes is its key, its length and the bytes. -/
theorem putField_puts (fieldNumber : ℕ) (data : Bytes) :
    Puts sizeCap (fun b => (putKey fieldNumber 2 b).bind (putLenDelimited data))
      (Field.encode ⟨fieldNumber, .bytes data⟩) :=
  (putKey_puts fieldNumber 2).bind ((putVarintU64_puts data.length).bind (puts_put data))

theorem putString_puts (fieldNumber : ℕ) (s : Option Bytes) :
    Puts sizeCap (putString fieldNumber s) (Field.encode ⟨fieldNumber, .bytes (s.getD [])⟩) :=
  putField_puts fieldNumber (s.getD [])

theorem putInt64_puts (fieldNumber : ℕ) (v : ℤ) :
    Puts sizeCap (putInt64 fieldNumber v) (Field.encode ⟨fieldNumber, .varint (v % 2^64).toNat⟩) :=
  (putKey_puts fieldNumber 0).bind (putVarintU64_puts _)

theorem putFixed32_puts (fieldNumber v : ℕ) :
    Puts sizeCap (putFixed32 fieldNumber v) (Field.encode ⟨fieldNumber, .fixed32 v⟩) := by
  have hle : leBytes 4 v = [UInt8.ofNat v, UInt8.ofNat (v/2^8), UInt8.ofNat (v/2^16),
      UInt8.ofNat (v/2^24)] := by
    simp only [leBytes, Nat.div_div_eq_div_mul]
    norm_num
  rw [Field.encode, Value.encode, hle]
  exact (putKey_puts fieldNumber 5).bind (puts_put _)

def kvMessage (kv : Kv) : Bytes :=
  encodeFields [⟨1, .bytes (kv.key.getD [])⟩, ⟨2, .bytes (kv.value.getD [])⟩]

def kvField (fieldNumber : ℕ) (kv : Kv) : Field := ⟨fieldNumber, .bytes (kvMessage kv)⟩

theorem le_encode (fieldNumber : ℕ) (data : Bytes) :
    data.length ≤ (Field.encode ⟨fieldNumber, .bytes data⟩).length := by
  simp only [Field.encode, Value.encode, List.length_append]
  omega

theorem encodeKv_puts (fieldNumber : ℕ) (kv : Kv) :
    Puts sizeCap (encodeKv fieldNumber kv) (kvField fieldNumber kv).encode := by
  have htmp := ((putString_puts 1 kv.key).bind (putString_puts 2 kv.value)).start (by decide)
  have hm : kvMessage kv = Field.encode ⟨1, .bytes (kv.key.getD [])⟩++
      Field.encode ⟨2, .bytes (kv.value.getD [])⟩ := by
    simp [kvMessage, encodeFields]
  rw [← hm] at htmp
  exact Puts.nested _ (fun data => Field.encode ⟨fieldNumber, .bytes data⟩) htmp
    (putField_puts fieldNumber (kvMessage kv)) (le_encode fieldNumber (kvMessage kv))

def nsFields (e : Entry) : List Field :=
  if e.hasTimeNs then [⟨3, .fixed32 e.timeNs⟩] else []

def logFields (e : Entry) : List Field :=
  [⟨1, .varint (e.normal.timeMs % 2^64).toNat⟩]++e.kvs.map (kvField 2)++nsFields e.normal

def logMessage (e : Entry) : Bytes := encodeFields (logFields e)

theorem normal_kvs (e : Entry) : e.normal.kvs = e.kvs := by
  unfold Entry.normal
  split <;> rfl

theorem encodeFields_append (fs gs : List Field) :
    encodeFields (fs++gs) = encodeFields fs++encodeFields gs := List.flatMap_append

/-- A log is encoded to the message of its fields. -/
theorem protoEncodeLogEx_eq (e : Entry) :
    protoEncodeLogEx e = if (logMessage e).length < sizeCap then some (logMessage e) else none := by
  have hns : Puts sizeCap (fun b => if e.normal.hasTimeNs then putFixed32 3 e.normal.timeNs b
      else some b) (if e.normal.hasTimeNs then Field.encode ⟨3, .fixed32 e.normal.timeNs⟩ else []) :=
    Puts.ite (fun _ => putFixed32_puts 3 _) (fun _ => puts_nil)
  have hkvs := Puts.loop encodeLogContent (fun kv => (kvField 2 kv).encode) e.normal.kvs
    fun kv _ => encodeKv_puts 2 kv
  have hall := ((putInt64_puts 1 e.normal.timeMs).bind (hkvs.bind hns)).start (by decide)
  have hm : logMessage e = Field.encode ⟨1, .varint (e.normal.timeMs % 2^64).toNat⟩++
      (e.normal.kvs.flatMap (fun kv => (kvField 2 kv).encode)++
        if e.normal.hasTimeNs then Field.encode ⟨3, .fixed32 e.normal.timeNs⟩ else []) := by
    rw [logMessage, logFields, encodeFields_append, encodeFields_append, normal_kvs, nsFields,
      List.append_assoc]
    simp only [encodeFields, List.flatMap_map, List.flatMap_singleton]
    split <;> simp
  rw [hm]
  exact hall

def presentFields (fieldNumber : ℕ) (s : Option Bytes) : List Field :=
  if s.getD [] ≠ [] then [⟨fieldNumber, .bytes (s.getD [])⟩] else []

theorem putPresent_puts (fieldNumber : ℕ) (s : Option Bytes) :
    Puts sizeCap (putPresent fieldNumber s) (encodeFields (presentFields fieldNumber s)) := by
  have he : encodeFields (presentFields fieldNumber s) =
      if s.getD [] ≠ [] then Field.encode ⟨fieldNumber, .bytes (s.getD [])⟩ else [] := by
    rw [presentFields]
    split <;> simp [encodeFields]
  rw [he]
  exact Puts.ite (fun _ => putString_puts fieldNumber s) (fun _ => puts_nil)

/-- The fields of a group after its logs. -/
def metaFields (m : Meta) : List Field :=
  presentFields 2 m.source++presentFields 4 m.fileName++m.logTags.map (kvField 3)++
    presentFields 5 m.contextFlow

def groupFields (logs : List Bytes) (m : Meta) : List Field :=
  logs.map (fun log => ⟨1, .bytes log⟩)++metaFields m

def groupField (logs : List Bytes) (m : Meta) : Field :=
  ⟨1, .bytes (encodeFields (groupFields logs m))⟩

theorem encodeLogGroup_puts (logs : List Bytes) (m : Meta) :
    Puts sizeCap (encodeLogGroup logs m) (groupField logs m).encode := by
  have hlogs := Puts.loop putLog (fun log => Field.encode ⟨1, .bytes log⟩) logs
    fun log _ => putField_puts 1 log
  have htags := Puts.loop encodeLogTag (fun kv => (kvField 3 kv).encode) m.logTags
    fun kv _ => encodeKv_puts 3 kv
  have htmp := (((hlogs.bind (putPresent_puts 2 m.source)).bind (putPresent_puts 4 m.fileName)).bind
    (htags.bind (putPresent_puts 5 m.contextFlow))).start (by decide)
  have hm : encodeFields (groupFields logs m) =
      logs.flatMap (fun log => Field.encode ⟨1, .bytes log⟩)++
        encodeFields (presentFields 2 m.source)++encodeFields (presentFields 4 m.fileName)++
        (m.logTags.flatMap (fun kv => (kvField 3 kv).encode)++
          encodeFields (presentFields 5 m.contextFlow)) := by
    simp only [groupFields, metaFields, encodeFields_append, List.append_assoc]
    simp only [encodeFields, List.flatMap_map]
  rw [← hm] at htmp
  exact Puts.nested _ (fun data => Field.encode ⟨1, .bytes data⟩) htmp
    (putField_puts 1 _) (le_encode 1 _)

/-- The logs of the groups, in the order in which the loop takes them. -/
def chunks {α : Type*} (n : ℕ) : ℕ → List α → List (List α)
  | 0, _ => []
  | _+1, [] => []
  | k+1, log::logs => (log::logs).take n::chunks n k ((log::logs).drop n)

def groupList (logs : List Bytes) (m : Meta) (maxLogGroupLogs : ℕ) : List Field :=
  (chunks (perGroup maxLogGroupLogs) logs.length logs).map fun c => groupField c m

theorem encodeGroups_puts (n : ℕ) (m : Meta) (k : ℕ) (logs : List Bytes) :
    Puts sizeCap (encodeGroups n m k logs)
      (encodeFields ((chunks n k logs).map fun c => groupField c m)) := by
  induction k generalizing logs with
  | zero => exact puts_nil
  | succ k ih =>
    cases logs with
    | nil => exact puts_nil
    | cons log logs => exact (encodeLogGroup_puts _ m).bind (ih _)

theorem protoEncodeLogGroupListEx2_eq (logs : List Bytes) (m : Meta) (maxLogGroupLogs : ℕ) :
    protoEncodeLogGroupListEx2 logs m maxLogGroupLogs =
      if (encodeFields (groupList logs m maxLogGroupLogs)).length < sizeCap then
        some (encodeFields (groupList logs m maxLogGroupLogs)) else none := by
  unfold protoEncodeLogGroupListEx2
  split
  · rename_i h
    rw [List.isEmpty_iff.mp h]
    rfl
  · exact (encodeGroups_puts _ m _ logs).start (by decide)

end Pieces

end VeTls.Proto
