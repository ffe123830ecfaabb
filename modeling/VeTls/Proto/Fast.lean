import VeTls.Builder
import VeTls.Proto.RoundTrip

/-!
# The fast encoder

Producers do not use the reference encoder: every log is written to a
builder as it is added, builders are merged, and the metadata is encoded
once for all requests. The body made of them is the one the reference
encoder gives, however the logs were spread over builders.
-/

set_option autoImplicit false

namespace VeTls

open VeTls.Wire (Bytes)

def Builder.bytes (b : Builder) : Bytes := b.logs.flatMap Log.bytes

namespace Proto

open VeTls.Keys (CStr)
open VeTls.Bytes (Puts puts_put puts_nil leBytes)
open VeTls.Protobuf

def wirePutBytes (p b : Bytes) : Option Bytes := if p.length = 0 then some b else bufPut p b

def wirePutVarintU64 (v : ℕ) (b : Bytes) : Option Bytes := putVarintU64 v b

def wirePutKey (fieldNumber wireType : ℕ) (b : Bytes) : Option Bytes :=
  wirePutVarintU64 (fieldNumber*8+wireType) b

def wirePutLenDelimited (p b : Bytes) : Option Bytes :=
  (wirePutVarintU64 p.length b).bind (wirePutBytes p)

def wirePutPresent (fieldNumber : ℕ) (s : Option Bytes) (b : Bytes) : Option Bytes :=
  if s.getD [] ≠ [] then (wirePutKey fieldNumber 2 b).bind (wirePutLenDelimited (s.getD []))
  else some b

/-- The length of a tag is computed before the tag is written. -/
def wirePutTag (kv : Kv) (b : Bytes) : Option Bytes :=
  (wirePutKey 3 2 b).bind fun b =>
    (wirePutVarintU64 (Wire.logContentMsgSize kv.strings.1.length kv.strings.2.length) b).bind
      fun b =>
        ((wirePutKey 1 2 b).bind (wirePutLenDelimited kv.strings.1)).bind fun b =>
          (wirePutKey 2 2 b).bind (wirePutLenDelimited kv.strings.2)

def producerBuildGroupSuffix (m : Meta) : Option Bytes :=
  (((wirePutPresent 2 m.source []).bind (wirePutPresent 4 m.fileName)).bind fun b =>
    m.logTags.foldlM (fun b kv => wirePutTag kv b) b).bind (wirePutPresent 5 m.contextFlow)

/-- The body of the send task of a builder. -/
def builderBody (suffix : Bytes) (b : Builder) : Option Bytes :=
  ((wirePutKey 1 2 []).bind fun wb =>
    (wirePutVarintU64 (Wire.wrap (b.logsLen+suffix.length)) wb).bind (wirePutBytes b.bytes)).bind
      fun wb => if suffix.length > 0 then wirePutBytes suffix wb else some wb

/-- What the producer passes to the builder for a log. -/
def Entry.kvLog (e : Entry) : Wire.KvLog := ⟨e.timeMs, e.timeNs, e.hasTimeNs, e.kvs.map Kv.strings⟩

def addEntries (b : Builder) (run : List (ℤ × Entry)) : Option Builder :=
  run.foldlM (fun b x => logBuilderAddKvLens b x.1 x.2.kvLog) b

/-- Each run is encoded in a builder of its own and then appended. -/
def mergeRuns (normKey : CStr) (runs : List (List (ℤ × Entry))) : Option Builder :=
  runs.foldlM (fun b run => (addEntries (logBuilderCreate normKey) run).bind (logBuilderAppend b))
    (logBuilderCreate normKey)

def fastBody (normKey : CStr) (runs : List (List (ℤ × Entry))) (m : Meta) : Option Bytes :=
  (mergeRuns normKey runs).bind fun b =>
    (producerBuildGroupSuffix m).bind fun suffix => builderBody suffix b

section Varints

theorem varintU64PackGo_eq (k v : ℕ) : Wire.varintU64PackGo k v = varintGo k v := by
  induction k generalizing v with
  | zero => rfl
  | succ k ih => rw [Wire.varintU64PackGo, varintGo, ih]

theorem varintGo_fuel (k v : ℕ) (h : v < 2^(7*(k+1))) : varintGo (k+1) v = varintGo k v := by
  induction k generalizing v with
  | zero =>
    have hv : v < 128 := by simpa using h
    simp [varintGo, hv]
  | succ k ih =>
    have hd : v/128 < 2^(7*(k+1)) := by
      rw [Nat.div_lt_iff_lt_mul (by decide)]
      calc v < 2^(7*(k+1+1)) := h
        _ = 2^(7*(k+1))*128 := by rw [show 7*(k+1+1) = 7*(k+1)+7 by ring, pow_add]; norm_num
    rw [varintGo, ih (v/128) hd]
    rfl

/-- The 32-bit and the 64-bit packer write what the reference writes. -/
theorem varintPack_eq (v : ℕ) : Wire.varintPack v = varint v := by
  unfold Wire.varintPack
  split
  · rename_i hv
    have hv' : v < 2^32 := by unfold Wire.uint32Max at hv; omega
    have hb : ∀ k, 5 ≤ k → v < 2^(7*k) := fun k hk =>
      lt_of_lt_of_le hv' (Nat.pow_le_pow_right (by decide) (by omega))
    rw [Wire.varintU32Pack, varintU64PackGo_eq, varint, varintGo_fuel 8 v (hb 9 (by omega)),
      varintGo_fuel 7 v (hb 8 (by omega)), varintGo_fuel 6 v (hb 7 (by omega)),
      varintGo_fuel 5 v (hb 6 (by omega)), varintGo_fuel 4 v (hb 5 (by omega))]
  · rw [Wire.varintU64Pack, varintU64PackGo_eq, varint]

theorem varint_length (v : ℕ) : (varint v).length = Wire.varintU64Size v := by
  rw [← varintPack_eq, Wire.varintPack_length]

end Varints

section Entries

theorem kvMessage_eq (kv : Kv) : kvMessage kv =
    0x0A::varint kv.strings.1.length++kv.strings.1++
      (0x12::varint kv.strings.2.length++kv.strings.2) := by
  have h1 : varint (1*8+2) = [0x0A] := rfl
  have h2 : varint (2*8+2) = [0x12] := rfl
  simp [kvMessage, encodeFields, Field.encode, Value.wireType, Value.encode, Kv.strings, h1, h2]

theorem contentMsgLen_eq (kv : Kv) : Wire.contentMsgLen kv.strings = (kvMessage kv).length := by
  rw [kvMessage_eq, Wire.contentMsgLen]
  simp only [List.length_append, List.length_cons, varint_length]
  omega

theorem contentBytes_eq (kv : Kv) (h : (kvMessage kv).length < sizeCap) :
    Wire.contentBytes kv.strings = (kvField 2 kv).encode := by
  have hm := contentMsgLen_eq kv
  have hs := Wire.logContentMsgSize_eq kv.strings (by rw [hm]; exact h)
  have hk : varint (2*8+2) = [0x12] := rfl
  rw [Wire.contentBytes, hs, hm, kvField, Field.encode, Value.wireType, Value.encode, hk,
    kvMessage_eq]
  simp only [varintPack_eq, List.cons_append, List.nil_append, List.append_assoc]

theorem nsBytes_eq (ns : ℕ) : Wire.nsBytes ns = Field.encode ⟨3, .fixed32 ns⟩ := by
  have hk : varint (3*8+5) = [0x1D] := rfl
  rw [Wire.nsBytes, Field.encode, Value.wireType, Value.encode, hk]
  simp only [leBytes, Nat.div_div_eq_div_mul, List.singleton_append]
  norm_num

theorem kvLog_ns (e : Entry) : e.kvLog.ns = e.normal.hasTimeNs ∧
    (e.kvLog.ns = true → e.normal.timeNs = e.timeNs) := by
  unfold Wire.KvLog.ns Entry.kvLog Entry.normal
  split
  · rename_i h
    simp [h]
  · rename_i h
    simp [show 0 < e.timeMs by omega]

theorem kvLog_time (e : Entry) (h : e.Fits) :
    e.kvLog.time = (e.normal.timeMs % 2^64).toNat := by
  have hlt := h.timeMs
  rw [normal_time, Wire.KvLog.time, Entry.kvLog]
  dsimp only
  omega

theorem msgBytes_eq (e : Entry) (hfit : e.Fits) (h : (logMessage e).length < sizeCap) :
    Wire.msgBytes e.kvLog = logMessage e := by
  have hk : varint (1*8+0) = [0x08] := rfl
  have hkvs : e.kvLog.kvs.flatMap Wire.contentBytes = encodeFields (e.kvs.map (kvField 2)) := by
    rw [Entry.kvLog, List.flatMap_map, encodeFields, List.flatMap_map]
    apply List.flatMap_congr
    exact fun kv hkv => contentBytes_eq kv (kvMessage_length e h kv hkv)
  have hns : (if e.kvLog.ns then Wire.nsBytes e.kvLog.timeNs else []) =
      encodeFields (nsFields e.normal) := by
    obtain ⟨hn, ht⟩ := kvLog_ns e
    rw [nsFields, ← hn]
    split
    · rename_i hx
      rw [ht hx, nsBytes_eq]
      simp [encodeFields, Entry.kvLog]
    · rfl
  rw [Wire.msgBytes, hkvs, hns, varintPack_eq, kvLog_time e hfit, logMessage, logFields,
    encodeFields_append, encodeFields_append]
  simp [encodeFields, Field.encode, Value.wireType, Value.encode, hk]

theorem contentLen_eq (kv : Kv) : Wire.contentLen kv.strings = (kvField 2 kv).encode.length := by
  have hk : (varint (2*8+2)).length = 1 := rfl
  rw [Wire.contentLen, contentMsgLen_eq, kvField, Field.encode, Value.wireType, Value.encode,
    List.length_append, List.length_append, hk, varint_length]
  omega

theorem msgLen_eq (e : Entry) (hfit : e.Fits) :
    Wire.msgLen e.kvLog = (logMessage e).length := by
  have hk : (varint (1*8+0)).length = 1 := rfl
  have hkvs : (e.kvLog.kvs.map Wire.contentLen).sum =
      (encodeFields (e.kvs.map (kvField 2))).length := by
    rw [Entry.kvLog, List.map_map, encodeFields, List.length_flatMap, List.map_map]
    congr 1
    apply List.map_congr_left
    exact fun kv _ => contentLen_eq kv
  have hns : (if e.kvLog.ns then 5 else 0) = (encodeFields (nsFields e.normal)).length := by
    rw [nsFields, (kvLog_ns e).1]
    split <;> rfl
  have htime : (encodeFields [⟨1, .varint (e.normal.timeMs % 2^64).toNat⟩]).length =
      1+Wire.varintU64Size e.kvLog.time := by
    rw [kvLog_time e hfit, ← varint_length]
    simp only [encodeFields, List.flatMap_cons, List.flatMap_nil, List.append_nil, Field.encode,
      Value.wireType, Value.encode, List.length_append, hk]
  rw [Wire.msgLen, logMessage, logFields, encodeFields_append, encodeFields_append,
    List.length_append, List.length_append, hkvs, hns, htime]

theorem entryBytes_eq (e : Entry) (hfit : e.Fits) (h : (logMessage e).length < sizeCap) :
    Wire.entryBytes e.kvLog = Field.encode ⟨1, .bytes (logMessage e)⟩ := by
  have hk : varint (1*8+2) = [0x0A] := rfl
  have hl := msgLen_eq e hfit
  rw [Wire.entryBytes, Wire.logMsgSizeLens_eq _ (by rw [hl]; exact h), hl, msgBytes_eq e hfit h,
    varintPack_eq]
  simp [Field.encode, Value.wireType, Value.encode, hk]

end Entries

section Builders

/-- What a builder holds after it was given encoded logs. -/
structure Grown (b b' : Builder) (piece : Bytes) (count : ℕ) : Prop where
  bytes : b'.bytes = b.bytes++piece
  logsLen : b'.logsLen = b.logsLen+piece.length
  logCount : b'.logCount = b.logCount+count

def entryField (x : ℤ × Entry) : Bytes := Field.encode ⟨1, .bytes (logMessage x.2)⟩

/-- The guards of the builder let a log pass that fits. -/
theorem addEntry_grown (b : Builder) (x : ℤ × Entry) (hfit : x.2.Fits)
    (h : b.logsLen+(entryField x).length < sizeCap) :
    ∃ b', logBuilderAddKvLens b x.1 x.2.kvLog = some b' ∧ Grown b b' (entryField x) 1 := by
  have hle := le_encode 1 (logMessage x.2)
  have hlt : (logMessage x.2).length+1 < sizeCap := by
    have hpos : 0 < (varint (1*8+2)).length := by decide
    simp only [entryField, Field.encode, Value.wireType, Value.encode, List.length_append] at h
    omega
  have hm := msgLen_eq x.2 hfit
  have hb := entryBytes_eq x.2 hfit (by omega)
  have hmsg : Wire.logMsgSizeLens x.2.kvLog = (logMessage x.2).length := by
    rw [Wire.logMsgSizeLens_eq _ (by rw [hm]; show _ < sizeCap; omega), hm]
  have hentry : Wire.logBuilderEstimateKvLensSize x.2.kvLog = (entryField x).length := by
    have hlen : Wire.entryLen x.2.kvLog = (entryField x).length := by
      have hk : (varint (1*8+2)).length = 1 := rfl
      rw [Wire.entryLen, hm, entryField, Field.encode, Value.wireType, Value.encode,
        List.length_append, List.length_append, hk, varint_length]
      omega
    rw [Wire.logBuilderEstimateKvLensSize_eq _ (by rw [hlen]; show _ < sizeCap; omega), hb]
    rfl
  have hcap : sizeCap = 2^64 := rfl
  have hguard : ¬ (Wire.logMsgSizeLens x.2.kvLog = 2^64-1 ∨
      Wire.logBuilderEstimateKvLensSize x.2.kvLog < Wire.logMsgSizeLens x.2.kvLog ∨
      b.logsLen > 2^64-1-Wire.logBuilderEstimateKvLensSize x.2.kvLog) := by
    rw [hmsg, hentry]
    have hle' : (logMessage x.2).length ≤ (entryField x).length := hle
    omega
  unfold logBuilderAddKvLens
  dsimp only
  rw [if_neg hguard]
  refine ⟨_, rfl, ?_, ?_, rfl⟩
  · simp only [Builder.bytes, List.flatMap_append, List.flatMap_singleton, storedLog, hb]
    rfl
  · simp only [Log.size, storedLog, hb]
    rfl

theorem Grown.trans {a b c : Builder} {p q : Bytes} {m n : ℕ} (h : Grown a b p m)
    (h' : Grown b c q n) : Grown a c (p++q) (m+n) := by
  apply Grown.mk
  · rw [h'.bytes, h.bytes, List.append_assoc]
  · rw [h'.logsLen, h.logsLen, List.length_append, Nat.add_assoc]
  · rw [h'.logCount, h.logCount, Nat.add_assoc]

theorem addEntries_grown (run : List (ℤ × Entry)) (b : Builder) (hfit : ∀ x ∈ run, x.2.Fits)
    (h : b.logsLen+(run.flatMap entryField).length < sizeCap) :
    ∃ b', addEntries b run = some b' ∧ Grown b b' (run.flatMap entryField) run.length := by
  induction run generalizing b with
  | nil => exact ⟨b, rfl, by simp, by simp, by simp⟩
  | cons x run ih =>
    rw [List.flatMap_cons, List.length_append] at h
    obtain ⟨b₁, hadd, hg⟩ := addEntry_grown b x (hfit x List.mem_cons_self) (by omega)
    have hlen := hg.logsLen
    obtain ⟨b₂, hrest, hg'⟩ := ih b₁ (fun y hy => hfit y (List.mem_cons_of_mem x hy)) (by omega)
    refine ⟨b₂, ?_, ?_⟩
    · show (logBuilderAddKvLens b x.1 x.2.kvLog).bind _ = _
      rw [hadd]
      exact hrest
    · rw [List.flatMap_cons, List.length_cons, Nat.add_comm run.length 1]
      exact hg.trans hg'

theorem create_empty (normKey : CStr) : (logBuilderCreate normKey).bytes = [] ∧
    (logBuilderCreate normKey).logsLen = 0 ∧ (logBuilderCreate normKey).logCount = 0 :=
  ⟨rfl, rfl, rfl⟩

theorem append_grown (b tb : Builder) (hlen : tb.logsLen = tb.bytes.length) (hl : tb.logsLen ≠ 0)
    (hc : tb.logCount ≠ 0) :
    ∃ b', logBuilderAppend b tb = some b' ∧ Grown b b' tb.bytes tb.logCount := by
  unfold logBuilderAppend
  rw [if_neg (by omega)]
  refine ⟨_, rfl, List.flatMap_append, ?_, rfl⟩
  rw [← hlen]

/-- A run that is not empty is appended as it was encoded. -/
theorem mergeRun_grown (normKey : CStr) (run : List (ℤ × Entry)) (b : Builder) (hne : run ≠ [])
    (hfit : ∀ x ∈ run, x.2.Fits) (h : b.logsLen+(run.flatMap entryField).length < sizeCap) :
    ∃ b', (addEntries (logBuilderCreate normKey) run).bind (logBuilderAppend b) = some b' ∧
      Grown b b' (run.flatMap entryField) run.length := by
  obtain ⟨hbytes, hlen, hcount⟩ := create_empty normKey
  obtain ⟨tb, hadd, hg⟩ := addEntries_grown run (logBuilderCreate normKey) hfit (by omega)
  have hl := hg.logsLen
  have hc := hg.logCount
  have hb := hg.bytes
  rw [hlen, Nat.zero_add] at hl
  rw [hcount, Nat.zero_add] at hc
  rw [hbytes, List.nil_append] at hb
  have hpos : 0 < run.length := List.length_pos_iff.mpr hne
  have hpiece : 0 < (run.flatMap entryField).length := by
    cases run with
    | nil => exact absurd rfl hne
    | cons x run =>
      rw [List.flatMap_cons, List.length_append]
      have := List.length_pos_iff.mpr (encode_ne_nil ⟨1, .bytes (logMessage x.2)⟩)
      show 0 < (Field.encode ⟨1, .bytes (logMessage x.2)⟩).length+_
      omega
  obtain ⟨b', happ, hg'⟩ := append_grown b tb (by rw [hl, hb]) (by omega) (by omega)
  rw [hb, hc] at hg'
  exact ⟨b', by rw [hadd, Option.bind_some, happ], hg'⟩

theorem mergeRuns_grown (normKey : CStr) (runs : List (List (ℤ × Entry))) (b : Builder)
    (hne : ∀ r ∈ runs, r ≠ []) (hfit : ∀ x ∈ runs.flatten, x.2.Fits)
    (h : b.logsLen+(runs.flatten.flatMap entryField).length < sizeCap) :
    ∃ b', runs.foldlM (fun b run =>
        (addEntries (logBuilderCreate normKey) run).bind (logBuilderAppend b)) b = some b' ∧
      Grown b b' (runs.flatten.flatMap entryField) runs.flatten.length := by
  induction runs generalizing b with
  | nil => exact ⟨b, rfl, by simp, by simp, by simp⟩
  | cons run runs ih =>
    rw [List.flatten_cons, List.flatMap_append, List.length_append] at h
    have hall : ∀ x ∈ run++runs.flatten, x.2.Fits := hfit
    obtain ⟨b₁, hrun, hg⟩ := mergeRun_grown normKey run b (hne run List.mem_cons_self)
      (fun x hx => hall x (List.mem_append_left _ hx)) (by omega)
    have hlen := hg.logsLen
    obtain ⟨b₂, hrest, hg'⟩ := ih b₁ (fun r hr => hne r (List.mem_cons_of_mem run hr))
      (fun x hx => hall x (List.mem_append_right _ hx)) (by omega)
    refine ⟨b₂, ?_, ?_⟩
    · rw [List.foldlM_cons, hrun]
      exact hrest
    · rw [List.flatten_cons, List.flatMap_append, List.length_append]
      exact hg.trans hg'

end Builders

section Bodies

theorem wirePutBytes_puts (p : Bytes) : Puts sizeCap (wirePutBytes p) p := by
  intro b hb
  unfold wirePutBytes
  split
  · rename_i hp
    rw [List.length_eq_zero_iff.mp hp]
    exact puts_nil b hb
  · exact puts_put p b hb

theorem wirePutKey_puts (fieldNumber wireType : ℕ) :
    Puts sizeCap (wirePutKey fieldNumber wireType) (varint (fieldNumber*8+wireType)) :=
  putVarintU64_puts _

theorem wirePutField_puts (fieldNumber : ℕ) (p : Bytes) :
    Puts sizeCap (fun b => (wirePutKey fieldNumber 2 b).bind (wirePutLenDelimited p))
      (Field.encode ⟨fieldNumber, .bytes p⟩) :=
  (wirePutKey_puts fieldNumber 2).bind ((putVarintU64_puts p.length).bind (wirePutBytes_puts p))

theorem wirePutPresent_puts (fieldNumber : ℕ) (s : Option Bytes) :
    Puts sizeCap (wirePutPresent fieldNumber s) (encodeFields (presentFields fieldNumber s)) := by
  have he : encodeFields (presentFields fieldNumber s) =
      if s.getD [] ≠ [] then Field.encode ⟨fieldNumber, .bytes (s.getD [])⟩ else [] := by
    rw [presentFields]
    split <;> simp [encodeFields]
  rw [he]
  exact Puts.ite (fun _ => wirePutField_puts fieldNumber _) (fun _ => puts_nil)

theorem wirePutTag_puts (kv : Kv) (h : (kvMessage kv).length < sizeCap) :
    Puts sizeCap (wirePutTag kv) (kvField 3 kv).encode := by
  have hm := contentMsgLen_eq kv
  have hs := Wire.logContentMsgSize_eq kv.strings (by rw [hm]; exact h)
  have hput := (wirePutKey_puts 3 2).bind
    ((putVarintU64_puts (Wire.logContentMsgSize kv.strings.1.length kv.strings.2.length)).bind
      ((wirePutField_puts 1 kv.strings.1).bind (wirePutField_puts 2 kv.strings.2)))
  have he : (kvField 3 kv).encode = varint (3*8+2)++
      (varint (Wire.logContentMsgSize kv.strings.1.length kv.strings.2.length)++
        (Field.encode ⟨1, .bytes kv.strings.1⟩++Field.encode ⟨2, .bytes kv.strings.2⟩)) := by
    rw [hs, hm, kvField, Field.encode, Value.wireType, Value.encode]
    simp [kvMessage, encodeFields, Kv.strings]
  rw [he]
  exact hput

theorem producerBuildGroupSuffix_eq (m : Meta) (h : (encodeFields (metaFields m)).length < sizeCap) :
    producerBuildGroupSuffix m = some (encodeFields (metaFields m)) := by
  have htag : ∀ kv ∈ m.logTags, (kvMessage kv).length < sizeCap := by
    intro kv hk
    refine lt_of_le_of_lt (bytes_length_le (metaFields m) 3 (kvMessage kv) ?_) h
    simp only [metaFields, List.mem_append, List.mem_map]
    exact Or.inl (Or.inr ⟨kv, hk, rfl⟩)
  have htags := Puts.loop wirePutTag (fun kv => (kvField 3 kv).encode) m.logTags
    fun kv hk => wirePutTag_puts kv (htag kv hk)
  have hall := (((wirePutPresent_puts 2 m.source).bind (wirePutPresent_puts 4 m.fileName)).bind
    htags).bind (wirePutPresent_puts 5 m.contextFlow)
  have hm : encodeFields (metaFields m) = encodeFields (presentFields 2 m.source)++
      encodeFields (presentFields 4 m.fileName)++
      m.logTags.flatMap (fun kv => (kvField 3 kv).encode)++
      encodeFields (presentFields 5 m.contextFlow) := by
    simp only [metaFields, encodeFields_append]
    simp only [encodeFields, List.flatMap_map]
  rw [← hm] at hall
  have hstart := hall.start (by decide)
  rw [if_pos h] at hstart
  exact hstart

/-- What the writer makes of a builder, if there is room for it. -/
theorem builderBody_start (suffix : Bytes) (b : Builder) :
    builderBody suffix b =
      let body := varint (1*8+2)++
        (varint (Wire.wrap (b.logsLen+suffix.length))++b.bytes)++suffix
      if body.length < sizeCap then some body else none := by
  have hsuffix : Puts sizeCap (fun wb => if suffix.length > 0 then wirePutBytes suffix wb
      else some wb) (if suffix.length > 0 then suffix else []) :=
    Puts.ite (fun _ => wirePutBytes_puts suffix) (fun _ => puts_nil)
  have hs : (if suffix.length > 0 then suffix else []) = suffix := by
    split
    · rfl
    · rename_i hz
      exact (List.length_eq_zero_iff.mp (by omega)).symm
  rw [hs] at hsuffix
  exact (((wirePutKey_puts 1 2).bind
    ((putVarintU64_puts (Wire.wrap (b.logsLen+suffix.length))).bind
      (wirePutBytes_puts b.bytes))).bind hsuffix).start (by decide)

/-- The body is one group field of the logs and the suffix. -/
theorem builderBody_eq (suffix : Bytes) (b : Builder) (hlen : b.logsLen = b.bytes.length)
    (h : (Field.encode ⟨1, .bytes (b.bytes++suffix)⟩).length < sizeCap) :
    builderBody suffix b = some (Field.encode ⟨1, .bytes (b.bytes++suffix)⟩) := by
  have hle := le_encode 1 (b.bytes++suffix)
  rw [List.length_append] at hle
  have hwrap : Wire.wrap (b.logsLen+suffix.length) = (b.bytes++suffix).length := by
    rw [Wire.wrap_eq _ (by show _ < sizeCap; omega), List.length_append, hlen]
  have he : varint (1*8+2)++(varint (Wire.wrap (b.logsLen+suffix.length))++b.bytes)++suffix =
      Field.encode ⟨1, .bytes (b.bytes++suffix)⟩ := by
    rw [hwrap, Field.encode, Value.wireType, Value.encode]
    simp only [List.append_assoc]
  rw [builderBody_start, he]
  exact if_pos h

/-- There is no other body. -/
theorem builderBody_some (suffix body : Bytes) (b : Builder) (hlen : b.logsLen = b.bytes.length)
    (h : builderBody suffix b = some body) :
    body = Field.encode ⟨1, .bytes (b.bytes++suffix)⟩ := by
  by_cases hsize : (Field.encode ⟨1, .bytes (b.bytes++suffix)⟩).length < sizeCap
  · rw [builderBody_eq suffix b hlen hsize] at h
    exact (Option.some.inj h).symm
  · rw [builderBody_start] at h
    dsimp only at h
    split at h
    case isTrue hroom =>
      have hfit : b.logsLen+suffix.length < sizeCap := by
        simp only [List.length_append] at hroom
        omega
      rw [Wire.wrap_eq _ hfit, hlen, ← List.length_append] at hroom
      refine absurd ?_ hsize
      rw [Field.encode, Value.wireType, Value.encode]
      simpa only [List.append_assoc] using hroom
    case isFalse => cases h

end Bodies

theorem entriesBytes_one (es : List Entry) (m : Meta) (hne : es ≠ []) (hle : es.length ≤ 10000) :
    entriesBytes es m 10000 = (groupField (es.map logMessage) m).encode := by
  have hchunk : chunks (perGroup 10000) es.length es = [es] := by
    cases es with
    | nil => exact absurd rfl hne
    | cons e es =>
      have hp : perGroup 10000 = 10000 := rfl
      rw [hp, List.length_cons, chunks, List.take_of_length_le hle, List.drop_of_length_le hle]
      cases es.length <;> rfl
  rw [entriesBytes, groupList_entries, hchunk]
  simp [encodeFields]

/-- Logs that are spread over builders in runs, merged in order and packed
give the bytes of the reference encoder. -/
theorem fastBody_eq_reference (normKey : CStr) (runs : List (List (ℤ × Entry))) (m : Meta)
    (hne : runs ≠ []) (hruns : ∀ r ∈ runs, r ≠ []) (hcount : runs.flatten.length ≤ 10000)
    (hfit : ∀ x ∈ runs.flatten, x.2.Fits)
    (hsize : (entriesBytes (runs.flatten.map Prod.snd) m 10000).length < 2^63) :
    ∃ out, fastBody normKey runs m = some out ∧
      encodeEntries (runs.flatten.map Prod.snd) m 10000 = some out := by
  have hcap : (2 : ℕ)^63 < sizeCap := by decide
  have hlogs : runs.flatten.map Prod.snd ≠ [] := by
    cases runs with
    | nil => exact absurd rfl hne
    | cons r runs =>
      have hr := hruns r List.mem_cons_self
      simp [hr]
  have hone := entriesBytes_one _ m hlogs (by rwa [List.length_map])
  have hbytes : runs.flatten.flatMap entryField =
      encodeFields (((runs.flatten.map Prod.snd).map logMessage).map fun b => ⟨1, .bytes b⟩) := by
    rw [encodeFields, List.flatMap_map, List.flatMap_map, List.flatMap_map]
    rfl
  have hgroup : encodeFields (groupFields ((runs.flatten.map Prod.snd).map logMessage) m) =
      runs.flatten.flatMap entryField++encodeFields (metaFields m) := by
    rw [groupFields, encodeFields_append, hbytes]
  have hle := le_encode 1 (runs.flatten.flatMap entryField++encodeFields (metaFields m))
  have hbody : entriesBytes (runs.flatten.map Prod.snd) m 10000 =
      Field.encode ⟨1, .bytes (runs.flatten.flatMap entryField++encodeFields (metaFields m))⟩ := by
    rw [hone, groupField, hgroup]
  rw [hbody] at hsize
  rw [List.length_append] at hle
  obtain ⟨b, hmerge, hg⟩ := mergeRuns_grown normKey runs (logBuilderCreate normKey) hruns hfit
    (by rw [(create_empty normKey).2.1]; omega)
  have hb : b.bytes = runs.flatten.flatMap entryField := hg.bytes
  have hlen : b.logsLen = b.bytes.length := by
    rw [hb, hg.logsLen, (create_empty normKey).2.1, Nat.zero_add]
  refine ⟨_, ?_, encodeEntries_eq _ m 10000 (by rw [hbody]; omega)⟩
  rw [fastBody, mergeRuns, hmerge, Option.bind_some, producerBuildGroupSuffix_eq m (by omega),
    Option.bind_some, builderBody_eq _ b hlen (by rw [hb]; omega), hb, hbody]

theorem twoRuns_fastBody_eq_reference :
    ∃ out, fastBody [75] [[(1, ⟨7, 5, true, [⟨some [97], none⟩]⟩)], [(2, ⟨-1, 5, true, []⟩)]]
        oneTag = some out ∧ encodeEntries twoEntries oneTag 10000 = some out := by
  apply fastBody_eq_reference [75]
    [[(1, ⟨7, 5, true, [⟨some [97], none⟩]⟩)], [(2, ⟨-1, 5, true, []⟩)]] oneTag (by decide)
    (by decide) (by decide)
  · intro x hx
    simp only [List.flatten_cons, List.flatten_nil, List.append_nil, List.cons_append,
      List.nil_append, List.mem_cons, List.not_mem_nil, or_false] at hx
    rcases hx with rfl | rfl
    · exact ⟨by decide, by decide⟩
    · exact ⟨by decide, by decide⟩
  · decide

end Proto

end VeTls
