import VeTls.Proto.Encode

/-!
# Reading a request body back

A decoder for the three messages, written over the wire format alone: it
knows the field numbers and not the encoder. Fields may come in any order,
those it does not know are skipped, and the last value of a field that is
not repeated counts.
-/

set_option autoImplicit false

namespace VeTls.Proto

open VeTls.Wire (Bytes)
open VeTls.Protobuf

structure DecodedLog where
  time : ℤ
  contents : List (Bytes × Bytes)
  timeNs : Option ℕ
  deriving DecidableEq, Repr

structure DecodedGroup where
  logs : List DecodedLog
  source : Option Bytes
  tags : List (Bytes × Bytes)
  fileName : Option Bytes
  contextFlow : Option Bytes
  deriving DecidableEq, Repr

def decodeKv (b : Bytes) : Option (Bytes × Bytes) :=
  (decodeMessage b).map fun fs => ((lastBytes 1 fs).getD [], (lastBytes 2 fs).getD [])

def decodeLog (b : Bytes) : Option DecodedLog :=
  (decodeMessage b).bind fun fs =>
    ((repeatedBytes 2 fs).mapM decodeKv).map fun contents =>
      ⟨toInt64 ((lastVarint 1 fs).getD 0), contents, lastFixed32 3 fs⟩

def decodeGroup (b : Bytes) : Option DecodedGroup :=
  (decodeMessage b).bind fun fs =>
    ((repeatedBytes 1 fs).mapM decodeLog).bind fun logs =>
      ((repeatedBytes 3 fs).mapM decodeKv).map fun tags =>
        ⟨logs, lastBytes 2 fs, tags, lastBytes 4 fs, lastBytes 5 fs⟩

def decodeGroupList (b : Bytes) : Option (List DecodedGroup) :=
  (decodeMessage b).bind fun fs => (repeatedBytes 1 fs).mapM decodeGroup

/-- The times are an `int64_t` and a `uint32_t`. -/
structure Entry.Fits (e : Entry) : Prop where
  timeMs : e.timeMs < 2^63
  timeNs : e.timeNs < 2^32

def Kv.strings (kv : Kv) : Bytes × Bytes := (kv.key.getD [], kv.value.getD [])

def Entry.decoded (e : Entry) : DecodedLog :=
  ⟨max e.timeMs 0, e.kvs.map Kv.strings,
    if e.hasTimeNs = true ∧ 0 < e.timeMs then some e.timeNs else none⟩

def present (s : Option Bytes) : Option Bytes := s.filter fun b => decide (b ≠ [])

theorem decodeKv_message (kv : Kv) (h : (kvMessage kv).length < sizeCap) :
    decodeKv (kvMessage kv) = some kv.strings := by
  have hfits : ∀ f ∈ [(⟨1, .bytes (kv.key.getD [])⟩ : Field), ⟨2, .bytes (kv.value.getD [])⟩],
      f.Fits := by
    intro f hf
    have hlen := fun number b hb => lt_of_le_of_lt (bytes_length_le _ number b hb) h
    simp only [List.mem_cons, List.not_mem_nil, or_false] at hf
    rcases hf with rfl | rfl
    · exact field_fits 1 _ (by decide) (by decide) (hlen 1 _ (by simp))
    · exact field_fits 2 _ (by decide) (by decide) (hlen 2 _ (by simp))
  rw [decodeKv, kvMessage, decodeMessage_encode _ hfits]
  rfl

theorem normal_time (e : Entry) : e.normal.timeMs = max e.timeMs 0 := by
  unfold Entry.normal
  split
  · rename_i h
    exact (max_eq_right h).symm
  · exact (max_eq_left (by omega)).symm

theorem normal_ns (e : Entry) :
    (if e.normal.hasTimeNs then some e.normal.timeNs else none) = e.decoded.timeNs := by
  unfold Entry.normal Entry.decoded
  split
  · rename_i h
    simp [show ¬ 0 < e.timeMs by omega]
  · rename_i h
    simp [show 0 < e.timeMs by omega]

theorem normal_fits (e : Entry) (h : e.Fits) : e.normal.timeNs < 2^32 := by
  unfold Entry.normal
  split
  · norm_num
  · exact h.timeNs

theorem nsFields_values (e : Entry) : repeatedBytes 2 (nsFields e.normal) = [] ∧
    repeatedVarint 1 (nsFields e.normal) = [] ∧
    repeatedFixed32 3 (nsFields e.normal) = e.decoded.timeNs.toList := by
  rw [← normal_ns, nsFields]
  split <;> exact ⟨rfl, rfl, rfl⟩

theorem logFields_contents (e : Entry) :
    repeatedBytes 2 (logFields e) = e.kvs.map kvMessage := by
  have hmap : repeatedBytes 2 (e.kvs.map (kvField 2)) = e.kvs.map kvMessage :=
    repeatedBytes_map 2 2 kvMessage e.kvs
  rw [logFields, repeatedBytes_append, repeatedBytes_append, hmap, (nsFields_values e).1,
    List.append_nil]
  rfl

theorem logFields_time (e : Entry) :
    lastVarint 1 (logFields e) = some (e.normal.timeMs % 2^64).toNat := by
  have hmap : repeatedVarint 1 (e.kvs.map (kvField 2)) = [] :=
    repeatedVarint_map 1 2 kvMessage e.kvs
  rw [lastVarint, logFields, repeatedVarint_append, repeatedVarint_append, hmap,
    (nsFields_values e).2.1]
  rfl

theorem logFields_ns (e : Entry) : lastFixed32 3 (logFields e) = e.decoded.timeNs := by
  have hmap : repeatedFixed32 3 (e.kvs.map (kvField 2)) = [] :=
    repeatedFixed32_map 3 2 kvMessage e.kvs
  rw [lastFixed32, logFields, repeatedFixed32_append, repeatedFixed32_append, hmap,
    (nsFields_values e).2.2]
  cases e.decoded.timeNs <;> rfl

theorem kvMessage_length (e : Entry) (h : (logMessage e).length < sizeCap) (kv : Kv)
    (hk : kv ∈ e.kvs) : (kvMessage kv).length < sizeCap := by
  refine lt_of_le_of_lt (bytes_length_le (logFields e) 2 (kvMessage kv) ?_) h
  simp only [logFields, List.mem_append, List.mem_map]
  exact Or.inl (Or.inr ⟨kv, hk, rfl⟩)

theorem logFields_fits (e : Entry) (hfit : e.Fits) (h : (logMessage e).length < sizeCap) :
    ∀ f ∈ logFields e, f.Fits := by
  intro f hf
  simp only [logFields, List.mem_append, List.mem_singleton, List.mem_map] at hf
  rcases hf with (rfl | ⟨kv, hk, rfl⟩) | hf
  · apply field_fits 1 _ (by decide) (by decide)
    show (e.normal.timeMs % 2^64).toNat < 2^64
    omega
  · exact field_fits 2 _ (by decide) (by decide) (kvMessage_length e h kv hk)
  · rw [nsFields] at hf
    split at hf
    · rw [List.mem_singleton.mp hf]
      exact field_fits 3 _ (by decide) (by decide) (normal_fits e hfit)
    · simp at hf

/-- A log comes back with its pairs, its time and its nanoseconds. -/
theorem decodeLog_message (e : Entry) (hfit : e.Fits) (h : (logMessage e).length < sizeCap) :
    decodeLog (logMessage e) = some e.decoded := by
  have hsigned : toInt64 (e.normal.timeMs % 2^64).toNat = max e.timeMs 0 := by
    have hlt := hfit.timeMs
    rw [normal_time, toInt64]
    split <;> omega
  have hkvs := mapM_some kvMessage decodeKv Kv.strings e.kvs
    fun kv hk => decodeKv_message kv (kvMessage_length e h kv hk)
  rw [decodeLog, logMessage, decodeMessage_encode _ (logFields_fits e hfit h), Option.bind_some,
    logFields_contents, logFields_time, logFields_ns, hkvs, Option.map_some, Option.getD_some,
    hsigned]
  rfl

theorem presentFields_values (number other : ℕ) (s : Option Bytes) :
    repeatedBytes number (presentFields other s) =
      if other = number then (present s).toList else [] := by
  cases s with
  | none => simp [presentFields, present, repeatedBytes]
  | some b =>
    by_cases hb : b = []
    · simp [presentFields, present, hb, repeatedBytes]
    · by_cases hn : other = number
      · simp [presentFields, present, hb, repeatedBytes, hn, Option.filter]
      · simp [presentFields, hb, repeatedBytes, hn]

theorem tagFields_values (number : ℕ) (tags : List Kv) :
    repeatedBytes number (tags.map (kvField 3)) =
      if 3 = number then tags.map kvMessage else [] :=
  repeatedBytes_map number 3 kvMessage tags

theorem logBytes_values (number : ℕ) (logs : List Bytes) :
    repeatedBytes number (logs.map fun log => ⟨1, .bytes log⟩) =
      if 1 = number then logs else [] := by
  have hmap := repeatedBytes_map number 1 id logs
  rw [List.map_id] at hmap
  exact hmap

/-- The fields of a group, number by number. -/
theorem groupFields_values (logs : List Bytes) (m : Meta) (number : ℕ) :
    repeatedBytes number (groupFields logs m) =
      (if 1 = number then logs else [])++(if 2 = number then (present m.source).toList else [])++
        (if 4 = number then (present m.fileName).toList else [])++
        (if 3 = number then m.logTags.map kvMessage else [])++
        (if 5 = number then (present m.contextFlow).toList else []) := by
  simp only [groupFields, metaFields, repeatedBytes_append, logBytes_values, presentFields_values,
    tagFields_values, List.append_assoc]

theorem getLast?_toList {α : Type*} (o : Option α) : o.toList.getLast? = o := by
  cases o <;> rfl

theorem presentFields_mem (number : ℕ) (s : Option Bytes) (f : Field)
    (h : f ∈ presentFields number s) : f = ⟨number, .bytes (s.getD [])⟩ := by
  rw [presentFields] at h
  split at h
  · exact List.mem_singleton.mp h
  · simp at h

theorem groupFields_fits (logs : List Bytes) (m : Meta)
    (h : (encodeFields (groupFields logs m)).length < sizeCap) :
    ∀ f ∈ groupFields logs m, f.Fits := by
  have hlen := fun number b hb => lt_of_le_of_lt (bytes_length_le (groupFields logs m) number b hb) h
  intro f hf
  have hmem := hf
  simp only [groupFields, metaFields, List.mem_append, List.mem_map] at hf
  rcases hf with ⟨log, _, rfl⟩ | ((hf | hf) | ⟨kv, _, rfl⟩) | hf
  · exact field_fits 1 _ (by decide) (by decide) (hlen 1 _ hmem)
  · rw [presentFields_mem 2 _ f hf] at hmem ⊢
    exact field_fits 2 _ (by decide) (by decide) (hlen 2 _ hmem)
  · rw [presentFields_mem 4 _ f hf] at hmem ⊢
    exact field_fits 4 _ (by decide) (by decide) (hlen 4 _ hmem)
  · exact field_fits 3 _ (by decide) (by decide) (hlen 3 _ hmem)
  · rw [presentFields_mem 5 _ f hf] at hmem ⊢
    exact field_fits 5 _ (by decide) (by decide) (hlen 5 _ hmem)

/-- What a group holds of the logs `es`. -/
def groupOf (m : Meta) (es : List Entry) : DecodedGroup :=
  ⟨es.map Entry.decoded, present m.source, m.logTags.map Kv.strings, present m.fileName,
    present m.contextFlow⟩

theorem decodeGroup_message (es : List Entry) (m : Meta) (hfit : ∀ e ∈ es, e.Fits)
    (h : (encodeFields (groupFields (es.map logMessage) m)).length < sizeCap) :
    decodeGroup (encodeFields (groupFields (es.map logMessage) m)) = some (groupOf m es) := by
  have hlen := fun number b hb =>
    lt_of_le_of_lt (bytes_length_le (groupFields (es.map logMessage) m) number b hb) h
  have hlogs : (es.map logMessage).mapM decodeLog = some (es.map Entry.decoded) := by
    apply mapM_some
    intro e he
    apply decodeLog_message e (hfit e he)
    apply hlen 1
    simp only [groupFields, List.mem_append, List.mem_map]
    exact Or.inl ⟨logMessage e, ⟨e, he, rfl⟩, rfl⟩
  have htags : (m.logTags.map kvMessage).mapM decodeKv = some (m.logTags.map Kv.strings) := by
    apply mapM_some
    intro kv hk
    apply decodeKv_message
    apply hlen 3
    simp only [groupFields, metaFields, List.mem_append, List.mem_map]
    exact Or.inr (Or.inl (Or.inr ⟨kv, hk, rfl⟩))
  rw [decodeGroup, decodeMessage_encode _ (groupFields_fits _ m h), Option.bind_some]
  simp only [lastBytes, groupFields_values, hlogs, htags, if_true, OfNat.one_ne_ofNat,
    OfNat.ofNat_ne_one, Nat.reduceEqDiff, if_false, List.nil_append, List.append_nil,
    getLast?_toList, Option.bind_some, Option.map_some]
  rfl

theorem chunks_map {α β : Type*} (f : α → β) (n k : ℕ) (l : List α) :
    chunks n k (l.map f) = (chunks n k l).map (List.map f) := by
  induction k generalizing l with
  | zero => rfl
  | succ k ih =>
    cases l with
    | nil => rfl
    | cons x l =>
      rw [List.map_cons, chunks, chunks, List.map_cons, ← ih, ← List.map_cons, List.map_take,
        List.map_drop]

theorem chunks_flatten {α : Type*} (n k : ℕ) (l : List α) (hn : 0 < n) (hk : l.length ≤ k) :
    (chunks n k l).flatten = l := by
  induction k generalizing l with
  | zero =>
    rw [List.length_eq_zero_iff.mp (by omega : l.length = 0)]
    rfl
  | succ k ih =>
    cases l with
    | nil => rfl
    | cons x l =>
      have hlen : ((x::l).drop n).length ≤ k := by
        rw [List.length_drop]
        omega
      rw [chunks, List.flatten_cons, ih _ hlen, List.take_append_drop]

theorem chunks_length {α : Type*} (n k : ℕ) (l c : List α) (hn : 0 < n) (hc : c ∈ chunks n k l) :
    1 ≤ c.length ∧ c.length ≤ n ∧ ∀ x ∈ c, x ∈ l := by
  induction k generalizing l with
  | zero => simp [chunks] at hc
  | succ k ih =>
    cases l with
    | nil => simp [chunks] at hc
    | cons x l =>
      rw [chunks, List.mem_cons] at hc
      rcases hc with rfl | hc
      · refine ⟨?_, ?_, fun y hy => List.mem_of_mem_take hy⟩
        · rw [List.length_take, List.length_cons]
          omega
        · rw [List.length_take]
          omega
      · obtain ⟨h₁, h₂, h₃⟩ := ih _ hc
        exact ⟨h₁, h₂, fun y hy => List.mem_of_mem_drop (h₃ y hy)⟩

theorem perGroup_pos (maxLogGroupLogs : ℕ) : 0 < perGroup maxLogGroupLogs := by
  unfold perGroup
  split <;> omega

/-- The reference encoding of a list of logs, and its bytes. -/
def encodeEntries (es : List Entry) (m : Meta) (maxLogGroupLogs : ℕ) : Option Bytes :=
  (es.mapM protoEncodeLogEx).bind fun logs => protoEncodeLogGroupListEx2 logs m maxLogGroupLogs

def entriesBytes (es : List Entry) (m : Meta) (maxLogGroupLogs : ℕ) : Bytes :=
  encodeFields (groupList (es.map logMessage) m maxLogGroupLogs)

theorem groupList_entries (es : List Entry) (m : Meta) (maxLogGroupLogs : ℕ) :
    groupList (es.map logMessage) m maxLogGroupLogs =
      (chunks (perGroup maxLogGroupLogs) es.length es).map
        fun c => groupField (c.map logMessage) m := by
  rw [groupList, List.length_map, chunks_map, List.map_map]
  rfl

theorem groupBytes_length (es : List Entry) (m : Meta) (maxLogGroupLogs : ℕ)
    (h : (entriesBytes es m maxLogGroupLogs).length < sizeCap) (c : List Entry)
    (hc : c ∈ chunks (perGroup maxLogGroupLogs) es.length es) :
    (encodeFields (groupFields (c.map logMessage) m)).length < sizeCap := by
  refine lt_of_le_of_lt (bytes_length_le (groupList (es.map logMessage) m maxLogGroupLogs) 1 _ ?_) h
  rw [groupList_entries]
  exact List.mem_map_of_mem hc

theorem logBytes_length (es : List Entry) (m : Meta) (maxLogGroupLogs : ℕ)
    (h : (entriesBytes es m maxLogGroupLogs).length < sizeCap) (e : Entry) (he : e ∈ es) :
    (logMessage e).length < sizeCap := by
  rw [← chunks_flatten (perGroup maxLogGroupLogs) es.length es (perGroup_pos _) le_rfl,
    List.mem_flatten] at he
  obtain ⟨c, hc, he⟩ := he
  refine lt_of_le_of_lt (bytes_length_le (groupFields (c.map logMessage) m) 1 _ ?_)
    (groupBytes_length es m maxLogGroupLogs h c hc)
  simp only [groupFields, List.mem_append, List.mem_map]
  exact Or.inl ⟨logMessage e, ⟨e, he, rfl⟩, rfl⟩

/-- The encoder succeeds whenever its output has a size. -/
theorem encodeEntries_eq (es : List Entry) (m : Meta) (maxLogGroupLogs : ℕ)
    (h : (entriesBytes es m maxLogGroupLogs).length < sizeCap) :
    encodeEntries es m maxLogGroupLogs = some (entriesBytes es m maxLogGroupLogs) := by
  have hlogs : (es.map id).mapM protoEncodeLogEx = some (es.map logMessage) := by
    apply mapM_some
    intro e he
    rw [id, protoEncodeLogEx_eq, if_pos (logBytes_length es m maxLogGroupLogs h e he)]
  rw [List.map_id] at hlogs
  rw [encodeEntries, hlogs, Option.bind_some, protoEncodeLogGroupListEx2_eq]
  exact if_pos h

theorem decodeGroupList_entries (es : List Entry) (m : Meta) (maxLogGroupLogs : ℕ)
    (hfit : ∀ e ∈ es, e.Fits) (h : (entriesBytes es m maxLogGroupLogs).length < sizeCap) :
    decodeGroupList (entriesBytes es m maxLogGroupLogs) =
      some ((chunks (perGroup maxLogGroupLogs) es.length es).map (groupOf m)) := by
  have hlen := groupBytes_length es m maxLogGroupLogs h
  have hfits : ∀ f ∈ groupList (es.map logMessage) m maxLogGroupLogs, f.Fits := by
    intro f hf
    rw [groupList_entries, List.mem_map] at hf
    obtain ⟨c, hc, rfl⟩ := hf
    exact field_fits 1 _ (by decide) (by decide) (hlen c hc)
  have hrep : repeatedBytes 1 (groupList (es.map logMessage) m maxLogGroupLogs) =
      (chunks (perGroup maxLogGroupLogs) es.length es).map
        fun c => encodeFields (groupFields (c.map logMessage) m) := by
    rw [groupList_entries]
    exact repeatedBytes_map 1 1 _ _
  rw [decodeGroupList, entriesBytes, decodeMessage_encode _ hfits, Option.bind_some, hrep]
  apply mapM_some
  intro c hc
  apply decodeGroup_message c m _ (hlen c hc)
  exact fun e he => hfit e ((chunks_length _ _ es c (perGroup_pos _) hc).2.2 e he)

/-- A standard decoder reads every encoded request back: the groups hold the
logs in order, none is empty or above the limit, and each carries the
metadata that is not empty and all tags. -/
theorem decode_encode (es : List Entry) (m : Meta) (maxLogGroupLogs : ℕ) (hne : es ≠ [])
    (hfit : ∀ e ∈ es, e.Fits) (hsize : (entriesBytes es m maxLogGroupLogs).length < sizeCap) :
    ∃ out groups, encodeEntries es m maxLogGroupLogs = some out ∧
      decodeGroupList out = some groups ∧ groups ≠ [] ∧
      groups.flatMap DecodedGroup.logs = es.map Entry.decoded ∧
      ∀ g ∈ groups, 1 ≤ g.logs.length ∧ g.logs.length ≤ perGroup maxLogGroupLogs ∧
        g.source = present m.source ∧ g.fileName = present m.fileName ∧
        g.contextFlow = present m.contextFlow ∧ g.tags = m.logTags.map Kv.strings := by
  have hflat := chunks_flatten (perGroup maxLogGroupLogs) es.length es (perGroup_pos _) le_rfl
  refine ⟨_, _, encodeEntries_eq es m maxLogGroupLogs hsize,
    decodeGroupList_entries es m maxLogGroupLogs hfit hsize, ?_, ?_, ?_⟩
  · intro hnil
    rw [List.map_eq_nil_iff.mp hnil] at hflat
    exact hne hflat.symm
  · calc ((chunks (perGroup maxLogGroupLogs) es.length es).map (groupOf m)).flatMap
          DecodedGroup.logs
        = ((chunks (perGroup maxLogGroupLogs) es.length es).map (List.map Entry.decoded)).flatten := by
          rw [List.flatMap_map, List.flatMap_def]
          rfl
      _ = es.map Entry.decoded := by rw [← List.map_flatten, hflat]
  · intro g hg
    obtain ⟨c, hc, rfl⟩ := List.mem_map.mp hg
    obtain ⟨h₁, h₂, _⟩ := chunks_length _ _ es c (perGroup_pos _) hc
    exact ⟨by simpa [groupOf] using h₁, by simpa [groupOf] using h₂, rfl, rfl, rfl, rfl⟩

/-- Two logs, one with nanoseconds and one without a time. -/
def twoEntries : List Entry :=
  [⟨7, 5, true, [⟨some [97], none⟩]⟩, ⟨-1, 5, true, []⟩]

def oneTag : Meta := ⟨some [115], none, [⟨some [107], some [118]⟩], some []⟩

theorem twoEntries_decode_encode :
    ∃ out groups, encodeEntries twoEntries oneTag 1 = some out ∧
      decodeGroupList out = some groups ∧ groups ≠ [] ∧
      groups.flatMap DecodedGroup.logs = twoEntries.map Entry.decoded ∧
      ∀ g ∈ groups, 1 ≤ g.logs.length ∧ g.logs.length ≤ perGroup 1 ∧
        g.source = present oneTag.source ∧ g.fileName = present oneTag.fileName ∧
        g.contextFlow = present oneTag.contextFlow ∧ g.tags = oneTag.logTags.map Kv.strings := by
  apply decode_encode twoEntries oneTag 1 (by decide)
  · intro e he
    simp only [twoEntries, List.mem_cons, List.not_mem_nil, or_false] at he
    rcases he with rfl | rfl
    · exact ⟨by decide, by decide⟩
    · exact ⟨by decide, by decide⟩
  · decide

end VeTls.Proto
