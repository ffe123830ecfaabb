import VeTls.Proto.Complete

/-!
# Whether the records are whole

A record says how long its key and its data are and carries that many bytes
of them. Both lengths are cast to 32 bits when the record is collected, so
the check that follows never refuses one.
-/

set_option autoImplicit false

namespace VeTls.Export

open VeTls.Keys (CStr KeyMap)
open VeTls.Wire (Bytes)
open VeTls.Proto (sizeCap)

variable {cfg : Config}

/-- A record as a reader finds it. -/
structure Record where
  hkLen : ℕ
  dataSize : ℕ
  hashKey : Bytes
  data : Bytes
  deriving DecidableEq, Repr

/-- The record of an item with nothing cut off. -/
def whole (i : RawItem) : Record := ⟨i.hashKey.length, i.data.length, i.hashKey, i.data⟩

def cutRecord (i : RawItem) : Record :=
  ⟨uint32 i.hashKey.length, uint32 i.data.length, i.hashKey.take (uint32 i.hashKey.length),
    writtenData i⟩

/-- The first `n` records, if they are complete. -/
def readAll (version : ℕ) : ℕ → Bytes → Option (List Record)
  | 0, _ => some []
  | n+1, b =>
    match readHeader version b with
    | none => none
    | some (h, b) =>
      let d := b.drop h.hkLen
      if b.length < h.hkLen ∨ d.length < h.dataSize then none
      else (readAll version n (d.drop h.dataSize)).map
        (⟨h.hkLen, h.dataSize, b.take h.hkLen, d.take h.dataSize⟩::·)

def exportedRecords (buf : Bytes) : Option (List Record) :=
  readAll (versionOf buf) (countOf buf) (buf.drop 20)

/-- An export that succeeds has a whole record for every item. -/
def Intact (cfg : Config) (suffix : Bytes) (p' : Producer) (r : Result × Bytes) : Prop :=
  r.1 = .ok → ∃ items, exportItems cfg suffix p' = some items ∧
    exportedRecords r.2 = some (items.map whole)

section Reader

theorem readAll_written (items : List RawItem) :
    readAll 3 items.length (items.flatMap recBytes) = some (items.map cutRecord) := by
  induction items with
  | nil => rfl
  | cons i items ih =>
    obtain ⟨h, hread, hkey, hdata⟩ := readHeader_written i (items.flatMap recBytes)
    have hklen : (i.hashKey.take (uint32 i.hashKey.length)).length = h.hkLen := by
      rw [hkey, List.length_take]
      exact min_eq_left (uint32_le _)
    have hdlen : (writtenData i).length = h.dataSize := by rw [hdata, writtenData_length]
    have hroom : ¬ ((i.hashKey.take (uint32 i.hashKey.length)++
        (writtenData i++items.flatMap recBytes)).length < h.hkLen ∨
        (writtenData i++items.flatMap recBytes).length < h.dataSize) := by
      simp only [List.length_append]
      omega
    have hdrop : (i.hashKey.take (uint32 i.hashKey.length)++
        (writtenData i++items.flatMap recBytes)).drop h.hkLen =
          writtenData i++items.flatMap recBytes := by rw [← hklen, List.drop_left]
    have htake : (i.hashKey.take (uint32 i.hashKey.length)++
        (writtenData i++items.flatMap recBytes)).take h.hkLen =
          i.hashKey.take (uint32 i.hashKey.length) := by rw [← hklen, List.take_left]
    rw [List.length_cons, List.flatMap_cons, readAll, hread]
    dsimp only
    rw [hdrop, if_neg hroom, htake, ← hdlen, List.drop_left, List.take_left, ih, List.map_cons,
      cutRecord, ← hkey, ← writtenData_length i]
    rfl

theorem exportedRecords_bufferBytes (nextId : ℤ) (items : List RawItem) (h : items.length < 2^32) :
    exportedRecords (bufferBytes nextId items) = some (items.map cutRecord) := by
  obtain ⟨-, hversion, hcount, -, hrecs, -⟩ := bufferBytes_slices nextId items
  rw [exportedRecords, versionOf, countOf, hversion, hcount, hrecs,
    VeTls.Bytes.leValue_leBytes 4 3 (by decide), VeTls.Bytes.leValue_leBytes 4 _ (by omega)]
  exact readAll_written items

theorem uint32_eq (n : ℕ) : uint32 n = n ↔ n < 2^32 := by
  unfold uint32
  omega

/-- A record is whole exactly when both lengths have 32 bits. -/
theorem cutRecord_eq (i : RawItem) :
    cutRecord i = whole i ↔ i.hashKey.length < 2^32 ∧ i.data.length < 2^32 := by
  constructor
  · intro h
    exact ⟨(uint32_eq _).mp (congrArg Record.hkLen h),
      (uint32_eq _).mp (congrArg Record.dataSize h)⟩
  · intro ⟨hk, hd⟩
    rw [cutRecord, whole, writtenData, (uint32_eq _).mpr hk, (uint32_eq _).mpr hd, List.take_length,
      List.take_length]

theorem map_cutRecord (items : List RawItem) : items.map cutRecord = items.map whole ↔
    ∀ i ∈ items, i.hashKey.length < 2^32 ∧ i.data.length < 2^32 := by
  rw [List.map_inj_left]
  exact forall₂_congr fun i _ => cutRecord_eq i

end Reader

section Condition

/-- No key, no raw item and no body of a builder is too long for a length of
32 bits. -/
def NoneCut (cfg : Config) (me : ℕ) (suffix : Bytes) (e : Env) (w : Writer) (p : Producer) : Prop :=
  (∀ i ∈ p.queue, i.hashKey.length < 2^32 ∧ i.data.length < 2^32) ∧
    ∀ x ∈ outlines cfg me e w p, x.1 < 2^32 ∧ groupSize suffix x.2 < 2^32

variable {me : ℕ} {e : Env} {w : Writer} {p : Producer}

theorem items_short (suffix : Bytes) (p : Producer)
    (hw : ∀ b ∈ fullBuilders cfg p, b.Has Weighed) :
    (∀ i ∈ p.queue++(fullBuilders cfg p).map (bodyItem suffix),
        i.hashKey.length < 2^32 ∧ i.data.length < 2^32) ↔
      (∀ i ∈ p.queue, i.hashKey.length < 2^32 ∧ i.data.length < 2^32) ∧
        ∀ x ∈ (fullBuilders cfg p).map outline, x.1 < 2^32 ∧ groupSize suffix x.2 < 2^32 := by
  rw [List.forall_mem_append, List.forall_mem_map, List.forall_mem_map]
  refine and_congr_right fun _ => forall₂_congr fun b hb => ?_
  rw [bodyItem_size suffix b (hw b hb)]
  rfl

theorem exportItems_eq (suffix : Bytes) (p : Producer)
    (hw : ∀ b ∈ fullBuilders cfg p, b.Has Weighed)
    (hfit : Fits suffix p.queue ((fullBuilders cfg p).map outline)) :
    exportItems cfg suffix p = some (p.queue++(fullBuilders cfg p).map (bodyItem suffix)) := by
  have hall : ∀ b ∈ fullBuilders cfg p, groupSize suffix b.logsLen < sizeCap :=
    List.forall_mem_map.mp hfit.2.1
  rw [exportItems, mapM_builderItem suffix _ hw, if_pos hall]
  rfl

/-- The export comes to the end of the merges with the builders that the
state before it tells, or it fails there. -/
theorem exportRawBufferWith_end (suffix : Bytes) (w' : Writer) (p' : Producer) (r : Result × Bytes)
    (hu : Upright cfg me w p) (hf : Fresh cfg e p)
    (h : exportRawBufferWith cfg me suffix e w p = some (r, w', p')) :
    (¬ Writes cfg me suffix e w p ∧ r.1 ≠ .ok) ∨
      (r = (if e.out then exportRecords cfg suffix p' else (.dropError, [])) ∧
        ownMerges cfg me e w p = true ∧ ingressSeals cfg me e w p ≠ none ∧ p'.queue = p.queue ∧
        ((fullBuilders cfg p').map outline).Perm (outlines cfg me e w p) ∧
        ∀ b ∈ fullBuilders cfg p', b.Has Weighed) := by
  rw [exportRawBufferWith] at h
  rcases begin_spec hu hf with ⟨hno, r₁, p₁, hbegin, hr, -⟩ | ⟨hyes, w₁, p₁, hbegin, hbegun⟩
  · have hnot : ¬ Writes cfg me suffix e w p :=
      fun hw => Bool.false_ne_true (hno.symm.trans hw.1)
    rw [hbegin] at h
    left
    cases r₁ with
    | block d => cases h
    | rc c =>
      cases c with
      | ok => exact absurd rfl hr
      | full | closed | timeout =>
        obtain ⟨rfl, -⟩ := Prod.mk.inj (Option.some.inj h)
        exact ⟨hnot, by simp⟩
  · rw [hbegin] at h
    dsimp only at h
    rw [hbegun.ingressQueue] at h
    have hhome : homeSizes cfg p₁ = ownHome cfg me w p :=
      hbegun.merged.home.trans (ownTasks_home hu.ownSized)
    have hmerge := exportMergeWith_spec e.now e.addr e.mem (KeyMap.atLimit cfg.toKeyConfig p.keys)
      p.ingressQueue 1 p₁ hbegun.merged.sound hf.injective hbegun.unused hbegun.limit hu.keyed
      hu.sized.ingress
    rw [hhome] at hmerge
    rcases hmerge with ⟨hnone, p₂, he, -⟩ | ⟨s, hsome, p₂, he, hmerged⟩
    · rw [he] at h
      obtain ⟨rfl, -⟩ := Prod.mk.inj (Option.some.inj h)
      exact Or.inl ⟨fun hw => hw.2.1 hnone, by simp⟩
    · have hsome : ingressSeals cfg me e w p = some s := hsome
      rw [he] at h
      obtain ⟨rfl, hrest⟩ := Prod.mk.inj (Option.some.inj h)
      obtain ⟨-, rfl⟩ := Prod.mk.inj hrest
      have hall := hbegun.merged.trans hmerged
      have hw := hall.has Weighed weighed_additive (tasks_have hu.ownWeighed hu.weighed)
        hu.weighed.kept
      exact Or.inr ⟨rfl, hyes, by simp [hsome], hall.queue, fullBuilders_outline hu hsome hall,
        fun b hb => hw b (List.mem_append_left _ (List.mem_filter.mp hb).1)⟩

/-- An export that returns has written whole records exactly when it does
not get as far as to return a buffer, or no length is cut. -/
theorem export_intact_iff (cfg : Config) (me : ℕ) (suffix : Bytes) (e : Env) (w w' : Writer)
    (p p' : Producer) (r : Result × Bytes) (hu : Upright cfg me w p) (hf : Fresh cfg e p)
    (h : exportRawBufferWith cfg me suffix e w p = some (r, w', p')) :
    Intact cfg suffix p' r ↔ (Writes cfg me suffix e w p → NoneCut cfg me suffix e w p) := by
  rcases exportRawBufferWith_end suffix w' p' r hu hf h with
    ⟨hnot, hr⟩ | ⟨hr, hyes, hsome, hqueue, houtline, hw⟩
  · exact iff_of_true (fun hok => absurd hok hr) fun hwrites => absurd hwrites hnot
  · have hcut : NoneCut cfg me suffix e w p ↔
        ∀ i ∈ p'.queue++(fullBuilders cfg p').map (bodyItem suffix),
          i.hashKey.length < 2^32 ∧ i.data.length < 2^32 := by
      rw [items_short suffix p' hw, NoneCut, hqueue]
      exact and_congr_right fun _ => forall_congr' fun x => by rw [houtline.mem_iff]
    have hwrites : Writes cfg me suffix e w p ↔
        e.out = true ∧ Fits suffix p'.queue ((fullBuilders cfg p').map outline) := by
      rw [Writes, hqueue, Fits.perm houtline]
      exact ⟨fun hw => hw.2.2, fun hw => ⟨hyes, hsome, hw⟩⟩
    rw [hwrites, hcut]
    cases hout : e.out with
    | false =>
      rw [hout, if_neg Bool.false_ne_true] at hr
      exact iff_of_true (fun hok => by rw [hr] at hok; cases hok) fun hf => absurd hf.1 nofun
    | true =>
      rw [hout, if_pos rfl] at hr
      rcases exportRecords_spec suffix p' hw with ⟨hfit, he⟩ | ⟨hbig, he⟩
      · have hitems := exportItems_eq suffix p' hw hfit
        have hlen : (p'.queue++(fullBuilders cfg p').map (bodyItem suffix)).length < 2^32 := by
          have := hfit.1
          simpa using this
        rw [← map_cutRecord, hr, he, Intact]
        dsimp only
        rw [hitems, exportedRecords_bufferBytes _ _ hlen]
        constructor
        · intro hc _
          obtain ⟨items, heq, hrec⟩ := hc rfl
          obtain rfl := Option.some.inj heq
          exact Option.some.inj hrec
        · intro hc _
          exact ⟨_, rfl, congrArg some (hc ⟨rfl, hfit⟩)⟩
      · rw [hr, he]
        exact iff_of_true nofun fun hf => absurd hf.2 hbig

end Condition

/-- A log in the batch of the thread, and a raw log. -/
theorem holdTwo_intact : ∃ s buf w' p',
    Sys.run Sys.twoWriters holdTwo (Sys.start Sys.twoWriters) = some s ∧
      exportRawBufferWith Sys.twoWriters.cfg Sys.twoWriters.me [] plenty (s.writers 0) s.prod =
        some ((.ok, buf), w', p') ∧
      Intact Sys.twoWriters.cfg [] p' (.ok, buf) := by
  refine ⟨_, _, _, _, rfl, rfl, ?_⟩
  refine (export_intact_iff _ _ _ plenty _ _ _ _ _ (upright_run Sys.twoWriters holdTwo _ rfl 0)
    (plenty_fresh _ _ (by decide +kernel)) rfl).mpr fun _ => ⟨?_, ?_⟩
  · decide +kernel
  · decide +kernel

section Huge

/-- A producer without a byte limit. -/
def noLimit : Setup := ⟨{ keyQueueBucketCount := 1, maxBufferBytes := 0 }, 1, 0⟩

def addRawOf (data : Bytes) : List Act :=
  [.call 0 (.addRaw ⟨5, 0, false, data, true⟩), .writer 0 ⟨1, 1, 9⟩, .writer 0 ⟨1, 1, 9⟩]

theorem addRawOf_run (c : UInt8) (data : Bytes) : ∃ s,
    Sys.run noLimit (addRawOf (c::data)) (Sys.start noLimit) = some s ∧
      s.prod.queue = [⟨0, 1, 5, 0, false, c::data, []⟩] ∧ s.prod.ingressQueue = [] ∧
      ownLogs noLimit.me (s.writers 0) = false ∧
      s.prod.defaultBuilder = none ∧ s.prod.keys = KeyMap.empty := by
  refine ⟨_, rfl, ?_⟩
  exact ⟨rfl, rfl, rfl, rfl, rfl⟩

theorem fullBuilders_none (cfg : Config) (p : Producer) (hd : p.defaultBuilder = none)
    (hk : p.keys = KeyMap.empty) : fullBuilders cfg p = [] := by
  rw [fullBuilders, hd, hk]
  simp [KeyMap.builders, KeyMap.live, KeyMap.empty]

/-- One raw item of this length is exported as a record without data. -/
theorem huge_export (c : UInt8) (data : Bytes) (hlen : (c::data).length = 2^32) : ∃ s buf,
    Sys.run noLimit (addRawOf (c::data)) (Sys.start noLimit) = some s ∧
      exportRawBufferWith noLimit.cfg noLimit.me [] plenty (s.writers 0) s.prod =
        some ((.ok, buf), s.writers 0, s.prod) ∧
      ¬ Intact noLimit.cfg [] s.prod (.ok, buf) := by
  obtain ⟨s, hrun, hqueue, hingress, hown, hdefault, hkeys⟩ := addRawOf_run c data
  have hitems : exportItems noLimit.cfg [] s.prod = some s.prod.queue := by
    rw [exportItems, fullBuilders_none noLimit.cfg s.prod hdefault hkeys]
    simp
  have hzero : uint32 (2^32) = 0 := rfl
  have hsize : (bufferBytes s.prod.nextId s.prod.queue).length < 2^64 := by
    rw [bufferBytes_length, hqueue]
    simp only [List.map_cons, List.map_nil, recordSize, hlen, hzero]
    decide
  have hcount : s.prod.queue.length < 2^32 := by
    rw [hqueue, List.length_singleton]
    decide
  refine ⟨s, bufferBytes s.prod.nextId s.prod.queue, hrun, ?_, fun hi => ?_⟩
  · rw [exportRawBufferWith_eq _ _ _ _ _ _ hown hingress]
    exact congrArg (fun r => some (r, s.writers 0, s.prod))
      (exportRecords_queue noLimit.cfg [] s.prod hdefault hkeys hcount hsize)
  · obtain ⟨items, heq, hrec⟩ := hi rfl
    obtain rfl := Option.some.inj (hitems.symm.trans heq)
    rw [exportedRecords_bufferBytes _ _ hcount] at hrec
    have hshort := (map_cutRecord _).mp (Option.some.inj hrec) ⟨0, 1, 5, 0, false, c::data, []⟩
      (by rw [hqueue]; exact List.mem_singleton_self _)
    rw [hlen] at hshort
    exact absurd hshort.2 (lt_irrefl _)

theorem raw_item_cut : ∃ data s buf, data.length = 2^32 ∧
    Sys.run noLimit (addRawOf data) (Sys.start noLimit) = some s ∧
      exportRawBufferWith noLimit.cfg noLimit.me [] plenty (s.writers 0) s.prod =
        some ((.ok, buf), s.writers 0, s.prod) ∧
      ¬ Intact noLimit.cfg [] s.prod (.ok, buf) := by
  have hlen : (65::List.replicate (2^32-1) (65 : UInt8)).length = 2^32 := by
    rw [List.length_cons, List.length_replicate]
    decide
  obtain ⟨s, buf, h⟩ := huge_export 65 _ hlen
  exact ⟨_, s, buf, hlen, h⟩

end Huge

end VeTls.Export
