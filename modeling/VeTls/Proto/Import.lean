import VeTls.Proto.Export

/-!
# What an import leaves behind when it fails

The import of a raw buffer with its allocations, any of which may fail. The
records that were read before a failure stay queued, and neither the next id
nor the worker is told of them.
-/

set_option autoImplicit false

namespace VeTls.Export

open VeTls.Keys (CStr)
open VeTls.Wire (Bytes)
open VeTls.Bytes (leValue)

/-- Which allocations of a record succeed: the copy of its key, the copies
the queue makes of data and key, and the larger array if one is needed. -/
structure Allocs where
  hashKey : Bool
  data : Bool
  dup : Bool
  grow : Bool
  deriving DecidableEq, Repr

/-- The hash key of a record. -/
def recordKey (version : ℕ) (h : Header) (b : Bytes) : CStr :=
  if version ≥ 2 ∧ h.hkLen > 0 then cstr (b.take h.hkLen) else []

/-- A hash key of no bytes is not copied again, and an item without data is
refused. -/
def queuePushOk (mem : Allocs) (size : ℕ) (hk : CStr) : Bool :=
  mem.data && (decide (hk = []) || mem.dup) && decide (size ≠ 0) && mem.grow

def importGoWith (cfg : Config) (version : ℕ) (mem : ℕ → Allocs) :
    ℕ → ℕ → Bytes → ℕ → Producer → Result × ℕ × Producer
  | 0, _, _, maxId, p => (.ok, maxId, p)
  | n+1, i, b, maxId, p =>
    match readHeader version b with
    | none => (.invalid, maxId, p)
    | some (h, b) =>
      if b.length < h.hkLen then (.invalid, maxId, p)
      else if cfg.maxBufferBytes > 0 ∧
          sizeFitsLimit p.queueBytes h.dataSize cfg.maxBufferBytes.toNat = false then
        (.dropError, maxId, p)
      else if version ≥ 2 ∧ h.hkLen > 0 ∧ (mem i).hashKey = false then (.dropError, maxId, p)
      else
        let hk := recordKey version h b
        let b := b.drop h.hkLen
        if b.length < h.dataSize then (.invalid, maxId, p)
        else if queuePushOk (mem i) h.dataSize hk = false then (.dropError, maxId, p)
        else importGoWith cfg version mem n (i+1) (b.drop h.dataSize) (max maxId h.id)
          (queuePush (importItem p h hk (b.take h.dataSize)) p)

def importRawBufferWith (cfg : Config) (mem : ℕ → Allocs) (buf : Bytes) (p : Producer) :
    Result × Producer :=
  if buf.length < 20 ∨ buf.take 4 ≠ magic then (.invalid, p)
  else
    let version := leValue ((buf.drop 4).take 4)
    let count := leValue ((buf.drop 8).take 4)
    let nextId := leValue ((buf.drop 12).take 8)
    if version ≠ 1 ∧ version ≠ 2 ∧ version ≠ 3 then (.invalid, p)
    else
      match importGoWith cfg version mem count 0 (buf.drop 20) (p.nextId-1).toNat p with
      | (.ok, maxId, p) =>
        let desired := max ((maxId+1) % 2^64) nextId
        (.ok, if desired ≤ 2^63-1 then advanceNextLogId desired p else p)
      | (r, _, p) => (r, p)

/-- When every allocation succeeds this is the import without them. -/
theorem importGoWith_eq (cfg : Config) (version : ℕ) (mem : ℕ → Allocs)
    (hmem : ∀ i, mem i = ⟨true, true, true, true⟩) (n i : ℕ) (b : Bytes) (maxId : ℕ)
    (p : Producer) :
    importGoWith cfg version mem n i b maxId p = importGo cfg version n b maxId p := by
  induction n generalizing i b maxId p with
  | zero => rfl
  | succ n ih =>
    rw [importGoWith, importGo]
    cases readHeader version b with
    | none => rfl
    | some r =>
      simp only [hmem, queuePushOk, recordKey, ih, Bool.or_true, Bool.true_and, Bool.and_true,
        reduceCtorEq, and_false, if_false, decide_eq_false_iff_not, not_not]

theorem importRawBufferWith_eq (cfg : Config) (mem : ℕ → Allocs)
    (hmem : ∀ i, mem i = ⟨true, true, true, true⟩) (buf : Bytes) (p : Producer) :
    importRawBufferWith cfg mem buf p = importRawBuffer cfg buf p := by
  unfold importRawBufferWith
  simp only [importGoWith_eq cfg _ mem hmem]
  rfl

section Failures

/-- The record in front of the buffer passes its checks with `queued` bytes
in the queue; what is left are its size and the bytes after it. -/
def goodRecord (cfg : Config) (version : ℕ) (mem : Allocs) (queued : ℕ) (b : Bytes) :
    Option (ℕ × Bytes) :=
  (readHeader version b).bind fun r =>
    let rest := r.2.drop r.1.hkLen
    if r.1.hkLen ≤ r.2.length ∧ r.1.dataSize ≤ rest.length ∧
      (cfg.maxBufferBytes ≤ 0 ∨
        sizeFitsLimit queued r.1.dataSize cfg.maxBufferBytes.toNat = true) ∧
      (version ≥ 2 ∧ r.1.hkLen > 0 → mem.hashKey = true) ∧
      queuePushOk mem r.1.dataSize (recordKey version r.1 r.2) = true
    then some (r.1.dataSize, rest.drop r.1.dataSize)
    else none

/-- So do the first `n` records. -/
def goodRecords (cfg : Config) (version : ℕ) (mem : ℕ → Allocs) : ℕ → ℕ → ℕ → Bytes → Bool
  | 0, _, _, _ => true
  | n+1, i, queued, b =>
    match goodRecord cfg version (mem i) queued b with
    | some (size, rest) => goodRecords cfg version mem n (i+1) (queued+size) rest
    | none => false

/-- What the claimed fields of a producer were. -/
def SameQueue (p p' : Producer) : Prop :=
  p'.queue = p.queue ∧ p'.queueBytes = p.queueBytes ∧ p'.nextId = p.nextId

/-- One round of the loop. -/
theorem importGoWith_succ (cfg : Config) (version : ℕ) (mem : ℕ → Allocs) (n i : ℕ) (b : Bytes)
    (maxId : ℕ) (p : Producer) :
    (goodRecord cfg version (mem i) p.queueBytes b = none ∧
      ∃ r, r ≠ .ok ∧ importGoWith cfg version mem (n+1) i b maxId p = (r, maxId, p)) ∨
    ∃ size rest maxId' item, goodRecord cfg version (mem i) p.queueBytes b = some (size, rest) ∧
      item.size = size ∧ importGoWith cfg version mem (n+1) i b maxId p =
        importGoWith cfg version mem n (i+1) rest maxId' (queuePush item p) := by
  rw [importGoWith, goodRecord]
  cases readHeader version b with
  | none => exact Or.inl ⟨rfl, .invalid, by decide, rfl⟩
  | some r =>
    obtain ⟨h, b⟩ := r
    dsimp only [Option.bind_some]
    by_cases hkey : b.length < h.hkLen
    · rw [if_pos hkey, if_neg (by omega)]
      exact Or.inl ⟨rfl, .invalid, by decide, rfl⟩
    rw [if_neg hkey]
    by_cases hlimit : cfg.maxBufferBytes > 0 ∧
        sizeFitsLimit p.queueBytes h.dataSize cfg.maxBufferBytes.toNat = false
    · rw [if_pos hlimit, if_neg (by rintro ⟨-, -, hl, -⟩; rw [hlimit.2] at hl; exact hl.elim (by omega) (by decide))]
      exact Or.inl ⟨rfl, .dropError, by decide, rfl⟩
    rw [if_neg hlimit]
    by_cases halloc : version ≥ 2 ∧ h.hkLen > 0 ∧ (mem i).hashKey = false
    · rw [if_pos halloc, if_neg (by
        rintro ⟨-, -, -, ha, -⟩
        rw [ha ⟨halloc.1, halloc.2.1⟩] at halloc
        exact absurd halloc.2.2 (by decide))]
      exact Or.inl ⟨rfl, .dropError, by decide, rfl⟩
    rw [if_neg halloc]
    by_cases hdata : (b.drop h.hkLen).length < h.dataSize
    · rw [if_pos hdata, if_neg (by omega)]
      exact Or.inl ⟨rfl, .invalid, by decide, rfl⟩
    rw [if_neg hdata]
    by_cases hpush : queuePushOk (mem i) h.dataSize (recordKey version h b) = false
    · rw [if_pos hpush, if_neg (by rintro ⟨-, -, -, -, hp⟩; rw [hpush] at hp; cases hp)]
      exact Or.inl ⟨rfl, .dropError, by decide, rfl⟩
    rw [if_neg hpush]
    have hgood : h.hkLen ≤ b.length ∧ h.dataSize ≤ (b.drop h.hkLen).length ∧
        (cfg.maxBufferBytes ≤ 0 ∨
          sizeFitsLimit p.queueBytes h.dataSize cfg.maxBufferBytes.toNat = true) ∧
        (version ≥ 2 ∧ h.hkLen > 0 → (mem i).hashKey = true) ∧
        queuePushOk (mem i) h.dataSize (recordKey version h b) = true := by
      refine ⟨by omega, by omega, ?_, ?_, Bool.not_eq_false _ ▸ hpush⟩
      · by_cases hpos : cfg.maxBufferBytes > 0
        · exact Or.inr (Bool.not_eq_false _ ▸ fun hf => hlimit ⟨hpos, hf⟩)
        · exact Or.inl (by omega)
      · rintro ⟨hv, hk⟩
        exact Bool.not_eq_false _ ▸ fun hf => halloc ⟨hv, hk, hf⟩
    rw [if_pos hgood]
    refine Or.inr ⟨_, _, _, _, rfl, ?_, rfl⟩
    rw [RawItem.size, importItem, List.length_take]
    omega

theorem queuePush_bytes (item : RawItem) (p : Producer) :
    (queuePush item p).queueBytes = p.queueBytes+item.size ∧
      (queuePush item p).queue = p.queue++[item] := ⟨rfl, rfl⟩

/-- The loop ends well exactly when its records pass, and it never takes a
record out again. -/
theorem importGoWith_good (cfg : Config) (version : ℕ) (mem : ℕ → Allocs) (n i : ℕ) (b : Bytes)
    (maxId : ℕ) (p : Producer) :
    ((importGoWith cfg version mem n i b maxId p).1 = .ok ↔
        goodRecords cfg version mem n i p.queueBytes b = true) ∧
      p.queue <+: (importGoWith cfg version mem n i b maxId p).2.2.queue := by
  induction n generalizing i b maxId p with
  | zero => exact ⟨iff_of_true rfl rfl, List.prefix_rfl⟩
  | succ n ih =>
    rw [goodRecords]
    obtain ⟨hnone, r, hr, hgo⟩ | ⟨size, rest, maxId', item, hsome, hsize, hgo⟩ :=
      importGoWith_succ cfg version mem n i b maxId p
    · rw [hnone, hgo]
      exact ⟨iff_of_false hr (by simp), List.prefix_rfl⟩
    · rw [hsome, hgo]
      obtain ⟨hok, hpre⟩ := ih (i+1) rest maxId' (queuePush item p)
      rw [(queuePush_bytes item p).1, hsize] at hok
      exact ⟨hok, (List.prefix_append p.queue [item]).trans hpre⟩

/-- A loop that fails leaves the queue as it was exactly when its first
record fails. -/
theorem importGoWith_untouched (cfg : Config) (version : ℕ) (mem : ℕ → Allocs) (n i : ℕ)
    (b : Bytes) (maxId : ℕ) (p : Producer)
    (hfail : (importGoWith cfg version mem n i b maxId p).1 ≠ .ok) :
    SameQueue p (importGoWith cfg version mem n i b maxId p).2.2 ↔
      goodRecords cfg version mem 1 i p.queueBytes b = false := by
  cases n with
  | zero => exact absurd rfl hfail
  | succ n =>
    rw [goodRecords]
    obtain ⟨hnone, r, hr, hgo⟩ | ⟨size, rest, maxId', item, hsome, hsize, hgo⟩ :=
      importGoWith_succ cfg version mem n i b maxId p
    · rw [hnone, hgo]
      exact iff_of_true ⟨rfl, rfl, rfl⟩ rfl
    · rw [hsome, hgo]
      refine iff_of_false ?_ (by simp [goodRecords])
      rintro ⟨hq, -⟩
      have hpre := (importGoWith_good cfg version mem n (i+1) rest maxId' (queuePush item p)).2
      rw [hq, (queuePush_bytes item p).2] at hpre
      have hlen := hpre.length_le
      rw [List.length_append, List.length_singleton] at hlen
      omega

/-- The buffer has a header that is accepted. -/
def validHeader (buf : Bytes) : Prop :=
  20 ≤ buf.length ∧ buf.take 4 = magic ∧ leValue ((buf.drop 4).take 4) ∈ [1, 2, 3]

instance (buf : Bytes) : Decidable (validHeader buf) := instDecidableAnd

/-- The first `n` records of the buffer pass their checks. -/
def recordsPass (cfg : Config) (mem : ℕ → Allocs) (buf : Bytes) (p : Producer) (n : ℕ) : Bool :=
  goodRecords cfg (leValue ((buf.drop 4).take 4)) mem n 0 p.queueBytes (buf.drop 20)

theorem importRawBufferWith_badHeader (cfg : Config) (mem : ℕ → Allocs) (buf : Bytes)
    (p : Producer) (h : ¬ validHeader buf) : importRawBufferWith cfg mem buf p = (.invalid, p) := by
  unfold importRawBufferWith
  split
  · rfl
  · dsimp only
    rw [if_pos]
    by_contra hv
    refine h ⟨by omega, by_contra fun hm => ‹¬ _› (Or.inr hm), ?_⟩
    simp only [List.mem_cons, List.not_mem_nil, or_false]
    omega

theorem importRawBufferWith_header (cfg : Config) (mem : ℕ → Allocs) (buf : Bytes) (p : Producer)
    (h : validHeader buf) :
    importRawBufferWith cfg mem buf p =
      match importGoWith cfg (leValue ((buf.drop 4).take 4)) mem (leValue ((buf.drop 8).take 4)) 0
          (buf.drop 20) (p.nextId-1).toNat p with
      | (.ok, maxId, p) =>
        (.ok, if max ((maxId+1) % 2^64) (leValue ((buf.drop 12).take 8)) ≤ 2^63-1 then
          advanceNextLogId (max ((maxId+1) % 2^64) (leValue ((buf.drop 12).take 8))) p else p)
      | (r, _, p) => (r, p) := by
  obtain ⟨hlen, hmagic, hv⟩ := h
  simp only [List.mem_cons, List.not_mem_nil, or_false] at hv
  unfold importRawBufferWith
  rw [if_neg (by rintro (hl | hm); exacts [by omega, hm hmagic])]
  dsimp only
  rw [if_neg (by omega)]

end Failures

/-- An import that does not succeed leaves the queue and the next id alone
exactly when not even the first record passes its checks, which an import
without a valid header never comes to. -/
theorem import_all_or_nothing_iff (cfg : Config) (mem : ℕ → Allocs) (buf : Bytes) (p : Producer) :
    ((importRawBufferWith cfg mem buf p).1 ≠ .ok →
        SameQueue p (importRawBufferWith cfg mem buf p).2) ↔
      (validHeader buf → recordsPass cfg mem buf p 1 = true →
        recordsPass cfg mem buf p (leValue ((buf.drop 8).take 4)) = true) := by
  by_cases hheader : validHeader buf
  · have hgood := importGoWith_good cfg (leValue ((buf.drop 4).take 4)) mem
      (leValue ((buf.drop 8).take 4)) 0 (buf.drop 20) (p.nextId-1).toNat p
    have hsame := importGoWith_untouched cfg (leValue ((buf.drop 4).take 4)) mem
      (leValue ((buf.drop 8).take 4)) 0 (buf.drop 20) (p.nextId-1).toNat p
    rw [importRawBufferWith_header cfg mem buf p hheader]
    generalize importGoWith cfg _ mem _ 0 _ _ p = r at hgood hsame ⊢
    obtain ⟨rc, maxId, p'⟩ := r
    by_cases hok : rc = .ok
    · subst hok
      exact iff_of_true (fun h => absurd rfl h) fun _ _ => hgood.1.mp rfl
    · have hbad : recordsPass cfg mem buf p (leValue ((buf.drop 8).take 4)) ≠ true :=
        fun h => hok (hgood.1.mpr h)
      have hres : (match (rc, maxId, p') with
          | (.ok, maxId, p) =>
            (.ok, if max ((maxId+1) % 2^64) (leValue ((buf.drop 12).take 8)) ≤ 2^63-1 then
              advanceNextLogId (max ((maxId+1) % 2^64) (leValue ((buf.drop 12).take 8))) p else p)
          | (r, _, p) => (r, p)) = (rc, p') := by
        cases rc
        · exact absurd rfl hok
        all_goals rfl
      rw [hres]
      constructor
      · intro h _ hfirst
        have hno := (hsame hok).mp (h hok)
        exact absurd (hfirst.symm.trans hno) (by decide)
      · intro h _
        refine (hsame hok).mpr (Bool.eq_false_iff.mpr fun hfirst => ?_)
        exact hbad (h hheader hfirst)
  · rw [importRawBufferWith_badHeader cfg mem buf p hheader]
    exact iff_of_true (fun _ => ⟨rfl, rfl, rfl⟩) fun h => absurd h hheader

/-- Two records, the second one cut short by a byte. -/
def cutBuffer : Bytes :=
  (bufferBytes 3 [⟨0, 1, 5, 0, false, [9], []⟩, ⟨0, 2, 6, 0, false, [9], []⟩]).dropLast

theorem cutBuffer_half_imported : ¬ ∀ cfg mem buf p,
    (importRawBufferWith cfg mem buf p).1 ≠ .ok → SameQueue p (importRawBufferWith cfg mem buf p).2 := by
  intro h
  have hcut := (h {} (fun _ => ⟨true, true, true, true⟩) cutBuffer producerCreate (by decide +kernel)).1
  have hq : (importRawBufferWith {} (fun _ => ⟨true, true, true, true⟩) cutBuffer
      producerCreate).2.queue ≠ [] := by decide +kernel
  exact hq hcut

end VeTls.Export
