import VeTls.Proto.Import
import VeTls.Pipeline.Budget

/-!
# An import and the memory budget

The import compares a record with what is in the raw queue, and not with all
that is buffered. How far it goes over the budget is read off the buffer.
-/

set_option autoImplicit false

namespace VeTls.Export

open VeTls.Keys (CStr)
open VeTls.Wire (Bytes)
open VeTls.Bytes (leValue)

/-- The data bytes that the headers of the first `n` records announce. -/
def recordBytes (version : ℕ) : ℕ → Bytes → ℕ
  | 0, _ => 0
  | n+1, b =>
    match readHeader version b with
    | none => 0
    | some (h, b) => h.dataSize+recordBytes version n ((b.drop h.hkLen).drop h.dataSize)

def versionOf (buf : Bytes) : ℕ := leValue ((buf.drop 4).take 4)

def countOf (buf : Bytes) : ℕ := leValue ((buf.drop 8).take 4)

theorem recordBytes_good (cfg : Config) (version : ℕ) (mem : Allocs) (queued n size : ℕ)
    (b rest : Bytes) (h : goodRecord cfg version mem queued b = some (size, rest)) :
    recordBytes version (n+1) b = size+recordBytes version n rest := by
  obtain ⟨r, hr, hif⟩ := Option.bind_eq_some_iff.mp h
  dsimp only at hif
  split at hif
  case isTrue =>
    obtain ⟨rfl, rfl⟩ := Prod.mk.inj (Option.some.inj hif)
    rw [recordBytes, hr]
  case isFalse => cases hif

theorem used_queuePush (item : RawItem) (p : Producer) :
    used (queuePush item p) = used p+item.size := by
  simp only [used, usedIngress, queuePush]
  omega

theorem used_advanceNextLogId (desired : ℕ) (p : Producer) :
    used (advanceNextLogId desired p) = used p := by
  unfold advanceNextLogId
  split
  · rfl
  · rfl

/-- The loop stays within a limit exactly when every run of records that pass
fits in it. -/
theorem importGoWith_within (cfg : Config) (version : ℕ) (mem : ℕ → Allocs) (limit n i : ℕ)
    (b : Bytes) (maxId : ℕ) (p : Producer) :
    used (importGoWith cfg version mem n i b maxId p).2.2 ≤ limit ↔
      ∀ k ≤ n, goodRecords cfg version mem k i p.queueBytes b = true →
        used p+recordBytes version k b ≤ limit := by
  induction n generalizing i b maxId p with
  | zero =>
    constructor
    · intro h k hk _
      obtain rfl : k = 0 := by omega
      exact h
    · intro h
      exact h 0 le_rfl rfl
  | succ n ih =>
    obtain ⟨hnone, r, -, hgo⟩ | ⟨size, rest, maxId', item, hsome, hsize, hgo⟩ :=
      importGoWith_succ cfg version mem n i b maxId p
    · rw [hgo]
      constructor
      · intro h k _ hgood
        cases k with
        | zero => exact h
        | succ k =>
          rw [goodRecords, hnone] at hgood
          cases hgood
      · intro h
        exact h 0 (Nat.zero_le _) rfl
    · have hbytes := fun k => recordBytes_good cfg version (mem i) p.queueBytes k size b rest hsome
      rw [hgo, ih, (queuePush_bytes item p).1, used_queuePush, hsize]
      constructor
      · intro h k hk hgood
        cases k with
        | zero =>
          have hfirst := h 0 (Nat.zero_le n) rfl
          rw [recordBytes] at hfirst ⊢
          omega
        | succ k =>
          rw [goodRecords, hsome] at hgood
          have hrest := h k (by omega) hgood
          rw [hbytes]
          omega
      · intro h k hk hgood
        have hnext := h (k+1) (by omega) (by rw [goodRecords, hsome]; exact hgood)
        rw [hbytes] at hnext
        omega

/-- An import keeps to the budget exactly when the records that pass its
checks one after the other fit, with all that is buffered, in the budget. -/
theorem import_within_iff (cfg : Config) (mem : ℕ → Allocs) (buf : Bytes) (p : Producer)
    (hp : used p ≤ cfg.maxBufferBytes.toNat) :
    used (importRawBufferWith cfg mem buf p).2 ≤ cfg.maxBufferBytes.toNat ↔
      (validHeader buf → ∀ n ≤ countOf buf, recordsPass cfg mem buf p n = true →
        used p+recordBytes (versionOf buf) n (buf.drop 20) ≤ cfg.maxBufferBytes.toNat) := by
  by_cases hheader : validHeader buf
  · have hgo := importGoWith_within cfg (versionOf buf) mem cfg.maxBufferBytes.toNat (countOf buf) 0
      (buf.drop 20) (p.nextId-1).toNat p
    rw [importRawBufferWith_header cfg mem buf p hheader, forall_prop_of_true hheader]
    refine Iff.trans ?_ hgo
    unfold versionOf countOf
    generalize importGoWith cfg _ mem _ 0 _ _ p = r
    obtain ⟨rc, maxId, p'⟩ := r
    cases rc with
    | ok =>
      dsimp only
      split
      · rw [used_advanceNextLogId]
      · exact Iff.rfl
    | _ => exact Iff.rfl
  · rw [importRawBufferWith_badHeader cfg mem buf p hheader]
    exact iff_of_true hp fun h => absurd h hheader

def small : Config := { maxBufferBytes := 40 }

def batched : Wire.KvLog := ⟨5, 0, false, [([65], [66])]⟩

/-- One log in the batch of a thread. -/
def oneBatched : Producer :=
  (Writer.tlsAppend small batched false Writer.start
    (Writer.tlsReserve batched false Writer.start producerCreate).2).2

def records (size : ℕ) : Bytes := bufferBytes 2 [⟨0, 1, 5, 0, false, List.replicate size 9, []⟩]

def allocated : ℕ → Allocs := fun _ => ⟨true, true, true, true⟩

theorem oneBatched_within : used oneBatched ≤ small.maxBufferBytes.toNat ∧
    used (importRawBufferWith small allocated (records 28) oneBatched).2 ≤
      small.maxBufferBytes.toNat := by
  have hused : used oneBatched ≤ small.maxBufferBytes.toNat := by decide +kernel
  refine ⟨hused, (import_within_iff small allocated (records 28) oneBatched hused).mpr ?_⟩
  intro _
  decide +kernel

theorem oneBatched_over : ¬ ∀ (cfg : Config) (mem : ℕ → Allocs) (buf : Bytes) (p : Producer),
    0 < cfg.maxBufferBytes → used p ≤ cfg.maxBufferBytes.toNat →
      used (importRawBufferWith cfg mem buf p).2 ≤ cfg.maxBufferBytes.toNat := by
  intro h
  have hover := h small allocated (records 29) oneBatched (by decide) (by decide +kernel)
  revert hover
  decide +kernel

end VeTls.Export
