import Mathlib

/-!
# Log entries on the wire

The byte sizes a log entry is charged with before it is encoded, and the
bytes the builder then writes for it. Sizes are `size_t` values, so every
sum is taken modulo `2^64`; `entryLen` is the same size as a natural number.
-/

set_option autoImplicit false

namespace VeTls.Wire

abbrev Bytes := List UInt8

def wrap (n : ℕ) : ℕ := n % 2^64

def uint32Max : ℕ := 2^32-1

def varintU64SizeGo : ℕ → ℕ → ℕ
  | 0, _ => 1
  | k+1, v => if v < 0x80 then 1 else varintU64SizeGo k (v/128)+1

/-- A 64-bit value leaves the loop after at most nine shifts. -/
def varintU64Size (v : ℕ) : ℕ := varintU64SizeGo 9 v

def varintU64PackGo : ℕ → ℕ → Bytes
  | 0, v => [UInt8.ofNat v]
  | k+1, v => if v < 0x80 then [UInt8.ofNat v]
      else UInt8.ofNat (v % 128+0x80)::varintU64PackGo k (v/128)

def varintU64Pack (v : ℕ) : Bytes := varintU64PackGo 9 v

def varintU32Size (v : ℕ) : ℕ :=
  if v < 2^7 then 1 else if v < 2^14 then 2 else if v < 2^21 then 3
  else if v < 2^28 then 4 else 5

def varintU32Pack (v : ℕ) : Bytes := varintU64PackGo 4 v

def varintPack (v : ℕ) : Bytes :=
  if v ≤ uint32Max then varintU32Pack v else varintU64Pack v

def keyU32Size (fieldNumber wireType : ℕ) : ℕ := varintU64Size (fieldNumber*8+wireType)

def bytesFieldSize (fieldNumber n : ℕ) : ℕ :=
  wrap (keyU32Size fieldNumber 2+varintU64Size n+n)

def logContentMsgSize (klen vlen : ℕ) : ℕ :=
  wrap (bytesFieldSize 1 klen+bytesFieldSize 2 vlen)

def logContentFieldSize (klen vlen : ℕ) : ℕ :=
  wrap (keyU32Size 2 2+varintU64Size (logContentMsgSize klen vlen)+logContentMsgSize klen vlen)

structure KvLog where
  timeMs : ℤ
  timeNs : ℕ
  hasTimeNs : Bool
  kvs : List (Bytes × Bytes)
  deriving DecidableEq, Repr

/-- Times that are not positive are written as zero and lose their
nanosecond part. -/
def KvLog.time (l : KvLog) : ℕ := l.timeMs.toNat

def KvLog.ns (l : KvLog) : Bool := l.hasTimeNs && decide (0 < l.timeMs)

def logMsgSizeLens (l : KvLog) : ℕ :=
  let n := l.kvs.foldl (fun n kv => wrap (n+logContentFieldSize kv.1.length kv.2.length))
    (keyU32Size 1 0+varintU64Size l.time)
  if l.ns then wrap (n+keyU32Size 3 5+4) else n

def logBuilderEstimateKvLensSize (l : KvLog) : ℕ :=
  let msgSize := logMsgSizeLens l
  if msgSize ≤ uint32Max then wrap (1+varintU32Size msgSize+msgSize)
  else wrap (1+varintU64Size msgSize+msgSize)

def contentBytes (kv : Bytes × Bytes) : Bytes :=
  0x12::varintPack (logContentMsgSize kv.1.length kv.2.length) ++
    0x0A::varintPack kv.1.length ++ kv.1 ++ 0x12::varintPack kv.2.length ++ kv.2

def nsBytes (ns : ℕ) : Bytes :=
  [0x1D, UInt8.ofNat ns, UInt8.ofNat (ns/2^8), UInt8.ofNat (ns/2^16), UInt8.ofNat (ns/2^24)]

def msgBytes (l : KvLog) : Bytes :=
  0x08::varintPack l.time ++ l.kvs.flatMap contentBytes ++
    (if l.ns then nsBytes l.timeNs else [])

def entryBytes (l : KvLog) : Bytes :=
  0x0A::varintPack (logMsgSizeLens l) ++ msgBytes l

def contentMsgLen (kv : Bytes × Bytes) : ℕ :=
  1+varintU64Size kv.1.length+kv.1.length+(1+varintU64Size kv.2.length+kv.2.length)

def contentLen (kv : Bytes × Bytes) : ℕ :=
  1+varintU64Size (contentMsgLen kv)+contentMsgLen kv

def msgLen (l : KvLog) : ℕ :=
  1+varintU64Size l.time+(l.kvs.map contentLen).sum+(if l.ns then 5 else 0)

/-- The encoded size of a log entry as a natural number. -/
def entryLen (l : KvLog) : ℕ := 1+varintU64Size (msgLen l)+msgLen l

theorem wrap_eq (n : ℕ) (h : n < 2^64) : wrap n = n := Nat.mod_eq_of_lt h

theorem varintU64Size_pack (k v : ℕ) : varintU64SizeGo k v = (varintU64PackGo k v).length := by
  induction k generalizing v with
  | zero => rfl
  | succ k ih =>
    simp only [varintU64SizeGo, varintU64PackGo]
    split <;> simp [ih]

theorem varintSize_fuel (k v : ℕ) (h : v < 2^(7*(k+1))) :
    varintU64SizeGo (k+1) v = varintU64SizeGo k v := by
  induction k generalizing v with
  | zero =>
    have hv : v < 128 := by simpa using h
    simp [varintU64SizeGo, hv]
  | succ k ih =>
    have hd : v/128 < 2^(7*(k+1)) := by
      rw [Nat.div_lt_iff_lt_mul (by decide)]
      calc v < 2^(7*(k+1+1)) := h
        _ = 2^(7*(k+1))*128 := by rw [show 7*(k+1+1) = 7*(k+1)+7 by ring, pow_add]; norm_num
    rw [varintU64SizeGo, ih (v/128) hd]
    rfl

/-- The 32-bit loop stops within four shifts, so both widths agree. -/
theorem varintPack_length (v : ℕ) : (varintPack v).length = varintU64Size v := by
  unfold varintPack
  split
  · rename_i hv
    have hv' : v < 2^32 := by unfold uint32Max at hv; omega
    have hb : ∀ k, 5 ≤ k → v < 2^(7*k) := fun k hk =>
      lt_of_lt_of_le hv' (Nat.pow_le_pow_right (by decide) (by omega))
    rw [varintU32Pack, ← varintU64Size_pack, varintU64Size]
    rw [varintSize_fuel 8 v (hb 9 (by omega)), varintSize_fuel 7 v (hb 8 (by omega)),
      varintSize_fuel 6 v (hb 7 (by omega)), varintSize_fuel 5 v (hb 6 (by omega)),
      varintSize_fuel 4 v (hb 5 (by omega))]
  · rw [varintU64Pack, ← varintU64Size_pack, varintU64Size]

theorem varintU32Size_eq (v : ℕ) (h : v ≤ uint32Max) : varintU32Size v = varintU64Size v := by
  unfold uint32Max at h
  unfold varintU32Size varintU64Size
  by_cases h7 : v < 128
  · simp [varintU64SizeGo, h7]
  · by_cases h14 : v < 16384
    · have h1 : v/128 < 128 := by omega
      simp [varintU64SizeGo, h7, h14, h1]
    · by_cases h21 : v < 2097152
      · have h1 : ¬ v/128 < 128 := by omega
        have h2 : v/128/128 < 128 := by omega
        simp [varintU64SizeGo, h7, h14, h21, h1, h2]
      · have h1 : ¬ v/128 < 128 := by omega
        have h2 : ¬ v/128/128 < 128 := by omega
        by_cases h28 : v < 268435456
        · have h3 : v/128/128/128 < 128 := by omega
          simp [varintU64SizeGo, h7, h14, h21, h28, h1, h2, h3]
        · have h3 : ¬ v/128/128/128 < 128 := by omega
          have h4 : v/128/128/128/128 < 128 := by omega
          simp [varintU64SizeGo, h7, h14, h21, h28, h1, h2, h3, h4]

theorem logContentMsgSize_eq (kv : Bytes × Bytes) (h : contentMsgLen kv < 2^64) :
    logContentMsgSize kv.1.length kv.2.length = contentMsgLen kv := by
  have hk : keyU32Size 1 2 = 1 ∧ keyU32Size 2 2 = 1 := ⟨rfl, rfl⟩
  unfold contentMsgLen at h
  have h1 : bytesFieldSize 1 kv.1.length = 1+varintU64Size kv.1.length+kv.1.length := by
    rw [bytesFieldSize, hk.1, wrap_eq _ (by omega)]
  have h2 : bytesFieldSize 2 kv.2.length = 1+varintU64Size kv.2.length+kv.2.length := by
    rw [bytesFieldSize, hk.2, wrap_eq _ (by omega)]
  rw [logContentMsgSize, h1, h2, wrap_eq _ h, contentMsgLen]

theorem logContentFieldSize_eq (kv : Bytes × Bytes) (h : contentLen kv < 2^64) :
    logContentFieldSize kv.1.length kv.2.length = contentLen kv := by
  unfold contentLen at h
  have hm := logContentMsgSize_eq kv (by omega)
  rw [logContentFieldSize, hm, show keyU32Size 2 2 = 1 from rfl, wrap_eq _ h, contentLen]

theorem contentBytes_length (kv : Bytes × Bytes) (h : contentMsgLen kv < 2^64) :
    (contentBytes kv).length = contentLen kv := by
  have hm := logContentMsgSize_eq kv h
  simp only [contentBytes, hm, List.cons_append, List.append_assoc, List.length_cons,
    List.length_append, varintPack_length, contentLen]
  unfold contentMsgLen
  omega

/-- The sum of the loop does not wrap around while the message fits. -/
theorem foldl_contentLen (kvs : List (Bytes × Bytes)) (n : ℕ)
    (h : n+(kvs.map contentLen).sum < 2^64) :
    kvs.foldl (fun n kv => wrap (n+logContentFieldSize kv.1.length kv.2.length)) n =
      n+(kvs.map contentLen).sum := by
  induction kvs generalizing n with
  | nil => simp
  | cons kv kvs ih =>
    simp only [List.map_cons, List.sum_cons] at h
    rw [List.foldl_cons, logContentFieldSize_eq kv (by omega), wrap_eq _ (by omega),
      ih _ (by omega), List.map_cons, List.sum_cons]
    omega

theorem logMsgSizeLens_eq (l : KvLog) (h : msgLen l < 2^64) : logMsgSizeLens l = msgLen l := by
  have hf := foldl_contentLen l.kvs (keyU32Size 1 0+varintU64Size l.time)
  have hk : keyU32Size 1 0 = 1 ∧ keyU32Size 3 5 = 1 := ⟨rfl, rfl⟩
  unfold msgLen at h ⊢
  unfold logMsgSizeLens
  rw [hk.1] at hf ⊢
  dsimp only
  split
  · rename_i hn
    simp only [hn, if_true] at h
    rw [hf (by omega), hk.2, wrap_eq _ (by omega)]
  · rename_i hn
    simp only [hn] at h
    rw [hf (by omega), Nat.add_zero]

theorem flatMap_contentBytes (kvs : List (Bytes × Bytes))
    (h : ∀ kv ∈ kvs, contentMsgLen kv < 2^64) :
    (kvs.flatMap contentBytes).length = (kvs.map contentLen).sum := by
  induction kvs with
  | nil => rfl
  | cons kv kvs ih =>
    rw [List.flatMap_cons, List.length_append, contentBytes_length kv (h kv List.mem_cons_self),
      ih fun x hx => h x (List.mem_cons_of_mem kv hx), List.map_cons, List.sum_cons]

theorem msgBytes_length (l : KvLog) (h : ∀ kv ∈ l.kvs, contentMsgLen kv < 2^64) :
    (msgBytes l).length = msgLen l := by
  have hc := flatMap_contentBytes l.kvs h
  unfold msgLen
  simp only [msgBytes, List.cons_append, List.length_append, List.length_cons, varintPack_length, hc]
  split
  · simp only [nsBytes, List.length_cons, List.length_nil]
    omega
  · simp only [List.length_nil]
    omega

theorem contentMsgLen_lt (l : KvLog) (h : msgLen l < 2^64) :
    ∀ kv ∈ l.kvs, contentMsgLen kv < 2^64 := by
  intro kv hkv
  have hle : contentLen kv ≤ (l.kvs.map contentLen).sum :=
    List.single_le_sum (fun _ _ => Nat.zero_le _) _ (List.mem_map_of_mem hkv)
  have hpart : contentMsgLen kv ≤ contentLen kv := Nat.le_add_left _ _
  unfold msgLen at h
  omega

theorem entryBytes_length (l : KvLog) (h : msgLen l < 2^64) :
    (entryBytes l).length = entryLen l := by
  rw [entryBytes, logMsgSizeLens_eq l h, entryLen]
  simp only [List.cons_append, List.length_cons, List.length_append, varintPack_length,
    msgBytes_length l (contentMsgLen_lt l h)]
  omega

theorem contentBytes_ge (kv : Bytes × Bytes) : contentMsgLen kv ≤ (contentBytes kv).length := by
  simp only [contentBytes, List.cons_append, List.append_assoc, List.length_cons,
    List.length_append, varintPack_length]
  unfold contentMsgLen
  omega

/-- An entry that is too long for a `size_t` is written too long, whatever
became of the length prefixes. -/
theorem entryBytes_length_ge (l : KvLog) (h : 2^64 ≤ entryLen l) :
    2^64 ≤ (entryBytes l).length := by
  by_cases hmsg : msgLen l < 2^64
  · rwa [entryBytes_length l hmsg]
  · have hbody : 2^64 ≤ (msgBytes l).length := by
      by_cases hall : ∀ kv ∈ l.kvs, contentMsgLen kv < 2^64
      · rw [msgBytes_length l hall]
        exact not_lt.mp hmsg
      · obtain ⟨kv, hkv, hbig⟩ : ∃ kv ∈ l.kvs, 2^64 ≤ contentMsgLen kv := by
          push Not at hall
          exact hall
        have hpart : (contentBytes kv).length ≤ (l.kvs.flatMap contentBytes).length := by
          rw [List.length_flatMap]
          exact List.single_le_sum (fun _ _ => Nat.zero_le _) _
            (List.mem_map_of_mem (f := fun kv => (contentBytes kv).length) hkv)
        have hge := contentBytes_ge kv
        simp only [msgBytes, List.cons_append, List.length_append, List.length_cons]
        omega
    rw [entryBytes, List.length_append]
    omega

/-- A log is charged with the bytes it is encoded to. -/
theorem logBuilderEstimateKvLensSize_eq (l : KvLog) (h : entryLen l < 2^64) :
    logBuilderEstimateKvLensSize l = (entryBytes l).length := by
  unfold entryLen at h
  have hm : msgLen l < 2^64 := by omega
  rw [entryBytes_length l hm, entryLen, logBuilderEstimateKvLensSize, logMsgSizeLens_eq l hm]
  split
  · rename_i hv
    rw [varintU32Size_eq _ hv, wrap_eq _ h]
  · rw [wrap_eq _ h]

end VeTls.Wire
