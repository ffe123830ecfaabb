import VeTls.Proto.Growth

/-!
# The log builder over arrays of lengths

A log entry is sized from two arrays of lengths, room is reserved for that
size, and the entry is then written without further tests. All sums of the
sizes are `size_t`. The bytes that are written count as a natural number.
-/

set_option autoImplicit false

namespace VeTls.Lens

open VeTls.Wire (Bytes wrap uint32Max varintU64Size varintU32Size varintU64Pack keyU32Size
  logContentMsgSize logContentFieldSize nsBytes)
open VeTls.Doubling VeTls.Growth

section Source

/-- A byte is cut off a word of 32 bits at a time, at most four times. -/
def varintU32Pack (v : ℕ) : Bytes :=
  if v ≥ 0x80 then
    UInt8.ofNat (v ||| 0x80)::
      let v := v >>> 7
      if v ≥ 0x80 then
        UInt8.ofNat (v ||| 0x80)::
          let v := v >>> 7
          if v ≥ 0x80 then
            UInt8.ofNat (v ||| 0x80)::
              let v := v >>> 7
              if v ≥ 0x80 then [UInt8.ofNat (v ||| 0x80), UInt8.ofNat (v >>> 7)]
              else [UInt8.ofNat v]
          else [UInt8.ofNat v]
      else [UInt8.ofNat v]
  else [UInt8.ofNat v]

def varintPack (v : ℕ) : Bytes := if v ≤ uint32Max then varintU32Pack v else varintU64Pack v

/-- What the builder is given: `keys i` and `values i` are the memory at the
two pointers of a pair, and an array of lengths may be the null pointer. -/
structure KvArgs where
  timeMs : ℤ
  timeNs : ℕ
  hasTimeNs : Bool
  keys : ℕ → ℕ → UInt8
  values : ℕ → ℕ → UInt8
  keyLens : Option (ℕ → ℕ)
  valLens : Option (ℕ → ℕ)
  kvCount : ℕ

namespace KvArgs

def klen (a : KvArgs) (i : ℕ) : ℕ := a.keyLens.elim 0 fun lens => lens i

def vlen (a : KvArgs) (i : ℕ) : ℕ := a.valLens.elim 0 fun lens => lens i

def normal (a : KvArgs) : KvArgs :=
  if a.timeMs ≤ 0 then { a with timeMs := 0, hasTimeNs := false, timeNs := 0 } else a

end KvArgs

def logMsgSizeLens (a : KvArgs) : ℕ :=
  let timeMs := if a.timeMs ≤ 0 then 0 else a.timeMs
  let hasTimeNs := if a.timeMs ≤ 0 then false else a.hasTimeNs
  let n := (List.range a.kvCount).foldl
    (fun n i => wrap (n+logContentFieldSize (a.klen i) (a.vlen i)))
    (keyU32Size 1 0+varintU64Size timeMs.toNat)
  if hasTimeNs then wrap (n+(keyU32Size 3 5+4)) else n

def logBuilderEstimateKvLensSize (a : KvArgs) : ℕ :=
  let msgSize := logMsgSizeLens a
  if msgSize ≤ uint32Max then wrap (1+varintU32Size msgSize+msgSize)
  else wrap (1+varintU64Size msgSize+msgSize)

/-- What a `memcpy` of `n` bytes reads. -/
def memory (p : ℕ → UInt8) (n : ℕ) : Bytes := (List.range n).map p

def contentWrites (a : KvArgs) (i : ℕ) : Bytes :=
  0x12::varintPack (logContentMsgSize (a.klen i) (a.vlen i)) ++
    0x0A::varintPack (a.klen i) ++ memory (a.keys i) (a.klen i) ++
    0x12::varintPack (a.vlen i) ++ memory (a.values i) (a.vlen i)

/-- The bytes that are written for arguments with a normal time. -/
def entryWrites (a : KvArgs) : Bytes :=
  0x0A::varintPack (logMsgSizeLens a) ++ (0x08::varintPack a.timeMs.toNat ++
    (List.range a.kvCount).flatMap (contentWrites a) ++
    (if a.hasTimeNs then nsBytes a.timeNs else []))

structure GroupBuilder where
  buf : Buf
  logCount : ℤ
  earliest : ℤ
  latest : ℤ
  startId : ℤ
  endId : ℤ
  lastTimeMs : ℤ
  lastTimeNs : ℕ
  lastHasTimeNs : Bool

/-- The piece is copied behind the logs, and the length of the logs is
computed from the two pointers. -/
def GroupBuilder.extend (b : GroupBuilder) (piece : Bytes) : GroupBuilder :=
  { b with buf := { b.buf.write piece with len := wrap (b.buf.len+piece.length) } }

/-- Room for `need` bytes in all, and then what `f` does. -/
def GroupBuilder.withRoom (mem : Realloc UInt8) (rounds : ℕ) (b : GroupBuilder) (need : ℕ)
    (f : GroupBuilder → GroupBuilder) : Outcome GroupBuilder :=
  match bytesReserve mem rounds b.buf need with
  | .running => .running
  | .ret rc buf =>
    if rc ≠ 0 then .ret (-1) { b with buf := buf } else .ret 0 (f { b with buf := buf })

/-- The entry is written and counted. -/
def GroupBuilder.enter (id : ℤ) (a : KvArgs) (b : GroupBuilder) : GroupBuilder :=
  { b.extend (entryWrites a) with
    logCount := b.logCount+1
    earliest := if a.timeMs > 0 ∧ (b.earliest = 0 ∨ a.timeMs < b.earliest) then a.timeMs
      else b.earliest
    latest := if a.timeMs > 0 ∧ (b.latest = 0 ∨ a.timeMs > b.latest) then a.timeMs else b.latest
    startId := if b.startId = 0 then id else b.startId
    endId := id
    lastTimeMs := a.timeMs
    lastTimeNs := a.timeNs
    lastHasTimeNs := a.hasTimeNs }

def logBuilderAddKvLens (mem : Realloc UInt8) (rounds : ℕ) (b : GroupBuilder) (id : ℤ)
    (args : KvArgs) : Outcome GroupBuilder :=
  let a := args.normal
  let msgSize := logMsgSizeLens a
  let entrySize := logBuilderEstimateKvLensSize a
  if msgSize = sizeMax ∨ entrySize < msgSize ∨ b.buf.len > sizeMax-entrySize then .ret (-1) b
  else b.withRoom mem rounds (wrap (b.buf.len+entrySize)) (.enter id a)

/-- A batch of logs, with its memory or the null pointer. -/
structure AppendArgs where
  logs : Option (ℕ → UInt8)
  logsLen : ℕ
  logCount : ℤ
  earliest : ℤ
  latest : ℤ
  startId : ℤ
  endId : ℤ
  lastTimeMs : ℤ
  lastTimeNs : ℕ
  lastHasTimeNs : Bool

/-- The logs of the batch are copied and counted. -/
def GroupBuilder.merge (t : AppendArgs) (logs : ℕ → UInt8) (b : GroupBuilder) : GroupBuilder :=
  { b.extend (memory logs t.logsLen) with
    logCount := b.logCount+t.logCount
    earliest := if t.earliest > 0 ∧ (b.earliest = 0 ∨ t.earliest < b.earliest) then t.earliest
      else b.earliest
    latest := if t.latest > 0 ∧ t.latest > b.latest then t.latest else b.latest
    startId := if b.startId = 0 ∨ t.startId < b.startId then t.startId else b.startId
    endId := if t.endId > b.endId then t.endId else b.endId
    lastTimeMs := t.lastTimeMs
    lastTimeNs := t.lastTimeNs
    lastHasTimeNs := t.lastHasTimeNs }

def logBuilderAppend (mem : Realloc UInt8) (rounds : ℕ) (b : GroupBuilder) (t : AppendArgs) :
    Outcome GroupBuilder :=
  match t.logs with
  | none => .ret (-1) b
  | some logs =>
    if t.logsLen = 0 ∨ t.logCount ≤ 0 then .ret (-1) b
    else b.withRoom mem rounds (wrap (b.buf.len+t.logsLen)) (.merge t logs)

end Source

section Sizes

def contentMsgLen (klen vlen : ℕ) : ℕ :=
  1+varintU64Size klen+klen+(1+varintU64Size vlen+vlen)

def contentLen (klen vlen : ℕ) : ℕ :=
  1+varintU64Size (contentMsgLen klen vlen)+contentMsgLen klen vlen

def msgLen (a : KvArgs) : ℕ :=
  1+varintU64Size a.timeMs.toNat+((List.range a.kvCount).map fun i =>
    contentLen (a.klen i) (a.vlen i)).sum+(if a.hasTimeNs ∧ 0 < a.timeMs then 5 else 0)

/-- The encoded size as a natural number. -/
def entryLen (a : KvArgs) : ℕ := 1+varintU64Size (msgLen a)+msgLen a

end Sizes

/-- The log whose strings are what is behind the pointers. -/
def KvArgs.log (a : KvArgs) : Wire.KvLog :=
  ⟨a.timeMs, a.timeNs, a.hasTimeNs, (List.range a.kvCount).map fun i =>
    (memory (a.keys i) (a.klen i), memory (a.values i) (a.vlen i))⟩

@[simp] theorem memory_length (p : ℕ → UInt8) (n : ℕ) : (memory p n).length = n := by
  rw [memory, List.length_map, List.length_range]

section Varints

theorem or_low (q r : ℕ) (h : r < 128) : 128*q ||| r = 128*q+r :=
  (@Nat.two_pow_add_eq_or_of_lt 7 r h q).symm

/-- Only the low seven bits of a byte that is not the last one are its own. -/
theorem or_high (v : ℕ) : UInt8.ofNat (v ||| 0x80) = UInt8.ofNat (v % 128+0x80) := by
  have hodd : (v/128 ||| 1) % 2 = 1 := by
    rw [show (2:ℕ) = 2^1 from rfl, Nat.or_mod_two_pow]
    rcases Nat.mod_two_eq_zero_or_one (v/128) with h | h <;> simp [h]
  have hmul : 128*(v/128) ||| 128 = 128*(v/128 ||| 1) := by
    have hshift : (v/128 ||| 1) <<< 7 = (v/128) <<< 7 ||| 1 <<< 7 := Nat.shiftLeft_or_distrib
    rw [Nat.mul_comm 128, Nat.mul_comm 128]
    simpa only [Nat.shiftLeft_eq, Nat.reducePow, Nat.one_mul] using hshift.symm
  have hor : v ||| 128 = 128*(v/128 ||| 1)+v % 128 := by
    have hr : v % 128 < 128 := Nat.mod_lt v (by decide)
    calc v ||| 128 = 128*(v/128)+v % 128 ||| 128 := by rw [Nat.div_add_mod]
      _ = 128*(v/128) ||| 128 ||| v % 128 := by
        rw [← or_low _ _ hr, Nat.or_assoc, Nat.or_comm (v % 128), ← Nat.or_assoc]
      _ = 128*(v/128 ||| 1)+v % 128 := by rw [hmul, or_low _ _ hr]
  apply UInt8.toNat_inj.mp
  rw [UInt8.toNat_ofNat', UInt8.toNat_ofNat', hor]
  omega

theorem varintU32Pack_eq (v : ℕ) (h : v ≤ uint32Max) : varintU32Pack v = varintU64Pack v := by
  have hshift : ∀ x : ℕ, x >>> 7 = x/128 := fun x => Nat.shiftRight_eq_div_pow x 7
  unfold uint32Max at h
  have hlast : v/128/128/128/128 < 128 := by omega
  unfold varintU32Pack varintU64Pack
  simp only [hshift, or_high, Wire.varintU64PackGo, ge_iff_le, ← not_lt, hlast, if_true]
  by_cases h₁ : v < 128
  · simp only [h₁, not_true, if_true, if_false]
  · by_cases h₂ : v/128 < 128
    · simp only [h₁, h₂, not_false_iff, not_true, if_true, if_false]
    · by_cases h₃ : v/128/128 < 128
      · simp only [h₁, h₂, h₃, not_false_iff, not_true, if_true, if_false]
      · by_cases h₄ : v/128/128/128 < 128
        · simp only [h₁, h₂, h₃, h₄, not_false_iff, not_true, if_true, if_false]
        · simp only [h₁, h₂, h₃, h₄, not_false_iff, if_true, if_false]

theorem varintPack_fuel (k v : ℕ) (h : v < 2^(7*(k+1))) :
    Wire.varintU64PackGo (k+1) v = Wire.varintU64PackGo k v := by
  induction k generalizing v with
  | zero =>
    have hv : v < 128 := by simpa using h
    simp [Wire.varintU64PackGo, hv]
  | succ k ih =>
    have hd : v/128 < 2^(7*(k+1)) := by
      rw [Nat.div_lt_iff_lt_mul (by decide)]
      calc v < 2^(7*(k+1+1)) := h
        _ = 2^(7*(k+1))*128 := by rw [show 7*(k+1+1) = 7*(k+1)+7 by ring, pow_add]; norm_num
    rw [Wire.varintU64PackGo, ih (v/128) hd]
    rfl

/-- The two 64-bit loops, which are left after at most nine shifts. -/
theorem varintU64_loop (v : ℕ) (h : v < 2^64) :
    varintU64Size v = (if v ≥ 0x80 then varintU64Size (v >>> 7)+1 else 1) ∧
    varintU64Pack v = if v ≥ 0x80 then UInt8.ofNat ((v &&& 0x7F) ||| 0x80)::varintU64Pack (v >>> 7)
      else [UInt8.ofNat v] := by
  have hshift : v >>> 7 = v/128 := Nat.shiftRight_eq_div_pow v 7
  have hlow : v &&& 0x7F = v % 128 := Nat.and_two_pow_sub_one_eq_mod v 7
  have hd : v/128 < 2^(7*9) := by omega
  have hsize : varintU64Size (v/128) = Wire.varintU64SizeGo 8 (v/128) := Wire.varintSize_fuel 8 _ hd
  have hpack : varintU64Pack (v/128) = Wire.varintU64PackGo 8 (v/128) := varintPack_fuel 8 _ hd
  rw [hshift, hlow, or_high, Nat.mod_mod, hsize, hpack]
  constructor
  · rw [varintU64Size, Wire.varintU64SizeGo]
    split <;> rename_i hv
    · rw [if_neg (not_le.mpr hv)]
    · rw [if_pos (not_lt.mp hv)]
  · rw [varintU64Pack, Wire.varintU64PackGo]
    split <;> rename_i hv
    · rw [if_neg (not_le.mpr hv)]
    · rw [if_pos (not_lt.mp hv)]

end Varints

section Logs

variable (a : KvArgs)

theorem varintPack_wire (v : ℕ) : varintPack v = Wire.varintPack v := by
  unfold varintPack Wire.varintPack
  split
  · rename_i hv
    have hv' : v < 2^32 := by unfold uint32Max at hv; omega
    have hb : ∀ k, 5 ≤ k → v < 2^(7*k) := fun k hk =>
      lt_of_lt_of_le hv' (Nat.pow_le_pow_right (by decide) (by omega))
    rw [varintU32Pack_eq v hv, Wire.varintU32Pack, varintU64Pack]
    rw [varintPack_fuel 8 v (hb 9 (by omega)), varintPack_fuel 7 v (hb 8 (by omega)),
      varintPack_fuel 6 v (hb 7 (by omega)), varintPack_fuel 5 v (hb 6 (by omega)),
      varintPack_fuel 4 v (hb 5 (by omega))]
  · rfl

theorem time_log : (if a.timeMs ≤ 0 then 0 else a.timeMs).toNat = a.log.time := by
  show _ = a.timeMs.toNat
  split <;> omega

theorem ns_log : (if a.timeMs ≤ 0 then false else a.hasTimeNs) = a.log.ns := by
  show _ = (a.hasTimeNs && decide (0 < a.timeMs))
  split <;> rename_i h
  · simp [not_lt.mpr h]
  · simp [not_le.mp h]

theorem logMsgSizeLens_log : logMsgSizeLens a = Wire.logMsgSizeLens a.log := by
  unfold logMsgSizeLens Wire.logMsgSizeLens
  simp only [time_log, ns_log, KvArgs.log, List.foldl_map, memory_length, Nat.add_assoc]

theorem logBuilderEstimateKvLensSize_log :
    logBuilderEstimateKvLensSize a = Wire.logBuilderEstimateKvLensSize a.log := by
  unfold logBuilderEstimateKvLensSize Wire.logBuilderEstimateKvLensSize
  rw [logMsgSizeLens_log]

theorem entryLen_log : entryLen a = Wire.entryLen a.log := by
  have hns : (a.hasTimeNs = true ∧ 0 < a.timeMs) ↔ a.log.ns = true := by
    show _ ↔ (a.hasTimeNs && decide (0 < a.timeMs)) = true
    rw [Bool.and_eq_true, decide_eq_true_iff]
  have hsum : ((List.range a.kvCount).map fun i => contentLen (a.klen i) (a.vlen i)) =
      a.log.kvs.map Wire.contentLen := by
    simp only [KvArgs.log, List.map_map]
    apply List.map_congr_left
    intro i _
    simp only [Function.comp_apply, contentLen, contentMsgLen, Wire.contentLen,
      Wire.contentMsgLen, memory_length]
  have hmsg : msgLen a = Wire.msgLen a.log := by
    rw [msgLen, Wire.msgLen, hsum, if_congr hns rfl rfl]
    rfl
  rw [entryLen, Wire.entryLen, hmsg]

theorem normal_log : a.normal.log.kvs = a.log.kvs ∧ a.normal.log.time = a.log.time ∧
    a.normal.log.ns = a.log.ns := by
  unfold KvArgs.normal
  split
  · rename_i h
    refine ⟨rfl, ?_, ?_⟩
    · show (0:ℤ).toNat = a.timeMs.toNat
      omega
    · show (false && decide ((0:ℤ) < 0)) = (a.hasTimeNs && decide (0 < a.timeMs))
      simp [not_lt.mpr h]
  · exact ⟨rfl, rfl, rfl⟩

theorem logMsgSizeLens_normal : logMsgSizeLens a.normal = logMsgSizeLens a := by
  obtain ⟨hkvs, htime, hns⟩ := normal_log a
  rw [logMsgSizeLens_log, logMsgSizeLens_log, Wire.logMsgSizeLens, Wire.logMsgSizeLens, hkvs, htime,
    hns]

theorem logBuilderEstimateKvLensSize_normal :
    logBuilderEstimateKvLensSize a.normal = logBuilderEstimateKvLensSize a := by
  unfold logBuilderEstimateKvLensSize
  rw [logMsgSizeLens_normal]

/-- What is written is the entry of the log. -/
theorem entryWrites_log : entryWrites a.normal = Wire.entryBytes a.log := by
  obtain ⟨hkvs, htime, hns⟩ := normal_log a
  have hcontents : (List.range a.normal.kvCount).flatMap (contentWrites a.normal) =
      a.log.kvs.flatMap Wire.contentBytes := by
    rw [← hkvs]
    simp only [KvArgs.log, List.flatMap_map]
    congr 1
    funext i
    simp only [contentWrites, Wire.contentBytes, memory_length, varintPack_wire]
  have htail : (if a.normal.hasTimeNs then nsBytes a.normal.timeNs else []) =
      if a.log.ns then nsBytes a.log.timeNs else [] := by
    rw [← ns_log]
    unfold KvArgs.normal
    split <;> rfl
  rw [entryWrites, hcontents, htail, varintPack_wire, varintPack_wire, logMsgSizeLens_normal,
    logMsgSizeLens_log, show a.normal.timeMs.toNat = a.log.time from htime]
  rfl

end Logs

section Room

variable (mem : Realloc UInt8) (b : GroupBuilder) (need : ℕ) (f : GroupBuilder → GroupBuilder)

theorem withRoom_answers (hb : b.buf.Valid) (hneed : need ≤ sizeMax) (rounds : ℕ) :
    b.withRoom mem rounds need f = .running ∧ rounds < 64 ∨
      b.withRoom mem rounds need f = .ret (-1) b ∨
      ∃ buf, Answers b.buf need (.ret 0 buf) ∧
        b.withRoom mem rounds need f = .ret 0 (f { b with buf := buf }) := by
  obtain ⟨-, hanswers⟩ := reserveTotal_answers 256 mem b.buf hb (by decide) (by decide) need hneed
  have hsame : bytesReserve mem rounds b.buf need = reserveTotal 256 mem rounds b.buf need := rfl
  unfold GroupBuilder.withRoom
  rw [hsame]
  rcases hanswers rounds with ⟨hrun, hlt⟩ | ha
  · rw [hrun]
    exact .inl ⟨rfl, hlt⟩
  · have ha' := ha
    rcases ha with hfail | ⟨p, cap, hok, -⟩
    · rw [hfail]
      exact .inr (.inl rfl)
    · rw [hok] at ha' ⊢
      exact .inr (.inr ⟨_, ha', rfl⟩)

/-- An allocator that never fails makes room. -/
theorem withRoom_total (hb : b.buf.Valid) (hneed : need ≤ sizeMax)
    (hmem : ∀ block n, (mem.call block n).isSome) (rounds : ℕ) (hr : 64 ≤ rounds) :
    ∃ buf, Answers b.buf need (.ret 0 buf) ∧
      b.withRoom mem rounds need f = .ret 0 (f { b with buf := buf }) := by
  rcases withRoom_answers mem b need f hb hneed rounds with ⟨-, hlt⟩ | hfail | hok
  · omega
  · have hnever : ∀ b', reserveTotal 256 mem rounds b.buf need ≠ .ret (-1) b' := by
      intro b' hret
      unfold reserveTotal at hret
      split at hret
      · cases hret
      · unfold enlarge at hret
        split at hret
        · cases hret
        · rename_i next _
          have hsome := hmem b.buf.data next
          split at hret
          · rename_i hnone
            rw [hnone] at hsome
            cases hsome
          · cases hret
    unfold GroupBuilder.withRoom bytesReserve at hfail
    have hanswer := reserveTotal_ended 256 mem b.buf hb (by decide) (by decide) need hneed rounds hr
    rcases hanswer with hret | ⟨p, cap, hret, -⟩
    · exact absurd hret (hnever _)
    · rw [hret] at hfail
      cases hfail
  · exact hok

/-- What is behind the logs after a copy that had room. -/
theorem extend_contents (hb : b.buf.Valid) (buf : Buf) (ha : Answers b.buf need (.ret 0 buf))
    (piece : Bytes) (h : b.buf.len+piece.length ≤ need) :
    ({ b with buf := buf }.extend piece).buf.len = b.buf.len+piece.length ∧
      ({ b with buf := buf }.extend piece).buf.contents = b.buf.contents++piece := by
  obtain ⟨hroom, hvalid, hlen, -⟩ := ha.done hb
  have hsmall := hvalid.small
  have hcopy := ha.copy hb piece [] (by rwa [List.append_nil])
  rw [List.append_nil] at hcopy
  rcases hcopy with hfail | ⟨b', hret, -, hcontents⟩
  · cases hfail
  · obtain ⟨-, rfl⟩ := Outcome.ret.inj hret
    refine ⟨?_, hcontents⟩
    show wrap (buf.len+piece.length) = b.buf.len+piece.length
    rw [hlen]
    exact Wire.wrap_eq _ (by unfold sizeMax at hsmall; omega)

end Room

/-- The tests between the estimate and the reservation. -/
def Refused (len : ℕ) (a : KvArgs) : Prop :=
  logMsgSizeLens a = sizeMax ∨ logBuilderEstimateKvLensSize a < logMsgSizeLens a ∨
    len > sizeMax-logBuilderEstimateKvLensSize a

instance (len : ℕ) (a : KvArgs) : Decidable (Refused len a) :=
  inferInstanceAs (Decidable (_ ∨ _ ∨ _))

section Add

variable (mem : Realloc UInt8) (b : GroupBuilder) (id : ℤ) (args : KvArgs)

theorem estimate_le : logBuilderEstimateKvLensSize args ≤ sizeMax := by
  have hwrap : ∀ n, wrap n ≤ sizeMax := by
    intro n
    unfold wrap sizeMax
    omega
  unfold logBuilderEstimateKvLensSize
  dsimp only
  split
  · exact hwrap _
  · exact hwrap _

theorem addKvLens_refused (h : Refused b.buf.len args) (rounds : ℕ) :
    logBuilderAddKvLens mem rounds b id args = .ret (-1) b := by
  unfold logBuilderAddKvLens
  dsimp only
  rw [logMsgSizeLens_normal, logBuilderEstimateKvLensSize_normal]
  exact if_pos h

/-- Past the tests the sum is what it seems. -/
theorem addKvLens_eq (h : ¬Refused b.buf.len args) :
    b.buf.len+logBuilderEstimateKvLensSize args ≤ sizeMax ∧
      ∀ rounds, logBuilderAddKvLens mem rounds b id args =
        b.withRoom mem rounds (b.buf.len+logBuilderEstimateKvLensSize args)
          (.enter id args.normal) := by
  have hlen : ¬b.buf.len > sizeMax-logBuilderEstimateKvLensSize args := fun hc => h (.inr (.inr hc))
  have hsize := estimate_le args
  have hfits : b.buf.len+logBuilderEstimateKvLensSize args ≤ sizeMax := by omega
  refine ⟨hfits, fun rounds => ?_⟩
  unfold logBuilderAddKvLens
  dsimp only
  rw [logMsgSizeLens_normal, logBuilderEstimateKvLensSize_normal,
    Wire.wrap_eq _ (by unfold sizeMax at hfits; omega)]
  exact if_neg h

theorem estimate_written (h : entryLen args < 2^64) :
    (entryWrites args.normal).length = logBuilderEstimateKvLensSize args ∧
      logBuilderEstimateKvLensSize args = entryLen args := by
  rw [entryLen_log] at h ⊢
  have hmsg : Wire.msgLen args.log < 2^64 := by
    unfold Wire.entryLen at h
    omega
  rw [entryWrites_log, logBuilderEstimateKvLensSize_log, Wire.logBuilderEstimateKvLensSize_eq _ h,
    Wire.entryBytes_length _ hmsg]
  exact ⟨rfl, rfl⟩

/-- An entry that fits is refused only for want of room. -/
theorem refused_iff (h : entryLen args < 2^64) :
    Refused b.buf.len args ↔ sizeMax < b.buf.len+logBuilderEstimateKvLensSize args := by
  obtain ⟨-, hlen⟩ := estimate_written args h
  have hmsg : logMsgSizeLens args < logBuilderEstimateKvLensSize args := by
    rw [hlen, logMsgSizeLens_log, entryLen_log]
    rw [entryLen_log] at h
    rw [Wire.logMsgSizeLens_eq _ (by unfold Wire.entryLen at h; omega), Wire.entryLen]
    omega
  have hsize := estimate_le args
  unfold Refused
  constructor
  · rintro (hc | hc | hc) <;> omega
  · exact fun hc => .inr (.inr (by omega))

end Add

/-- The estimate is the number of bytes that are appended, the appended bytes
are those of the entry, and a call with enough room and memory succeeds. The
two widths of the varint functions agree. -/
theorem estimate_exact (mem : Realloc UInt8) (b : GroupBuilder) (hb : b.buf.Valid) (id : ℤ)
    (args : KvArgs) (h : entryLen args < 2^64) :
    (∀ v ≤ uint32Max, varintU32Size v = varintU64Size v ∧ varintU32Pack v = varintU64Pack v) ∧
    (entryWrites args.normal).length = logBuilderEstimateKvLensSize args ∧
    (∀ rounds b', logBuilderAddKvLens mem rounds b id args = .ret 0 b' →
      b'.buf.len = b.buf.len+logBuilderEstimateKvLensSize args ∧
      b'.buf.contents = b.buf.contents++entryWrites args.normal) ∧
    (b.buf.len+logBuilderEstimateKvLensSize args ≤ sizeMax →
      (∀ block n, (mem.call block n).isSome) → ∀ rounds ≥ 64, ∃ b',
        logBuilderAddKvLens mem rounds b id args = .ret 0 b') := by
  obtain ⟨hlen, -⟩ := estimate_written args h
  refine ⟨fun v hv => ⟨Wire.varintU32Size_eq v hv, varintU32Pack_eq v hv⟩, hlen, ?_, ?_⟩
  · intro rounds b' hret
    by_cases hrefused : Refused b.buf.len args
    · rw [addKvLens_refused mem b id args hrefused] at hret
      cases hret
    · obtain ⟨hfits, heq⟩ := addKvLens_eq mem b id args hrefused
      rw [heq] at hret
      rcases withRoom_answers mem b _ (.enter id args.normal) hb hfits rounds with
        ⟨hrun, -⟩ | hfail | ⟨buf, ha, hok⟩
      · rw [hrun] at hret
        cases hret
      · rw [hfail] at hret
        cases hret
      · rw [hok] at hret
        obtain ⟨-, rfl⟩ := Outcome.ret.inj hret
        have hext := extend_contents b _ hb buf ha (entryWrites args.normal) (by rw [hlen])
        rw [hlen] at hext
        exact hext
  · intro hfits hmem rounds hr
    have hnot : ¬Refused b.buf.len args := by
      rw [refused_iff b args h]
      omega
    obtain ⟨-, heq⟩ := addKvLens_eq mem b id args hnot
    obtain ⟨buf, -, hok⟩ := withRoom_total mem b _ (.enter id args.normal) hb hfits hmem rounds hr
    exact ⟨_, (heq rounds).trans hok⟩

/-- A builder with ten bytes of logs. -/
def tenLogs : GroupBuilder := ⟨tenOfSixteen, 1, 0, 0, 1, 1, 0, 0, false⟩

/-- One pair with a key of one byte, no array of value lengths and a time
before the epoch. -/
def oneKey : KvArgs := ⟨-3, 8, true, fun _ _ => 65, fun _ _ => 0, some fun _ => 1, none, 1⟩

theorem oneKey_exact : entryLen oneKey = 11 ∧
    (entryWrites oneKey.normal).length = logBuilderEstimateKvLensSize oneKey ∧
    logBuilderEstimateKvLensSize oneKey = 11 ∧
    ∃ b', logBuilderAddKvLens (.always 0) 64 tenLogs 9 oneKey = .ret 0 b' := by
  obtain ⟨-, hlen, -, hok⟩ := estimate_exact (.always 0) tenLogs tenOfSixteen_valid 9 oneKey
    (by decide)
  exact ⟨by decide, hlen, by decide, hok (by decide) (fun _ _ => rfl) 64 le_rfl⟩

/-- The call returns `-1` and changes nothing, or what it writes is not more
than what was reserved behind the logs. -/
def Contained (b : GroupBuilder) (written : ℕ) (f : ℕ → Outcome GroupBuilder) : Prop :=
  ∀ rounds ≥ 64, f rounds = .ret (-1) b ∨
    ∃ b', f rounds = .ret 0 b' ∧ written ≤ b'.buf.cap-b.buf.len

section Guards

variable (b : GroupBuilder)

/-- A reservation for what is written contains it. -/
theorem withRoom_contained (mem : Realloc UInt8) (hb : b.buf.Valid) (need written : ℕ)
    (f : GroupBuilder → GroupBuilder) (hcap : ∀ b, (f b).buf.cap = b.buf.cap)
    (hneed : need ≤ sizeMax) (h : b.buf.len+written ≤ need) :
    Contained b written fun rounds => b.withRoom mem rounds need f := by
  intro rounds hr
  rcases withRoom_answers mem b need f hb hneed rounds with ⟨-, hlt⟩ | hfail | ⟨buf, ha, hok⟩
  · omega
  · exact .inl hfail
  · have hroom := (ha.done hb).1
    refine .inr ⟨_, hok, ?_⟩
    rw [hcap]
    dsimp only
    omega

theorem Contained.ret {written : ℕ} {f : ℕ → Outcome GroupBuilder} {b b' : GroupBuilder}
    (h : Contained b written f) (hret : f 64 = .ret 0 b') : written ≤ b'.buf.cap-b.buf.len := by
  rcases h 64 le_rfl with hfail | ⟨b'', hok, hle⟩
  · rw [hret] at hfail
    cases hfail
  · rw [hret] at hok
    obtain ⟨-, rfl⟩ := Outcome.ret.inj hok
    exact hle

/-- An entry that does not fit into a `size_t` and passes the tests is
written past every block. -/
theorem addKvLens_escapes (hb : b.buf.Valid) (id : ℤ) (args : KvArgs)
    (hbig : ¬entryLen args < 2^64) (hpassed : ¬Refused b.buf.len args) :
    ¬Contained b (entryWrites args.normal).length
      fun rounds => logBuilderAddKvLens (.always 0) rounds b id args := by
  intro h
  obtain ⟨hfits, heq⟩ := addKvLens_eq (.always 0) b id args hpassed
  obtain ⟨buf, ha, hok⟩ := withRoom_total (.always 0) b _ (.enter id args.normal) hb hfits
    (fun _ _ => rfl) 64 le_rfl
  have hsmall := (ha.done hb).2.1.small
  have hwritten : 2^64 ≤ (entryWrites args.normal).length := by
    rw [entryWrites_log]
    rw [entryLen_log] at hbig
    exact Wire.entryBytes_length_ge args.log (not_lt.mp hbig)
  have hle := h.ret ((heq 64).trans hok)
  have hcap : (GroupBuilder.enter id args.normal { b with buf := buf }).buf.cap = buf.cap := rfl
  rw [hcap] at hle
  unfold sizeMax at hsmall
  omega

theorem addKvLens_contained_iff (hb : b.buf.Valid) (id : ℤ) (args : KvArgs) :
    (∀ mem, Contained b (entryWrites args.normal).length
      fun rounds => logBuilderAddKvLens mem rounds b id args) ↔
    entryLen args < 2^64 ∨ Refused b.buf.len args := by
  constructor
  · intro h
    by_contra hnot
    obtain ⟨hbig, hpassed⟩ := not_or.mp hnot
    exact addKvLens_escapes b hb id args hbig hpassed (h (.always 0))
  · rintro h mem rounds hr
    by_cases hrefused : Refused b.buf.len args
    · exact .inl (addKvLens_refused mem b id args hrefused rounds)
    · obtain ⟨hlen, -⟩ := estimate_written args (h.resolve_right hrefused)
      obtain ⟨hfits, heq⟩ := addKvLens_eq mem b id args hrefused
      have hin := withRoom_contained b mem hb _ (entryWrites args.normal).length
        (.enter id args.normal) (fun _ => rfl) hfits (by rw [hlen])
      dsimp only
      rw [heq]
      exact hin rounds hr

theorem append_contained_iff (hb : b.buf.Valid) (t : AppendArgs) (ht : t.logsLen ≤ sizeMax) :
    (∀ mem, Contained b t.logsLen fun rounds => logBuilderAppend mem rounds b t) ↔
    t.logs = none ∨ t.logsLen = 0 ∨ t.logCount ≤ 0 ∨ b.buf.len+t.logsLen ≤ sizeMax := by
  cases hlogs : t.logs with
  | none =>
    refine iff_of_true (fun mem rounds _ => .inl ?_) (.inl rfl)
    simp only [logBuilderAppend, hlogs]
  | some logs =>
    by_cases hnone : t.logsLen = 0 ∨ t.logCount ≤ 0
    · refine iff_of_true (fun mem rounds _ => .inl ?_) (.inr (or_assoc.mp (.inl hnone)))
      simp only [logBuilderAppend, hlogs, if_pos hnone]
    · have heq : ∀ mem rounds, logBuilderAppend mem rounds b t =
          b.withRoom mem rounds (wrap (b.buf.len+t.logsLen)) (.merge t logs) := by
        intro mem rounds
        simp only [logBuilderAppend, hlogs, if_neg hnone]
      simp only [heq, reduceCtorEq, false_or]
      rw [← or_assoc, or_iff_right hnone]
      by_cases hfits : b.buf.len+t.logsLen ≤ sizeMax
      · refine iff_of_true (fun mem => ?_) hfits
        rw [Wire.wrap_eq _ (by unfold sizeMax at hfits; omega)]
        exact withRoom_contained b mem hb _ _ _ (fun _ => rfl) hfits le_rfl
      · refine iff_of_false (fun h => ?_) hfits
        -- the wrapped sum is below the length, so the block stays as it is
        have hlen := hb.fits
        have hsmall := hb.small
        have hwrap : wrap (b.buf.len+t.logsLen) ≤ b.buf.cap := by
          unfold wrap
          unfold sizeMax at ht hfits hsmall
          omega
        have hstay : b.withRoom (.always 0) 64 (wrap (b.buf.len+t.logsLen)) (.merge t logs) =
            .ret 0 (.merge t logs b) := by
          simp only [GroupBuilder.withRoom, bytesReserve, reserveTotal, if_pos hwrap]
          rfl
        have hle := (h (.always 0)).ret hstay
        have hcap : (GroupBuilder.merge t logs b).buf.cap = b.buf.cap := rfl
        rw [hcap] at hle
        omega

/-- Whatever the allocator does, an entry is written inside its reservation
just when it fits into a `size_t` or one of the tests sees that it does not;
a batch just when its length does not wrap around. -/
theorem guards_iff (hb : b.buf.Valid) :
    (∀ id args, (∀ mem, Contained b (entryWrites args.normal).length
        fun rounds => logBuilderAddKvLens mem rounds b id args) ↔
      entryLen args < 2^64 ∨ Refused b.buf.len args) ∧
    ∀ t : AppendArgs, t.logsLen ≤ sizeMax →
      ((∀ mem, Contained b t.logsLen fun rounds => logBuilderAppend mem rounds b t) ↔
        t.logs = none ∨ t.logsLen = 0 ∨ t.logCount ≤ 0 ∨ b.buf.len+t.logsLen ≤ sizeMax) :=
  ⟨addKvLens_contained_iff b hb, append_contained_iff b hb⟩

end Guards

/-- A batch of one log in twenty bytes. -/
def oneBatch : AppendArgs := ⟨some fun _ => 66, 20, 1, 4, 4, 2, 2, 4, 0, false⟩

theorem tenLogs_guarded :
    (∀ mem, Contained tenLogs (entryWrites oneKey.normal).length
      fun rounds => logBuilderAddKvLens mem rounds tenLogs 9 oneKey) ∧
    ∀ mem, Contained tenLogs 20 fun rounds => logBuilderAppend mem rounds tenLogs oneBatch := by
  obtain ⟨hadd, happend⟩ := guards_iff tenLogs tenOfSixteen_valid
  exact ⟨(hadd 9 oneKey).mpr (.inl (by decide)), (happend oneBatch (by decide)).mpr (by decide)⟩

/-- One pair, the length of its key being the largest `size_t`. -/
def endlessKey : KvArgs :=
  ⟨-3, 8, true, fun _ _ => 65, fun _ _ => 0, some fun _ => 2^64-1, none, 1⟩

/-- The sums wrap around to a small entry, and the key is copied whole. -/
theorem endlessKey_unguarded : ¬∀ (mem : Realloc UInt8) (b : GroupBuilder) (id : ℤ) (args : KvArgs),
    b.buf.Valid → Contained b (entryWrites args.normal).length
      fun rounds => logBuilderAddKvLens mem rounds b id args :=
  fun hall => addKvLens_escapes tenLogs tenOfSixteen_valid 9 endlessKey (by decide) (by decide)
    (hall (.always 0) tenLogs 9 endlessKey tenOfSixteen_valid)

end VeTls.Lens
