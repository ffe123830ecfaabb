import VeTls.Compress.Lz4Calls
import VeTls.Sign.Request
import VeTls.Worker

/-!
# From the body of a task to the payload of a request

`ve_tls_compress.c`, the compression of a task before it is queued, and the
choice of the bytes that are sent. zlib is not part of the repository: what its
calls answer is given with the memory they get. A buffer of the pool and one
from the allocator hold anything at first.
-/

set_option autoImplicit false

namespace VeTls.Payload

open VeTls.Wire (Bytes)
open VeTls.Sign (text toLower)
open VeTls.Checked
open VeTls.Lz4 (compressDefault compressBound safeLength maxInputSize)

section Source

def strIeq : Bytes → Bytes → Bool
  | a::s, b::t => if toLower a ≠ toLower b then false else strIeq s t
  | s, t => decide (s = [] ∧ t = [])

/-- `strcasecmp(a, b) == 0`. -/
def strcasecmp (a b : Bytes) : Bool := a.map toLower == b.map toLower

inductive ZStatus where
  | streamEnd
  | ok
  | bufError
  | failed
  deriving DecidableEq, Repr

/-- One stream: whether it starts, the bound, and what `Z_FINISH` returns and
writes into so many bytes. -/
structure Zlib where
  init : Bool
  bound : ℕ → ℕ
  deflate : Bytes → ℕ → ZStatus × Bytes

/-- What the library was built with, and the allocator. -/
structure Env where
  zlib : Option Zlib
  haveLz4 : Bool
  malloc : ℕ → Option Bytes

def uintMax : ℕ := 2^32-1

def intMax : ℕ := 2^31-1

def zlibApply (env : Env) (z : Zlib) (inp : Bytes) : ℤ × Bytes :=
  if inp.length > uintMax then (-1, [])
  else if !z.init then (-1, [])
  else if z.bound inp.length > uintMax then (-1, [])
  else match env.malloc (z.bound inp.length) with
    | none => (-1, [])
    | some buf =>
      let (status, out) := z.deflate inp buf.length
      if status ≠ .streamEnd then (-1, []) else (0, out)

def lz4Apply (env : Env) (inp : Bytes) : Run (ℤ × Bytes) :=
  if inp.length > intMax then pure (-1, [])
  else if compressBound inp.length = 0 then pure (-1, [])
  else match env.malloc (compressBound inp.length) with
    | none => pure (-1, [])
    | some buf => do
      let (n, buf) ← compressDefault inp buf buf.length
      return if n = 0 then (-1, []) else (0, buf.take n)

/-- The code and the bytes put out. -/
def compressApply (env : Env) (compressType : Option Bytes) (inp : Bytes) : Run (ℤ × Bytes) :=
  match compressType with
  | none => pure (-2, [])
  | some ct =>
    if strIeq ct (text "none") then pure (-2, [])
    else if inp = [] then pure (-1, [])
    else if strIeq ct (text "zlib") then
      match env.zlib with
      | none => pure (-3, [])
      | some z => pure (zlibApply env z inp)
    else if strIeq ct (text "lz4") then
      if env.haveLz4 then lz4Apply env inp else pure (-3, [])
    else pure (-3, [])

def zlibToBuffer (z : Zlib) (inp out : Bytes) : ℤ × ℕ × Bytes :=
  if inp.length > uintMax ∨ out.length > uintMax then (-1, 0, out)
  else if !z.init then (-1, 0, out)
  else
    let (status, bytes) := z.deflate inp out.length
    let out := bytes++out.drop bytes.length
    match status with
    | .streamEnd => (0, bytes.length, out)
    | .ok => (-4, 0, out)
    | .bufError => (-4, 0, out)
    | .failed => (-1, 0, out)

def lz4ToBuffer (inp out : Bytes) : Run (ℤ × ℕ × Bytes) :=
  if inp.length > intMax ∨ out.length > intMax then pure (-1, 0, out)
  else do
    let (n, out) ← compressDefault inp out out.length
    return if n = 0 then (-4, 0, out) else (0, n, out)

/-- The code, the size and the buffer as it is left. -/
def compressApplyToBuffer (env : Env) (compressType : Option Bytes) (inp out : Bytes) :
    Run (ℤ × ℕ × Bytes) :=
  match compressType with
  | none => pure (-2, 0, out)
  | some ct =>
    if strIeq ct (text "none") then pure (-2, 0, out)
    else if inp = [] ∨ out = [] then pure (-1, 0, out)
    else if strIeq ct (text "zlib") then
      match env.zlib with
      | none => pure (-3, 0, out)
      | some z => pure (zlibToBuffer z inp out)
    else if strIeq ct (text "lz4") then
      if env.haveLz4 then lz4ToBuffer inp out else pure (-3, 0, out)
    else pure (-3, 0, out)

def isNoneCompressType (compressType : Bytes) : Bool :=
  compressType.isEmpty || strcasecmp compressType (text "none")

def isSupportedCodec (compressType : Bytes) : Bool :=
  strcasecmp compressType (text "lz4") || strcasecmp compressType (text "zlib")

def smallPayloadNoCompressThreshold : ℕ := 256

def shouldSkipCompress (compressType : Bytes) (bodySize : ℕ) : Bool :=
  isNoneCompressType compressType ||
    isSupportedCodec compressType && decide (bodySize ≤ smallPayloadNoCompressThreshold)

structure Config where
  compressType : Option Bytes
  aggStrategy : ℤ
  aggMaxCompressedBytesPerRequest : ℤ
  deriving DecidableEq, Repr

/-- Without compressed bytes there is no buffer for them. -/
structure Task where
  body : Bytes
  rawBodySize : ℕ
  precompressed : Bytes
  deriving DecidableEq, Repr

/-- The pooled buffer that could be had, and the answer of the budget. -/
structure Given where
  pool : Option Bytes
  scratchRc : ℤ
  deriving DecidableEq, Repr

structure Prepared where
  rc : ℤ
  errCode : Bytes
  errMsg : Bytes
  task : Task
  deriving DecidableEq, Repr

def Config.codec (cfg : Config) : Bytes := cfg.compressType.getD (text "none")

def clientError : Bytes := text "ClientError"

def checkSize (cfg : Config) (t : Task) : Prepared :=
  let sendSize := if t.precompressed ≠ [] then t.precompressed.length else t.body.length
  if cfg.aggStrategy = 1 ∧ cfg.aggMaxCompressedBytesPerRequest > 0 ∧
      sendSize > cfg.aggMaxCompressedBytesPerRequest.toNat then
    ⟨-1, text "PayloadTooLarge", text "payload too large after compression", t⟩
  else ⟨0, clientError, text "drop", t⟩

/-- The bytes a pooled buffer gives, if they are any. -/
def tryPool (env : Env) (ct body : Bytes) : Option Bytes → Run Bytes
  | none => pure []
  | some buf => do
    let (rc, n, buf) ← compressApplyToBuffer env (some ct) body buf
    return if rc = 0 then buf.take n else []

def compressHeap (env : Env) (cfg : Config) (scratchRc : ℤ) (t : Task) : Run Prepared :=
  if scratchRc ≠ 0 then
    pure ⟨-1, if scratchRc = -2 then text "ProducerClosed"
        else if scratchRc = -3 then text "BufferFullTimeout" else text "BufferFull",
      text "buffer budget exceeded before compression", t⟩
  else do
    let (rc, out) ← compressApply env (some cfg.codec) t.body
    return if rc ≠ 0 ∨ out = [] then
      ⟨-1, clientError,
        if rc = -1 then text "compress failed" else text "unsupported compress_type", t⟩
    else checkSize cfg { t with precompressed := out }

def prepareSendTask (env : Env) (cfg : Config) (given : Given) (t : Task) : Run Prepared :=
  if t.body = [] then pure ⟨-1, clientError, text "invalid task", t⟩
  else if t.precompressed ≠ [] then pure (checkSize cfg t)
  else if shouldSkipCompress cfg.codec t.body.length then pure (checkSize cfg t)
  else do
    let out ← tryPool env cfg.codec t.body given.pool
    let scratchRc :=
      if Worker.compressScratchBound t.body.length = 2^64-1 then -1 else given.scratchRc
    if out ≠ [] then return checkSize cfg { t with precompressed := out }
    else compressHeap env cfg scratchRc t

/-- The bytes to send, the size of the body, and the compress type. -/
def resolvePayload (cfg : Config) (t : Task) : Option (Bytes × ℕ × Bytes) :=
  let raw := if t.rawBodySize > 0 then t.rawBodySize else t.body.length
  let compressed := t.precompressed ≠ []
  let body := if compressed then t.precompressed else t.body
  let ct := if compressed then cfg.codec else text "none"
  if body = [] then none
  else some (body, if raw = 0 then body.length else raw, ct)

end Source

/-- What a receiver makes of a payload and its compress type. -/
def receive (inflate : Bytes → Option Bytes) (compressType payload : Bytes) : Option Bytes :=
  if strcasecmp compressType (text "none") then some payload
  else if strcasecmp compressType (text "zlib") then inflate payload
  else if strcasecmp compressType (text "lz4") then Lz4Block.decode payload
  else none

/-- A finished stream inflates to its input. -/
def Zlib.Inflates (inflate : Bytes → Option Bytes) (z : Zlib) : Prop :=
  ∀ x n, (z.deflate x n).1 = .streamEnd → inflate (z.deflate x n).2 = some x

structure Env.Lawful (inflate : Bytes → Option Bytes) (env : Env) : Prop where
  zlib : ∀ z ∈ env.zlib, z.Inflates inflate
  malloc : ∀ n, ∀ buf ∈ env.malloc n, buf.length = n

section Names

theorem strIeq_eq (a b : Bytes) : strIeq a b = strcasecmp a b := by
  induction a generalizing b with
  | nil => cases b <;> simp [strIeq, strcasecmp]
  | cons c a ih =>
    cases b with
    | nil => simp [strIeq, strcasecmp]
    | cons d b =>
      rw [strIeq]
      by_cases h : toLower c = toLower d
      · rw [if_neg (not_not.mpr h), ih, strcasecmp, strcasecmp, List.map_cons, List.map_cons, h]
        simp
      · rw [if_pos h, strcasecmp, List.map_cons, List.map_cons]
        simp [h]

end Names

section Received

variable {inflate : Bytes → Option Bytes} {env : Env} {ct inp : Bytes}

/-- The receiver takes the branch that the sender took. -/
theorem receive_zlib (hnone : strIeq ct (text "none") = false) (hz : strIeq ct (text "zlib") = true)
    (payload : Bytes) : receive inflate ct payload = inflate payload := by
  rw [strIeq_eq] at hnone hz
  rw [receive, if_neg (by rw [hnone]; exact Bool.false_ne_true), if_pos hz]

theorem receive_lz4 (hnone : strIeq ct (text "none") = false) (hz : strIeq ct (text "zlib") = false)
    (hlz4 : strIeq ct (text "lz4") = true) (payload : Bytes) :
    receive inflate ct payload = Lz4Block.decode payload := by
  rw [strIeq_eq] at hnone hz hlz4
  rw [receive, if_neg (by rw [hnone]; exact Bool.false_ne_true),
    if_neg (by rw [hz]; exact Bool.false_ne_true), if_pos hlz4]

theorem receive_none (payload : Bytes) : receive inflate (text "none") payload = some payload :=
  if_pos (by decide)

theorem zlibApply_received (hl : env.Lawful inflate) {z : Zlib} (hz : env.zlib = some z)
    (h : (zlibApply env z inp).1 = 0) : inflate (zlibApply env z inp).2 = some inp := by
  unfold zlibApply at h ⊢
  split at h
  · exact absurd h (show (-1 : ℤ) ≠ 0 by decide)
  · next h1 =>
    rw [if_neg h1]
    split at h
    · exact absurd h (show (-1 : ℤ) ≠ 0 by decide)
    · next h2 =>
      rw [if_neg h2]
      split at h
      · exact absurd h (show (-1 : ℤ) ≠ 0 by decide)
      · next h3 =>
        rw [if_neg h3]
        cases hm : env.malloc (z.bound inp.length) with
        | none =>
          rw [hm] at h
          exact absurd h (show (-1 : ℤ) ≠ 0 by decide)
        | some buf =>
          rw [hm] at h
          dsimp only at h ⊢
          split at h
          · exact absurd h (show (-1 : ℤ) ≠ 0 by decide)
          · next hend =>
            rw [if_neg hend]
            exact hl.zlib z hz inp buf.length (not_not.mp hend)

theorem lz4Apply_meets (hl : env.Lawful inflate) (inp : Bytes) :
    Meets (fun _ => False) (lz4Apply env inp)
      (fun r => r.1 = 0 → Lz4Block.decode r.2 = some inp) := by
  unfold lz4Apply
  split
  · exact fun h => absurd h (show (-1 : ℤ) ≠ 0 by decide)
  · split
    · exact fun h => absurd h (show (-1 : ℤ) ≠ 0 by decide)
    · next hbound =>
      have hsize : inp.length ≤ maxInputSize := by
        by_contra hno
        exact hbound (if_pos (not_le.mp hno))
      cases hm : env.malloc (compressBound inp.length) with
      | none => exact fun h => absurd h (show (-1 : ℤ) ≠ 0 by decide)
      | some buf =>
        apply Meets.bind (Lz4.call_bound inp buf hsize (hl.malloc _ buf hm).ge)
        rintro ⟨n, dst⟩ ⟨hpos, -, -, hdec⟩
        dsimp only at hpos hdec ⊢
        rw [if_neg (Nat.pos_iff_ne_zero.mp hpos)]
        exact fun _ => hdec

/-- A new buffer is large enough: there is no fault. -/
theorem compressApply_meets (hl : env.Lawful inflate) (ct inp : Bytes) :
    Meets (fun _ => False) (compressApply env (some ct) inp)
      (fun r => r.1 = 0 → receive inflate ct r.2 = some inp) := by
  rw [compressApply]
  split
  · exact fun h => absurd h (by decide)
  · next hnone =>
    rw [Bool.not_eq_true] at hnone
    split
    · exact fun h => absurd h (by decide)
    · split
      · next hz =>
        cases hzlib : env.zlib with
        | none => exact fun h => absurd h (by decide)
        | some z =>
          intro h
          rw [receive_zlib hnone hz]
          exact zlibApply_received hl hzlib h
      · next hz =>
        rw [Bool.not_eq_true] at hz
        split
        · next hlz4 =>
          split
          · refine (lz4Apply_meets hl inp).mono fun r hr h => ?_
            rw [receive_lz4 hnone hz hlz4]
            exact hr h
          · exact fun h => absurd h (by decide)
        · exact fun h => absurd h (by decide)

/-- Only a long source in a small buffer may be written past its end. -/
def MayOverflow (inp : Bytes) (e : Fault) : Prop := e = .write ∧ safeLength < inp.length

theorem zlibToBuffer_received (hl : env.Lawful inflate) {z : Zlib} (hz : env.zlib = some z)
    (out : Bytes) (h : (zlibToBuffer z inp out).1 = 0) :
    inflate ((zlibToBuffer z inp out).2.2.take (zlibToBuffer z inp out).2.1) = some inp := by
  unfold zlibToBuffer at h ⊢
  split at h
  · exact absurd h (show (-1 : ℤ) ≠ 0 by decide)
  · next h1 =>
    rw [if_neg h1]
    split at h
    · exact absurd h (show (-1 : ℤ) ≠ 0 by decide)
    · next h2 =>
      rw [if_neg h2]
      have hback := hl.zlib z hz inp out.length
      cases hd : z.deflate inp out.length with
      | mk status bytes =>
        rw [hd] at h hback
        cases status with
        | streamEnd =>
          rw [List.take_left]
          exact hback rfl
        | ok => exact absurd h (show (-4 : ℤ) ≠ 0 by decide)
        | bufError => exact absurd h (show (-4 : ℤ) ≠ 0 by decide)
        | failed => exact absurd h (show (-1 : ℤ) ≠ 0 by decide)

theorem lz4ToBuffer_meets (inp out : Bytes) : Meets (MayOverflow inp) (lz4ToBuffer inp out)
    (fun r => r.1 = 0 → Lz4Block.decode (r.2.2.take r.2.1) = some inp) := by
  unfold lz4ToBuffer
  split
  · exact fun h => absurd h (show (-1 : ℤ) ≠ 0 by decide)
  · apply Meets.bind (Lz4.call_limited inp out)
    rintro ⟨n, dst⟩ ⟨-, hcase⟩
    dsimp only at hcase ⊢
    split
    · exact fun h => absurd h (show (-4 : ℤ) ≠ 0 by decide)
    · next hn =>
      rcases hcase with h0 | ⟨-, b, -, -, -, hdec⟩
      · exact absurd h0 hn
      · exact fun _ => hdec

theorem compressApplyToBuffer_meets (hl : env.Lawful inflate) (ct inp out : Bytes) :
    Meets (MayOverflow inp) (compressApplyToBuffer env (some ct) inp out)
      (fun r => r.1 = 0 → receive inflate ct (r.2.2.take r.2.1) = some inp) := by
  rw [compressApplyToBuffer]
  split
  · exact fun h => absurd h (show (-2 : ℤ) ≠ 0 by decide)
  · next hnone =>
    rw [Bool.not_eq_true] at hnone
    split
    · exact fun h => absurd h (show (-1 : ℤ) ≠ 0 by decide)
    · split
      · next hz =>
        cases hzlib : env.zlib with
        | none => exact fun h => absurd h (show (-3 : ℤ) ≠ 0 by decide)
        | some z =>
          intro h
          rw [receive_zlib hnone hz]
          exact zlibToBuffer_received hl hzlib out h
      · next hz =>
        rw [Bool.not_eq_true] at hz
        split
        · next hlz4 =>
          split
          · refine (lz4ToBuffer_meets inp out).mono fun r hr h => ?_
            rw [receive_lz4 hnone hz hlz4]
            exact hr h
          · exact fun h => absurd h (show (-3 : ℤ) ≠ 0 by decide)
        · exact fun h => absurd h (show (-3 : ℤ) ≠ 0 by decide)

theorem tryPool_meets (hl : env.Lawful inflate) (ct body : Bytes) (pool : Option Bytes) :
    Meets (MayOverflow body) (tryPool env ct body pool)
      (fun out => out ≠ [] → receive inflate ct out = some body) := by
  cases pool with
  | none => exact fun h => absurd rfl h
  | some buf =>
    rw [tryPool]
    apply Meets.bind (compressApplyToBuffer_meets hl ct body buf)
    rintro ⟨rc, n, out⟩ hr
    dsimp only at hr ⊢
    split
    · next h => exact fun _ => hr h
    · exact fun h => absurd rfl h

/-- What a prepared task may carry. -/
def Carries (inflate : Bytes → Option Bytes) (cfg : Config) (t t' : Task) : Prop :=
  t'.body = t.body ∧ t'.rawBodySize = t.rawBodySize ∧ t.body ≠ [] ∧
    (t'.precompressed ≠ [] → receive inflate cfg.codec t'.precompressed = some t.body)

theorem checkSize_task (cfg : Config) (t : Task) : (checkSize cfg t).task = t := by
  unfold checkSize
  dsimp only
  split_ifs <;> rfl

theorem compressHeap_meets (hl : env.Lawful inflate) (cfg : Config) (scratchRc : ℤ) (t : Task)
    (hbody : t.body ≠ []) :
    Meets (MayOverflow t.body) (compressHeap env cfg scratchRc t)
      (fun p => p.rc = 0 → Carries inflate cfg t p.task) := by
  unfold compressHeap
  split
  · exact fun h => absurd h (show (-1 : ℤ) ≠ 0 by decide)
  · obtain ⟨r, hrun, hr⟩ := (compressApply_meets hl cfg.codec t.body).result fun _ h => h
    rw [hrun, ok_bind]
    dsimp only
    split
    · exact fun h => absurd h (show (-1 : ℤ) ≠ 0 by decide)
    · next hok =>
      rw [not_or, not_not] at hok
      rintro -
      rw [checkSize_task]
      exact ⟨rfl, rfl, hbody, fun _ => hr hok.1⟩

theorem prepareSendTask_meets (hl : env.Lawful inflate) (cfg : Config) (given : Given) (t : Task)
    (hfresh : t.precompressed = []) :
    Meets (MayOverflow t.body) (prepareSendTask env cfg given t)
      (fun p => p.rc = 0 → Carries inflate cfg t p.task) := by
  unfold prepareSendTask
  split
  · exact fun h => absurd h (show (-1 : ℤ) ≠ 0 by decide)
  · next hbody =>
    rw [if_neg (not_not.mpr hfresh)]
    split
    · rintro -
      rw [checkSize_task]
      exact ⟨rfl, rfl, hbody, fun h => absurd hfresh h⟩
    · apply Meets.bind (tryPool_meets hl cfg.codec t.body given.pool)
      intro out hout
      dsimp only
      by_cases hne : out ≠ []
      · rw [if_pos hne]
        rintro -
        rw [checkSize_task]
        exact ⟨rfl, rfl, hbody, fun _ => hout hne⟩
      · rw [if_neg hne]
        exact compressHeap_meets hl cfg _ t hbody

theorem resolvePayload_received {cfg : Config} {t t' : Task} (h : Carries inflate cfg t t') :
    ∃ payload ct, resolvePayload cfg t' = some (payload,
        if t.rawBodySize > 0 then t.rawBodySize else t.body.length, ct) ∧ payload ≠ [] ∧
      receive inflate ct payload = some t.body := by
  obtain ⟨hbody, hraw, hne, hcomp⟩ := h
  have hpos : (if t.rawBodySize > 0 then t.rawBodySize else t.body.length) ≠ 0 := by
    have := List.length_pos_iff.mpr hne
    split <;> omega
  unfold resolvePayload
  rw [hbody, hraw]
  by_cases hz : t'.precompressed = []
  · refine ⟨t.body, text "none", ?_, hne, receive_none t.body⟩
    simp [hz, hne, hpos]
  · refine ⟨t'.precompressed, cfg.codec, ?_, hz, hcomp hz⟩
    simp [hz, hpos]

/-- A task that was prepared without an error is sent as bytes that a receiver
turns back into its body by the compress type beside them. No byte is written
outside a buffer up to a body of `safeLength`, and none is read outside of one
at all. -/
theorem payload_received (inflate : Bytes → Option Bytes) (env : Env) (hl : env.Lawful inflate)
    (cfg : Config) (given : Given) (t : Task) (hfresh : t.precompressed = []) :
    (t.body.length ≤ safeLength → ∃ p, prepareSendTask env cfg given t = .ok p) ∧
      (∀ e, prepareSendTask env cfg given t = .error e → e = .write) ∧
      ∀ p, prepareSendTask env cfg given t = .ok p → p.rc = 0 →
        ∃ payload ct, resolvePayload cfg p.task = some (payload,
            if t.rawBodySize > 0 then t.rawBodySize else t.body.length, ct) ∧ payload ≠ [] ∧
          receive inflate ct payload = some t.body := by
  have hmeets := prepareSendTask_meets hl cfg given t hfresh
  refine ⟨fun hsafe => ?_, fun e he => ?_, fun p hp h0 => ?_⟩
  · obtain ⟨p, hp, -⟩ := hmeets.result fun e he => absurd he.2 (not_lt.mpr hsafe)
    exact ⟨p, hp⟩
  · rw [he] at hmeets
    exact hmeets.1
  · exact resolvePayload_received (hmeets.of_ok hp h0)

/-- A build without zlib. -/
def lz4Only : Env := ⟨none, true, fun n => some (List.replicate n 0)⟩

theorem lz4Only_lawful : lz4Only.Lawful (fun _ => none) where
  zlib := fun z hz => by cases hz
  malloc := fun n buf hbuf => by
    cases hbuf
    exact List.length_replicate

def sixHundred : Task := ⟨List.replicate 600 65, 600, []⟩

theorem payload_received_lz4 :
    (∃ p, prepareSendTask lz4Only ⟨some (text "LZ4"), 0, 0⟩ ⟨none, 0⟩ sixHundred = .ok p) ∧
      ∀ p, prepareSendTask lz4Only ⟨some (text "LZ4"), 0, 0⟩ ⟨none, 0⟩ sixHundred = .ok p →
        p.rc = 0 → ∃ payload ct, resolvePayload ⟨some (text "LZ4"), 0, 0⟩ p.task = some (payload,
            if sixHundred.rawBodySize > 0 then sixHundred.rawBodySize else sixHundred.body.length,
            ct) ∧ payload ≠ [] ∧ receive (fun _ => none) ct payload = some sixHundred.body :=
  have h := payload_received (fun _ => none) lz4Only lz4Only_lawful ⟨some (text "LZ4"), 0, 0⟩
    ⟨none, 0⟩ sixHundred rfl
  ⟨h.1 (by rw [sixHundred, List.length_replicate, safeLength]; omega), h.2.2⟩

end Received

section Pipeline

/-- The configuration that the worker of the pipeline sees. -/
structure Seen (cfg : Config) (seen : VeTls.Config) : Prop where
  codec : isNoneCompressType cfg.codec = true ∨ isSupportedCodec cfg.codec = true
  none : seen.compressNone = isNoneCompressType cfg.codec
  strategy : seen.aggStrategy = cfg.aggStrategy
  limit : seen.aggMaxCompressedBytesPerRequest = cfg.aggMaxCompressedBytesPerRequest

def answer (out : Bytes) : Option ℕ := if out ≠ [] then some out.length else none

/-- The task that the pipeline's worker has in hand, and the answers it gets. -/
structure Mirrors (env : Env) (cfg : Config) (given : Given) (t : Task) (job : Job)
    (i : Worker.Input) : Prop where
  body : job.task.bodySize = t.body.length
  fresh : job.task.precompressedSize = 0
  pooled : ∀ out, tryPool env cfg.codec t.body given.pool = .ok out → i.pooled = answer out
  compressed : ∀ r, compressApply env (some cfg.codec) t.body = .ok r →
    i.compressed = if r.1 = 0 then answer r.2 else none

/-- With a pooled buffer of no use the task is compressed into a new one. -/
def workerHeap (seen : VeTls.Config) (i : Worker.Input) (scratchOk : Bool) : Worker.Pc → Worker.Pc
  | .scratchLock job => if scratchOk then Worker.compressDone seen i job else .drop job
  | pc => pc

/-- The worker's steps from the task to its compressed size. -/
def workerPrepare (seen : VeTls.Config) (i : Worker.Input) (scratchOk : Bool) (job : Job) :
    Worker.Pc := workerHeap seen i scratchOk (Worker.prepare seen i job)

/-- A prepared task with so many compressed bytes, or a dropped one. -/
def Result (seen : VeTls.Config) (job : Job) (p : Prepared) (pc : Worker.Pc) : Prop :=
  if p.rc = 0 then
    pc = if seen.fastSend then .sendLock (Worker.setCompressed p.task.precompressed.length job)
      else .keyReserve (Worker.setCompressed p.task.precompressed.length job)
  else ∃ job', pc = .drop job'

variable {env : Env} {cfg : Config} {seen : VeTls.Config} {given : Given} {t : Task} {job : Job}
  {i : Worker.Input}

theorem shouldSkip_seen (hs : Seen cfg seen) (n : ℕ) :
    Worker.shouldSkipCompress seen n = shouldSkipCompress cfg.codec n := by
  rw [Worker.shouldSkipCompress, shouldSkipCompress, hs.none, smallPayloadNoCompressThreshold]
  rcases hs.codec with h | h
  · simp [h]
  · simp [h]

theorem checkSize_prepared (hs : Seen cfg seen) (out : Bytes)
    (hbody : job.task.bodySize = t.body.length) :
    Result seen job (checkSize cfg { t with precompressed := out })
      (Worker.prepared seen (Worker.setCompressed out.length job)) := by
  have hsize : Worker.sendSize (Worker.setCompressed out.length job).task =
      if out ≠ [] then out.length else t.body.length := by
    rw [Worker.sendSize, Worker.setCompressed]
    by_cases h : out = []
    · simp [h, hbody]
    · simp [h, List.length_pos_iff]
  have hlarge : Worker.tooLarge seen (Worker.setCompressed out.length job).task = true ↔
      cfg.aggStrategy = 1 ∧ cfg.aggMaxCompressedBytesPerRequest > 0 ∧
        (if out ≠ [] then out.length else t.body.length) >
          cfg.aggMaxCompressedBytesPerRequest.toNat := by
    rw [Worker.tooLarge, hsize, hs.strategy, hs.limit, Bool.and_eq_true, Bool.and_eq_true,
      decide_eq_true_eq, decide_eq_true_eq, decide_eq_true_eq, and_assoc]
  unfold Result checkSize Worker.prepared
  dsimp only
  by_cases h : Worker.tooLarge seen (Worker.setCompressed out.length job).task = true
  · rw [if_pos (hlarge.mp h), if_pos h, if_neg (show (-1 : ℤ) ≠ 0 by decide)]
    exact ⟨_, rfl⟩
  · rw [if_neg (fun h' => h (hlarge.mpr h')), if_neg h, if_pos rfl]

theorem workerHeap_prepared (scratchOk : Bool) :
    workerHeap seen i scratchOk (Worker.prepared seen job) = Worker.prepared seen job := by
  unfold Worker.prepared
  split_ifs <;> rfl

theorem setCompressed_zero (h : job.task.precompressedSize = 0) :
    Worker.setCompressed 0 job = job := by
  obtain ⟨task, bytes⟩ := job
  obtain ⟨⟩ := task
  cases h
  rfl

theorem compressHeap_refines (hs : Seen cfg seen) (hm : Mirrors env cfg given t job i)
    (scratchRc : ℤ) (p : Prepared) (hp : compressHeap env cfg scratchRc t = .ok p) :
    Result seen job p (if scratchRc = 0 then Worker.compressDone seen i job else .drop job) := by
  unfold compressHeap at hp
  by_cases hscratch : scratchRc = 0
  · rw [if_neg (not_not.mpr hscratch)] at hp
    rw [if_pos hscratch]
    cases hrun : compressApply env (some cfg.codec) t.body with
    | error e =>
      rw [hrun] at hp
      cases hp
    | ok r =>
      have hanswer := hm.compressed r hrun
      rw [hrun, ok_bind] at hp
      obtain rfl := Except.ok.inj hp
      rw [Worker.compressDone, hanswer]
      by_cases hfail : r.1 ≠ 0 ∨ r.2 = []
      · rw [if_pos hfail, Result, if_neg (show (-1 : ℤ) ≠ 0 by decide)]
        refine ⟨job, ?_⟩
        rcases hfail with h | h
        · rw [if_neg h]
        · by_cases h0 : r.1 = 0
          · rw [if_pos h0, h]
            rfl
          · rw [if_neg h0]
      · obtain ⟨h0, hne⟩ := not_or.mp hfail
        rw [if_neg hfail, if_pos (not_not.mp h0), answer, if_pos hne]
        dsimp only
        rw [if_pos (List.length_pos_iff.mpr hne)]
        exact checkSize_prepared hs r.2 hm.body
  · rw [if_pos hscratch] at hp
    obtain rfl := Except.ok.inj hp
    rw [if_neg hscratch, Result, if_neg (show (-1 : ℤ) ≠ 0 by decide)]
    exact ⟨job, rfl⟩

def threeBytes : Task := ⟨[1, 2, 3], 3, []⟩

def threeBytesJob : Job :=
  ⟨{ bodySize := 3, precompressedSize := 0, rawBodySize := 3, logCount := 1, earliest := 0
     latest := 0, batchBytes := 3, startId := 1, endId := 1, hashKey := [], raw := false
     no := 0, ids := [1] }, none⟩

theorem threeBytes_compressed :
    compressApply lz4Only (some (text "lz4")) [1, 2, 3] = .ok (0, [48, 1, 2, 3]) := by rfl

end Pipeline

end VeTls.Payload
