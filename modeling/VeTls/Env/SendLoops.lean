import VeTls.Config
import VeTls.Sign.Hash

/-!
# The three send loops

A task is sent by `ve_tls_sender_main_fast`, by the rest of
`ve_tls_sender_main`, or by `ve_tls_sender_step`. An attempt and the report
at the end are the same text in all three; the last two have gates around
them. The environment answers the n-th call of each kind; a gate that is
enabled may do anything, also sleep. A loop is followed for a number of
attempts, since it may never end.
-/

set_option autoImplicit false

namespace VeTls.SendLoops

open VeTls.Wire (Bytes)
open VeTls.Sign (text)

inductive TransportKind where
  | none
  | generic
  | curl
  deriving DecidableEq, Repr

structure SendError where
  httpCode : ℤ
  errorCode : Option Bytes
  errorMessage : Option Bytes
  requestId : Option Bytes
  transportKind : TransportKind
  transportCode : ℤ
  retryable : Bool
  deriving DecidableEq, Repr

def clientError (code message : String) : SendError :=
  ⟨-1, some (text code), some (text message), none, .generic, 0, false⟩

/-- `ve_tls_error_build_message`. -/
def SendError.buildMessage (e : SendError) : Option Bytes :=
  if e.httpCode = 200 then none
  else if e.httpCode > 0 then
    match e.errorCode, e.errorMessage with
    | some c, some m => some (text "HTTP "++text (toString e.httpCode)++[32]++c++text ": "++m)
    | _, some m => some m
    | _, none => some (text "non-200 response")
  else some (e.errorMessage.getD (text "client error"))

/-- The task as it was taken from a queue; the pointers to the two bodies may
be null. -/
structure Task where
  body : Option Bytes
  precompressed : Option Bytes
  rawBodySize : ℕ
  batchBytes : ℕ
  logCount : ℤ
  earliest : ℤ
  latest : ℤ
  startId : ℤ
  endId : ℤ
  hashKey : Option Bytes
  deriving DecidableEq, Repr

structure Payload where
  body : Bytes
  rawBodySize : ℕ
  compressType : Bytes
  deriving DecidableEq, Repr

def resolvePayload (compressType : Option Bytes) (t : Task) : Option Payload :=
  let raw := if t.rawBodySize > 0 then t.rawBodySize else (t.body.getD []).length
  let pre := t.precompressed.filter fun b => decide (b ≠ [])
  let body := pre.or t.body
  let type := if pre.isSome then compressType.getD (text "none") else text "none"
  body.bind fun b =>
    if b = [] then none else some ⟨b, if raw = 0 then b.length else raw, type⟩

structure Credentials where
  accessKeyId : Bytes
  accessKeySecret : Bytes
  securityToken : Option Bytes
  deriving DecidableEq, Repr

/-- The arguments of `ve_tls_send_put_logs`. -/
structure PutLogs where
  credentials : Credentials
  payload : Payload
  logCount : ℤ
  earliest : ℤ
  latest : ℤ
  hashKey : Option Bytes
  deriving DecidableEq, Repr

/-- Whether the call came to its `do_request`, what it returned, and the
error it filled in. -/
structure Answer where
  requested : Bool
  ok : Bool
  err : SendError
  deriving DecidableEq, Repr

inductive Event where
  | doRequest (r : PutLogs)
  | sleep (ms : ℤ)
  deriving DecidableEq, Repr

inductive Callback where
  | v1 (ok : Bool) (batchBytes sendBodySize : ℕ) (requestId message : Option Bytes)
    (startId endId : ℤ)
  | v2 (ok : Bool) (batchBytes sendBodySize : ℕ) (err : SendError) (startId endId : ℤ)
  deriving DecidableEq, Repr

structure Counters where
  requestsTotal : ℕ
  latencyBuckets : ℕ → ℕ
  retriesTotal : ℕ
  bytesSentTotal : ℕ
  requestsFailedTotal : ℕ

/-- What a sender has done so far, the last of each list first, and how often
it has called the environment. -/
structure World where
  history : List Event
  counters : Counters
  emitted : List (String × ℤ × ℤ)
  callbacks : List Callback
  credentialCalls : ℕ
  putCalls : ℕ
  draws : ℕ
  timeReads : ℕ
  notified : ℕ

/-- The clock may be missing; it sees the requests and sleeps so far, and how
often it was read. The delay of a retry depends on a random number. -/
structure Environment where
  timeMs : Option (List Event → ℕ → ℤ)
  signingCredentials : ℕ → ℤ → List (String × ℤ × ℤ) × Option Credentials
  putLogs : ℕ → PutLogs → Answer
  retryInterval : ℕ → ℕ → ℤ
  compressType : Option Bytes
  hasSendDone : Bool
  hasSendDoneV2 : Bool

/-- What the gates do when they are enabled. -/
structure Gates where
  keyBreaker : ℤ → World → Bool × World
  keyRateLimit : ℕ → ℤ → World → Bool × World
  waitOpen : World → World
  tryEnter : World → ℕ × World
  limiter : ℕ → World → World
  leaveHalfOpen : Bool → World → World
  finalResult : Bool → World → World
  keyFinalResult : Bool → World → World

section Shared

variable (cfg : Config) (env : Environment)

def timeMs (w : World) : ℤ × World :=
  match env.timeMs with
  | some clock => (clock w.history w.timeReads, { w with timeReads := w.timeReads+1 })
  | none => (0, w)

def sleepMs (ms : ℤ) (w : World) : World := { w with history := .sleep ms::w.history }

def metricsEmit (name : String) (v1 v2 : ℤ) (w : World) : World :=
  { w with emitted := (name, v1, v2)::w.emitted }

def getSigningCredentials (now : ℤ) (w : World) : Option Credentials × World :=
  let r := env.signingCredentials w.credentialCalls now
  (r.2, { w with emitted := r.1++w.emitted, credentialCalls := w.credentialCalls+1 })

def sendPutLogs (r : PutLogs) (w : World) : Answer × World :=
  let a := env.putLogs w.putCalls r
  (a, { w with
    history := if a.requested then .doRequest r::w.history else w.history
    putCalls := w.putCalls+1 })

def retryNextIntervalMs (attempt : ℕ) (w : World) : ℤ × World :=
  (env.retryInterval w.draws attempt, { w with draws := w.draws+1 })

def latencyBucketIndex (ms : ℤ) : ℕ :=
  if ms ≤ 5 then 0 else if ms ≤ 10 then 1 else if ms ≤ 50 then 2 else if ms ≤ 100 then 3
  else if ms ≤ 300 then 4 else if ms ≤ 1000 then 5 else if ms ≤ 3000 then 6 else 7

def countRequest (w : World) : World :=
  { w with counters := { w.counters with requestsTotal := w.counters.requestsTotal+1 } }

def countLatency (ms : ℤ) (w : World) : World :=
  let i := latencyBucketIndex ms
  { w with counters := { w.counters with
    latencyBuckets := Function.update w.counters.latencyBuckets i (w.counters.latencyBuckets i+1) } }

def countRetry (w : World) : World :=
  { w with counters := { w.counters with retriesTotal := w.counters.retriesTotal+1 } }

def countSent (bytes : ℕ) (w : World) : World :=
  { w with counters := { w.counters with bytesSentTotal := w.counters.bytesSentTotal+bytes } }

def countFailed (w : World) : World :=
  { w with counters := { w.counters with requestsFailedTotal := w.counters.requestsFailedTotal+1 } }

/-- The callbacks that are set, first the old one. -/
def callBack (t : Task) (ok : Bool) (size : ℕ) (requestId message : Option Bytes)
    (err : SendError) (w : World) : World :=
  let v1 := if env.hasSendDone then
    [Callback.v1 ok t.batchBytes size requestId message t.startId t.endId] else []
  let v2 := if env.hasSendDoneV2 then [Callback.v2 ok t.batchBytes size err t.startId t.endId]
    else []
  { w with callbacks := v2++v1++w.callbacks }

def invalidPayload (t : Task) (w : World) : World :=
  let err := clientError "ClientError" "invalid send payload"
  callBack env t false 0 none err.errorMessage err w

/-- The retry is given up: the error is final, or a limit is reached. -/
def givesUp (err : SendError) (attempt : ℕ) (elapsed : ℤ) : Bool :=
  !err.retryable || decide (cfg.retryMaxAttempts > 0 ∧ (attempt : ℤ) ≥ cfg.retryMaxAttempts) ||
    decide (cfg.retryTotalTimeoutMs > 0 ∧ elapsed ≥ cfg.retryTotalTimeoutMs)

def clampDelay (elapsed delay : ℤ) : ℤ :=
  if cfg.retryTotalTimeoutMs > 0 ∧ elapsed+delay > cfg.retryTotalTimeoutMs then
    cfg.retryTotalTimeoutMs-elapsed
  else delay

/-- From the count of the request to the sleep before the next one; `none`
when the loop goes on. -/
def attemptOnce (t : Task) (p : Payload) (startTime : ℤ) (attempt : ℕ) (w : World) :
    Option (Bool × SendError) × World :=
  let w := metricsEmit "request_attempt" 1 0 (countRequest w)
  let (attemptStart, w) := timeMs env w
  match getSigningCredentials env attemptStart w with
  | (none, w) =>
    (some (false, clientError "CredentialsRefreshFailed" "credentials refresh failed"), w)
  | (some c, w) =>
    let (a, w) := sendPutLogs env ⟨c, p, t.logCount, t.earliest, t.latest, t.hashKey⟩ w
    let (attemptEnd, w) := timeMs env w
    let attemptMs := max 0 (attemptEnd-attemptStart)
    let w := metricsEmit "request_latency_ms" attemptMs a.err.httpCode (countLatency attemptMs w)
    if a.ok then (some (true, a.err), w)
    else
      let (now2, w) := timeMs env w
      let elapsed := now2-startTime
      if givesUp cfg a.err attempt elapsed then (some (false, a.err), w)
      else
        let w := metricsEmit "retry" attempt a.err.httpCode (countRetry w)
        let (delay, w) := retryNextIntervalMs env attempt w
        (none, sleepMs (clampDelay cfg elapsed delay) w)

/-- The metrics and callbacks at the end. -/
def finish (t : Task) (p : Payload) (startTime : ℤ) (sentOk : Bool) (err : SendError)
    (w : World) : World :=
  let (totalEnd, w) := timeMs env w
  let totalMs := max 0 (totalEnd-startTime)
  if sentOk then
    callBack env t true p.body.length err.requestId none err
      (metricsEmit "send_ok" totalMs p.body.length (countSent p.body.length w))
  else
    callBack env t false p.body.length err.requestId err.buildMessage err
      (metricsEmit "send_failed" totalMs err.httpCode (countFailed w))

end Shared

inductive Status where
  | running
  | requeued
  | done
  deriving DecidableEq, Repr

section Fast

variable (cfg : Config) (env : Environment) (t : Task) (p : Payload) (startTime : ℤ)

def fastLoop : ℕ → ℕ → World → Option (Bool × SendError) × World
  | 0, _, w => (none, w)
  | n+1, attempt, w =>
    match attemptOnce cfg env t p startTime (attempt+1) w with
    | (some r, w) => (some r, w)
    | (none, w) => fastLoop n (attempt+1) w

end Fast

/-- What a fast sender does with a task it has popped, for `n` attempts. -/
def senderMainFast (cfg : Config) (env : Environment) (t : Task) (n : ℕ) (w : World) :
    Status × World :=
  match resolvePayload env.compressType t with
  | none => (.done, invalidPayload env t w)
  | some p =>
    let (startTime, w) := timeMs env w
    match fastLoop cfg env t p startTime n 0 w with
    | (some (ok, err), w) => (.done, finish env t p startTime ok err w)
    | (none, w) => (.running, w)

section Gated

variable (cfg : Config) (env : Environment) (g : Gates)

def keyBreakerAllow (now : ℤ) (w : World) : Bool × World :=
  if cfg.keyBreakerFailThreshold ≤ 0 then (true, w) else g.keyBreaker now w

def keyRateLimitReserve (bytes : ℕ) (now : ℤ) (w : World) : Bool × World :=
  if cfg.keyRateLimitRps ≤ 0 ∧ cfg.keyRateLimitBps ≤ 0 then (true, w)
  else g.keyRateLimit bytes now w

def breakerWaitOpen (w : World) : World :=
  if cfg.breakerFailThreshold ≤ 0 ∨ env.timeMs = none then w else g.waitOpen w

def breakerTryEnterHalfOpen (w : World) : ℕ × World :=
  if cfg.breakerFailThreshold ≤ 0 ∨ env.timeMs = none then (1, w) else g.tryEnter w

def rateLimitWait (bytes : ℕ) (w : World) : World :=
  if cfg.rateLimitRps ≤ 0 ∧ cfg.rateLimitBps ≤ 0 ∨ env.timeMs = none then w else g.limiter bytes w

def breakerLeaveHalfOpen (ok : Bool) (w : World) : World :=
  if cfg.breakerFailThreshold ≤ 0 ∨ env.timeMs = none then w else g.leaveHalfOpen ok w

def breakerOnFinalResult (ok : Bool) (w : World) : World :=
  if cfg.breakerFailThreshold ≤ 0 ∨ env.timeMs = none then w else g.finalResult ok w

def keyBreakerOnFinalResult (ok : Bool) (w : World) : World :=
  if cfg.keyBreakerFailThreshold ≤ 0 then w else g.keyFinalResult ok w

/-- The breaker is tried `n` times; whether the sender entered half-open. -/
def enterBreaker : ℕ → World → Option Bool × World
  | 0, w => (none, w)
  | n+1, w =>
    match breakerTryEnterHalfOpen cfg env g (breakerWaitOpen cfg env g w) with
    | (1, w) => (some false, w)
    | (2, w) => (some true, w)
    | (_, w) => enterBreaker n (sleepMs 10 w)

/-- The breaker is entered once for a task. -/
def enterOnce (n : ℕ) (entered : Option Bool) (w : World) : Option Bool × World :=
  match entered with
  | some halfOpen => (some halfOpen, w)
  | none => enterBreaker cfg env g n w

inductive Gated where
  | running
  | requeued
  | done (sentOk : Bool) (err : SendError) (halfOpen : Bool)
  deriving DecidableEq, Repr

/-- The loop with its gates; `entered` says how the sender entered the
breaker. -/
def gatedLoop (t : Task) (p : Payload) (startTime : ℤ) :
    ℕ → ℕ → Option Bool → World → Gated × World
  | 0, _, _, w => (.running, w)
  | n+1, attempt, entered, w =>
    let (gateNow, w) := timeMs env w
    let (allowBk, w) := keyBreakerAllow cfg g gateNow w
    let (allowRl, w) := keyRateLimitReserve cfg g p.body.length gateNow w
    if !allowBk || !allowRl then (.requeued, w)
    else
      match enterOnce cfg env g (n+1) entered w with
      | (none, w) => (.running, w)
      | (some halfOpen, w) =>
        let w := rateLimitWait cfg env g p.body.length w
        match attemptOnce cfg env t p startTime (attempt+1) w with
        | (some (ok, err), w) => (.done ok err halfOpen, w)
        | (none, w) => gatedLoop t p startTime n (attempt+1) (some halfOpen) w

def gatedSend (t : Task) (n : ℕ) (w : World) : Status × World :=
  match resolvePayload env.compressType t with
  | none => (.done, invalidPayload env t w)
  | some p =>
    let (startTime, w) := timeMs env w
    match gatedLoop cfg env g t p startTime n 0 none w with
    | (.running, w) => (.running, w)
    | (.requeued, w) => (.requeued, w)
    | (.done ok err halfOpen, w) =>
      let w := finish env t p startTime ok err w
      let w := if halfOpen then breakerLeaveHalfOpen cfg env g ok w
        else breakerOnFinalResult cfg env g ok w
      (.done, keyBreakerOnFinalResult cfg g ok w)

/-- The task part of the sender's loop. -/
def senderMain (t : Task) (n : ℕ) (w : World) : Status × World := gatedSend cfg env g t n w

def envNotify (w : World) : World :=
  if cfg.useGlobalEnv then { w with notified := w.notified+1 } else w

/-- The task part of a step for the shared environment, which is notified
when the step is over. -/
def senderStep (t : Task) (n : ℕ) (w : World) : Status × World :=
  match gatedSend cfg env g t n w with
  | (.running, w) => (.running, w)
  | (status, w) => (status, envNotify cfg w)

end Gated

/-- The same requests and sleeps, callbacks, counters and other metrics. -/
structure SameTrace (w w' : World) : Prop where
  history : w.history = w'.history
  counters : w.counters = w'.counters
  emitted : w.emitted = w'.emitted
  callbacks : w.callbacks = w'.callbacks

section Agreement

/-- Two senders that differ in how often they have read the clock. -/
def Alike (w w' : World) : Prop :=
  ∃ reads notified, w' = { w with timeReads := reads, notified := notified }

theorem Alike.refl (w : World) : Alike w w := ⟨w.timeReads, w.notified, rfl⟩

theorem Alike.sameTrace {w w' : World} (h : Alike w w') : SameTrace w w' := by
  obtain ⟨_, _, rfl⟩ := h
  exact ⟨rfl, rfl, rfl, rfl⟩

theorem Alike.trans {w₁ w₂ w₃ : World} (h : Alike w₁ w₂) (h' : Alike w₂ w₃) : Alike w₁ w₃ := by
  obtain ⟨_, _, rfl⟩ := h
  obtain ⟨a, b, rfl⟩ := h'
  exact ⟨a, b, rfl⟩

/-- The same answer, with senders that are alike after it. -/
def Match {α : Type*} (r r' : α × World) : Prop := r.1 = r'.1 ∧ Alike r.2 r'.2

@[elab_as_elim]
theorem Match.elim {α : Type*} {motive : α × World → α × World → Prop} {r r' : α × World}
    (h : Match r r') (mk : ∀ a w w', Alike w w' → motive (a, w) (a, w')) : motive r r' := by
  obtain ⟨a, w⟩ := r
  obtain ⟨a', w'⟩ := r'
  obtain ⟨rfl, hw⟩ := h
  exact mk a w w' hw

/-- The clock does not see how often it is read. -/
def Environment.Steady (env : Environment) : Prop :=
  ∀ clock, env.timeMs = some clock → ∀ history reads reads',
    clock history reads = clock history reads'

variable {env : Environment}

theorem timeMs_match (h : env.Steady) {w w' : World} (hw : Alike w w') :
    Match (timeMs env w) (timeMs env w') := by
  obtain ⟨a, b, rfl⟩ := hw
  unfold timeMs
  cases ht : env.timeMs with
  | none => exact ⟨rfl, a, b, rfl⟩
  | some clock => exact ⟨h clock ht w.history _ _, a+1, b, rfl⟩

theorem timeMs_alike (env : Environment) (w : World) : Alike w (timeMs env w).2 := by
  unfold timeMs
  cases env.timeMs with
  | none => exact Alike.refl w
  | some clock => exact ⟨w.timeReads+1, w.notified, rfl⟩

theorem getSigningCredentials_match (env : Environment) (now : ℤ) {w w' : World}
    (hw : Alike w w') :
    Match (getSigningCredentials env now w) (getSigningCredentials env now w') := by
  obtain ⟨a, b, rfl⟩ := hw
  exact ⟨rfl, a, b, rfl⟩

theorem sendPutLogs_match (env : Environment) (r : PutLogs) {w w' : World} (hw : Alike w w') :
    Match (sendPutLogs env r w) (sendPutLogs env r w') := by
  obtain ⟨a, b, rfl⟩ := hw
  exact ⟨rfl, a, b, rfl⟩

theorem retryNextIntervalMs_match (env : Environment) (attempt : ℕ) {w w' : World}
    (hw : Alike w w') :
    Match (retryNextIntervalMs env attempt w) (retryNextIntervalMs env attempt w') := by
  obtain ⟨a, b, rfl⟩ := hw
  exact ⟨rfl, a, b, rfl⟩

theorem Alike.metricsEmit {w w' : World} (hw : Alike w w') (name : String) (v1 v2 : ℤ) :
    Alike (metricsEmit name v1 v2 w) (metricsEmit name v1 v2 w') := by
  obtain ⟨a, b, rfl⟩ := hw
  exact ⟨a, b, rfl⟩

theorem Alike.sleepMs {w w' : World} (hw : Alike w w') (ms : ℤ) :
    Alike (sleepMs ms w) (sleepMs ms w') := by
  obtain ⟨a, b, rfl⟩ := hw
  exact ⟨a, b, rfl⟩

theorem Alike.countRequest {w w' : World} (hw : Alike w w') :
    Alike (countRequest w) (countRequest w') := by
  obtain ⟨a, b, rfl⟩ := hw
  exact ⟨a, b, rfl⟩

theorem Alike.countLatency {w w' : World} (hw : Alike w w') (ms : ℤ) :
    Alike (countLatency ms w) (countLatency ms w') := by
  obtain ⟨a, b, rfl⟩ := hw
  exact ⟨a, b, rfl⟩

theorem Alike.countRetry {w w' : World} (hw : Alike w w') :
    Alike (countRetry w) (countRetry w') := by
  obtain ⟨a, b, rfl⟩ := hw
  exact ⟨a, b, rfl⟩

theorem Alike.callBack {w w' : World} (hw : Alike w w') (t : Task) (ok : Bool) (size : ℕ)
    (requestId message : Option Bytes) (err : SendError) :
    Alike (callBack env t ok size requestId message err w)
      (callBack env t ok size requestId message err w') := by
  obtain ⟨a, b, rfl⟩ := hw
  exact ⟨a, b, rfl⟩

theorem Alike.invalidPayload {w w' : World} (hw : Alike w w') (t : Task) :
    Alike (invalidPayload env t w) (invalidPayload env t w') := hw.callBack t _ _ _ _ _

/-- An attempt of two senders that are alike has one outcome. -/
theorem attemptOnce_match (cfg : Config) (h : env.Steady) (t : Task) (p : Payload)
    (startTime : ℤ) (attempt : ℕ) {w w' : World} (hw : Alike w w') :
    Match (attemptOnce cfg env t p startTime attempt w)
      (attemptOnce cfg env t p startTime attempt w') := by
  unfold attemptOnce
  dsimp only
  refine (timeMs_match h (hw.countRequest.metricsEmit "request_attempt" 1 0)).elim ?_
  intro attemptStart w w' hw
  dsimp only
  refine (getSigningCredentials_match env attemptStart hw).elim ?_
  intro c w w' hw
  cases c with
  | none => exact ⟨rfl, hw⟩
  | some c =>
    dsimp only
    refine (sendPutLogs_match env ⟨c, p, t.logCount, t.earliest, t.latest, t.hashKey⟩ hw).elim ?_
    intro a w w' hw
    dsimp only
    refine (timeMs_match h hw).elim ?_
    intro attemptEnd w w' hw
    have hw := (hw.countLatency (max 0 (attemptEnd-attemptStart))).metricsEmit "request_latency_ms"
      (max 0 (attemptEnd-attemptStart)) a.err.httpCode
    dsimp only
    split
    · exact ⟨rfl, hw⟩
    · refine (timeMs_match h hw).elim ?_
      intro now2 w w' hw
      dsimp only
      split
      · exact ⟨rfl, hw⟩
      · refine (retryNextIntervalMs_match env attempt
          (hw.countRetry.metricsEmit "retry" attempt a.err.httpCode)).elim ?_
        intro delay w w' hw
        exact ⟨rfl, hw.sleepMs _⟩

theorem finish_alike (h : env.Steady) (t : Task) (p : Payload) (startTime : ℤ) (ok : Bool)
    (err : SendError) {w w' : World} (hw : Alike w w') :
    Alike (finish env t p startTime ok err w) (finish env t p startTime ok err w') := by
  unfold finish
  refine (timeMs_match h hw).elim ?_
  intro totalEnd w w' hw
  obtain ⟨a, b, rfl⟩ := hw
  cases ok <;> exact ⟨a, b, rfl⟩

/-- Rate limits, key limits and both breakers are off. -/
structure Ungated (cfg : Config) : Prop where
  rateLimit : cfg.rateLimitRps ≤ 0 ∧ cfg.rateLimitBps ≤ 0
  keyRateLimit : cfg.keyRateLimitRps ≤ 0 ∧ cfg.keyRateLimitBps ≤ 0
  breaker : cfg.breakerFailThreshold ≤ 0
  keyBreaker : cfg.keyBreakerFailThreshold ≤ 0

variable {cfg : Config} (g : Gates)

theorem enterOnce_ungated (hu : Ungated cfg) (n : ℕ) (entered : Option Bool) (w : World)
    (he : entered = none ∨ entered = some false) :
    enterOnce cfg env g (n+1) entered w = (some false, w) := by
  have henter : enterBreaker cfg env g (n+1) w = (some false, w) := by
    unfold enterBreaker breakerTryEnterHalfOpen breakerWaitOpen
    rw [if_pos (Or.inl hu.breaker), if_pos (Or.inl hu.breaker)]
    rfl
  obtain rfl | rfl := he
  · exact henter
  · rfl

/-- The outcome of a gated loop that belongs to the one of a fast loop. -/
def outcome : Option (Bool × SendError) → Gated
  | some (ok, err) => .done ok err false
  | none => .running

theorem gatedLoop_fast (hu : Ungated cfg) (h : env.Steady) (t : Task) (p : Payload) (startTime : ℤ) (n attempt : ℕ)
    (entered : Option Bool) (he : entered = none ∨ entered = some false) {w w' : World}
    (hw : Alike w w') :
    (gatedLoop cfg env g t p startTime n attempt entered w').1 =
        outcome (fastLoop cfg env t p startTime n attempt w).1 ∧
      Alike (fastLoop cfg env t p startTime n attempt w).2
        (gatedLoop cfg env g t p startTime n attempt entered w').2 := by
  induction n generalizing attempt entered w w' with
  | zero => exact ⟨rfl, hw⟩
  | succ n ih =>
    unfold fastLoop gatedLoop keyBreakerAllow keyRateLimitReserve rateLimitWait
    have hw := hw.trans (timeMs_alike env w')
    generalize timeMs env w' = r at hw ⊢
    obtain ⟨gateNow, w'⟩ := r
    dsimp only at hw ⊢
    rw [if_pos hu.keyBreaker]
    dsimp only
    rw [if_pos hu.keyRateLimit]
    dsimp only [Bool.not_true, Bool.or_self]
    rw [if_neg (by decide), enterOnce_ungated g hu n entered w' he]
    dsimp only
    rw [if_pos (Or.inl hu.rateLimit)]
    refine (attemptOnce_match cfg h t p startTime (attempt+1) hw).elim ?_
    intro res w w' hw
    cases res with
    | none => exact ih (attempt+1) (some false) (Or.inr rfl) hw
    | some r => exact ⟨rfl, hw⟩

theorem gatedSend_fast (hu : Ungated cfg) (h : env.Steady) (t : Task) (n : ℕ) (w : World) :
    (gatedSend cfg env g t n w).1 = (senderMainFast cfg env t n w).1 ∧
      Alike (senderMainFast cfg env t n w).2 (gatedSend cfg env g t n w).2 := by
  unfold gatedSend senderMainFast
  cases resolvePayload env.compressType t with
  | none => exact ⟨rfl, Alike.refl _⟩
  | some p =>
    dsimp only
    generalize timeMs env w = r
    obtain ⟨startTime, w⟩ := r
    dsimp only
    obtain ⟨hres, hw⟩ := gatedLoop_fast g hu h t p startTime n 0 none (Or.inl rfl) (Alike.refl w)
    generalize gatedLoop cfg env g t p startTime n 0 none w = r' at hres hw ⊢
    generalize fastLoop cfg env t p startTime n 0 w = r at hres hw ⊢
    obtain ⟨res, w⟩ := r
    obtain ⟨res', w'⟩ := r'
    dsimp only at hres hw
    subst hres
    cases res with
    | none => exact ⟨rfl, hw⟩
    | some r =>
      refine ⟨rfl, ?_⟩
      show Alike _ (keyBreakerOnFinalResult cfg g r.1 (breakerOnFinalResult cfg env g r.1
        (finish env t p startTime r.1 r.2 w')))
      unfold keyBreakerOnFinalResult breakerOnFinalResult
      rw [if_pos hu.keyBreaker, if_pos (Or.inl hu.breaker)]
      exact finish_alike h t p startTime r.1 r.2 hw

theorem envNotify_alike (w : World) : Alike w (envNotify cfg w) := by
  unfold envNotify
  split
  · exact ⟨w.timeReads, w.notified+1, rfl⟩
  · exact Alike.refl w

theorem senderStep_alike (t : Task) (n : ℕ) (w : World) :
    (senderStep cfg env g t n w).1 = (gatedSend cfg env g t n w).1 ∧
      Alike (gatedSend cfg env g t n w).2 (senderStep cfg env g t n w).2 := by
  unfold senderStep
  generalize gatedSend cfg env g t n w = r
  obtain ⟨status, w⟩ := r
  cases status with
  | running => exact ⟨rfl, Alike.refl w⟩
  | requeued | done => exact ⟨rfl, envNotify_alike w⟩

end Agreement

/-- With the limits and the breakers off, and a clock that sees only the
requests and sleeps, the three loops treat a task alike: after any number of
attempts they have made the same requests and sleeps, the same callbacks and
the same counts, and they are done at the same time. -/
theorem send_loops_agree (cfg : Config) (hu : Ungated cfg) (env : Environment) (h : env.Steady)
    (g : Gates) (t : Task) (n : ℕ) (w : World) :
    (senderMain cfg env g t n w).1 = (senderMainFast cfg env t n w).1 ∧
      (senderStep cfg env g t n w).1 = (senderMainFast cfg env t n w).1 ∧
      SameTrace (senderMainFast cfg env t n w).2 (senderMain cfg env g t n w).2 ∧
      SameTrace (senderMainFast cfg env t n w).2 (senderStep cfg env g t n w).2 := by
  obtain ⟨hmain, halike⟩ := gatedSend_fast g hu h t n w
  obtain ⟨hstep, hnotify⟩ := @senderStep_alike env cfg g t n w
  exact ⟨hmain, hstep.trans hmain, halike.sameTrace, (halike.trans hnotify).sameTrace⟩

/-- The first request fails for a while, the second one is answered. -/
def secondTry : Environment where
  timeMs := some fun history _ => 1000*history.length
  signingCredentials := fun _ _ => ([], some ⟨text "ak", text "sk", none⟩)
  putLogs := fun n _ => ⟨true, decide (n > 0), if n > 0 then ⟨200, none, none, none, .none, 0, false⟩
    else ⟨503, none, none, none, .none, 0, true⟩⟩
  retryInterval := fun _ attempt => 500*attempt
  compressType := none
  hasSendDone := true
  hasSendDoneV2 := false

def closedGates : Gates where
  keyBreaker := fun _ w => (false, w)
  keyRateLimit := fun _ _ w => (false, w)
  waitOpen := sleepMs 50
  tryEnter := fun w => (0, w)
  limiter := fun _ => sleepMs 10
  leaveHalfOpen := fun _ w => w
  finalResult := fun _ w => w
  keyFinalResult := fun _ w => w

def smallTask : Task := ⟨some [9], none, 1, 1, 1, 5, 5, 1, 1, none⟩

def freshWorld : World := ⟨[], ⟨0, fun _ => 0, 0, 0, 0⟩, [], [], 0, 0, 0, 0, 0⟩

theorem secondTry_agrees :
    (senderMainFast {} secondTry smallTask 2 freshWorld).1 = .done ∧
      (senderMain {} secondTry closedGates smallTask 2 freshWorld).1 =
        (senderMainFast {} secondTry smallTask 2 freshWorld).1 ∧
      SameTrace (senderMainFast {} secondTry smallTask 2 freshWorld).2
        (senderMain {} secondTry closedGates smallTask 2 freshWorld).2 := by
  have hu : Ungated {} := ⟨by decide, by decide, by decide, by decide⟩
  have hsteady : secondTry.Steady := by
    intro clock hclock history reads reads'
    obtain rfl := Option.some.inj hclock
    rfl
  obtain ⟨hmain, -, hsame, -⟩ :=
    send_loops_agree {} hu secondTry hsteady closedGates smallTask 2 freshWorld
  exact ⟨by decide +kernel, hmain, hsame⟩

end VeTls.SendLoops
