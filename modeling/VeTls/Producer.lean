import VeTls.Builder

/-!
# The producer and its critical sections

The state behind `producer->mutex` and the functions that run with it held.
The rings are lists here. `wrapSub` is an unguarded `size_t` subtraction;
where the source guards against underflow the result stops at zero. Clock
readings and allocated addresses are arguments, allocations succeed.
The last group of fields is history: what was accepted, published to the
ingress queue, taken by a worker, attempted and reported, oldest first.
-/

set_option autoImplicit false

namespace VeTls

open VeTls.Keys (Addr CStr KeyMap)

inductive Result where
  | ok
  | invalid
  | dropError
  | closed
  | timeout
  deriving DecidableEq, Repr

/-- Return codes `0`, `-1`, `-2` and `-3` of the waiting functions. -/
inductive WaitRc where
  | ok
  | full
  | closed
  | timeout
  deriving DecidableEq, Repr

inductive Wait where
  | rc (r : WaitRc)
  | block (deadline : ℤ)
  deriving DecidableEq, Repr

structure IngressTask where
  normKey : CStr
  batch : Builder
  forceFlush : Bool
  deriving DecidableEq, Repr

/-- A `send_done` callback. `batch` is the task it is for, if there is one. -/
structure Report where
  sent : Bool
  bytes : ℕ
  startId : ℤ
  endId : ℤ
  ids : List ℤ
  batch : Option Batch
  deriving DecidableEq, Repr

structure Producer where
  accepting : Bool
  stop : Bool
  closing : Bool
  flushRequested : Bool
  queue : List RawItem
  queueBytes : ℕ
  ingressQueue : List IngressTask
  ingressQueueBytes : ℕ
  tlsBytes : ℕ
  defaultBuilder : Option Builder
  sealedList : List Sealed
  keys : KeyMap SendTask Builder
  workerFlushingCount : ℕ
  sendQueue : List SendTask
  sendQueueStop : Bool
  sendQueueBytes : ℕ
  inflightBytes : ℕ
  scratchBytes : ℕ
  fastInflight : ℕ
  nextId : ℤ
  breakerOpenUntilMs : ℤ
  breakerConsecutiveFailures : ℤ
  breakerHalfOpenInflight : ℤ
  idleCleanupNextMs : ℤ
  logsDroppedTotal : ℕ
  sealNo : ℕ
  rawNo : ℕ
  accepted : List ℤ
  published : List ℤ
  taken : List Batch
  attempts : List Batch
  done : List Report

def producerCreate : Producer :=
  { accepting := true, stop := false, closing := false, flushRequested := false, queue := []
    queueBytes := 0, ingressQueue := [], ingressQueueBytes := 0, tlsBytes := 0
    defaultBuilder := none, sealedList := [], keys := KeyMap.empty, workerFlushingCount := 0
    sendQueue := [], sendQueueStop := false, sendQueueBytes := 0, inflightBytes := 0
    scratchBytes := 0, fastInflight := 0, nextId := 1, breakerOpenUntilMs := 0
    breakerConsecutiveFailures := 0, breakerHalfOpenInflight := 0, idleCleanupNextMs := 0
    logsDroppedTotal := 0, sealNo := 0, rawNo := 0, accepted := []
    published := [], taken := [], attempts := [], done := [] }

def wrapSub (a b : ℕ) : ℕ := if b ≤ a then a-b else a+2^64-b

def sizeAddSat (a b : ℕ) : ℕ := if b > 2^64-1-a then 2^64-1 else a+b

def sizeFitsLimit (used need limit : ℕ) : Bool := decide (used ≤ limit) && decide (need ≤ limit-used)

def bufferedBytesLocked (p : Producer) : ℕ :=
  sizeAddSat (sizeAddSat (sizeAddSat (sizeAddSat (sizeAddSat p.queueBytes p.ingressQueueBytes)
    p.sendQueueBytes) p.inflightBytes) p.scratchBytes) p.tlsBytes

def ingressBytesLocked (p : Producer) : ℕ :=
  sizeAddSat (sizeAddSat p.queueBytes p.ingressQueueBytes) p.tlsBytes

def sendSideBytes (p : Producer) : ℕ :=
  sizeAddSat (sizeAddSat p.sendQueueBytes p.inflightBytes) p.scratchBytes

def hasBufferSpaceLocked (cfg : Config) (p : Producer) (need : ℕ) (reserveForSend : Bool) : Bool :=
  if cfg.maxBufferBytes ≤ 0 then true
  else
    let maxBuffer := cfg.maxBufferBytes.toNat
    if reserveForSend then sizeFitsLimit (bufferedBytesLocked p) need maxBuffer
    else
      let reserved := min cfg.effectiveSendReservedBytes maxBuffer
      let ingressLimit := maxBuffer-reserved
      let sendSide := sendSideBytes p
      if sendSide > reserved then
        if sendSide-reserved ≥ ingressLimit then
          decide (need = 0) && decide (ingressBytesLocked p = 0)
        else sizeFitsLimit (ingressBytesLocked p) need (ingressLimit-(sendSide-reserved))
      else sizeFitsLimit (ingressBytesLocked p) need ingressLimit

/-- One round of the wait loop; `block` gives up the mutex until woken. -/
def waitLoop (cfg : Config) (p : Producer) (need : ℕ) (reserveForSend : Bool)
    (deadline now : ℤ) : Wait × Producer :=
  if p.stop || !p.accepting then (.rc .closed, p)
  else if hasBufferSpaceLocked cfg p need reserveForSend then (.rc .ok, p)
  else if deadline > 0 ∧ deadline-now ≤ 0 then
    (.rc .timeout, { p with flushRequested := true })
  else (.block deadline, { p with flushRequested := true })

def waitBufferSpaceLocked (cfg : Config) (p : Producer) (need : ℕ) (reserveForSend : Bool)
    (now now2 : ℤ) : Wait × Producer :=
  if cfg.maxBufferBytes ≤ 0 then (.rc .ok, p)
  else if hasBufferSpaceLocked cfg p need reserveForSend then (.rc .ok, p)
  else if cfg.bufferFullPolicy ≠ .block then (.rc .full, p)
  else
    let deadline := if cfg.bufferFullBlockTimeoutMs > 0 ∧ now > 0 then
      now+cfg.bufferFullBlockTimeoutMs else 0
    waitLoop cfg p need reserveForSend deadline now2

def releaseQueueReservationLocked (p : Producer) (bytes : ℕ) : Producer :=
  { p with queueBytes := p.queueBytes-bytes }

def report (r : Report) (p : Producer) : Producer := { p with done := p.done++[r] }

def dropOneWithError (bytes : ℕ) (id : ℤ) (p : Producer) : Producer :=
  report ⟨false, bytes, id, id, [id], none⟩ p

def countDropped (p : Producer) : Producer := { p with logsDroppedTotal := p.logsDroppedTotal+1 }

def accept (id : ℤ) (p : Producer) : Producer := { p with accepted := p.accepted++[id] }

def mapWaitErrorToResult (rc : WaitRc) (p : Producer) : Result × Producer :=
  match rc with
  | .closed => (.closed, p)
  | .timeout => (.timeout, countDropped p)
  | _ => (.dropError, countDropped p)

def ingressBreakerOpenLocked (cfg : Config) (p : Producer) (now : ℤ) : Bool :=
  if cfg.breakerFailThreshold ≤ 0 then false
  else if cfg.breakerIngressPolicy = .allow then false
  else if p.breakerOpenUntilMs ≤ 0 then false
  else decide (now ≤ 0) || decide (now < p.breakerOpenUntilMs)

/-- `some` when the open breaker refuses the log. -/
def ingressBreakerDropLocked (cfg : Config) (p : Producer) (bytes : ℕ) (now : ℤ) :
    Option Producer :=
  if !ingressBreakerOpenLocked cfg p now then none
  else if cfg.breakerIngressPolicy = .dropWithCallback then
    some (dropOneWithError bytes p.nextId (countDropped { p with nextId := p.nextId+1 }))
  else some (countDropped p)

/-- The full queue refuses, or `block`s with the time the call began. -/
def ingressQueuePushLocked (cfg : Config) (p : Producer) (normKey : CStr) (batch : Builder)
    (forceFlush : Bool) (waitMs start now : ℤ) : Wait × Producer :=
  if p.ingressQueue.length ≥ cfg.ingressQueueCap then
    if p.stop || !p.accepting then (.rc .closed, p)
    else if waitMs = 0 then (.rc .full, p)
    else if waitMs < 0 then (.block start, p)
    else if waitMs-(now-start) ≤ 0 then (.rc .timeout, p)
    else (.block start, p)
  else (.rc .ok, { p with
    ingressQueue := p.ingressQueue++[⟨normKey, batch, forceFlush⟩]
    ingressQueueBytes := p.ingressQueueBytes+batch.logsLen
    published := p.published++batch.logs.map Log.id })

def ingressWaitMs (cfg : Config) : ℤ :=
  if cfg.bufferFullPolicy = .block then
    if cfg.bufferFullBlockTimeoutMs = 0 then -1 else cfg.bufferFullBlockTimeoutMs
  else 0

/-- Where a log is collected: the default builder or the one of a key. -/
inductive Slot where
  | default
  | key (q : Addr)
  deriving DecidableEq, Repr

def slotBuilder (p : Producer) : Slot → Option Builder
  | .default => p.defaultBuilder
  | .key q => (p.keys.info q).builder

def setSlot (b : Option Builder) (p : Producer) : Slot → Producer
  | .default => { p with defaultBuilder := b }
  | .key q => { p with keys := KeyMap.setInfo q (fun i => { i with builder := b }) p.keys }

/-- The default builder, or the queue of the key; `none` at the key limit. -/
def findSlot (cfg : Config) (p : Producer) (useDefault : Bool) (normKey : CStr) (addr : Addr) :
    Option Slot × Producer :=
  if useDefault then (some .default, p)
  else
    ((KeyMap.keyQueueGetOrCreate cfg.toKeyConfig addr normKey p.keys).1.map .key,
      { p with keys := (KeyMap.keyQueueGetOrCreate cfg.toKeyConfig addr normKey p.keys).2 })

def openBuilder (p : Producer) (slot : Slot) (normKey : CStr) (now : ℤ) : Builder :=
  (slotBuilder p slot).getD { logBuilderCreate normKey with firstAppendMs := now }

def sealSlot (slot : Slot) (b : Builder) (p : Producer) : Producer :=
  { setSlot none p slot with
    sealedList := p.sealedList++[⟨p.sealNo, b⟩]
    sealNo := p.sealNo+1 }

def shouldSeal (cfg : Config) (b : Builder) : Bool :=
  (decide (cfg.logCountPerPackage > 0) && decide (b.logCount ≥ cfg.logCountPerPackage.toNat)) ||
    (decide (cfg.byteLimit > 0) && decide (b.logsLen ≥ cfg.byteLimit))

/-- The builder goes back to its slot or, when full or flushed, to the end
of the sealed list. -/
def storeBuilder (cfg : Config) (flush : Bool) (slot : Slot) (b : Builder) (p : Producer) :
    Producer :=
  if flush || shouldSeal cfg b then { sealSlot slot b p with flushRequested := true }
  else setSlot (some b) p slot

def mergeDefault (cfg : Config) (normKey : CStr) : Bool :=
  cfg.fastBuilder && normKey == cfg.hashKey

/-- A builder without a first append takes over the one of the batch. -/
def stampFirst (t : IngressTask) (now : ℤ) (b : Builder) : Builder :=
  if b.firstAppendMs = 0 then
    { b with firstAppendMs := if t.batch.firstAppendMs > 0 then t.batch.firstAppendMs else now }
  else b

def mergeInto (cfg : Config) (t : IngressTask) (slot : Slot) (b : Builder) (p : Producer) :
    Bool × Producer :=
  match logBuilderAppend b t.batch with
  | none => (false, setSlot (some b) p slot)
  | some b' => (true, storeBuilder cfg t.forceFlush slot b'
      { p with queueBytes := p.queueBytes+(b'.logsLen-b.logsLen) })

def ingressTaskMergeLocked (cfg : Config) (t : IngressTask) (addr : Addr) (now : ℤ)
    (p : Producer) : Bool × Producer :=
  if t.batch.logCount = 0 ∨ t.batch.logsLen = 0 then (true, p)
  else
    match findSlot cfg p (mergeDefault cfg t.normKey) t.normKey addr with
    | (none, p) => (false, p)
    | (some slot, p) =>
      mergeInto cfg t slot (stampFirst t now (openBuilder p slot t.normKey now)) p

def builderLogs (b : Option Builder) : Bool := b.any fun b => decide (b.logCount > 0)

def anyBuilder (cfg : Config) (p : Producer) : Bool :=
  builderLogs p.defaultBuilder ||
    (KeyMap.live cfg.toKeyConfig p.keys).any fun q => builderLogs (p.keys.info q).builder

def isDrainedLocked (cfg : Config) (p : Producer) : Bool :=
  p.queue.isEmpty && p.ingressQueue.isEmpty && decide (p.workerFlushingCount = 0) &&
    p.sealedList.isEmpty && p.sendQueue.isEmpty && decide (p.fastInflight = 0) &&
    !builderLogs p.defaultBuilder &&
    (KeyMap.live cfg.toKeyConfig p.keys).all fun q =>
      (p.keys.tasks q).isEmpty && !(p.keys.info q).inflight &&
        !builderLogs (p.keys.info q).builder

end VeTls
