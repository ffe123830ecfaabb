import VeTls.Producer

/-!
# Writer threads

The calls an application thread makes, cut where the thread takes or gives
up `producer->mutex` or changes a shared counter by an atomic operation. A
thread has one batch, whatever producer it is for. `flushWait` and
`pushWait` are the two waits of a flush; the logs stay listed under the
batch during the second one, where nobody else can see them.
-/

set_option autoImplicit false

namespace VeTls

open VeTls.Keys (Addr CStr KeyMap)

structure TlsBatch where
  producer : Option ℕ
  builder : Option Builder
  deriving DecidableEq, Repr

structure RawLog where
  timeMs : ℤ
  timeNs : ℕ
  hasTimeNs : Bool
  data : Wire.Bytes
  flush : Bool
  deriving DecidableEq, Repr

def RawLog.size (l : RawLog) : ℕ := l.data.length

/-- Who flushes a batch: an add that filled it, or close. -/
inductive FlushBy where
  | add (id : ℤ) (flush : Bool)
  | close (timeoutMs : ℤ)
  deriving DecidableEq, Repr

namespace Writer

inductive Pc where
  | idle
  | tlsLock (kv : Wire.KvLog) (flush : Bool)
  | tlsWait (kv : Wire.KvLog) (flush : Bool) (deadline : ℤ)
  | tlsAppend (kv : Wire.KvLog) (flush : Bool)
  | flushLock (id : ℤ) (flush : Bool)
  | flushWait (who : FlushBy) (deadline : ℤ)
  | pushWait (who : FlushBy) (start : ℤ)
  | flushFail (rc : WaitRc)
  | rawLock (log : RawLog)
  | rawWait (log : RawLog) (deadline : ℤ)
  | rawPush (log : RawLog)
  | kvLock (kv : Wire.KvLog) (hashKey : CStr) (flush : Bool)
  | kvWait (kv : Wire.KvLog) (hashKey : CStr) (flush : Bool) (deadline : ℤ)
  | closeLock (timeoutMs : ℤ)
  | closeWait (timeoutMs start : ℤ)
  | closeStop
  | closeJoin
  deriving DecidableEq, Repr

end Writer

structure Writer where
  pc : Writer.Pc
  batch : TlsBatch
  /-- What the last call returned. -/
  result : Option Result
  deriving DecidableEq, Repr

/-- Clock readings of a step, and the address `calloc` returns in it. -/
structure Input where
  now : ℤ
  now2 : ℤ
  addr : Addr
  deriving DecidableEq, Repr

inductive Call where
  | addRaw (log : RawLog)
  | addKv (kv : Wire.KvLog) (hashKey : CStr) (flush : Bool)
  | flush
  | close (timeoutMs : ℤ)
  | elsewhere (other : ℕ) (builder : Option Builder)
  deriving DecidableEq, Repr

namespace Writer

def start : Writer := ⟨.idle, ⟨none, none⟩, none⟩

def ret (r : Result) (w : Writer) : Writer := { w with pc := .idle, result := some r }

def setBuilder (b : Option Builder) (w : Writer) : Writer :=
  { w with batch := { w.batch with builder := b } }

def tlsBuilder (cfg : Config) (w : Writer) : Builder :=
  w.batch.builder.getD (logBuilderCreate cfg.hashKey)

def estimate (kv : Wire.KvLog) : ℕ := Wire.logBuilderEstimateKvLensSize kv

/-- The outcome of a wait for space: again, on, or back to the caller. -/
def admitted (w : Writer) (again : ℤ → Pc) (go : Producer → Writer × Producer) :
    Wait × Producer → Writer × Producer
  | (.block deadline, p) => ({ w with pc := again deadline }, p)
  | (.rc .ok, p) => go p
  | (.rc rc, p) => (ret (mapWaitErrorToResult rc p).1 w, (mapWaitErrorToResult rc p).2)

/-- The checks with which every add begins. -/
def enter (cfg : Config) (i : Input) (bytes : ℕ) (again : ℤ → Pc)
    (go : Producer → Writer × Producer) (w : Writer) (p : Producer) : Writer × Producer :=
  if p.stop || !p.accepting then (ret .closed w, p)
  else
    match ingressBreakerDropLocked cfg p bytes i.now with
    | some p => (ret .dropError w, p)
    | none => admitted w again go (waitBufferSpaceLocked cfg p bytes false i.now i.now2)

def tlsReserve (kv : Wire.KvLog) (flush : Bool) (w : Writer) (p : Producer) : Writer × Producer :=
  ({ w with pc := .tlsAppend kv flush }, { p with tlsBytes := p.tlsBytes+estimate kv })

def shouldMerge (cfg : Config) (flush : Bool) (b : Builder) : Bool :=
  flush || decide (b.logCount ≥ cfg.mergeCount) || decide (b.logsLen ≥ cfg.mergeBytes)

/-- The reservation becomes what the log really takes. -/
def settleTls (estimated delta : ℕ) (p : Producer) : Producer :=
  if delta > estimated then { p with tlsBytes := p.tlsBytes+(delta-estimated) }
  else if estimated > delta then { p with tlsBytes := wrapSub p.tlsBytes (estimated-delta) }
  else p

def tlsAppend (cfg : Config) (kv : Wire.KvLog) (flush : Bool) (w : Writer) (p : Producer) :
    Writer × Producer :=
  let b := tlsBuilder cfg w
  let id := p.nextId
  let p := { p with nextId := p.nextId+1 }
  match logBuilderAddKvLens b id kv with
  | none =>
    (ret .dropError (setBuilder (some (tlsBatchReset b)) w),
      countDropped { p with
        tlsBytes := wrapSub (wrapSub p.tlsBytes (estimate kv)) b.logsLen })
  | some b' =>
    let p := settleTls (estimate kv) (b'.logsLen-b.logsLen) p
    if shouldMerge cfg flush b' then
      ({ setBuilder (some b') w with pc := .flushLock id flush }, p)
    else (ret .ok (setBuilder (some b') w), accept id p)

def flushResult : WaitRc → Result
  | .closed => .closed
  | .timeout => .timeout
  | _ => .dropError

def closeLoop (cfg : Config) (timeoutMs start now : ℤ) (w : Writer) (p : Producer) :
    Writer × Producer :=
  if isDrainedLocked cfg p then
    ({ w with pc := .closeStop }, { p with closing := false, stop := true })
  else if timeoutMs = 0 then (ret .timeout w, p)
  else if timeoutMs > 0 ∧ timeoutMs-(now-start) ≤ 0 then (ret .timeout w, p)
  else ({ w with pc := .closeWait timeoutMs start }, p)

def closeBegin (p : Producer) : Producer :=
  { p with accepting := false, closing := true, flushRequested := true }

def flushed (cfg : Config) (i : Input) (w : Writer) (p : Producer) : FlushBy → Writer × Producer
  | .add id _ => (ret .ok w, accept id p)
  | .close timeoutMs => closeLoop cfg timeoutMs i.now i.now2 w (closeBegin p)

def flushFailed (rc : WaitRc) (w : Writer) (p : Producer) : FlushBy → Writer × Producer
  | .add _ _ => ({ w with pc := .flushFail rc }, p)
  | .close _ => (ret (flushResult rc) w, p)

def forceFlush : FlushBy → Bool
  | .add _ flush => flush
  | .close _ => true

/-- The push of a flush, whose wait began at `start`. -/
def flushPush (cfg : Config) (i : Input) (start : ℤ) (who : FlushBy) (w : Writer) (p : Producer) :
    Writer × Producer :=
  match ingressQueuePushLocked cfg p cfg.hashKey (tlsBuilder cfg w) (forceFlush who)
      (ingressWaitMs cfg) start i.now2 with
  | (.block start, p) => ({ w with pc := .pushWait who start }, p)
  | (.rc .ok, p) =>
    flushed cfg i (setBuilder (some (tlsBatchReset (tlsBuilder cfg w))) w)
      { p with tlsBytes := wrapSub p.tlsBytes (tlsBuilder cfg w).logsLen } who
  | (.rc rc, p) => flushFailed rc w p who

def flushAdmit (cfg : Config) (i : Input) (who : FlushBy) (w : Writer) :
    Wait × Producer → Writer × Producer
  | (.block deadline, p) => ({ w with pc := .flushWait who deadline }, p)
  | (.rc .ok, p) => flushPush cfg i i.now who w p
  | (.rc rc, p) => flushFailed rc w p who

def tlsBatchFlushLocked (cfg : Config) (i : Input) (who : FlushBy) (w : Writer) (p : Producer) :
    Writer × Producer :=
  if (tlsBuilder cfg w).logCount = 0 ∨ (tlsBuilder cfg w).logsLen = 0 then flushed cfg i w p who
  else flushAdmit cfg i who w
    (waitBufferSpaceLocked cfg p (tlsBuilder cfg w).logsLen false i.now i.now2)

def rawReserve (log : RawLog) (w : Writer) (p : Producer) : Writer × Producer :=
  ({ w with pc := .rawPush log }, { p with queueBytes := p.queueBytes+log.size })

def rawFlush (cfg : Config) (log : RawLog) (p : Producer) : Bool :=
  log.flush || (decide (cfg.logCountPerPackage > 0) &&
      decide (p.queue.length ≥ cfg.logCountPerPackage.toNat)) ||
    (decide (cfg.byteLimit > 0) && decide (p.queueBytes ≥ cfg.byteLimit))

def rawItem (log : RawLog) (p : Producer) : RawItem :=
  ⟨p.rawNo, p.nextId, log.timeMs, log.timeNs, log.hasTimeNs, log.data, []⟩

@[simp] theorem rawItem_size (log : RawLog) (p : Producer) : (rawItem log p).size = log.size := rfl

def rawPush (cfg : Config) (log : RawLog) (w : Writer) (p : Producer) : Writer × Producer :=
  if p.stop || !p.accepting then (ret .closed w, releaseQueueReservationLocked p log.size)
  else
    let id := p.nextId
    let p := { p with nextId := p.nextId+1, rawNo := p.rawNo+1, queue := p.queue++[rawItem log p] }
    let p := if rawFlush cfg log p then { p with flushRequested := true } else p
    (ret .ok w, accept id p)

def settleQueue (estimated delta : ℕ) (p : Producer) : Producer :=
  if delta > estimated then { p with queueBytes := p.queueBytes+(delta-estimated) }
  else if estimated > delta then releaseQueueReservationLocked p (estimated-delta)
  else p

def kvReserve (kv : Wire.KvLog) (p : Producer) : Producer :=
  { p with queueBytes := p.queueBytes+estimate kv, nextId := p.nextId+1 }

/-- No queue for the key. At the key limit the log is reported and the call
still returns `ok`. -/
def kvRefuse (cfg : Config) (kv : Wire.KvLog) (id : ℤ) (w : Writer) (p : Producer) :
    Writer × Producer :=
  let full := KeyMap.atLimit cfg.toKeyConfig p.keys
  let p := countDropped (releaseQueueReservationLocked p (estimate kv))
  if full then (ret .ok w, accept id (dropOneWithError (estimate kv) id p))
  else (ret .dropError w, p)

def kvStore (cfg : Config) (kv : Wire.KvLog) (id : ℤ) (flush : Bool) (slot : Slot) (b : Builder)
    (w : Writer) (p : Producer) : Writer × Producer :=
  match logBuilderAddKvLens b id kv with
  | none =>
    (ret .dropError w,
      countDropped (releaseQueueReservationLocked (setSlot (some b) p slot) (estimate kv)))
  | some b' =>
    (ret .ok w, accept id (storeBuilder cfg flush slot b'
      (settleQueue (estimate kv) (b'.logsLen-b.logsLen) p)))

/-- The rest of an add with a hash key, in the same critical section. -/
def kvAdd (cfg : Config) (i : Input) (kv : Wire.KvLog) (hashKey : CStr) (flush : Bool)
    (w : Writer) (p : Producer) : Writer × Producer :=
  let normKey := cfg.normalizeHashKey hashKey
  match findSlot cfg (kvReserve kv p) (cfg.fastBuilder && hashKey.isEmpty) normKey i.addr with
  | (none, p') => kvRefuse cfg kv p.nextId w p'
  | (some slot, p') =>
    kvStore cfg kv p.nextId flush slot (openBuilder p' slot normKey i.now2) w p'

/-- A batch for another producer is given back before the first log of this
one. -/
def switchBatch (me : ℕ) (batch : TlsBatch) : TlsBatch :=
  if batch.producer = some me then batch else ⟨some me, none⟩

def builderLen (batch : TlsBatch) : ℕ := (batch.builder.map Builder.logsLen).getD 0

/-- Freeing a batch gives its bytes back to the producer it was for. -/
def leaveBatch (me : ℕ) (batch : TlsBatch) (p : Producer) : Producer :=
  if batch.producer = some me then { p with tlsBytes := wrapSub p.tlsBytes (builderLen batch) }
  else p

def tlsPath (cfg : Config) (hashKey : CStr) : Bool := hashKey.isEmpty && !cfg.orderedSend

/-- A thread between two calls begins one. A thread-batched add to another
producer is `elsewhere`: it frees the batch and leaves one of its own. -/
def call (cfg : Config) (me : ℕ) (w : Writer) (p : Producer) : Call → Option (Writer × Producer)
  | .addRaw log =>
    if log.size = 0 then some (ret .invalid w, p) else some ({ w with pc := .rawLock log }, p)
  | .addKv kv hashKey flush =>
    if kv.kvs.isEmpty then some (ret .invalid w, p)
    else if tlsPath cfg hashKey then
      some ({ w with pc := .tlsLock kv flush, batch := switchBatch me w.batch }, p)
    else some ({ w with pc := .kvLock kv hashKey flush }, p)
  | .flush => some (ret .ok w, { p with flushRequested := true })
  | .close timeoutMs => some ({ w with pc := .closeLock timeoutMs }, p)
  | .elsewhere other builder =>
    if other = me then none
    else some ({ w with batch := ⟨some other, builder⟩ }, leaveBatch me w.batch p)

def ownLogs (me : ℕ) (w : Writer) : Bool :=
  decide (w.batch.producer = some me) && builderLogs w.batch.builder

/-- One step of a running call. `joined` tells that every worker and sender
has ended; an address in use is not returned by `calloc`. -/
def go (cfg : Config) (me : ℕ) (joined : Bool) (i : Input) (w : Writer) (p : Producer) :
    Option (Writer × Producer) :=
  if i.addr ∈ KeyMap.live cfg.toKeyConfig p.keys then none
  else match w.pc with
  | .idle => none
  | .tlsLock kv flush =>
    some (enter cfg i (estimate kv) (.tlsWait kv flush) (tlsReserve kv flush w) w p)
  | .tlsWait kv flush deadline =>
    some (admitted w (.tlsWait kv flush) (tlsReserve kv flush w)
      (waitLoop cfg p (estimate kv) false deadline i.now))
  | .tlsAppend kv flush => some (tlsAppend cfg kv flush w p)
  | .flushLock id flush => some (tlsBatchFlushLocked cfg i (.add id flush) w p)
  | .flushWait who deadline =>
    some (flushAdmit cfg i who w
      (waitLoop cfg p (tlsBuilder cfg w).logsLen false deadline i.now))
  | .pushWait who start => some (flushPush cfg i start who w p)
  | .flushFail rc =>
    some (ret (flushResult rc) (setBuilder (some (tlsBatchReset (tlsBuilder cfg w))) w),
      { p with tlsBytes := wrapSub p.tlsBytes (tlsBuilder cfg w).logsLen })
  | .rawLock log => some (enter cfg i log.size (.rawWait log) (rawReserve log w) w p)
  | .rawWait log deadline =>
    some (admitted w (.rawWait log) (rawReserve log w)
      (waitLoop cfg p log.size false deadline i.now))
  | .rawPush log => some (rawPush cfg log w p)
  | .kvLock kv hashKey flush =>
    some (enter cfg i (estimate kv) (.kvWait kv hashKey flush) (kvAdd cfg i kv hashKey flush w)
      w p)
  | .kvWait kv hashKey flush deadline =>
    some (admitted w (.kvWait kv hashKey flush) (kvAdd cfg i kv hashKey flush w)
      (waitLoop cfg p (estimate kv) false deadline i.now))
  | .closeLock timeoutMs =>
    if ownLogs me w then some (tlsBatchFlushLocked cfg i (.close timeoutMs) w p)
    else some (flushed cfg i w p (.close timeoutMs))
  | .closeWait timeoutMs start => some (closeLoop cfg timeoutMs start i.now w p)
  | .closeStop => some ({ w with pc := .closeJoin }, { p with sendQueueStop := true })
  | .closeJoin => if joined then some (ret .ok w, p) else none

end Writer

end VeTls
