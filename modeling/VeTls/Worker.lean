import VeTls.Writer

/-!
# Worker threads

A worker merges the ingress queue into the builders, seals the builders that
are due, takes the sealed list, and turns raw logs and sealed builders into
send tasks, one after the other. Compressors are not modelled: the sizes
they return are inputs.
-/

set_option autoImplicit false

namespace VeTls

open VeTls.Keys (Addr CStr KeyMap)

/-- A task on its way to the send queue; `builderBytes` is what its builder
is charged with. -/
structure Job where
  task : SendTask
  builderBytes : Option ℕ
  deriving DecidableEq, Repr

namespace Worker

inductive Pc where
  | top
  | timed (haveIngress : Bool)
  | pop
  | prepare (job : Job)
  | scratchLock (job : Job)
  | scratchWait (job : Job) (deadline : ℤ)
  | compress (job : Job)
  | keyReserve (job : Job)
  | sendLock (job : Job)
  | sendWait (job : Job) (deadline : ℤ)
  | push (job : Job) (start : ℤ)
  | unreserve (job : Job)
  | drop (job : Job)
  | release (bytes : ℕ)
  | finish
  | exited
  deriving DecidableEq, Repr

end Worker

structure Worker where
  pc : Worker.Pc
  /-- The part of the taken list that is still to be packed. -/
  sealedRest : List Sealed
  deriving DecidableEq, Repr

namespace Worker

def start : Worker := ⟨.top, []⟩

structure Input where
  now : ℤ
  now2 : ℤ
  /-- What `calloc` returns, one address for each merged task, then the rest. -/
  addrs : List Addr
  /-- The size a pooled buffer was filled with, if it was large enough. -/
  pooled : Option ℕ
  compressed : Option ℕ
  deriving DecidableEq, Repr

/-- Milliseconds until the first builder is due. -/
def builderWait (cfg : Config) (now : ℤ) (b : Option Builder) : Option ℤ :=
  match b with
  | none => none
  | some b => if b.logCount = 0 ∨ b.firstAppendMs ≤ 0 then none
      else some (b.firstAppendMs+cfg.flushIntervalMs-now)

def minWait : Option ℤ → Option ℤ → Option ℤ
  | none, b => b
  | some a, none => some a
  | some a, some b => some (if b < a then b else a)

def flushWait (cfg : Config) (now : ℤ) (p : Producer) : Option ℤ :=
  if cfg.flushIntervalMs ≤ 0 then none
  else (KeyMap.live cfg.toKeyConfig p.keys).foldl
    (fun w q => minWait w (builderWait cfg now (p.keys.info q).builder))
    (builderWait cfg now p.defaultBuilder)

def nothingToDo (p : Producer) : Bool :=
  !p.stop && p.queue.isEmpty && p.ingressQueue.isEmpty && !p.flushRequested && p.sealedList.isEmpty

def dropRange (bytes : ℕ) (b : Builder) (p : Producer) : Producer :=
  report ⟨false, bytes, b.startId, b.endId, b.logs.map Log.id, none⟩ p

def ingressQueuePopLocked (t : IngressTask) (rest : List IngressTask) (p : Producer) : Producer :=
  { p with ingressQueue := rest, ingressQueueBytes := p.ingressQueueBytes-t.batch.logsLen }

/-- One round of the merge loop. -/
def mergeOne (cfg : Config) (now : ℤ) (t : IngressTask) (rest : List IngressTask) (addr : Addr)
    (p : Producer) : Producer :=
  match ingressTaskMergeLocked cfg t addr now (ingressQueuePopLocked t rest p) with
  | (true, p) => p
  | (false, p) => dropRange t.batch.logsLen t.batch p

/-- `none` when an address in use was supplied, or too few addresses. -/
def mergeAll (cfg : Config) (now : ℤ) : List IngressTask → List Addr → Producer → Option Producer
  | [], _, p => some p
  | _::_, [], _ => none
  | t::rest, a::addrs, p =>
    if a ∈ KeyMap.live cfg.toKeyConfig p.keys then none
    else mergeAll cfg now rest addrs (mergeOne cfg now t rest a p)

def builderDue (cfg : Config) (flushAll : Bool) (now : ℤ) (b : Builder) : Bool :=
  decide (b.logCount ≠ 0) && (flushAll || (decide (cfg.flushIntervalMs > 0) && decide (now > 0) &&
    decide (b.firstAppendMs > 0) && decide (now-b.firstAppendMs ≥ cfg.flushIntervalMs)))

def sealDue (cfg : Config) (flushAll : Bool) (now : ℤ) (p : Producer) (slot : Slot) : Producer :=
  match slotBuilder p slot with
  | none => p
  | some b => if builderDue cfg flushAll now b then sealSlot slot b p else p

def slots (cfg : Config) (p : Producer) : List Slot :=
  .default::(KeyMap.live cfg.toKeyConfig p.keys).map .key

def sealAll (cfg : Config) (flushAll : Bool) (now : ℤ) (p : Producer) : Producer :=
  (slots cfg p).foldl (sealDue cfg flushAll now) p

def sealedBatch (cfg : Config) (s : Sealed) : Batch :=
  ⟨s.builder.normKey, false, s.no, s.builder.logs.map Log.id, s.builder.startId, s.builder.endId,
    s.builder.logsLen+cfg.groupSuffixLen⟩

def takeSealed (cfg : Config) (p : Producer) : List Sealed × Producer :=
  (p.sealedList, { p with
    sealedList := []
    taken := p.taken++p.sealedList.map (sealedBatch cfg) })

def beginFlush (p : Producer) : Producer :=
  { p with flushRequested := false, workerFlushingCount := p.workerFlushingCount+1 }

/-- The critical section in which a worker takes its work. -/
def body (cfg : Config) (i : Input) (haveAny haveIngress : Bool) (w : Worker) (p : Producer) :
    Option (Worker × Producer) :=
  if p.stop && p.queue.isEmpty && p.ingressQueue.isEmpty && p.sealedList.isEmpty && !haveAny &&
      !haveIngress then some ({ w with pc := .exited }, p)
  else do
    let p ← mergeAll cfg i.now p.ingressQueue i.addrs p
    let p := sealAll cfg (p.flushRequested || p.stop) i.now2 (beginFlush p)
    some (⟨.pop, (takeSealed cfg p).1⟩, (takeSealed cfg p).2)

/-- `none` while the worker waits for something to do. -/
def top (cfg : Config) (i : Input) (w : Worker) (p : Producer) : Option (Worker × Producer) :=
  let haveAny := anyBuilder cfg p
  let haveIngress := !p.ingressQueue.isEmpty
  if nothingToDo p then
    if !haveAny then none
    else
      match flushWait cfg i.now p with
      | some ms => if ms > 0 then some ({ w with pc := .timed haveIngress }, p)
          else body cfg i haveAny haveIngress w p
      | none => some ({ w with pc := .timed haveIngress }, p)
  else body cfg i haveAny haveIngress w p

/-- The next sealed builder, or the end of the round. -/
def next (cfg : Config) (w : Worker) : Worker :=
  match w.sealedRest with
  | [] => { w with pc := .finish }
  | s::rest => ⟨.prepare ⟨builderToSendTask cfg s, some s.builder.logsLen⟩, rest⟩

def rawBatch (item : RawItem) : Batch :=
  ⟨item.hashKey, true, item.no, [item.id], item.id, item.id, item.size⟩

def pop (cfg : Config) (w : Worker) (p : Producer) : Worker × Producer :=
  match p.queue with
  | [] => (next cfg w, p)
  | item::rest =>
    ({ w with pc := .prepare ⟨rawToSendTask item, none⟩ }, { p with
      queue := rest
      queueBytes := wrapSub p.queueBytes item.size
      taken := p.taken++[rawBatch item] })

def shouldSkipCompress (cfg : Config) (bodySize : ℕ) : Bool :=
  cfg.compressNone || decide (bodySize ≤ 256)

/-- `size_t` arithmetic; the largest value stands for an overflow. -/
def compressScratchBound (bodySize : ℕ) : ℕ :=
  if bodySize > 2^64-1-(bodySize/8+4096) then 2^64-1 else bodySize+(bodySize/8+4096)

def sendSize (t : SendTask) : ℕ :=
  if t.precompressedSize > 0 then t.precompressedSize else t.bodySize

def tooLarge (cfg : Config) (t : SendTask) : Bool :=
  decide (cfg.aggStrategy = 1) && decide (cfg.aggMaxCompressedBytesPerRequest > 0) &&
    decide (sendSize t > cfg.aggMaxCompressedBytesPerRequest.toNat)

/-- A prepared task goes on to the send queue, or is dropped. -/
def prepared (cfg : Config) (job : Job) : Pc :=
  if tooLarge cfg job.task then .drop job
  else if cfg.fastSend then .sendLock job
  else .keyReserve job

def setCompressed (n : ℕ) (job : Job) : Job :=
  { job with task := { job.task with precompressedSize := n } }

def prepare (cfg : Config) (i : Input) (job : Job) : Pc :=
  if job.task.bodySize = 0 then .drop job
  else if shouldSkipCompress cfg job.task.bodySize then prepared cfg job
  else
    match i.pooled with
    | some n => if n > 0 then prepared cfg (setCompressed n job) else .scratchLock job
    | none => .scratchLock job

def scratchAdmit (job : Job) (w : Worker) : Wait × Producer → Worker × Producer
  | (.block deadline, p) => ({ w with pc := .scratchWait job deadline }, p)
  | (.rc .ok, p) => ({ w with pc := .compress job },
      { p with scratchBytes := p.scratchBytes+compressScratchBound job.task.bodySize })
  | (.rc _, p) => ({ w with pc := .drop job }, p)

def releaseScratchBytes (bytes : ℕ) (p : Producer) : Producer :=
  { p with scratchBytes := p.scratchBytes-bytes }

def compressDone (cfg : Config) (i : Input) (job : Job) : Pc :=
  match i.compressed with
  | some n => if n > 0 then prepared cfg (setCompressed n job) else .drop job
  | none => .drop job

def sendAdmit (i : Input) (job : Job) (w : Worker) : Wait × Producer → Worker × Producer
  | (.block deadline, p) => ({ w with pc := .sendWait job deadline }, p)
  | (.rc .ok, p) => ({ w with pc := .push job i.now },
      { p with sendQueueBytes := p.sendQueueBytes+sendTaskMemoryBytes job.task })
  | (.rc _, p) => ({ w with pc := .drop job }, p)

def blockMs (cfg : Config) : ℤ :=
  if cfg.sendQueueBlockTimeoutMs = 0 then -1 else cfg.sendQueueBlockTimeoutMs

def pushWaitMs (cfg : Config) (t : SendTask) : ℤ :=
  match cfg.sendQueueFullPolicy with
  | .block => blockMs cfg
  | .drop => 0
  | .dropSampled =>
    let n := if cfg.sendQueueSampleEveryN < 1 then 1 else cfg.sendQueueSampleEveryN
    if n = 1 ∨ t.endId.tmod n = 0 then blockMs cfg else 0

/-- A raw log is done with its push; a builder still has its bytes. -/
def done (job : Job) (w : Worker) : Worker :=
  match job.builderBytes with
  | none => { w with pc := .pop }
  | some bytes => { w with pc := .release bytes }

def sendQueuePush (cfg : Config) (i : Input) (job : Job) (start : ℤ) (w : Worker) (p : Producer) :
    Worker × Producer :=
  if p.sendQueueStop then ({ w with pc := .unreserve job }, p)
  else if p.sendQueue.length ≥ cfg.sendQueueCap then
    let waitMs := pushWaitMs cfg job.task
    if waitMs = 0 then ({ w with pc := .unreserve job }, p)
    else if waitMs > 0 ∧ waitMs-(i.now-start) ≤ 0 then ({ w with pc := .unreserve job }, p)
    else (w, p)
  else (done job w, { p with sendQueue := p.sendQueue++[job.task] })

def releaseSendQueueTaskBytes (t : SendTask) (p : Producer) : Producer :=
  { p with sendQueueBytes := p.sendQueueBytes-sendTaskMemoryBytes t }

def dropTask (t : SendTask) (p : Producer) : Producer :=
  report ⟨false, t.batchBytes, t.startId, t.endId, t.batch.ids, some t.batch⟩ p

def endFlush (p : Producer) : Producer :=
  { p with workerFlushingCount := p.workerFlushingCount-1 }

def keyReserve (cfg : Config) (addr : Addr) (job : Job) (w : Worker) (p : Producer) :
    Worker × Producer :=
  let r := KeyMap.keyQueueReserve cfg.toKeyConfig addr (cfg.normalizeHashKey job.task.hashKey) p.keys
  ({ w with pc := if r.1 then .sendLock job else .drop job }, { p with keys := r.2 })

/-- One step of a worker; `none` when it has to wait. -/
def step (cfg : Config) (i : Input) (w : Worker) (p : Producer) : Option (Worker × Producer) :=
  match w.pc with
  | .top => top cfg i w p
  | .timed haveIngress => body cfg i true haveIngress w p
  | .pop => some (pop cfg w p)
  | .prepare job => some ({ w with pc := prepare cfg i job }, p)
  | .scratchLock job =>
    if compressScratchBound job.task.bodySize = 2^64-1 then some ({ w with pc := .drop job }, p)
    else some (scratchAdmit job w (waitBufferSpaceLocked cfg p
      (compressScratchBound job.task.bodySize) true i.now i.now2))
  | .scratchWait job deadline =>
    some (scratchAdmit job w (waitLoop cfg p (compressScratchBound job.task.bodySize) true
      deadline i.now))
  | .compress job =>
    some ({ w with pc := compressDone cfg i job },
      releaseScratchBytes (compressScratchBound job.task.bodySize) p)
  | .keyReserve job =>
    match i.addrs with
    | [] => none
    | a::_ => if a ∈ KeyMap.live cfg.toKeyConfig p.keys then none
        else some (keyReserve cfg a job w p)
  | .sendLock job =>
    some (sendAdmit i job w (waitBufferSpaceLocked cfg p (sendTaskMemoryBytes job.task) true
      i.now i.now2))
  | .sendWait job deadline =>
    some (sendAdmit i job w (waitLoop cfg p (sendTaskMemoryBytes job.task) true deadline i.now))
  | .push job start => some (sendQueuePush cfg i job start w p)
  | .unreserve job => some ({ w with pc := .drop job }, releaseSendQueueTaskBytes job.task p)
  | .drop job => some (done job w, dropTask job.task p)
  | .release bytes => some (next cfg w, releaseQueueReservationLocked p bytes)
  | .finish => some ({ w with pc := .top }, endFlush p)
  | .exited => none

end Worker

end VeTls
