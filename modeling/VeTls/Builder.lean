import VeTls.Wire
import VeTls.Config

/-!
# Builders and send tasks

A builder collects encoded logs of one key. `logs` is what its byte buffer
holds, one element for each encoded log; the other fields are those of the
source. A sealed builder is packed into a send task. Batches are numbered in
the order in which they are sealed, raw logs in the order in which they are
queued; the number travels with the task as a history of where it is from.
-/

set_option autoImplicit false

namespace VeTls

open VeTls.Keys (CStr)

/-- An encoded log in a buffer. -/
structure Log where
  id : ℤ
  bytes : Wire.Bytes
  timeMs : ℤ
  timeNs : ℕ
  hasTimeNs : Bool
  deriving DecidableEq, Repr

def Log.size (l : Log) : ℕ := l.bytes.length

structure Builder where
  normKey : CStr
  logs : List Log
  logsLen : ℕ
  logCount : ℕ
  earliest : ℤ
  latest : ℤ
  lastTimeMs : ℤ
  lastTimeNs : ℕ
  lastHasTimeNs : Bool
  startId : ℤ
  endId : ℤ
  firstAppendMs : ℤ
  deriving DecidableEq, Repr

def logBuilderCreate (normKey : CStr) : Builder :=
  ⟨normKey, [], 0, 0, 0, 0, 0, 0, false, 0, 0, 0⟩

/-- The batch keeps its key and loses its contents. -/
def tlsBatchReset (b : Builder) : Builder := logBuilderCreate b.normKey

/-- What is stored of a log: without a positive time there are no
nanoseconds either. -/
def storedLog (id : ℤ) (kv : Wire.KvLog) : Log :=
  { id
    bytes := Wire.entryBytes kv
    timeMs := if kv.timeMs ≤ 0 then 0 else kv.timeMs
    timeNs := if kv.timeMs ≤ 0 then 0 else kv.timeNs
    hasTimeNs := if kv.timeMs ≤ 0 then false else kv.hasTimeNs }

/-- `none` when an overflow guard refuses the log; allocations succeed. -/
def logBuilderAddKvLens (b : Builder) (id : ℤ) (kv : Wire.KvLog) : Option Builder :=
  let msgSize := Wire.logMsgSizeLens kv
  let entrySize := Wire.logBuilderEstimateKvLensSize kv
  if msgSize = 2^64-1 ∨ entrySize < msgSize ∨ b.logsLen > 2^64-1-entrySize then none
  else
    let l := storedLog id kv
    some { b with
      logs := b.logs++[l]
      logsLen := b.logsLen+l.size
      logCount := b.logCount+1
      earliest := if l.timeMs > 0 ∧ (b.earliest = 0 ∨ l.timeMs < b.earliest) then l.timeMs
        else b.earliest
      latest := if l.timeMs > 0 ∧ (b.latest = 0 ∨ l.timeMs > b.latest) then l.timeMs
        else b.latest
      startId := if b.startId = 0 then id else b.startId
      endId := id
      lastTimeMs := l.timeMs
      lastTimeNs := l.timeNs
      lastHasTimeNs := l.hasTimeNs }

def logBuilderAppend (b tb : Builder) : Option Builder :=
  if tb.logsLen = 0 ∨ tb.logCount = 0 then none
  else some { b with
    logs := b.logs++tb.logs
    logsLen := b.logsLen+tb.logsLen
    logCount := b.logCount+tb.logCount
    earliest := if tb.earliest > 0 ∧ (b.earliest = 0 ∨ tb.earliest < b.earliest) then tb.earliest
      else b.earliest
    latest := if tb.latest > 0 ∧ tb.latest > b.latest then tb.latest else b.latest
    startId := if b.startId = 0 ∨ tb.startId < b.startId then tb.startId else b.startId
    endId := if tb.endId > b.endId then tb.endId else b.endId
    lastTimeMs := tb.lastTimeMs
    lastTimeNs := tb.lastTimeNs
    lastHasTimeNs := tb.lastHasTimeNs }

structure RawItem where
  no : ℕ
  id : ℤ
  timeMs : ℤ
  timeNs : ℕ
  hasTimeNs : Bool
  data : Wire.Bytes
  hashKey : CStr
  deriving DecidableEq, Repr

def RawItem.size (i : RawItem) : ℕ := i.data.length

structure Sealed where
  no : ℕ
  builder : Builder
  deriving DecidableEq, Repr

/-- Where a task comes from, the ids of its logs, and what a report says
of it. -/
structure Batch where
  key : CStr
  raw : Bool
  no : ℕ
  ids : List ℤ
  startId : ℤ
  endId : ℤ
  bytes : ℕ
  deriving DecidableEq, Repr

structure SendTask where
  bodySize : ℕ
  precompressedSize : ℕ
  rawBodySize : ℕ
  logCount : ℕ
  earliest : ℤ
  latest : ℤ
  batchBytes : ℕ
  startId : ℤ
  endId : ℤ
  hashKey : CStr
  raw : Bool
  no : ℕ
  ids : List ℤ
  deriving DecidableEq, Repr

def SendTask.batch (t : SendTask) : Batch :=
  ⟨t.hashKey, t.raw, t.no, t.ids, t.startId, t.endId, t.batchBytes⟩

def sendTaskMemoryBytes (t : SendTask) : ℕ := t.bodySize+t.precompressedSize

def rawToSendTask (i : RawItem) : SendTask :=
  { bodySize := i.size, precompressedSize := 0, rawBodySize := i.size, logCount := 0
    earliest := i.timeMs, latest := i.timeMs, batchBytes := i.size, startId := i.id
    endId := i.id, hashKey := i.hashKey, raw := true, no := i.no, ids := [i.id] }

def builderToSendTask (cfg : Config) (b : Sealed) : SendTask :=
  let groupLen := b.builder.logsLen+cfg.groupSuffixLen
  let bodySize := 1+Wire.varintU64Size groupLen+groupLen
  { bodySize, precompressedSize := 0, rawBodySize := bodySize, logCount := b.builder.logCount
    earliest := b.builder.earliest, latest := b.builder.latest, batchBytes := groupLen
    startId := b.builder.startId, endId := b.builder.endId, hashKey := b.builder.normKey
    raw := false, no := b.no, ids := b.builder.logs.map Log.id }

end VeTls
