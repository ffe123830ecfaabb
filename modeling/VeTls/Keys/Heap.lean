import VeTls.Lib.RingBuffer
import VeTls.Lib.Intrusive
import VeTls.Keys.Map

/-!
# The key map in memory

The same operations on the structures of the source: rings of tasks, hash
chains through `hnext` and three intrusive lists. A loop over a chain or a
list carries the number of queues as its bound and returns `none` when it
would run past it.
-/

set_option autoImplicit false

namespace VeTls.Keys

open VeTls.Intrusive (DList)

structure KeyHeap (τ β : Type) where
  info : Addr → Info β
  ring : Addr → RingBuffer.Ring τ
  hnext : Addr → Option Addr
  keyBuckets : ℕ → Option Addr
  ready : DList Addr
  delayed : DList Addr
  idle : DList Addr
  keyQueueCount : ℕ
  /-- The blocks the allocator has handed out for key queues. -/
  allocated : Addr → Bool
  freed : List (Info β)

namespace KeyHeap

variable {τ β : Type}

def empty : KeyHeap τ β :=
  ⟨fun _ => blank [], fun _ => RingBuffer.empty, fun _ => none, fun _ => none, Intrusive.empty,
    Intrusive.empty, Intrusive.empty, 0, fun _ => false, []⟩

def setInfo (q : Addr) (f : Info β → Info β) (h : KeyHeap τ β) : KeyHeap τ β :=
  { h with info := Function.update h.info q (f (h.info q)) }

def count (q : Addr) (h : KeyHeap τ β) : ℕ := (h.ring q).count

def readyAdd (q : Addr) (h : KeyHeap τ β) : KeyHeap τ β :=
  if (h.info q).ready || (h.info q).delayed || (h.info q).inflight || count q h == 0 then h
  else setInfo q (fun i => { i with ready := true })
    { h with ready := Intrusive.pushBack q h.ready }

def readyRemove (q : Addr) (h : KeyHeap τ β) : KeyHeap τ β :=
  if !(h.info q).ready then h
  else setInfo q (fun i => { i with ready := false })
    { h with ready := Intrusive.remove q h.ready }

def idleRemove (q : Addr) (h : KeyHeap τ β) : KeyHeap τ β :=
  if !(h.info q).idle then h
  else setInfo q (fun i => { i with idle := false, emptySinceMs := 0 })
    { h with idle := Intrusive.remove q h.idle }

def delayedRemove (q : Addr) (h : KeyHeap τ β) : KeyHeap τ β :=
  if !(h.info q).delayed then h
  else setInfo q (fun i => { i with delayed := false, nextReadyMs := 0 })
    { h with delayed := Intrusive.remove q h.delayed }

def unlist (q : Addr) (h : KeyHeap τ β) : KeyHeap τ β :=
  delayedRemove q (idleRemove q (readyRemove q h))

/-- The first node of the delayed list that is due later, `some none` past
the end. -/
def scanDelayed (nextReadyMs : ℤ) (h : KeyHeap τ β) : ℕ → Option Addr → Option (Option Addr)
  | _, none => some none
  | 0, some _ => none
  | k+1, some cur =>
    if (h.info cur).nextReadyMs ≤ nextReadyMs then
      scanDelayed nextReadyMs h k (h.delayed.next cur)
    else some (some cur)

/-- The insertion of a queue that is in none of the lists. -/
def insertDelayed (q : Addr) (nextReadyMs : ℤ) (h : KeyHeap τ β) : Option (KeyHeap τ β) :=
  let h := setInfo q (fun i => { i with delayed := true, nextReadyMs := nextReadyMs }) h
  match h.delayed.head with
  | none => some { h with delayed :=
      { Intrusive.setNode q none none h.delayed with head := some q, tail := some q } }
  | some d =>
    match scanDelayed nextReadyMs h h.keyQueueCount (some d) with
    | none => none
    | some none => some { h with delayed := Intrusive.pushBack q h.delayed }
    | some (some cur) => some { h with delayed := Intrusive.insertBefore q cur h.delayed }

def delayedAddSorted (q : Addr) (nextReadyMs : ℤ) (h : KeyHeap τ β) : Option (KeyHeap τ β) :=
  insertDelayed q nextReadyMs (unlist q h)

def promote (q : Addr) (h : KeyHeap τ β) : KeyHeap τ β :=
  if !(h.info q).inflight && decide (count q h > 0) then readyAdd q (delayedRemove q h)
  else delayedRemove q h

def promoteGo (nowMs : ℤ) : ℕ → Option Addr → KeyHeap τ β → Option (KeyHeap τ β)
  | _, none, h => some h
  | 0, some _, _ => none
  | k+1, some q, h =>
    if (h.info q).nextReadyMs > nowMs then some h
    else promoteGo nowMs k (h.delayed.next q) (promote q h)

def delayedPromoteDue (nowMs : ℤ) (h : KeyHeap τ β) : Option (KeyHeap τ β) :=
  promoteGo nowMs h.keyQueueCount h.delayed.head h

def idleAdd (q : Addr) (nowMs : ℤ) (h : KeyHeap τ β) : KeyHeap τ β :=
  if (h.info q).idle || count q h != 0 || (h.info q).inflight then h
  else setInfo q (fun i => { i with idle := true, emptySinceMs := nowMs })
    { h with idle := Intrusive.pushBack q h.idle }

/-- The walk along a hash chain that takes `q` out of it. -/
def unchain (q : Addr) (idx : ℕ) : ℕ → Option Addr → Option Addr → KeyHeap τ β →
    Option (KeyHeap τ β)
  | _, _, none, h => some h
  | 0, _, some _, _ => none
  | k+1, prev, some p, h =>
    if p = q then
      match prev with
      | some a => some { h with hnext := Function.update h.hnext a (h.hnext p) }
      | none => some { h with keyBuckets := Function.update h.keyBuckets idx (h.hnext p) }
    else unchain q idx k (some p) (h.hnext p) h

def keyQueueRemoveAndFree (cfg : KeyConfig) (q : Addr) (h : KeyHeap τ β) :
    Option (KeyHeap τ β) := do
  let info := h.info q
  let h := unlist q h
  let idx := bucketIndex cfg info.hash
  let h ← unchain q idx h.keyQueueCount none (h.keyBuckets idx) h
  some { h with
    allocated := Function.update h.allocated q false
    freed := h.freed++[info]
    keyQueueCount := h.keyQueueCount-1 }

def cleanup (cfg : KeyConfig) (now : ℤ) (q : Addr) (h : KeyHeap τ β) : Option (KeyHeap τ β) :=
  if (h.info q).idle && count q h == 0 && !(h.info q).inflight &&
      decide (now-(h.info q).emptySinceMs ≥ cfg.keyQueueIdleTtlMs) then
    keyQueueRemoveAndFree cfg q (idleRemove q h)
  else some h

def cleanupGo (cfg : KeyConfig) (now : ℤ) : ℕ → Option Addr → KeyHeap τ β → Option (KeyHeap τ β)
  | _, none, h => some h
  | 0, some _, _ => none
  | k+1, some q, h => do cleanupGo cfg now k (h.idle.next q) (← cleanup cfg now q h)

def idleCleanup (cfg : KeyConfig) (now : ℤ) (h : KeyHeap τ β) : Option (KeyHeap τ β) :=
  if cfg.keyQueueIdleTtlMs ≤ 0 then some h
  else cleanupGo cfg now h.keyQueueCount h.idle.head h

def readyPop (h : KeyHeap τ β) : Option (Addr × KeyHeap τ β) :=
  match h.ready.head with
  | none => none
  | some q => some (q, setInfo q (fun i => { i with ready := false, inflight := true })
      { h with ready := Intrusive.popFront q h.ready })

def lookupGo (normKey : CStr) (h : KeyHeap τ β) : ℕ → Option Addr → Option (Option Addr)
  | _, none => some none
  | 0, some _ => none
  | k+1, some p =>
    if (h.info p).hash == hash32Fnv1a normKey && (h.info p).key == normKey then some (some p)
    else lookupGo normKey h k (h.hnext p)

def atLimit (cfg : KeyConfig) (h : KeyHeap τ β) : Bool :=
  decide (cfg.keyQueueMaxActive > 0) && decide (h.keyQueueCount ≥ cfg.keyQueueMaxActive.toNat)

/-- The block comes zeroed from the allocator. -/
def create (cfg : KeyConfig) (q : Addr) (normKey : CStr) (h : KeyHeap τ β) : KeyHeap τ β :=
  let idx := bucketIndex cfg (hash32Fnv1a normKey)
  { h with
    info := Function.update h.info q (blank normKey)
    ring := Function.update h.ring q RingBuffer.empty
    hnext := Function.update h.hnext q (h.keyBuckets idx)
    keyBuckets := Function.update h.keyBuckets idx (some q)
    ready := Intrusive.setNode q none none h.ready
    delayed := Intrusive.setNode q none none h.delayed
    idle := Intrusive.setNode q none none h.idle
    keyQueueCount := h.keyQueueCount+1
    allocated := Function.update h.allocated q true }

def keyQueueGetOrCreate (cfg : KeyConfig) (addr : Addr) (normKey : CStr) (h : KeyHeap τ β) :
    Option (Option Addr × KeyHeap τ β) := do
  let idx := bucketIndex cfg (hash32Fnv1a normKey)
  match ← lookupGo normKey h h.keyQueueCount (h.keyBuckets idx) with
  | some p => some (some p, idleRemove p h)
  | none => if atLimit cfg h then some (none, h) else some (some addr, create cfg addr normKey h)

def keyQueueInitCap : ℕ := 64

def pushBackTask (q : Addr) (t : τ) (h : KeyHeap τ β) : KeyHeap τ β :=
  { h with
    ring := Function.update h.ring q (RingBuffer.push keyQueueInitCap true t (h.ring q)).2 }

def enqueue (q : Addr) (t : τ) (h : KeyHeap τ β) : KeyHeap τ β :=
  if count q h == 0 && !(h.info q).inflight then readyAdd q (pushBackTask q t h)
  else pushBackTask q t h

def keyQueuePushTask (cfg : KeyConfig) (addr : Addr) (normKey : CStr) (t : τ) (h : KeyHeap τ β) :
    Option (Bool × KeyHeap τ β) := do
  match ← keyQueueGetOrCreate cfg addr normKey h with
  | (none, h) => some (false, h)
  | (some q, h) => some (true, enqueue q t h)

def keyQueueReserve (cfg : KeyConfig) (addr : Addr) (normKey : CStr) (h : KeyHeap τ β) :
    Option (Bool × KeyHeap τ β) := do
  let r ← keyQueueGetOrCreate cfg addr normKey h
  some (r.1.isSome, r.2)

def keyQueuePushFrontTask (q : Addr) (t : τ) (h : KeyHeap τ β) : KeyHeap τ β :=
  { h with
    ring := Function.update h.ring q (RingBuffer.pushFront keyQueueInitCap true t (h.ring q)).2 }

def keyQueuePopTask (q : Addr) (h : KeyHeap τ β) : Option τ × KeyHeap τ β :=
  match RingBuffer.pop (h.ring q) with
  | none => (none, h)
  | some (t, r) => (t, { h with ring := Function.update h.ring q r })

def gateRequeue (q : Addr) (t : τ) (next : ℤ) (h : KeyHeap τ β) : Option (KeyHeap τ β) :=
  delayedAddSorted q next
    (setInfo q (fun i => { i with inflight := false }) (keyQueuePushFrontTask q t h))

def keyQueueFinish (cfg : KeyConfig) (now : ℤ) (q : Addr) (h : KeyHeap τ β) :
    Option (KeyHeap τ β) :=
  let h := setInfo q (fun i => { i with inflight := false }) h
  if count q h > 0 then
    if decide (cfg.keyBreakerFailThreshold > 0) && decide ((h.info q).breakerOpenUntilMs > now)
    then delayedAddSorted q (h.info q).breakerOpenUntilMs h
    else some (readyAdd q h)
  else if cfg.keyQueueIdleTtlMs > 0 then some (idleAdd q now h)
  else keyQueueRemoveAndFree cfg q h

end KeyHeap

end VeTls.Keys
