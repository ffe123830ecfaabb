import Mathlib

/-!
# The key map

Every hash key owns one queue of send tasks together with the builder that
fills for it. Queues sit in hash buckets and, depending on their state, in
the ready, the delayed or the idle list. This module has the lists as
lists; the pointer structures of the same operations are in `Keys.Heap`.
Clock readings and the address an allocation returns are arguments.
-/

set_option autoImplicit false

namespace VeTls.Keys

abbrev Addr := ℕ

/-- A C string without its terminator. -/
abbrev CStr := List UInt8

structure KeyConfig where
  keyQueueBucketCount : ℤ := 1024
  keyQueueMaxActive : ℤ := 0
  keyQueueIdleTtlMs : ℤ := 0
  keyBreakerFailThreshold : ℤ := 0
  deriving DecidableEq, Repr

def keyBucketCount (cfg : KeyConfig) : ℕ :=
  if cfg.keyQueueBucketCount > 0 then cfg.keyQueueBucketCount.toNat else 1024

def hash32Fnv1a (s : CStr) : UInt32 :=
  s.foldl (fun h c => (h ^^^ c.toUInt32)*16777619) 2166136261

def bucketIndex (cfg : KeyConfig) (hash : UInt32) : ℕ := hash.toNat % keyBucketCount cfg

theorem keyBucketCount_pos (cfg : KeyConfig) : 0 < keyBucketCount cfg := by
  unfold keyBucketCount
  split <;> omega

theorem bucketIndex_lt (cfg : KeyConfig) (hash : UInt32) :
    bucketIndex cfg hash < keyBucketCount cfg :=
  Nat.mod_lt _ (keyBucketCount_pos cfg)

/-- The fields of a key queue other than its ring and its links. -/
structure Info (β : Type) where
  key : CStr
  hash : UInt32
  inflight : Bool
  ready : Bool
  breakerOpenUntilMs : ℤ
  breakerConsecutiveFailures : ℤ
  idle : Bool
  emptySinceMs : ℤ
  delayed : Bool
  nextReadyMs : ℤ
  builder : Option β

def blank {β : Type} (key : CStr) : Info β :=
  { key, hash := hash32Fnv1a key, inflight := false, ready := false, breakerOpenUntilMs := 0
    breakerConsecutiveFailures := 0, idle := false, emptySinceMs := 0, delayed := false
    nextReadyMs := 0, builder := none }

structure KeyMap (τ β : Type) where
  info : Addr → Info β
  tasks : Addr → List τ
  buckets : ℕ → List Addr
  ready : List Addr
  delayed : List Addr
  idle : List Addr
  keyQueueCount : ℕ
  /-- History: the queues handed back to the allocator, oldest first. -/
  freed : List (Info β)

namespace KeyMap

variable {τ β : Type}

def empty : KeyMap τ β := ⟨fun _ => blank [], fun _ => [], fun _ => [], [], [], [], 0, []⟩

/-- The queues in the map, in the order of a scan over the buckets. -/
def live (cfg : KeyConfig) (m : KeyMap τ β) : List Addr :=
  (List.range (keyBucketCount cfg)).flatMap m.buckets

def setInfo (q : Addr) (f : Info β → Info β) (m : KeyMap τ β) : KeyMap τ β :=
  { m with info := Function.update m.info q (f (m.info q)) }

def readyAdd (q : Addr) (m : KeyMap τ β) : KeyMap τ β :=
  if (m.info q).ready || (m.info q).delayed || (m.info q).inflight || (m.tasks q).isEmpty then m
  else setInfo q (fun i => { i with ready := true }) { m with ready := m.ready++[q] }

def readyRemove (q : Addr) (m : KeyMap τ β) : KeyMap τ β :=
  if !(m.info q).ready then m
  else setInfo q (fun i => { i with ready := false }) { m with ready := m.ready.erase q }

def idleRemove (q : Addr) (m : KeyMap τ β) : KeyMap τ β :=
  if !(m.info q).idle then m
  else setInfo q (fun i => { i with idle := false, emptySinceMs := 0 })
    { m with idle := m.idle.erase q }

def delayedRemove (q : Addr) (m : KeyMap τ β) : KeyMap τ β :=
  if !(m.info q).delayed then m
  else setInfo q (fun i => { i with delayed := false, nextReadyMs := 0 })
    { m with delayed := m.delayed.erase q }

/-- Insertion behind every queue that is due no later. -/
def insertDelayed (q : Addr) (nextReadyMs : ℤ) (m : KeyMap τ β) : KeyMap τ β :=
  { setInfo q (fun i => { i with delayed := true, nextReadyMs := nextReadyMs }) m with
    delayed := m.delayed.takeWhile (fun a => (m.info a).nextReadyMs ≤ nextReadyMs) ++
      q::m.delayed.dropWhile (fun a => (m.info a).nextReadyMs ≤ nextReadyMs) }

def delayedAddSorted (q : Addr) (nextReadyMs : ℤ) (m : KeyMap τ β) : KeyMap τ β :=
  insertDelayed q nextReadyMs (delayedRemove q (idleRemove q (readyRemove q m)))

def promote (q : Addr) (m : KeyMap τ β) : KeyMap τ β :=
  if !(m.info q).inflight && !(m.tasks q).isEmpty then readyAdd q (delayedRemove q m)
  else delayedRemove q m

def promoteGo (nowMs : ℤ) : List Addr → KeyMap τ β → KeyMap τ β
  | [], m => m
  | q::l, m => if (m.info q).nextReadyMs > nowMs then m else promoteGo nowMs l (promote q m)

def delayedPromoteDue (nowMs : ℤ) (m : KeyMap τ β) : KeyMap τ β := promoteGo nowMs m.delayed m

def idleAdd (q : Addr) (nowMs : ℤ) (m : KeyMap τ β) : KeyMap τ β :=
  if (m.info q).idle || !(m.tasks q).isEmpty || (m.info q).inflight then m
  else setInfo q (fun i => { i with idle := true, emptySinceMs := nowMs })
    { m with idle := m.idle++[q] }

def unlist (q : Addr) (m : KeyMap τ β) : KeyMap τ β :=
  delayedRemove q (idleRemove q (readyRemove q m))

def keyQueueRemoveAndFree (cfg : KeyConfig) (q : Addr) (m : KeyMap τ β) : KeyMap τ β :=
  { unlist q m with
    buckets := Function.update m.buckets (bucketIndex cfg (m.info q).hash)
      ((m.buckets (bucketIndex cfg (m.info q).hash)).erase q)
    keyQueueCount := m.keyQueueCount-1
    freed := m.freed++[m.info q] }

def cleanup (cfg : KeyConfig) (now : ℤ) (q : Addr) (m : KeyMap τ β) : KeyMap τ β :=
  if (m.info q).idle && (m.tasks q).isEmpty && !(m.info q).inflight &&
      decide (now-(m.info q).emptySinceMs ≥ cfg.keyQueueIdleTtlMs) then
    keyQueueRemoveAndFree cfg q (idleRemove q m)
  else m

def idleCleanup (cfg : KeyConfig) (now : ℤ) (m : KeyMap τ β) : KeyMap τ β :=
  if cfg.keyQueueIdleTtlMs ≤ 0 then m
  else m.idle.foldl (fun m q => cleanup cfg now q m) m

def readyPop (m : KeyMap τ β) : Option (Addr × KeyMap τ β) :=
  match m.ready with
  | [] => none
  | q::l => some (q, setInfo q (fun i => { i with ready := false, inflight := true })
      { m with ready := l })

def lookup (cfg : KeyConfig) (normKey : CStr) (m : KeyMap τ β) : Option Addr :=
  (m.buckets (bucketIndex cfg (hash32Fnv1a normKey))).find? fun p =>
    (m.info p).hash == hash32Fnv1a normKey && (m.info p).key == normKey

def atLimit (cfg : KeyConfig) (m : KeyMap τ β) : Bool :=
  decide (cfg.keyQueueMaxActive > 0) && decide (m.keyQueueCount ≥ cfg.keyQueueMaxActive.toNat)

def create (cfg : KeyConfig) (q : Addr) (normKey : CStr) (m : KeyMap τ β) : KeyMap τ β :=
  { m with
    info := Function.update m.info q (blank normKey)
    tasks := Function.update m.tasks q []
    buckets := Function.update m.buckets (bucketIndex cfg (hash32Fnv1a normKey))
      (q::m.buckets (bucketIndex cfg (hash32Fnv1a normKey)))
    keyQueueCount := m.keyQueueCount+1 }

/-- `addr` is what the allocator returns when a new queue is needed. -/
def keyQueueGetOrCreate (cfg : KeyConfig) (addr : Addr) (normKey : CStr) (m : KeyMap τ β) :
    Option Addr × KeyMap τ β :=
  match lookup cfg normKey m with
  | some p => (some p, idleRemove p m)
  | none => if atLimit cfg m then (none, m) else (some addr, create cfg addr normKey m)

def pushBackTask (q : Addr) (t : τ) (m : KeyMap τ β) : KeyMap τ β :=
  { m with tasks := Function.update m.tasks q (m.tasks q++[t]) }

/-- The part of a push that runs on a queue already found. -/
def enqueue (q : Addr) (t : τ) (m : KeyMap τ β) : KeyMap τ β :=
  if (m.tasks q).isEmpty && !(m.info q).inflight then readyAdd q (pushBackTask q t m)
  else pushBackTask q t m

def keyQueuePushTask (cfg : KeyConfig) (addr : Addr) (normKey : CStr) (t : τ) (m : KeyMap τ β) :
    Bool × KeyMap τ β :=
  match keyQueueGetOrCreate cfg addr normKey m with
  | (none, m) => (false, m)
  | (some q, m) => (true, enqueue q t m)

def keyQueueReserve (cfg : KeyConfig) (addr : Addr) (normKey : CStr) (m : KeyMap τ β) :
    Bool × KeyMap τ β :=
  ((keyQueueGetOrCreate cfg addr normKey m).1.isSome,
    (keyQueueGetOrCreate cfg addr normKey m).2)

def keyQueuePushFrontTask (q : Addr) (t : τ) (m : KeyMap τ β) : KeyMap τ β :=
  { m with tasks := Function.update m.tasks q (t::m.tasks q) }

def keyQueuePopTask (q : Addr) (m : KeyMap τ β) : Option τ × KeyMap τ β :=
  match m.tasks q with
  | [] => (none, m)
  | t::l => (some t, { m with tasks := Function.update m.tasks q l })

/-- The sender puts the task back and delays the key. -/
def gateRequeue (q : Addr) (t : τ) (next : ℤ) (m : KeyMap τ β) : KeyMap τ β :=
  delayedAddSorted q next
    (setInfo q (fun i => { i with inflight := false }) (keyQueuePushFrontTask q t m))

def keyQueueFinish (cfg : KeyConfig) (now : ℤ) (q : Addr) (m : KeyMap τ β) : KeyMap τ β :=
  let m := setInfo q (fun i => { i with inflight := false }) m
  if !(m.tasks q).isEmpty then
    if decide (cfg.keyBreakerFailThreshold > 0) && decide ((m.info q).breakerOpenUntilMs > now)
    then delayedAddSorted q (m.info q).breakerOpenUntilMs m
    else readyAdd q m
  else if cfg.keyQueueIdleTtlMs > 0 then idleAdd q now m
  else keyQueueRemoveAndFree cfg q m

end KeyMap

end VeTls.Keys
