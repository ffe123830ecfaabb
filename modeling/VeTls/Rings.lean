import VeTls.Keys.Heap
import VeTls.Lib.Machine
import VeTls.Worker

/-!
# The rings of the queues

The raw queue and the key queues grow; the send queue and the ingress queue
have a fixed capacity. An operation that waits is modelled by one look at the
queue under its mutex, with the time that has passed since the call began.
Each queue is compared with the list of what it holds.
-/

set_option autoImplicit false

namespace VeTls.Rings

open VeTls.RingBuffer
open VeTls.Keys (Addr CStr KeyHeap)
open VeTls.Keys.KeyHeap (keyQueueInitCap)

/-- What one look returns: a code with what was taken out, or nothing yet. -/
inductive Reply (α : Type) where
  | rc (r : ℤ) (out : Option α)
  | waits
  deriving DecidableEq, Repr

variable {α τ : Type}

def code (done : Bool) : Reply α := if done then .rc 0 none else .rc (-1) none

def popReply (r : RingBuffer.Ring α) : Reply α × RingBuffer.Ring α :=
  match pop r with
  | none => (.rc (-1) none, r)
  | some (x, r) => (.rc 0 x, r)

def takeFirst : List α → Reply α × List α
  | [] => (.rc (-1) none, [])
  | x::l => (.rc 0 (some x), l)

theorem popReply_holds (r : RingBuffer.Ring α) (l : List α) (h : Holds r l) :
    (popReply r).1 = (takeFirst l).1 ∧ Holds (popReply r).2 (takeFirst l).2 := by
  cases l with
  | nil =>
    rw [popReply, pop_nil r h]
    exact ⟨rfl, h⟩
  | cons x l =>
    obtain ⟨r', hp, hh⟩ := pop_holds x r l h
    rw [popReply, hp]
    exact ⟨rfl, hh⟩

section KeyQueue

inductive KeyOp (τ : Type) where
  | pushTask (found : Bool) (t : τ)
  | pushFrontTask (t : τ)
  | popTask
  deriving DecidableEq, Repr

/-- `found` tells whether the map has, or could make, a queue for the key. -/
def keyQueuePushTask (found ok : Bool) (t : τ) (q : RingBuffer.Ring τ) :
    Option (Reply τ × RingBuffer.Ring τ) :=
  if !found then some (code false, q)
  else (pushChecked keyQueueInitCap ok t q).map fun r => (code r.1, r.2)

def keyQueuePushFrontTask (ok : Bool) (t : τ) (q : RingBuffer.Ring τ) :
    Option (Reply τ × RingBuffer.Ring τ) :=
  (pushFrontChecked keyQueueInitCap ok t q).map fun r => (code r.1, r.2)

def keyQueuePopTask (q : RingBuffer.Ring τ) : Option (Reply τ × RingBuffer.Ring τ) :=
  (popChecked q).map fun _ => popReply q

def keyStep (ok : Bool) (q : RingBuffer.Ring τ) : KeyOp τ → Option (Reply τ × RingBuffer.Ring τ)
  | .pushTask found t => keyQueuePushTask found ok t q
  | .pushFrontTask t => keyQueuePushFrontTask ok t q
  | .popTask => keyQueuePopTask q

def keySpec (l : List τ) : KeyOp τ → Reply τ × List τ
  | .pushTask found t => (code found, if found then l++[t] else l)
  | .pushFrontTask t => (code true, t::l)
  | .popTask => takeFirst l

theorem keyQueuePopTask_holds (q : RingBuffer.Ring τ) (l : List τ) (h : Holds q l) :
    ∃ q', keyQueuePopTask q = some ((takeFirst l).1, q') ∧ Holds q' (takeFirst l).2 := by
  obtain ⟨hr, hh⟩ := popReply_holds q l h
  refine ⟨(popReply q).2, ?_, hh⟩
  rw [keyQueuePopTask, popChecked_holds q l h, ← hr]
  rfl

theorem keyStep_spec (q : RingBuffer.Ring τ) (l : List τ) (op : KeyOp τ) (h : Holds q l) :
    ∃ q', keyStep true q op = some ((keySpec l op).1, q') ∧ Holds q' (keySpec l op).2 := by
  cases op with
  | pushTask found t =>
    cases found with
    | false => exact ⟨q, rfl, h⟩
    | true =>
      obtain ⟨q', hp, hh⟩ := pushChecked_holds keyQueueInitCap (by decide) true t q l h (.inl rfl)
      rw [ensure_true] at hp hh
      exact ⟨q', by simp [keyStep, keyQueuePushTask, keySpec, hp], hh⟩
  | pushFrontTask t =>
    obtain ⟨q', hp, hh⟩ :=
      pushFrontChecked_holds keyQueueInitCap (by decide) true t q l h (.inl rfl)
    rw [ensure_true] at hp hh
    exact ⟨q', by simp [keyStep, keyQueuePushFrontTask, keySpec, hp], hh⟩
  | popTask => exact keyQueuePopTask_holds q l h

/-- On the key heap a push stores into the ring of the queue that was found. -/
theorem pushBackTask_ring {β : Type} (q : Addr) (t : τ) (h : KeyHeap τ β) (l : List τ)
    (hl : Holds (h.ring q) l) :
    keyStep true (h.ring q) (.pushTask true t) =
      some (code true, (KeyHeap.pushBackTask q t h).ring q) := by
  obtain ⟨-, he, hc⟩ := ensure_holds keyQueueInitCap (by decide) (h.ring q) l hl
  obtain ⟨happ, -⟩ := appendChecked_holds t _ l he hc
  simp [keyStep, keyQueuePushTask, KeyHeap.pushBackTask, pushChecked, push, ensure_true,
    canCopy_of_holds true (h.ring q) l hl, happ]

end KeyQueue

section RawQueue

structure RawQueue where
  ring : RingBuffer.Ring RawItem
  bytes : UInt64

def queueInitCap : ℕ := 1024

/-- Which allocations of an operation succeed: the copies of data and key,
and the array of items. -/
structure RawMem where
  data : Bool
  dup : Bool
  ring : Bool
  deriving DecidableEq, Repr

def enough : RawMem := ⟨true, true, true⟩

inductive RawOp where
  | pushOwned (item : RawItem)
  | pushReservedOwned (item : RawItem)
  | push (item : RawItem)
  | pop
  | freeAll
  deriving DecidableEq, Repr

/-- An item without data is refused, a null pointer counted as no data. -/
def queueStore (charge : UInt64) (ok : Bool) (item : RawItem) (q : RawQueue) :
    Option (Reply RawItem × RawQueue) :=
  if item.size = 0 then some (code false, q)
  else (pushChecked queueInitCap ok item q.ring).map fun r =>
    (code r.1, ⟨r.2, if r.1 then q.bytes+charge else q.bytes⟩)

def queuePushOwned (ok : Bool) (item : RawItem) (q : RawQueue) :
    Option (Reply RawItem × RawQueue) :=
  queueStore (UInt64.ofNat item.size) ok item q

/-- The bytes were counted when the room for them was reserved. -/
def queuePushReservedOwned (ok : Bool) (item : RawItem) (q : RawQueue) :
    Option (Reply RawItem × RawQueue) :=
  queueStore 0 ok item q

def queuePush (mem : RawMem) (item : RawItem) (q : RawQueue) :
    Option (Reply RawItem × RawQueue) :=
  if !mem.data || (!item.hashKey.isEmpty && !mem.dup) then some (code false, q)
  else queuePushOwned mem.ring item q

def queuePop (q : RawQueue) : Option (Reply RawItem × RawQueue) :=
  (popChecked q.ring).map fun r =>
    match r with
    | none => (.rc (-1) none, q)
    | some (x, ring) =>
      (.rc 0 x, ⟨ring, q.bytes-x.elim 0 fun i => UInt64.ofNat i.size⟩)

def emptyRaw : RawQueue := ⟨RingBuffer.empty, 0⟩

def queueFreeAll (q : RawQueue) : RawQueue := if q.ring.hasBuf then emptyRaw else q

def rawStep (mem : RawMem) (q : RawQueue) : RawOp → Option (Reply RawItem × RawQueue)
  | .pushOwned i => queuePushOwned mem.ring i q
  | .pushReservedOwned i => queuePushReservedOwned mem.ring i q
  | .push i => queuePush mem i q
  | .pop => queuePop q
  | .freeAll => some (code true, queueFreeAll q)

def putItem (l : List RawItem) (i : RawItem) : Reply RawItem × List RawItem :=
  if i.size = 0 then (code false, l) else (code true, l++[i])

def rawSpec (l : List RawItem) : RawOp → Reply RawItem × List RawItem
  | .pushOwned i => putItem l i
  | .pushReservedOwned i => putItem l i
  | .push i => putItem l i
  | .pop => takeFirst l
  | .freeAll => (code true, [])

theorem queueStore_spec (charge : UInt64) (i : RawItem) (q : RawQueue) (l : List RawItem)
    (h : Holds q.ring l) :
    ∃ q', queueStore charge true i q = some ((putItem l i).1, q') ∧
      Holds q'.ring (putItem l i).2 := by
  unfold queueStore putItem
  split_ifs with hz
  · exact ⟨q, rfl, h⟩
  · obtain ⟨r, hp, hh⟩ := pushChecked_holds queueInitCap (by decide) true i q.ring l h (.inl rfl)
    rw [ensure_true] at hp hh
    exact ⟨_, by rw [hp]; rfl, hh⟩

theorem queuePop_spec (q : RawQueue) (l : List RawItem) (h : Holds q.ring l) :
    ∃ q', queuePop q = some ((takeFirst l).1, q') ∧ Holds q'.ring (takeFirst l).2 := by
  rw [queuePop, popChecked_holds q.ring l h]
  cases l with
  | nil =>
    rw [pop_nil q.ring h]
    exact ⟨q, rfl, h⟩
  | cons x l =>
    obtain ⟨r, hp, hh⟩ := pop_holds x q.ring l h
    rw [hp]
    exact ⟨_, rfl, hh⟩

theorem queueFreeAll_holds (q : RawQueue) (l : List RawItem) (h : Holds q.ring l) :
    Holds (queueFreeAll q).ring [] := by
  unfold queueFreeAll
  split_ifs with hb
  · exact empty_holds
  · have hcap : q.ring.cap = 0 := by
      by_contra hne
      exact hb (h.buf (Nat.pos_of_ne_zero hne))
    have hfits := h.fits
    have hl : l = [] := List.eq_nil_of_length_eq_zero (by omega)
    rw [← hl]
    exact h

theorem rawStep_spec (q : RawQueue) (l : List RawItem) (op : RawOp) (h : Holds q.ring l) :
    ∃ q', rawStep enough q op = some ((rawSpec l op).1, q') ∧ Holds q'.ring (rawSpec l op).2 := by
  cases op with
  | pushOwned i => exact queueStore_spec _ i q l h
  | pushReservedOwned i => exact queueStore_spec 0 i q l h
  | push i =>
    have hmem : queuePush enough i q = queuePushOwned true i q := by simp [queuePush, enough]
    rw [rawStep, hmem]
    exact queueStore_spec _ i q l h
  | pop => exact queuePop_spec q l h
  | freeAll => exact ⟨queueFreeAll q, rfl, queueFreeAll_holds q l h⟩

end RawQueue

/-- A caller that finds no room, or no task, waits for as long as it was
told to. -/
def waitTurn (waitMs waited late : ℤ) : Reply α :=
  if waitMs = 0 then .rc (-1) none
  else if waitMs < 0 then .waits
  else if waitMs-waited ≤ 0 then .rc late none
  else .waits

section SendQueue

structure SendQueue (τ : Type) where
  ring : RingBuffer.Ring τ
  stop : Bool

inductive SendOp (τ : Type) where
  | push (t : τ) (waitMs waited : ℤ)
  | pop (waitMs waited : ℤ)
  | stop
  deriving DecidableEq, Repr

def sendQueueInit (cap : ℕ) : Option (SendQueue τ) :=
  if cap = 0 then none else some ⟨fresh cap, false⟩

/-- `ok` tells whether there was a block for the task. -/
def sendQueuePush (ok : Bool) (t : τ) (waitMs waited : ℤ) (q : SendQueue τ) :
    Option (Reply τ × SendQueue τ) :=
  if !q.stop && decide (q.ring.count ≥ q.ring.cap) then some (waitTurn waitMs waited (-2), q)
  else if q.stop then some (code false, q)
  else if !ok then some (code false, q)
  else (appendChecked t q.ring).map fun r => (code true, { q with ring := r })

/-- A null slot is passed over. -/
def sendQueuePop (waitMs waited : ℤ) (q : SendQueue τ) : Option (Reply τ × SendQueue τ) :=
  if !q.stop && decide (q.ring.count = 0) then some (waitTurn waitMs waited (-2), q)
  else (popChecked q.ring).map fun r =>
    match r with
    | none => (code false, q)
    | some (none, r) => (code false, { q with ring := r })
    | some (some t, r) => (.rc 0 (some t), { q with ring := r })

def sendStep (ok : Bool) (q : SendQueue τ) : SendOp τ → Option (Reply τ × SendQueue τ)
  | .push t waitMs waited => sendQueuePush ok t waitMs waited q
  | .pop waitMs waited => sendQueuePop waitMs waited q
  | .stop => some (code true, { q with stop := true })

/-- A queue of at most `cap` tasks that can be stopped. -/
def sendSpec (cap : ℕ) (s : List τ × Bool) : SendOp τ → Reply τ × List τ × Bool
  | .push t waitMs waited =>
    if s.2 then (code false, s)
    else if s.1.length < cap then (code true, s.1++[t], s.2)
    else (waitTurn waitMs waited (-2), s)
  | .pop waitMs waited =>
    if s.1.isEmpty && !s.2 then (waitTurn waitMs waited (-2), s)
    else ((takeFirst s.1).1, (takeFirst s.1).2, s.2)
  | .stop => (code true, s.1, true)

/-- The ring has the fixed capacity and holds the list. -/
structure Bounded (cap : ℕ) (r : RingBuffer.Ring α) (l : List α) : Prop where
  holds : Holds r l
  cap : r.cap = cap

theorem Bounded.append (cap : ℕ) (r : RingBuffer.Ring α) (l : List α) (x : α)
    (h : Bounded cap r l) (hc : l.length < cap) :
    ∃ r', appendChecked x r = some r' ∧ Bounded cap r' (l++[x]) := by
  obtain ⟨happ, hh⟩ := appendChecked_holds x r l h.holds (by rw [h.cap]; exact hc)
  exact ⟨_, happ, hh, h.cap⟩

theorem Bounded.pop (cap : ℕ) (r : RingBuffer.Ring α) (l : List α) (x : α)
    (h : Bounded cap r (x::l)) :
    ∃ r', popChecked r = some (some (some x, r')) ∧ Bounded cap r' l := by
  obtain ⟨r', hp, hh⟩ := pop_holds x r l h.holds
  refine ⟨r', by rw [popChecked_holds r _ h.holds, hp], hh, ?_⟩
  rw [pop_cap _ r r' hp, h.cap]

theorem Bounded.pop_nil (cap : ℕ) (r : RingBuffer.Ring α) (h : Bounded cap r []) :
    popChecked r = some none := by
  rw [popChecked_holds r _ h.holds, RingBuffer.pop_nil r h.holds]

def SendHolds (cap : ℕ) (q : SendQueue τ) (s : List τ × Bool) : Prop :=
  Bounded cap q.ring s.1 ∧ q.stop = s.2

theorem sendQueuePush_spec (cap : ℕ) (t : τ) (waitMs waited : ℤ) (q : SendQueue τ)
    (s : List τ × Bool) (h : SendHolds cap q s) :
    ∃ q', sendQueuePush true t waitMs waited q =
        some ((sendSpec cap s (.push t waitMs waited)).1, q') ∧
      SendHolds cap q' (sendSpec cap s (.push t waitMs waited)).2 := by
  obtain ⟨ring, stop⟩ := q
  obtain ⟨l, stop'⟩ := s
  obtain ⟨hb, rfl⟩ : Bounded cap ring l ∧ stop = stop' := h
  have hcount := hb.holds.count
  simp only [sendQueuePush, sendSpec, hcount, hb.cap]
  cases stop with
  | true => exact ⟨⟨ring, true⟩, by simp, hb, rfl⟩
  | false =>
    by_cases hc : l.length < cap
    · obtain ⟨r, happ, hr⟩ := hb.append cap ring l t hc
      refine ⟨⟨r, false⟩, by simp [happ, hc, not_le.mpr hc], ?_⟩
      rw [if_neg Bool.false_ne_true, if_pos hc]
      exact ⟨hr, rfl⟩
    · refine ⟨⟨ring, false⟩, by simp [hc, not_lt.mp hc], ?_⟩
      rw [if_neg Bool.false_ne_true, if_neg hc]
      exact ⟨hb, rfl⟩

theorem sendQueuePop_spec (cap : ℕ) (waitMs waited : ℤ) (q : SendQueue τ) (s : List τ × Bool)
    (h : SendHolds cap q s) :
    ∃ q', sendQueuePop waitMs waited q = some ((sendSpec cap s (.pop waitMs waited)).1, q') ∧
      SendHolds cap q' (sendSpec cap s (.pop waitMs waited)).2 := by
  obtain ⟨ring, stop⟩ := q
  obtain ⟨l, stop'⟩ := s
  obtain ⟨hb, rfl⟩ : Bounded cap ring l ∧ stop = stop' := h
  have hcount := hb.holds.count
  simp only [sendQueuePop, sendSpec, hcount]
  cases l with
  | nil =>
    cases stop with
    | true => exact ⟨⟨ring, true⟩, by simp [hb.pop_nil cap ring, code, takeFirst], hb, rfl⟩
    | false => exact ⟨⟨ring, false⟩, by simp, hb, rfl⟩
  | cons t l =>
    obtain ⟨r, hp, hr⟩ := hb.pop cap ring l t
    exact ⟨⟨r, stop⟩, by simp [hp, takeFirst], hr, rfl⟩

theorem sendStep_spec (cap : ℕ) (q : SendQueue τ) (s : List τ × Bool) (op : SendOp τ)
    (h : SendHolds cap q s) :
    ∃ q', sendStep true q op = some ((sendSpec cap s op).1, q') ∧
      SendHolds cap q' (sendSpec cap s op).2 := by
  cases op with
  | push t waitMs waited => exact sendQueuePush_spec cap t waitMs waited q s h
  | pop waitMs waited => exact sendQueuePop_spec cap waitMs waited q s h
  | stop => exact ⟨_, rfl, h.1, rfl⟩

end SendQueue

section IngressQueue

structure IngressQueue where
  ring : RingBuffer.Ring IngressTask
  bytes : UInt64

/-- `closed` tells whether the producer is stopping or accepts no more. -/
inductive IngressOp where
  | push (task : IngressTask) (closed : Bool) (waitMs waited : ℤ)
  | pop
  deriving DecidableEq, Repr

def ingressQueueInit (cap : ℕ) : Option IngressQueue :=
  if cap = 0 then none else some ⟨fresh cap, 0⟩

def IngressTask.bytes (t : IngressTask) : UInt64 := UInt64.ofNat t.batch.logsLen

def ingressTurn (closed : Bool) (waitMs waited : ℤ) : Reply IngressTask :=
  if closed then .rc (-2) none else waitTurn waitMs waited (-3)

def ingressQueuePush (t : IngressTask) (closed : Bool) (waitMs waited : ℤ) (q : IngressQueue) :
    Option (Reply IngressTask × IngressQueue) :=
  if !q.ring.hasBuf || decide (q.ring.cap = 0) then some (code false, q)
  else if q.ring.count ≥ q.ring.cap then some (ingressTurn closed waitMs waited, q)
  else (appendChecked t q.ring).map fun r => (code true, ⟨r, q.bytes+IngressTask.bytes t⟩)

def ingressQueuePop (q : IngressQueue) : Option (Reply IngressTask × IngressQueue) :=
  if !q.ring.hasBuf then some (code false, q)
  else (popChecked q.ring).map fun r =>
    match r with
    | none => (code false, q)
    | some (none, r) => (.rc 0 none, { q with ring := r })
    | some (some t, r) => (.rc 0 (some t),
        ⟨r, if q.bytes ≥ IngressTask.bytes t then q.bytes-IngressTask.bytes t else 0⟩)

def ingressStep (q : IngressQueue) : IngressOp → Option (Reply IngressTask × IngressQueue)
  | .push t closed waitMs waited => ingressQueuePush t closed waitMs waited q
  | .pop => ingressQueuePop q

/-- A queue of at most `cap` batches. -/
def ingressSpec (cap : ℕ) (l : List IngressTask) : IngressOp → Reply IngressTask × List IngressTask
  | .push t closed waitMs waited =>
    if l.length < cap then (code true, l++[t]) else (ingressTurn closed waitMs waited, l)
  | .pop => takeFirst l

theorem ingressStep_spec (cap : ℕ) (hcap : 0 < cap) (q : IngressQueue) (l : List IngressTask)
    (op : IngressOp) (h : Bounded cap q.ring l) :
    ∃ q', ingressStep q op = some ((ingressSpec cap l op).1, q') ∧
      Bounded cap q'.ring (ingressSpec cap l op).2 := by
  have hbuf : q.ring.hasBuf = true := h.holds.buf (by rw [h.cap]; exact hcap)
  cases op with
  | push t closed waitMs waited =>
    simp only [ingressStep, ingressQueuePush, ingressSpec, hbuf, h.cap, h.holds.count]
    by_cases hc : l.length < cap
    · obtain ⟨r, happ, hr⟩ := h.append cap q.ring l t hc
      rw [if_pos hc]
      exact ⟨⟨r, q.bytes+IngressTask.bytes t⟩, by simp [happ, not_le.mpr hc, hcap.ne'], hr⟩
    · rw [if_neg hc]
      exact ⟨q, by simp [not_lt.mp hc, hcap.ne'], h⟩
  | pop =>
    simp only [ingressStep, ingressQueuePop, ingressSpec, hbuf]
    cases l with
    | nil => exact ⟨q, by simp [h.pop_nil cap q.ring, code, takeFirst], h⟩
    | cons t l =>
      obtain ⟨r, hp, hr⟩ := h.pop cap q.ring l t
      refine ⟨⟨r, if q.bytes ≥ IngressTask.bytes t then q.bytes-IngressTask.bytes t else 0⟩, ?_, hr⟩
      simp [hp, takeFirst]

/-- The codes of the ingress queue as the writers see them. -/
def waitOf (start : ℤ) : Reply IngressTask → Wait
  | .waits => .block start
  | .rc r _ =>
    if r = 0 then .rc .ok else if r = -1 then .rc .full
    else if r = -2 then .rc .closed else .rc .timeout

/-- The list of batches in a producer is what the ring holds. -/
theorem ingressQueuePush_producer (cfg : Config) (p : Producer) (key : CStr) (b : Builder)
    (force : Bool) (waitMs start now : ℤ) :
    ((ingressQueuePushLocked cfg p key b force waitMs start now).1,
        (ingressQueuePushLocked cfg p key b force waitMs start now).2.ingressQueue) =
      (fun r => (waitOf start r.1, r.2)) (ingressSpec cfg.ingressQueueCap p.ingressQueue
        (.push ⟨key, b, force⟩ (p.stop || !p.accepting) waitMs (now-start))) := by
  simp only [ingressQueuePushLocked, ingressSpec, ingressTurn, waitTurn]
  by_cases hc : p.ingressQueue.length < cfg.ingressQueueCap
  · rw [if_neg (not_le.mpr hc), if_pos hc]
    rfl
  · rw [if_pos (not_lt.mp hc), if_neg hc]
    split_ifs <;> rfl

end IngressQueue

/-- The ring holds the list and its indices are below the capacity. -/
def Carries (r : RingBuffer.Ring α) (l : List α) : Prop :=
  Holds r l ∧ (0 < r.cap → r.head < r.cap ∧ r.tail < r.cap)

theorem carries_of_holds (r : RingBuffer.Ring α) (l : List α) (h : Holds r l) : Carries r l :=
  ⟨h, fun hc => ⟨h.head_lt r l hc, h.tail_lt r l hc⟩⟩

/-- The run returns what is expected of it, in a state that stands for the
one that is expected. -/
def Behaves {ρ σ κ : Type} (run : Option (List ρ × σ)) (expected : List ρ × κ)
    (R : σ → κ → Prop) : Prop :=
  ∃ s, run = some (expected.1, s) ∧ R s expected.2

open VeTls.Machine (trace replies trace_simulates)

theorem key_run (ops : List (KeyOp τ)) :
    Behaves (trace (keyStep true) ops RingBuffer.empty) (replies keySpec ops []) Carries := by
  obtain ⟨q, hrun, hq⟩ := trace_simulates (keyStep true) keySpec Holds
    (fun q l op h => keyStep_spec q l op h) ops _ _ (empty_holds : Holds (α := τ) _ _)
  exact ⟨q, hrun, carries_of_holds q _ hq⟩

theorem raw_run (ops : List RawOp) :
    Behaves (trace (rawStep enough) ops emptyRaw) (replies rawSpec ops [])
      (fun q l => Carries q.ring l) := by
  obtain ⟨q, hrun, hq⟩ := trace_simulates (rawStep enough) rawSpec (fun q l => Holds q.ring l)
    (fun q l op h => rawStep_spec q l op h) ops emptyRaw [] empty_holds
  exact ⟨q, hrun, carries_of_holds q.ring _ hq⟩

theorem send_run (cap : ℕ) (hcap : 0 < cap) (ops : List (SendOp τ)) :
    Behaves ((sendQueueInit cap).bind (trace (sendStep true) ops))
      (replies (sendSpec cap) ops ([], false))
      (fun q s => Carries q.ring s.1 ∧ q.ring.cap = cap ∧ q.stop = s.2) := by
  obtain ⟨q, hrun, hq, hstop⟩ := trace_simulates (sendStep true) (sendSpec cap) (SendHolds cap)
    (fun q s op h => sendStep_spec cap q s op h) ops ⟨fresh cap, false⟩ ([], false)
    ⟨⟨fresh_holds cap hcap, rfl⟩, rfl⟩
  refine ⟨q, ?_, carries_of_holds q.ring _ hq.holds, hq.cap, hstop⟩
  rw [sendQueueInit, if_neg hcap.ne']
  exact hrun

theorem ingress_run (cap : ℕ) (hcap : 0 < cap) (ops : List IngressOp) :
    Behaves ((ingressQueueInit cap).bind (trace ingressStep ops))
      (replies (ingressSpec cap) ops [])
      (fun q l => Carries q.ring l ∧ q.ring.cap = cap) := by
  obtain ⟨q, hrun, hq⟩ := trace_simulates ingressStep (ingressSpec cap)
    (fun q l => Bounded cap q.ring l) (fun q l op h => ingressStep_spec cap hcap q l op h) ops
    ⟨fresh cap, 0⟩ [] ⟨fresh_holds cap hcap, rfl⟩
  refine ⟨q, ?_, carries_of_holds q.ring _ hq.holds, hq.cap⟩
  rw [ingressQueueInit, if_neg hcap.ne']
  exact hrun

/-- Whatever is asked of them, the four queues return what the lists return
and hold what the lists hold, in order. -/
theorem rings_refine_lists (cap : ℕ) (hcap : 0 < cap) (keyOps : List (KeyOp τ))
    (rawOps : List RawOp) (sendOps : List (SendOp τ)) (ingressOps : List IngressOp) :
    Behaves (trace (keyStep true) keyOps RingBuffer.empty) (replies keySpec keyOps []) Carries ∧
    Behaves (trace (rawStep enough) rawOps emptyRaw) (replies rawSpec rawOps [])
      (fun q l => Carries q.ring l) ∧
    Behaves ((sendQueueInit cap).bind (trace (sendStep true) sendOps))
      (replies (sendSpec cap) sendOps ([], false))
      (fun q s => Carries q.ring s.1 ∧ q.ring.cap = cap ∧ q.stop = s.2) ∧
    Behaves ((ingressQueueInit cap).bind (trace ingressStep ingressOps))
      (replies (ingressSpec cap) ingressOps [])
      (fun q l => Carries q.ring l ∧ q.ring.cap = cap) :=
  ⟨key_run keyOps, raw_run rawOps, send_run cap hcap sendOps, ingress_run cap hcap ingressOps⟩

theorem rings_refine_lists_one :
    (∃ q, trace (keyStep true) [.pushTask true 7, .pushFrontTask 8, .popTask] RingBuffer.empty =
        some ([.rc 0 none, .rc 0 none, .rc 0 (some 8)], q) ∧ Carries q [7]) ∧
    ∃ q, (sendQueueInit 1).bind (trace (sendStep true) [.push 7 0 0, .push 8 0 0, .pop 0 0]) =
        some ([.rc 0 none, .rc (-1) none, .rc 0 (some 7)], q) ∧
      Carries q.ring ([] : List ℕ) ∧ q.ring.cap = 1 ∧ q.stop = false :=
  ⟨(rings_refine_lists 1 (by decide) [.pushTask true 7, .pushFrontTask 8, .popTask] [] [] []).1,
    (rings_refine_lists 1 (by decide) [] [] [.push 7 0 0, .push 8 0 0, .pop 0 0] []).2.2.1⟩

end VeTls.Rings
