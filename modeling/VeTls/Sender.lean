import VeTls.Worker

/-!
# Sender threads

A slow sender moves tasks from the send queue to the queues of their keys
and sends the first task of a key that is ready. With `fastSend` the key
queues are not used and `fastInflight` counts the tasks being sent. The
token buckets use floating point and the HTTP client is not part of the
repository: what they answer is input.
-/

set_option autoImplicit false

namespace VeTls

open VeTls.Keys (Addr CStr KeyMap)

/-- A task being sent, with the loop's counter, clock and breaker flags. -/
structure Send where
  task : SendTask
  attempt : ℤ
  start : ℤ
  entered : Bool
  halfOpen : Bool
  deriving DecidableEq, Repr

inductive Outcome where
  | noCredentials
  | sent
  | failed (retryable : Bool)
  deriving DecidableEq, Repr

namespace Sender

/-- Where a sender stands. `moving`, `pushing` and `counting` have a task
that is in no queue and not yet counted. -/
inductive Pc where
  | top
  | popSendQueue (block : Bool)
  | moving (task : SendTask)
  | pushing (task : SendTask)
  | counting (task : SendTask)
  | keyDrop (task : SendTask)
  | dropRelease (task : SendTask)
  | stopCheck
  | exitPop (pending : Bool)
  | exitCheck (pending : Bool)
  | gate (q : Addr) (send : Send)
  | requeue (q : Addr) (task : SendTask) (next : ℤ)
  | breakerWait (q : Addr) (send : Send)
  | breakerEnter (q : Addr) (send : Send)
  | attempt (q : Option Addr) (send : Send)
  | report (q : Option Addr) (send : Send) (sent : Bool)
  | breakerResult (q : Addr) (send : Send) (sent : Bool)
  | keyResult (q : Addr) (task : SendTask) (sent : Bool)
  | release (q : Option Addr) (task : SendTask)
  | finish (q : Addr)
  | uncount
  | exited
  deriving DecidableEq, Repr

def start (cfg : Config) : Pc := if cfg.fastSend then .popSendQueue true else .top

structure Input where
  now : ℤ
  now2 : ℤ
  addr : Addr
  /-- When the key's token bucket refuses: the time to try again. -/
  tokensAt : Option ℤ
  outcome : Outcome
  deriving DecidableEq, Repr

def moveSendTaskToInflight (t : SendTask) (p : Producer) : Producer :=
  { p with
    sendQueueBytes := p.sendQueueBytes-sendTaskMemoryBytes t
    inflightBytes := p.inflightBytes+sendTaskMemoryBytes t }

def releaseInflightTaskBytes (t : SendTask) (p : Producer) : Producer :=
  { p with inflightBytes := p.inflightBytes-sendTaskMemoryBytes t }

def firstSend (t : SendTask) (now : ℤ) : Send := ⟨t, 1, now, false, false⟩

/-- A ready key and its first task, or on to the send queue. -/
def top (i : Input) (p : Producer) : Pc × Producer :=
  let m := KeyMap.delayedPromoteDue i.now p.keys
  match KeyMap.readyPop m with
  | none => (.popSendQueue (m.delayed.isEmpty && !p.stop), { p with keys := m })
  | some (q, m) =>
    match KeyMap.keyQueuePopTask q m with
    | (none, m) => (.finish q, { p with keys := m })
    | (some t, m) => (.gate q (firstSend t i.now2), { p with keys := m })

def popSendQueue (cfg : Config) (block : Bool) (p : Producer) : Option (Pc × Producer) :=
  match p.sendQueue with
  | t::rest => some (.moving t, { p with sendQueue := rest })
  | [] => if block && !p.sendQueueStop then none
      else if cfg.fastSend then some (.exited, p)
      else some (.stopCheck, p)

def pushing (cfg : Config) (i : Input) (t : SendTask) (p : Producer) : Pc × Producer :=
  let r := KeyMap.keyQueuePushTask cfg.toKeyConfig i.addr (cfg.normalizeHashKey t.hashKey) t p.keys
  (if r.1 then .top else .keyDrop t, { p with keys := r.2 })

def keyPending (cfg : Config) (p : Producer) : Bool :=
  (KeyMap.live cfg.toKeyConfig p.keys).any fun q =>
    !(p.keys.tasks q).isEmpty || (p.keys.info q).inflight

def idleCleanup (cfg : Config) (i : Input) (p : Producer) : Producer :=
  if i.now > 0 ∧ i.now ≥ p.idleCleanupNextMs then
    { p with
      idleCleanupNextMs := i.now+1000
      keys := KeyMap.idleCleanup cfg.toKeyConfig i.now2 p.keys }
  else p

def stopCheck (cfg : Config) (i : Input) (p : Producer) : Pc × Producer :=
  if p.stop && p.keys.ready.isEmpty then (.exitPop (keyPending cfg p), p)
  else (.top, idleCleanup cfg i p)

def exitPop (pending : Bool) (p : Producer) : Pc × Producer :=
  match p.sendQueue with
  | t::rest => (.moving t, { p with sendQueue := rest })
  | [] => (.exitCheck pending, p)

def exitCheck (cfg : Config) (i : Input) (pending : Bool) (p : Producer) : Pc × Producer :=
  if pending then (.top, idleCleanup cfg i p) else (.exited, p)

def keyBreakerAllow (cfg : Config) (now : ℤ) (q : Addr) (p : Producer) : Bool :=
  decide (cfg.keyBreakerFailThreshold ≤ 0) || decide ((p.keys.info q).breakerOpenUntilMs = 0) ||
    decide (now ≥ (p.keys.info q).breakerOpenUntilMs)

def gate (cfg : Config) (i : Input) (q : Addr) (s : Send) (p : Producer) : Pc :=
  let allowed := keyBreakerAllow cfg i.now q p
  if allowed && i.tokensAt.isNone then
    if s.entered then .attempt (some q) s else .breakerWait q s
  else
    let next := max (if allowed then 0 else (p.keys.info q).breakerOpenUntilMs)
      (i.tokensAt.getD 0)
    .requeue q s.task (if next ≤ 0 then i.now+10 else next)

def breakerOpen (cfg : Config) (now : ℤ) (p : Producer) : Bool :=
  decide (cfg.breakerFailThreshold > 0) && decide (p.breakerOpenUntilMs ≠ 0) &&
    decide (now < p.breakerOpenUntilMs)

def breakerEnter (cfg : Config) (i : Input) (q : Addr) (s : Send) (p : Producer) : Pc × Producer :=
  if cfg.breakerFailThreshold ≤ 0 then (.attempt (some q) { s with entered := true }, p)
  else if !breakerOpen cfg i.now p &&
      decide (p.breakerHalfOpenInflight < cfg.breakerHalfOpenMaxInflight) then
    (.attempt (some q) { s with entered := true, halfOpen := true },
      { p with breakerHalfOpenInflight := p.breakerHalfOpenInflight+1 })
  else (.breakerWait q s, p)

def mayRetry (cfg : Config) (s : Send) (now : ℤ) : Bool :=
  !(decide (cfg.retryMaxAttempts > 0) && decide (s.attempt ≥ cfg.retryMaxAttempts)) &&
    !(decide (cfg.retryTotalTimeoutMs > 0) && decide (now-s.start ≥ cfg.retryTotalTimeoutMs))

def again (s : Send) : Option Addr → Pc
  | some q => .gate q { s with attempt := s.attempt+1 }
  | none => .attempt none { s with attempt := s.attempt+1 }

def attempted (t : SendTask) (p : Producer) : Producer :=
  { p with attempts := p.attempts++[t.batch] }

def attempt (cfg : Config) (i : Input) (q : Option Addr) (s : Send) (p : Producer) :
    Pc × Producer :=
  match i.outcome with
  | .noCredentials => (.report q s false, p)
  | .sent => (.report q s true, attempted s.task p)
  | .failed retryable =>
    (if retryable && mayRetry cfg s i.now then again s q else .report q s false,
      attempted s.task p)

def taskReport (t : SendTask) (sent : Bool) : Report :=
  ⟨sent, t.batchBytes, t.startId, t.endId, t.batch.ids, some t.batch⟩

def reported (s : Send) (sent : Bool) : Option Addr → Pc
  | some q => .breakerResult q s sent
  | none => .release none s.task

def openUntil (openMs now : ℤ) : ℤ := now+(if openMs > 0 then openMs else 30000)

def breakerResult (cfg : Config) (i : Input) (s : Send) (sent : Bool) (p : Producer) : Producer :=
  if !s.entered || decide (cfg.breakerFailThreshold ≤ 0) then p
  else
    let p := if s.halfOpen && decide (p.breakerHalfOpenInflight > 0) then
      { p with breakerHalfOpenInflight := p.breakerHalfOpenInflight-1 } else p
    if sent then { p with breakerConsecutiveFailures := 0, breakerOpenUntilMs := 0 }
    else
      { p with
        breakerConsecutiveFailures := p.breakerConsecutiveFailures+1
        breakerOpenUntilMs := if p.breakerConsecutiveFailures+1 ≥ cfg.breakerFailThreshold then
          openUntil cfg.breakerOpenMs i.now else p.breakerOpenUntilMs }

def keyResult (cfg : Config) (i : Input) (q : Addr) (sent : Bool) (p : Producer) : Producer :=
  if cfg.keyBreakerFailThreshold ≤ 0 then p
  else
    { p with keys := KeyMap.setInfo q (fun k =>
        if sent then { k with breakerConsecutiveFailures := 0, breakerOpenUntilMs := 0 }
        else
          { k with
            breakerConsecutiveFailures := k.breakerConsecutiveFailures+1
            breakerOpenUntilMs :=
              if k.breakerConsecutiveFailures+1 ≥ cfg.keyBreakerFailThreshold then
                openUntil cfg.keyBreakerOpenMs i.now else k.breakerOpenUntilMs }) p.keys }

def released : Option Addr → Pc
  | some q => .finish q
  | none => .uncount

/-- One step of a sender; `none` when it has to wait. -/
def step (cfg : Config) (i : Input) (pc : Pc) (p : Producer) : Option (Pc × Producer) :=
  if i.addr ∈ KeyMap.live cfg.toKeyConfig p.keys then none
  else match pc with
  | .top => some (top i p)
  | .popSendQueue block => popSendQueue cfg block p
  | .moving t =>
    some (if cfg.fastSend then .counting t else .pushing t, moveSendTaskToInflight t p)
  | .pushing t => some (pushing cfg i t p)
  | .counting t =>
    some (.attempt none (firstSend t i.now), { p with fastInflight := p.fastInflight+1 })
  | .keyDrop t => some (.dropRelease t, VeTls.report (taskReport t false) p)
  | .dropRelease t => some (.top, releaseInflightTaskBytes t p)
  | .stopCheck => some (stopCheck cfg i p)
  | .exitPop pending => some (exitPop pending p)
  | .exitCheck pending => some (exitCheck cfg i pending p)
  | .gate q s => some (gate cfg i q s p, p)
  | .requeue q t next => some (.top, { p with keys := KeyMap.gateRequeue q t next p.keys })
  | .breakerWait q s =>
    if breakerOpen cfg i.now p && !p.stop then none else some (.breakerEnter q s, p)
  | .breakerEnter q s => some (breakerEnter cfg i q s p)
  | .attempt q s => some (attempt cfg i q s p)
  | .report q s sent => some (reported s sent q, VeTls.report (taskReport s.task sent) p)
  | .breakerResult q s sent => some (.keyResult q s.task sent, breakerResult cfg i s sent p)
  | .keyResult q t sent => some (.release (some q) t, keyResult cfg i q sent p)
  | .release q t => some (released q, releaseInflightTaskBytes t p)
  | .finish q =>
    some (.top, { p with keys := KeyMap.keyQueueFinish cfg.toKeyConfig i.now q p.keys })
  | .uncount => some (.popSendQueue true, { p with fastInflight := p.fastInflight-1 })
  | .exited => none

end Sender

end VeTls
