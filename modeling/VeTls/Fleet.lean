import VeTls.Lib.Machine
import VeTls.System

/-!
# Producers that come and go

Producers at addresses, and application threads that share them. A thread has
one batch, which names its producer by address; `create` may return an
address that `destroy` has freed. What happens at one producer is a step of
`Sys`, seen from its address. A destroy with `use_global_env` is a close
followed by the destroy below.
-/

set_option autoImplicit false

namespace VeTls

/-- A live producer, the number of its creation and its own threads. -/
structure Home where
  birth : ℕ
  cfg : Config
  /-- What `ve_tls_normalize_hash_key` returns for the empty key: the literal
  `""` is zero. -/
  normKey : ℕ
  prod : Producer
  workers : ℕ → Worker
  senders : ℕ → Sender.Pc

/-- How far a destroy has come. -/
inductive Stage where
  | batch
  | sendQueue
  | join
  deriving DecidableEq, Repr

inductive Doing where
  | nothing
  | call (addr : ℕ)
  | destroy (addr : ℕ) (stage : Stage)
  deriving DecidableEq, Repr

structure Thread where
  doing : Doing
  writer : Writer
  /-- The `norm_key` of the batch. -/
  normKey : Option ℕ
  /-- History: the creations the logs of the batch were added to. -/
  births : List ℕ

structure Fleet where
  mem : ℕ → Option Home
  threads : ℕ → Thread
  created : ℕ

namespace Home

def create (birth : ℕ) (cfg : Config) (hashKey : ℕ) : Home :=
  ⟨birth, cfg, if cfg.hashKey.isEmpty then 0 else hashKey+1, producerCreate, fun _ => Worker.start,
    fun _ => Sender.start cfg⟩

def setup (n addr : ℕ) (h : Home) : Setup := ⟨h.cfg, n, addr⟩

def after (s : Sys) (h : Home) : Home :=
  { h with prod := s.prod, workers := s.workers, senders := s.senders }

end Home

namespace Thread

def start : Thread := ⟨.nothing, Writer.start, none, []⟩

/-- A thread seen from a producer: its calls to others are not. -/
def seen (addr : ℕ) (t : Thread) : Writer :=
  if t.doing = .call addr then t.writer else { t.writer with pc := .idle }

def heldLogs (w : Writer) : ℕ := (w.batch.builder.map fun b => b.logs.length).getD 0

def relabel (birth old new : ℕ) (births : List ℕ) : List ℕ :=
  (births++List.replicate (new-old) birth).take new

/-- A thread after a step of its call to the producer `birth`. -/
def after (addr birth : ℕ) (w : Writer) (t : Thread) : Thread :=
  ⟨if w.pc = .idle then .nothing else .call addr, w, t.normKey,
    relabel birth (heldLogs t.writer) (heldLogs w) t.births⟩

/-- A thread whose batch was freed. -/
def dropped (normKey : Option ℕ) (t : Thread) : Thread :=
  { t with writer := { t.writer with batch := ⟨none, none⟩ }, normKey, births := [] }

end Thread

namespace Fleet

inductive Act where
  | create (addr : ℕ) (cfg : Config) (hashKey : ℕ)
  | call (i addr : ℕ) (c : Call)
  | writer (i : ℕ) (input : Input)
  | worker (addr j : ℕ) (input : Worker.Input)
  | sender (addr j : ℕ) (input : Sender.Input)
  | destroy (i addr : ℕ)
  | destroying (i : ℕ)

def start : Fleet := ⟨fun _ => none, fun _ => Thread.start, 0⟩

def view (addr : ℕ) (h : Home) (f : Fleet) : Sys :=
  ⟨h.prod, fun i => (f.threads i).seen addr, h.workers, h.senders⟩

def setHome (addr : ℕ) (h : Option Home) (f : Fleet) : Fleet :=
  { f with mem := Function.update f.mem addr h }

def setThread (i : ℕ) (t : Thread) (f : Fleet) : Fleet :=
  { f with threads := Function.update f.threads i t }

/-- The calls a thread makes to the producer itself. -/
def here : Call → Bool
  | .elsewhere _ _ => false
  | _ => true

/-- The calls that go through the thread's batch. -/
def batches (cfg : Config) : Call → Bool
  | .addKv kv hashKey _ => !kv.kvs.isEmpty && Writer.tlsPath cfg hashKey
  | _ => false

/-- Freeing a batch takes its bytes off the producer it names. -/
def freeBatch (batch : TlsBatch) (f : Fleet) : Fleet :=
  match batch.producer with
  | none => f
  | some addr => f.setHome addr
      ((f.mem addr).map fun h => { h with prod := Writer.leaveBatch addr batch h.prod })

/-- A batch for another address or another key is freed. -/
def switch (i addr normKey : ℕ) (f : Fleet) : Fleet :=
  if (f.threads i).writer.batch.producer = some addr ∧ (f.threads i).normKey = some normKey then f
  else (f.freeBatch (f.threads i).writer.batch).setThread i ((f.threads i).dropped (some normKey))

/-- A step of the thread `i` at the producer `addr`. -/
def threadStep (n i addr : ℕ) (a : VeTls.Act) (f : Fleet) : Option Fleet := do
  let h ← f.mem addr
  let s ← Sys.step (h.setup n addr) (f.view addr h) a
  some ((f.setHome addr (some (h.after s))).setThread i
    ((f.threads i).after addr h.birth (s.writers i)))

/-- A step of one of the producer's own threads. -/
def ownStep (n addr : ℕ) (a : VeTls.Act) (f : Fleet) : Option Fleet := do
  let h ← f.mem addr
  let s ← Sys.step (h.setup n addr) (f.view addr h) a
  some (f.setHome addr (some (h.after s)))

def stopNow (p : Producer) : Producer :=
  { p with accepting := false, closing := false, stop := true }

def setDoing (i : ℕ) (d : Doing) (f : Fleet) : Fleet :=
  f.setThread i { f.threads i with doing := d }

def destroyStep (n i addr : ℕ) (h : Home) (f : Fleet) : Stage → Option Fleet
  | .batch =>
    if (f.threads i).writer.batch.producer = some addr then
      some (((f.freeBatch (f.threads i).writer.batch).setThread i
        ((f.threads i).dropped none)).setDoing i (.destroy addr .sendQueue))
    else some (f.setDoing i (.destroy addr .sendQueue))
  | .sendQueue => some ((f.setHome addr (some { h with
      prod := { h.prod with sendQueueStop := true } })).setDoing i (.destroy addr .join))
  | .join =>
    if Sys.joined (h.setup n addr) (f.view addr h) then
      some ((f.setHome addr none).setDoing i .nothing)
    else none

/-- One step; `n` threads use the producers. -/
def step (n : ℕ) (f : Fleet) : Act → Option Fleet
  | .create addr cfg hashKey =>
    if (f.mem addr).isSome then none
    else some { f.setHome addr (some (Home.create f.created cfg hashKey)) with
      created := f.created+1 }
  | .call i addr c => do
    let h ← f.mem addr
    if i < n ∧ (f.threads i).doing = .nothing ∧ here c = true then
      threadStep n i addr (.call i c) (if batches h.cfg c then f.switch i addr h.normKey else f)
    else none
  | .writer i input =>
    match (f.threads i).doing with
    | .call addr => threadStep n i addr (.writer i input) f
    | _ => none
  | .worker addr j input => ownStep n addr (.worker j input) f
  | .sender addr j input => ownStep n addr (.sender j input) f
  | .destroy i addr => do
    let h ← f.mem addr
    if i < n ∧ (f.threads i).doing = .nothing then
      some ((f.setHome addr (some { h with prod := stopNow h.prod })).setDoing i
        (.destroy addr .batch))
    else none
  | .destroying i =>
    match (f.threads i).doing with
    | .destroy addr stage => do
      let h ← f.mem addr
      if i < n then destroyStep n i addr h f stage else none
    | _ => none

def run (n : ℕ) (acts : List Act) (f : Fleet) : Option Fleet := Machine.run (step n) acts f

end Fleet

end VeTls
