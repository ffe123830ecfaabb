import VeTls.Env.Isolation

/-!
# Updates and sends, step by step

One producer, calls that update its configuration and any number of its own
sender threads. An update holds the mutex: it writes its values one by one,
each write counts a version up, and then it swaps the snapshot. Senders take
no mutex. They compare the version with their cache, and to renew the cache
they load the version and then the snapshot, up to four times, until both
agree. `calls` is history: the updates that have returned `VE_TLS_OK`.
Allocations succeed.
-/

set_option autoImplicit false

namespace VeTls.Env

open VeTls.Keys (Addr CStr)

inductive Write where
  | endpoint (s : CStr)
  | region (s : CStr)
  | topicId (s : CStr)
  | keys (ak sk : CStr)
  | token (s : CStr)
  deriving DecidableEq, Repr

/-- The new value and the version that goes with it. -/
def Write.apply (w : Write) (p : Producer) : Producer :=
  match w with
  | .endpoint s => setEndpoint (some s) p
  | .region s => setRegion (some s) p
  | .topicId s => setTopicId (some s) p
  | .keys ak sk => setKeys (some ak) (some sk) p
  | .token s => setToken (some s) p

inductive Update where
  | endpoint (endpoint region topicId : Option CStr)
  | credentials (ak sk token : Option CStr)
  deriving DecidableEq, Repr

/-- The checks of the arguments, made before the mutex is taken. -/
def Update.invalid : Update → Bool
  | .endpoint e r t => e.any (!isHttpUrl ·) || r.any (·.isEmpty) || t.any (·.isEmpty)
  | .credentials ak sk _ => ak.any (·.isEmpty) || sk.any (·.isEmpty) || ak.isSome != sk.isSome

/-- An update writes the arguments it was given, in this order. -/
def Update.writes : Update → List Write
  | .endpoint e r t =>
    (e.map Write.endpoint).toList++(r.map Write.region).toList++(t.map Write.topicId).toList
  | .credentials ak sk t =>
    (match ak, sk with
      | some a, some s => [.keys a s]
      | _, _ => [])++(t.map Write.token).toList

/-- `pending` is the update that has the mutex, with its writes to come. -/
structure Shared where
  prod : Producer
  pending : Option (Update × List Write)
  calls : List Update
  deriving Repr

/-- One of the two versions, its stamp in a snapshot, what goes with it and
the writes that count it up. -/
structure Line (β : Type) where
  version : Producer → ℤ
  stamp : Snapshot → ℤ
  value : Settings → β
  touched : Write → Bool

def Write.isCredential : Write → Bool
  | .keys _ _ | .token _ => true
  | _ => false

def sendCfgLine : Line (CStr × CStr × CStr) :=
  ⟨Producer.sendCfgVersion, Snapshot.sendCfgVersion, Settings.sendCfg, (!·.isCredential)⟩

def staticCredLine : Line (Option CStr × Option CStr × Option CStr) :=
  ⟨Producer.staticCredVersion, Snapshot.staticCredVersion, Settings.cred, (·.isCredential)⟩

structure Cached (β : Type) where
  version : ℤ
  value : β
  deriving DecidableEq, Repr

/-- Where a sender is in the use of a cache. `start` is the number of calls
that had returned when it looked at the cache, `n` the number of the try. -/
inductive Acquire where
  | check
  | load (n start : ℕ)
  | snapshot (n start : ℕ) (want : ℤ)
  deriving DecidableEq, Repr

inductive Acquired (β : Type) where
  | going (a : Acquire)
  | ready (start : ℕ) (c : Cached β)
  | failed

def Line.acquire {β : Type} (l : Line β) (s : Shared) (cache : Option (Cached β)) :
    Acquire → Acquired β
  | .check =>
    match cache with
    | some c => if c.version = l.version s.prod then .ready s.calls.length c
        else .going (.load 0 s.calls.length)
    | none => .going (.load 0 s.calls.length)
  | .load n start => .going (.snapshot n start (l.version s.prod))
  | .snapshot n start want =>
    if l.stamp s.prod.runtimeSnapshot = want then
      .ready start ⟨want, l.value s.prod.runtimeSnapshot.cfg⟩
    else if n+1 < 4 then .going (.load (n+1) start)
    else .failed

inductive SendError where
  | credentialsRefreshFailed
  | snapshotConfigFailed
  deriving DecidableEq, Repr

namespace SendThread

inductive Pc where
  | idle
  | cred (a : Acquire)
  | cfg (credStart : ℕ) (a : Acquire)
  | failed (e : SendError)
  deriving DecidableEq, Repr

end SendThread

structure SendThread where
  pc : SendThread.Pc
  cfgCache : Option (Cached (CStr × CStr × CStr))
  credCache : Option (Cached (Option CStr × Option CStr × Option CStr))
  deriving DecidableEq, Repr

/-- What a request was made with, and the calls that had returned when the
sender began to look at each of its caches. -/
structure Request where
  cred : Option CStr × Option CStr × Option CStr
  credStart : ℕ
  cfg : CStr × CStr × CStr
  cfgStart : ℕ
  deriving DecidableEq, Repr

namespace SendThread

def start : SendThread := ⟨.idle, none, none⟩

/-- A step of `ve_tls_get_signing_credentials`. -/
def getSigningCredentials (s : Shared) (a : Acquire) (t : SendThread) : SendThread :=
  match staticCredLine.acquire s t.credCache a with
  | .going a => { t with pc := .cred a }
  | .failed => { t with pc := .failed .credentialsRefreshFailed }
  | .ready start c =>
    if c.value.1.isSome && c.value.2.1.isSome then
      { t with pc := .cfg start .check, credCache := some c }
    else { t with pc := .failed .credentialsRefreshFailed }

/-- A step of `ve_tls_send_put_logs`, up to the request. -/
def sendPutLogs (s : Shared) (credStart : ℕ) (a : Acquire) (t : SendThread) :
    SendThread × Option Request :=
  match sendCfgLine.acquire s t.cfgCache a with
  | .going a => ({ t with pc := .cfg credStart a }, none)
  | .failed => ({ t with pc := .failed .snapshotConfigFailed }, none)
  | .ready start c => ({ t with pc := .idle, cfgCache := some c },
      t.credCache.map fun cred => ⟨cred.value, credStart, c.value, start⟩)

/-- An idle sender begins a send; a failed one drops its batch and goes on. -/
def step (s : Shared) (t : SendThread) : SendThread × Option Request :=
  match t.pc with
  | .idle => ({ t with pc := .cred .check }, none)
  | .cred a => (getSigningCredentials s a t, none)
  | .cfg credStart a => sendPutLogs s credStart a t
  | .failed _ => ({ t with pc := .idle }, none)

end SendThread

structure Net where
  shared : Shared
  threads : ℕ → SendThread
  requests : List Request

namespace Net

inductive Act where
  | begin (u : Update)
  | write
  | finish
  | close
  | send (i : ℕ)
  deriving DecidableEq, Repr

/-- A producer as `create` leaves it. -/
def start (cfg : Settings) (sendCfgVersion staticCredVersion : ℤ) : Net :=
  let p := newProducer cfg sendCfgVersion staticCredVersion
  ⟨⟨{ p with runtimeSnapshot := snapshotOf allCopies p }, none, []⟩, fun _ => SendThread.start, []⟩

/-- A call that is refused changes nothing; one that finds the mutex taken
has to wait. -/
def begin (u : Update) (s : Shared) : Option Shared :=
  if u.invalid then some s
  else if s.pending.isSome then none
  else if !s.prod.accepting then some s
  else some { s with pending := some (u, u.writes) }

def write (s : Shared) : Option Shared :=
  match s.pending with
  | some (u, w::ws) => some { s with prod := w.apply s.prod, pending := some (u, ws) }
  | _ => none

def finish (s : Shared) : Option Shared :=
  match s.pending with
  | some (u, []) => some
      { prod := (publish (!u.writes.isEmpty) allCopies s.prod).2
        pending := none
        calls := s.calls++[u] }
  | _ => none

def close (s : Shared) : Option Shared :=
  if s.pending.isSome then none else some { s with prod := { s.prod with accepting := false } }

def setShared (n : Net) (s : Shared) : Net := { n with shared := s }

def send (i : ℕ) (n : Net) : Net :=
  let r := (n.threads i).step n.shared
  { n with
    threads := Function.update n.threads i r.1
    requests := n.requests++r.2.toList }

def step (n : Net) : Act → Option Net
  | .begin u => (begin u n.shared).map n.setShared
  | .write => (write n.shared).map n.setShared
  | .finish => (finish n.shared).map n.setShared
  | .close => (close n.shared).map n.setShared
  | .send i => some (n.send i)

def run : List Act → Net → Option Net
  | [], n => some n
  | a::acts, n => (step n a).bind (run acts)

end Net

/-- What an update makes of the settings when it is one step. -/
def Write.set (w : Write) (c : Settings) : Settings :=
  match w with
  | .endpoint s => { c with endpoint := s }
  | .region s => { c with region := s }
  | .topicId s => { c with topicId := s }
  | .keys ak sk => { c with accessKeyId := some ak, accessKeySecret := some sk }
  | .token s => { c with securityToken := tokenOf (some s) }

def setAll (ws : List Write) (c : Settings) : Settings := ws.foldl (fun c w => w.set c) c

/-- The settings in force after the calls, one after the other. -/
def inForce (c : Settings) (calls : List Update) : Settings :=
  calls.foldl (fun c u => setAll u.writes c) c

theorem apply_cfg (w : Write) (p : Producer) : (w.apply p).cfg = w.set p.cfg := by
  cases w <;> rfl

theorem inForce_append (c : Settings) (calls : List Update) (u : Update) :
    inForce c (calls++[u]) = setAll u.writes (inForce c calls) := by
  rw [inForce, List.foldl_append]
  rfl

section Alone

/-- The writes of an update one after the other. -/
def applyAll (ws : List Write) (p : Producer) : Producer := ws.foldl (fun p w => w.apply p) p

/-- An update that nothing comes between is the call of the shared
environment's model. -/
theorem updateEndpoint_alone (e r t : Option CStr) (p : Producer)
    (hv : (Update.endpoint e r t).invalid = false) (ha : p.accepting = true) :
    producerUpdateEndpoint e r t allCopies p =
      publish (!(Update.endpoint e r t).writes.isEmpty) allCopies
        (applyAll (Update.endpoint e r t).writes p) := by
  have hinvalid : (e.any (!isHttpUrl ·) || r.any (·.isEmpty) || t.any (·.isEmpty)) = false := hv
  rw [producerUpdateEndpoint, hinvalid]
  simp only [Bool.false_eq_true, if_false, allCopies, Bool.not_true, ha]
  cases e <;> cases r <;> cases t <;> rfl

theorem updateStaticCredentials_alone (ak sk t : Option CStr) (p : Producer)
    (hv : (Update.credentials ak sk t).invalid = false) (ha : p.accepting = true) :
    producerUpdateStaticCredentials ak sk t allCopies p =
      publish (!(Update.credentials ak sk t).writes.isEmpty) allCopies
        (applyAll (Update.credentials ak sk t).writes p) := by
  have hinvalid : ak.any (·.isEmpty) = false ∧ sk.any (·.isEmpty) = false ∧
      (ak.isSome != sk.isSome) = false := by
    simpa [Update.invalid, and_assoc] using hv
  rw [producerUpdateStaticCredentials, hinvalid.1, hinvalid.2.1, hinvalid.2.2]
  simp only [Bool.false_eq_true, Bool.or_false, if_false, allCopies, Bool.not_true, ha]
  have hsome := hinvalid.2.2
  cases ak <;> cases sk <;> cases t <;> first | rfl | simp at hsome

end Alone

end VeTls.Env
