import VeTls.Keys.Map

/-!
# Send caches in the shared environment

The sender threads of the shared environment serve all producers and keep
the send configuration and the static credentials of the last one in
thread-local caches, valid as long as address and version agree. Versions
start from a seed shared by all producers and are then counted up in each
producer by itself. An address can be used again after `destroy`. The `Copies` of a
step say which of its allocations succeed.
-/

set_option autoImplicit false

namespace VeTls.Env

open VeTls.Keys (Addr CStr)

inductive Result where
  | ok
  | invalid
  | closed
  | dropError
  | timeout
  deriving DecidableEq, Repr

structure Settings where
  endpoint : CStr
  region : CStr
  topicId : CStr
  accessKeyId : Option CStr
  accessKeySecret : Option CStr
  securityToken : Option CStr
  deriving DecidableEq, Repr

structure Snapshot where
  sendCfgVersion : ℤ
  staticCredVersion : ℤ
  cfg : Settings
  deriving DecidableEq, Repr

structure Producer where
  cfg : Settings
  sendCfgVersion : ℤ
  staticCredVersion : ℤ
  runtimeSnapshot : Snapshot
  accepting : Bool
  deriving DecidableEq, Repr

/-- Which allocations of a call succeed: the copies of its arguments, the
blocks of a snapshot or cache whose absence makes the refresh fail, and the
copies of the credentials, which may be missing from a snapshot. -/
structure Copies where
  args : Bool
  block : Bool
  ak : Bool
  sk : Bool
  token : Bool
  deriving DecidableEq, Repr

def dup (ok : Bool) (s : Option CStr) : Option CStr := if ok then s else none

def isHttpUrl (s : CStr) : Bool :=
  [104, 116, 116, 112, 58, 47, 47].isPrefixOf s || [104, 116, 116, 112, 115, 58, 47, 47].isPrefixOf s

def strEmpty (s : Option CStr) : Bool := s.all (·.isEmpty)

def configIsValidForCreate (cfg : Settings) : Bool :=
  isHttpUrl cfg.endpoint && !cfg.region.isEmpty && !cfg.topicId.isEmpty &&
    !strEmpty cfg.accessKeyId && !strEmpty cfg.accessKeySecret

def snapshotOf (c : Copies) (p : Producer) : Snapshot :=
  { sendCfgVersion := p.sendCfgVersion
    staticCredVersion := p.staticCredVersion
    cfg := { p.cfg with
      accessKeyId := dup c.ak p.cfg.accessKeyId
      accessKeySecret := dup c.sk p.cfg.accessKeySecret
      securityToken := dup c.token p.cfg.securityToken } }

def runtimeSnapshotRefreshLocked (c : Copies) (p : Producer) : Option Producer :=
  if c.block then some { p with runtimeSnapshot := snapshotOf c p } else none

/-- An empty token is stored as none. -/
def tokenOf (s : Option CStr) : Option CStr := if strEmpty s then none else s

def newProducer (cfg : Settings) (sendCfgVersion staticCredVersion : ℤ) : Producer :=
  { cfg := { cfg with securityToken := tokenOf cfg.securityToken }
    sendCfgVersion, staticCredVersion
    runtimeSnapshot := ⟨sendCfgVersion, staticCredVersion, cfg⟩
    accepting := true }

def setEndpoint (endpoint : Option CStr) (p : Producer) : Producer :=
  match endpoint with
  | some e => { p with cfg := { p.cfg with endpoint := e }, sendCfgVersion := p.sendCfgVersion+1 }
  | none => p

def setRegion (region : Option CStr) (p : Producer) : Producer :=
  match region with
  | some r => { p with cfg := { p.cfg with region := r }, sendCfgVersion := p.sendCfgVersion+1 }
  | none => p

def setTopicId (topicId : Option CStr) (p : Producer) : Producer :=
  match topicId with
  | some t => { p with cfg := { p.cfg with topicId := t }, sendCfgVersion := p.sendCfgVersion+1 }
  | none => p

/-- The snapshot is renewed when anything changed. -/
def publish (changed : Bool) (c : Copies) (p : Producer) : Result × Producer :=
  if changed then
    match runtimeSnapshotRefreshLocked c p with
    | some p' => (.ok, p')
    | none => (.dropError, p)
  else (.ok, p)

def producerUpdateEndpoint (endpoint region topicId : Option CStr) (c : Copies) (p : Producer) :
    Result × Producer :=
  if endpoint.any (!isHttpUrl ·) || region.any (·.isEmpty) || topicId.any (·.isEmpty) then
    (.invalid, p)
  else if !c.args then (.dropError, p)
  else if !p.accepting then (.closed, p)
  else publish (endpoint.isSome || region.isSome || topicId.isSome) c
    (setTopicId topicId (setRegion region (setEndpoint endpoint p)))

def setKeys (ak sk : Option CStr) (p : Producer) : Producer :=
  match ak with
  | some _ => { p with
      cfg := { p.cfg with accessKeyId := ak, accessKeySecret := sk }
      staticCredVersion := p.staticCredVersion+1 }
  | none => p

def setToken (token : Option CStr) (p : Producer) : Producer :=
  match token with
  | some _ => { p with
      cfg := { p.cfg with securityToken := tokenOf token }
      staticCredVersion := p.staticCredVersion+1 }
  | none => p

def producerUpdateStaticCredentials (ak sk token : Option CStr) (c : Copies) (p : Producer) :
    Result × Producer :=
  if ak.any (·.isEmpty) || sk.any (·.isEmpty) then (.invalid, p)
  else if ak.isSome != sk.isSome then (.invalid, p)
  else if !c.args then (.dropError, p)
  else if !p.accepting then (.closed, p)
  else publish (ak.isSome || token.isSome) c (setToken token (setKeys ak sk p))

structure SendCfgCache where
  producer : Option Addr
  version : ℤ
  endpoint : CStr
  region : CStr
  topicId : CStr
  deriving DecidableEq, Repr

structure StaticCredCache where
  producer : Option Addr
  version : ℤ
  accessKeyId : Option CStr
  accessKeySecret : Option CStr
  securityToken : Option CStr
  deriving DecidableEq, Repr

def SendCfgCache.valid (c : SendCfgCache) (a : Addr) (p : Producer) : Prop :=
  c.producer = some a ∧ c.version = p.sendCfgVersion

def StaticCredCache.valid (c : StaticCredCache) (a : Addr) (p : Producer) : Prop :=
  c.producer = some a ∧ c.version = p.staticCredVersion

instance (c : SendCfgCache) (a : Addr) (p : Producer) : Decidable (c.valid a p) :=
  inferInstanceAs (Decidable (_ ∧ _))

instance (c : StaticCredCache) (a : Addr) (p : Producer) : Decidable (c.valid a p) :=
  inferInstanceAs (Decidable (_ ∧ _))

/-- The snapshot is taken only in the version the producer is in. -/
def sendCfgCacheRefresh (ok : Bool) (a : Addr) (p : Producer) (c : SendCfgCache) : SendCfgCache :=
  if p.runtimeSnapshot.sendCfgVersion = p.sendCfgVersion ∧ ok = true then
    { producer := some a
      version := p.sendCfgVersion
      endpoint := p.runtimeSnapshot.cfg.endpoint
      region := p.runtimeSnapshot.cfg.region
      topicId := p.runtimeSnapshot.cfg.topicId }
  else c

def staticCredCacheRefresh (k : Copies) (a : Addr) (p : Producer) (c : StaticCredCache) :
    StaticCredCache :=
  let ak := dup k.ak p.runtimeSnapshot.cfg.accessKeyId
  let sk := dup k.sk p.runtimeSnapshot.cfg.accessKeySecret
  if p.runtimeSnapshot.staticCredVersion = p.staticCredVersion ∧ ak.isSome = true ∧
      sk.isSome = true then
    { producer := some a
      version := p.staticCredVersion
      accessKeyId := ak
      accessKeySecret := sk
      securityToken := dup k.token p.runtimeSnapshot.cfg.securityToken }
  else c

structure State where
  sendCfgVersionSeed : ℤ
  staticCredVersionSeed : ℤ
  mem : Addr → Option Producer
  cfgCache : ℕ → SendCfgCache
  credCache : ℕ → StaticCredCache

def start : State :=
  ⟨1, 1, fun _ => none, fun _ => ⟨none, 0, [], [], []⟩, fun _ => ⟨none, 0, none, none, none⟩⟩

inductive Op where
  | create (a : Addr) (cfg : Settings) (c : Copies)
  | updateEndpoint (a : Addr) (endpoint region topicId : Option CStr) (c : Copies)
  | updateCredentials (a : Addr) (ak sk token : Option CStr) (c : Copies)
  | close (a : Addr)
  | destroy (a : Addr)
  | sendCfg (thread : ℕ) (a : Addr) (ok : Bool)
  | sendCred (thread : ℕ) (a : Addr) (c : Copies)

def setMem (a : Addr) (p : Option Producer) (s : State) : State :=
  { s with mem := Function.update s.mem a p }

/-- Calls on an address without a live producer do not happen, and the
allocator returns a free address. -/
def step (s : State) : Op → State
  | .create a cfg c =>
    if (s.mem a).isSome || !configIsValidForCreate cfg then s
    else
      let s := { s with
        sendCfgVersionSeed := s.sendCfgVersionSeed+1
        staticCredVersionSeed := s.staticCredVersionSeed+1 }
      setMem a (runtimeSnapshotRefreshLocked c
        (newProducer cfg s.sendCfgVersionSeed s.staticCredVersionSeed)) s
  | .updateEndpoint a endpoint region topicId c =>
    match s.mem a with
    | some p => setMem a (some (producerUpdateEndpoint endpoint region topicId c p).2) s
    | none => s
  | .updateCredentials a ak sk token c =>
    match s.mem a with
    | some p => setMem a (some (producerUpdateStaticCredentials ak sk token c p).2) s
    | none => s
  | .close a =>
    match s.mem a with
    | some p => setMem a (some { p with accepting := false }) s
    | none => s
  | .destroy a => setMem a none s
  | .sendCfg i a ok =>
    match s.mem a with
    | some p =>
      if (s.cfgCache i).valid a p then s
      else { s with
        cfgCache := Function.update s.cfgCache i (sendCfgCacheRefresh ok a p (s.cfgCache i)) }
    | none => s
  | .sendCred i a c =>
    match s.mem a with
    | some p =>
      if (s.credCache i).valid a p then s
      else { s with
        credCache := Function.update s.credCache i
          (staticCredCacheRefresh c a p (s.credCache i)) }
    | none => s

def run : List Op → State → State
  | [], s => s
  | op::ops, s => run ops (step s op)

/-- Whenever a sender finds a cache valid for a live producer, what it holds
is what that producer is configured with. -/
def Isolated (s : State) : Prop := ∀ i a p, s.mem a = some p →
  ((s.cfgCache i).valid a p → (s.cfgCache i).endpoint = p.cfg.endpoint ∧
    (s.cfgCache i).region = p.cfg.region ∧ (s.cfgCache i).topicId = p.cfg.topicId) ∧
  ((s.credCache i).valid a p → (s.credCache i).accessKeyId = p.cfg.accessKeyId ∧
    (s.credCache i).accessKeySecret = p.cfg.accessKeySecret ∧
    (s.credCache i).securityToken = p.cfg.securityToken)

end VeTls.Env
