import VeTls.Keys.Map

/-!
# Configuration

The settings the write and send paths read, and the limits derived from
them. Settings are `int32_t` values and stay integers here; what is used as a
`size_t` is converted where the source converts it.
-/

set_option autoImplicit false

namespace VeTls

open VeTls.Keys (CStr KeyConfig)

inductive BufferFullPolicy where
  | drop
  | block
  deriving DecidableEq, Repr

inductive SendQueueFullPolicy where
  | block
  | drop
  | dropSampled
  deriving DecidableEq, Repr

inductive BreakerIngressPolicy where
  | allow
  | failFast
  | dropWithCallback
  deriving DecidableEq, Repr

structure Config extends KeyConfig where
  hashKey : CStr := []
  useGlobalEnv : Bool := false
  orderedSend : Bool := false
  rateLimitRps : ℤ := 0
  rateLimitBps : ℤ := 0
  keyRateLimitRps : ℤ := 0
  keyRateLimitBps : ℤ := 0
  breakerFailThreshold : ℤ := 0
  breakerOpenMs : ℤ := 30000
  breakerHalfOpenMaxInflight : ℤ := 1
  keyBreakerOpenMs : ℤ := 30000
  breakerIngressPolicy : BreakerIngressPolicy := .allow
  maxBufferBytes : ℤ := 64*1024*1024
  bufferFullPolicy : BufferFullPolicy := .drop
  bufferFullBlockTimeoutMs : ℤ := 0
  logBytesPerPackage : ℤ := 2*1024*1024
  logCountPerPackage : ℤ := 4096
  flushIntervalMs : ℤ := 1000
  sendThreadCount : ℤ := 1
  packThreadCount : ℤ := 1
  sendQueueSize : ℤ := 128
  sendQueueFullPolicy : SendQueueFullPolicy := .drop
  sendQueueBlockTimeoutMs : ℤ := 100
  sendQueueSampleEveryN : ℤ := 10
  aggStrategy : ℤ := 1
  aggMaxRawBytesPerRequest : ℤ := 10*1024*1024
  aggMaxCompressedBytesPerRequest : ℤ := 5*1024*1024
  /-- Neither `lz4` nor `zlib` is set, so bodies go out as they are. -/
  compressNone : Bool := false
  retryMaxAttempts : ℤ := 5
  retryTotalTimeoutMs : ℤ := 90*1000
  /-- Length of the encoded source, file name, tags and context flow. -/
  groupSuffixLen : ℕ := 0

namespace Config

def normalizeHashKey (cfg : Config) (hashKey : CStr) : CStr :=
  if hashKey.isEmpty then cfg.hashKey else hashKey

def effectivePackageBytes (cfg : Config) : ℕ :=
  let bytes := cfg.logBytesPerPackage.toNat
  let maxRaw := cfg.aggMaxRawBytesPerRequest.toNat
  let bytes := if cfg.aggMaxRawBytesPerRequest > 0 ∧ (bytes = 0 ∨ bytes > maxRaw) then maxRaw
    else bytes
  if bytes = 0 then 256*1024 else bytes

def senderCount (cfg : Config) : ℕ :=
  if cfg.sendThreadCount > 0 then cfg.sendThreadCount.toNat else 1

def workerCount (cfg : Config) : ℕ :=
  if cfg.packThreadCount > 0 then cfg.packThreadCount.toNat else 1

def desiredSendReservedBytes (cfg : Config) : ℕ :=
  if effectivePackageBytes cfg > (2^64-1)/senderCount cfg then 2^64-1
  else effectivePackageBytes cfg*senderCount cfg

def effectiveSendReservedBytes (cfg : Config) : ℕ :=
  if cfg.maxBufferBytes ≤ 0 then 0
  else min (desiredSendReservedBytes cfg) (cfg.maxBufferBytes.toNat/2)

def fastSend (cfg : Config) : Bool :=
  !cfg.useGlobalEnv && !cfg.orderedSend && decide (cfg.rateLimitRps ≤ 0) &&
    decide (cfg.rateLimitBps ≤ 0) && decide (cfg.breakerFailThreshold ≤ 0) &&
    decide (cfg.keyRateLimitRps ≤ 0) && decide (cfg.keyRateLimitBps ≤ 0) &&
    decide (cfg.keyBreakerFailThreshold ≤ 0)

def fastBuilder (cfg : Config) : Bool :=
  !cfg.useGlobalEnv && !cfg.orderedSend && decide (cfg.keyQueueMaxActive ≤ 0) &&
    decide (cfg.keyQueueIdleTtlMs ≤ 0) && decide (cfg.keyRateLimitRps ≤ 0) &&
    decide (cfg.keyRateLimitBps ≤ 0) && decide (cfg.keyBreakerFailThreshold ≤ 0)

def sendQueueCap (cfg : Config) : ℕ :=
  if cfg.sendQueueSize > 0 then cfg.sendQueueSize.toNat else 1024

def ingressQueueCap (cfg : Config) : ℕ := sendQueueCap cfg

/-- Bytes at which a builder is sealed; zero is no limit. -/
def byteLimit (cfg : Config) : ℕ :=
  let bytes := cfg.logBytesPerPackage.toNat
  let maxRaw := cfg.aggMaxRawBytesPerRequest.toNat
  if cfg.aggMaxRawBytesPerRequest > 0 ∧ (bytes = 0 ∨ bytes > maxRaw) then maxRaw else bytes

def mergeCount (cfg : Config) : ℕ :=
  if cfg.logCountPerPackage > 0 then cfg.logCountPerPackage.toNat else 256

/-- Bytes at which a thread's batch is merged. -/
def mergeBytes (cfg : Config) : ℕ :=
  let quarter := cfg.maxBufferBytes.toNat/4
  if cfg.maxBufferBytes > 0 ∧ quarter ≥ 16*1024 ∧ effectivePackageBytes cfg > quarter then quarter
  else effectivePackageBytes cfg

end Config

end VeTls
