import VeTls.Pipeline.Overtaking

/-!
# Settings of a new producer

Before a producer is created, five of its settings are derived from the
buffer size wherever they have their initial values. A caller who asks for an
initial value cannot be told from one who asks for nothing: one send thread
means two or more.
-/

set_option autoImplicit false

namespace VeTls

def runtimeDefaultPackageBytes (maxBufferBytes : ℤ) : ℤ :=
  if maxBufferBytes > 0 ∧ maxBufferBytes ≤ 64*1024*1024 then 2*1024*1024 else 4*1024*1024

def runtimeDefaultThreadCount (maxBufferBytes : ℤ) : ℤ :=
  if maxBufferBytes > 0 ∧ maxBufferBytes ≤ 64*1024*1024 then 2
  else if maxBufferBytes > 0 ∧ maxBufferBytes ≤ 256*1024*1024 then 4
  else 8

def runtimeDefaultSendQueueSize (maxBufferBytes logBytesPerPackage : ℤ) : ℤ :=
  let base := if maxBufferBytes > 0 ∧ logBytesPerPackage > 0 then
      8+maxBufferBytes/logBytesPerPackage
    else 8
  if base < 8 then 8 else if base > 128 then 128 else base

def producerConfigApplyRuntimeDefaults (cfg : Config) : Config :=
  let derivedLogBytes := runtimeDefaultPackageBytes cfg.maxBufferBytes
  let logBytesPerPackage := if cfg.logBytesPerPackage = 10*1024*1024 then derivedLogBytes
    else cfg.logBytesPerPackage
  let sendThreadCount := if cfg.sendThreadCount = 1 then
      runtimeDefaultThreadCount cfg.maxBufferBytes
    else cfg.sendThreadCount
  { cfg with
    logBytesPerPackage
    logCountPerPackage := if cfg.logCountPerPackage = 2048 then 4096 else cfg.logCountPerPackage
    sendThreadCount
    packThreadCount := if cfg.packThreadCount = 1 then sendThreadCount else cfg.packThreadCount
    sendQueueSize := if cfg.sendQueueSize = 1024 then
        runtimeDefaultSendQueueSize cfg.maxBufferBytes
          (if logBytesPerPackage > 0 then logBytesPerPackage else derivedLogBytes)
      else cfg.sendQueueSize }

/-- No setting that can be derived has its initial value. -/
structure Config.Explicit (cfg : Config) : Prop where
  logBytesPerPackage : cfg.logBytesPerPackage ≠ 10*1024*1024
  logCountPerPackage : cfg.logCountPerPackage ≠ 2048
  sendThreadCount : cfg.sendThreadCount ≠ 1
  packThreadCount : cfg.packThreadCount ≠ 1
  sendQueueSize : cfg.sendQueueSize ≠ 1024

theorem runtimeDefaultThreadCount_many (maxBufferBytes : ℤ) :
    2 ≤ runtimeDefaultThreadCount maxBufferBytes := by
  unfold runtimeDefaultThreadCount
  split
  · decide
  · split <;> decide

theorem runtimeDefaultPackageBytes_small (maxBufferBytes : ℤ) :
    runtimeDefaultPackageBytes maxBufferBytes ≤ 4*1024*1024 := by
  unfold runtimeDefaultPackageBytes
  split <;> decide

theorem runtimeDefaultSendQueueSize_range (maxBufferBytes logBytesPerPackage : ℤ) :
    8 ≤ runtimeDefaultSendQueueSize maxBufferBytes logBytesPerPackage ∧
      runtimeDefaultSendQueueSize maxBufferBytes logBytesPerPackage ≤ 128 := by
  unfold runtimeDefaultSendQueueSize
  dsimp only
  generalize (if maxBufferBytes > 0 ∧ logBytesPerPackage > 0 then
    8+maxBufferBytes/logBytesPerPackage else 8) = base
  split
  · decide
  · split
    · decide
    · omega

theorem applyRuntimeDefaults_sendThreadCount (cfg : Config) :
    (producerConfigApplyRuntimeDefaults cfg).sendThreadCount ≤ 1 ↔ cfg.sendThreadCount ≤ 0 := by
  have hmany := runtimeDefaultThreadCount_many cfg.maxBufferBytes
  show (if cfg.sendThreadCount = 1 then _ else _) ≤ (1 : ℤ) ↔ _
  split <;> omega

theorem applyRuntimeDefaults_sendThreadCount_ne (cfg : Config) :
    (producerConfigApplyRuntimeDefaults cfg).sendThreadCount ≠ 1 := by
  have hmany := runtimeDefaultThreadCount_many cfg.maxBufferBytes
  show (if cfg.sendThreadCount = 1 then _ else _) ≠ (1 : ℤ)
  split <;> omega

theorem applyRuntimeDefaults_packThreadCount (cfg : Config) :
    (producerConfigApplyRuntimeDefaults cfg).packThreadCount =
      if cfg.packThreadCount = 1 then (producerConfigApplyRuntimeDefaults cfg).sendThreadCount
      else cfg.packThreadCount := rfl

/-- What is derived is never an initial value. -/
theorem applyRuntimeDefaults_explicit (cfg : Config) :
    (producerConfigApplyRuntimeDefaults cfg).Explicit where
  logBytesPerPackage := by
    have hsmall := runtimeDefaultPackageBytes_small cfg.maxBufferBytes
    show (if cfg.logBytesPerPackage = 10*1024*1024 then _ else _) ≠ (10*1024*1024 : ℤ)
    split <;> omega
  logCountPerPackage := by
    show (if cfg.logCountPerPackage = 2048 then 4096 else _) ≠ (2048 : ℤ)
    split <;> omega
  sendThreadCount := applyRuntimeDefaults_sendThreadCount_ne cfg
  packThreadCount := by
    have hsend := applyRuntimeDefaults_sendThreadCount_ne cfg
    rw [applyRuntimeDefaults_packThreadCount]
    split
    · exact hsend
    · assumption
  sendQueueSize := by
    show (if cfg.sendQueueSize = 1024 then runtimeDefaultSendQueueSize _ _ else _) ≠ (1024 : ℤ)
    split
    · exact fun he => absurd (he ▸ (runtimeDefaultSendQueueSize_range _ _).2) (by decide)
    · assumption

/-- The settings of a caller are all kept exactly when each of the five is
other than its initial value. -/
theorem applyRuntimeDefaults_eq_iff (cfg : Config) :
    producerConfigApplyRuntimeDefaults cfg = cfg ↔ cfg.Explicit := by
  constructor
  · intro h
    exact h ▸ applyRuntimeDefaults_explicit cfg
  · intro h
    simp only [producerConfigApplyRuntimeDefaults, if_neg h.logBytesPerPackage,
      if_neg h.logCountPerPackage, if_neg h.sendThreadCount, if_neg h.packThreadCount,
      if_neg h.sendQueueSize]

theorem applyRuntimeDefaults_idem (cfg : Config) :
    producerConfigApplyRuntimeDefaults (producerConfigApplyRuntimeDefaults cfg) =
      producerConfigApplyRuntimeDefaults cfg :=
  (applyRuntimeDefaults_eq_iff _).mpr (applyRuntimeDefaults_explicit cfg)

theorem Config.workerCount_one (cfg : Config) :
    cfg.workerCount = 1 ↔ cfg.packThreadCount ≤ 1 := by
  unfold workerCount
  split <;> omega

theorem Config.senderCount_one (cfg : Config) :
    cfg.senderCount = 1 ↔ cfg.sendThreadCount ≤ 1 := by
  unfold senderCount
  split <;> omega

/-- Only a caller who asks for no send thread gets a single one. -/
theorem applyRuntimeDefaults_single (cfg : Config) :
    (producerConfigApplyRuntimeDefaults cfg).workerCount = 1 ∧
      (producerConfigApplyRuntimeDefaults cfg).senderCount = 1 ↔
    cfg.sendThreadCount ≤ 0 ∧ cfg.packThreadCount ≤ 1 := by
  have hsend := applyRuntimeDefaults_sendThreadCount cfg
  rw [Config.workerCount_one, Config.senderCount_one, applyRuntimeDefaults_packThreadCount]
  split <;> omega

namespace Sys

/-- The threads of a producer that is created with the settings. -/
def created (st : Setup) : Setup := { st with cfg := producerConfigApplyRuntimeDefaults st.cfg }

/-- A caller who asks for no send thread, and for one pack thread. -/
def noneAsked : Setup :=
  ⟨{ keyQueueBucketCount := 1, orderedSend := true, sendThreadCount := 0 }, 1, 0⟩

/-- With one thread of each kind asked for, two workers overtake each other. -/
def oneAsked : Setup := ⟨{ keyQueueBucketCount := 1, orderedSend := true }, 1, 0⟩

example : ∃ s, run (created oneAsked)
      (addFor 9++packBy 0 1++addFor 10++packBy 1 6++sendBy 0++packBy 0 5++sendBy 0)
      (start (created oneAsked)) = some s ∧
    s.prod.attempts.map Batch.no = [1, 0] ∧ ¬SentInOrder (created oneAsked).cfg s.prod.attempts :=
  ⟨_, rfl, by decide, by decide⟩

end Sys

end VeTls
