import VeTls.Pipeline.Budget

/-!
# From a sealed builder to the send queue

With nothing on the send side a worker that packs a builder on its own asks
for the bytes its reservations need on top of what the write path holds. The
reservations follow from the task and the compressors' answers.
-/

set_option autoImplicit false

namespace VeTls

open VeTls.Keys (Addr CStr KeyMap)

/-- The part of `ve_tls_config_is_valid_for_create` about the budget. -/
def Config.budgetValidForCreate (cfg : Config) : Bool :=
  decide (cfg.bufferFullPolicy ≠ .block) ||
    (decide (cfg.maxBufferBytes > 0) && decide (cfg.bufferFullBlockTimeoutMs > 0) &&
      decide (cfg.effectivePackageBytes ≤ cfg.maxBufferBytes.toNat/2))

namespace Worker

/-- The job a worker asks bytes for. -/
def asksFor : Pc → Option Job
  | .scratchLock job => some job
  | .scratchWait job _ => some job
  | .sendLock job => some job
  | .sendWait job _ => some job
  | _ => none

def packing : Pc → Bool
  | .prepare _ => true
  | .compress _ => true
  | .keyReserve _ => true
  | pc => (asksFor pc).isSome

/-- A worker packs on its own; the compressors answer as given. -/
inductive Packs (cfg : Config) (pooled compressed : Option ℕ) (x : Worker × Producer) :
    Worker × Producer → Prop
  | refl : Packs cfg pooled compressed x x
  | step {y z : Worker × Producer} (i : Input) (hy : Packs cfg pooled compressed x y)
      (hpack : packing y.1.pc = true) (hpool : i.pooled = pooled)
      (hcomp : i.compressed = compressed) (hs : Worker.step cfg i y.1 y.2 = some z) :
      Packs cfg pooled compressed x z

/-- No request for bytes on the way ends in a drop. -/
def GetsThrough (cfg : Config) (pooled compressed : Option ℕ) (x : Worker × Producer) : Prop :=
  ∀ (y z : Worker × Producer) (i : Input) (job : Job), Packs cfg pooled compressed x y →
    i.pooled = pooled → i.compressed = compressed → asksFor y.1.pc = some job →
    Worker.step cfg i y.1 y.2 = some z → z.1.pc ≠ .drop job

def keyOpen (cfg : Config) (keys : KeyMap SendTask Builder) (t : SendTask) : Bool :=
  (KeyMap.lookup cfg.toKeyConfig (cfg.normalizeHashKey t.hashKey) keys).isSome ||
    !KeyMap.atLimit cfg.toKeyConfig keys

/-- What a prepared task asks for, if it is neither too large nor refused at
the key limit. -/
def sendReservations (cfg : Config) (keys : KeyMap SendTask Builder) (t : SendTask) : List ℕ :=
  if tooLarge cfg t then []
  else if cfg.fastSend || keyOpen cfg keys t then [sendTaskMemoryBytes t]
  else []

def withCompressed (n : ℕ) (t : SendTask) : SendTask := { t with precompressedSize := n }

def compressedReservations (cfg : Config) (keys : KeyMap SendTask Builder)
    (compressed : Option ℕ) (t : SendTask) : List ℕ :=
  match compressed with
  | some n => if n > 0 then sendReservations cfg keys (withCompressed n t) else []
  | none => []

/-- The bytes asked for one after the other while a task is packed. -/
def reservations (cfg : Config) (keys : KeyMap SendTask Builder) (pooled compressed : Option ℕ)
    (t : SendTask) : List ℕ :=
  if t.bodySize = 0 then []
  else if shouldSkipCompress cfg t.bodySize then sendReservations cfg keys t
  else
    match pooled.filter (0 < ·) with
    | some n => sendReservations cfg keys (withCompressed n t)
    | none => compressScratchBound t.bodySize::compressedReservations cfg keys compressed t

/-- The requests that are still to come. -/
def left (cfg : Config) (pooled compressed : Option ℕ) (keys : KeyMap SendTask Builder) :
    Pc → List ℕ
  | .prepare job => reservations cfg keys pooled compressed job.task
  | .scratchLock job =>
    compressScratchBound job.task.bodySize::compressedReservations cfg keys compressed job.task
  | .compress job => compressedReservations cfg keys compressed job.task
  | .keyReserve job => if keyOpen cfg keys job.task then [sendTaskMemoryBytes job.task] else []
  | .sendLock job => [sendTaskMemoryBytes job.task]
  | _ => []

/-- Scratch bytes held while the body is compressed. -/
def charged : Pc → ℕ
  | .compress job => compressScratchBound job.task.bodySize
  | _ => 0

def blocked : Pc → Bool
  | .scratchWait _ _ => true
  | .sendWait _ _ => true
  | _ => false

/-- Nothing but the worker's own scratch is on the send side, and the worker
is not in the middle of a wait. -/
structure Alone (y : Worker × Producer) : Prop where
  queued : y.2.sendQueueBytes = 0
  inflight : y.2.inflightBytes = 0
  scratch : y.2.scratchBytes = charged y.1.pc
  awake : blocked y.1.pc = false

theorem sizeAddSat_fits (a b n limit : ℕ) (h : limit < 2^31) :
    sizeAddSat a b+n ≤ limit ↔ a+b+n ≤ limit := by
  unfold sizeAddSat
  split
  · omega
  · exact Iff.rfl

theorem sizeAddSat_zero (a : ℕ) : sizeAddSat a 0 = a := by
  rw [sizeAddSat, if_neg (Nat.not_lt_zero _), Nat.add_zero]

theorem space_iff (cfg : Config) (hb : Bounded cfg) (p : Producer) (need : ℕ)
    (hq : p.sendQueueBytes = 0) (hi : p.inflightBytes = 0) (hs : p.scratchBytes = 0) :
    hasBufferSpaceLocked cfg p need true = true ↔
      usedIngress p+need ≤ cfg.maxBufferBytes.toNat := by
  have hpos := hb.pos
  have hlt := hb.lt
  have hm : cfg.maxBufferBytes.toNat < 2^31 := by omega
  rw [hasBufferSpaceLocked, if_neg (by omega)]
  simp only [if_true, sizeFitsLimit_iff, bufferedBytesLocked, hq, hi, hs, sizeAddSat_zero,
    usedIngress]
  rw [sizeAddSat_fits _ _ _ _ hm, Nat.add_assoc, sizeAddSat_fits _ _ _ _ hm]
  omega

section Left

variable (cfg : Config) (pooled compressed : Option ℕ) (keys : KeyMap SendTask Builder)

theorem left_prepared (job : Job) :
    left cfg pooled compressed keys (prepared cfg job) = sendReservations cfg keys job.task := by
  unfold prepared sendReservations
  split
  · rfl
  · split
    · rename_i hfast
      rw [if_pos (by rw [hfast]; rfl)]
      rfl
    · rename_i hfast
      simp only [left, hfast, Bool.false_or]

theorem left_prepare (i : Input) (job : Job) (hpool : i.pooled = pooled) :
    left cfg pooled compressed keys (prepare cfg i job) =
      reservations cfg keys pooled compressed job.task := by
  unfold prepare reservations
  split
  · rfl
  · split
    · exact left_prepared cfg pooled compressed keys job
    · rw [hpool]
      cases pooled with
      | none => rfl
      | some n =>
        by_cases hn : 0 < n
        · rw [Option.filter_some_pos (by simpa using hn)]
          simp only [gt_iff_lt, hn, if_true]
          exact left_prepared cfg (some n) compressed keys (setCompressed n job)
        · rw [Option.filter_some_neg (by simpa using hn)]
          simp only [gt_iff_lt, hn, if_false]
          rfl

theorem left_compressDone (i : Input) (job : Job) (hcomp : i.compressed = compressed) :
    left cfg pooled compressed keys (compressDone cfg i job) =
      compressedReservations cfg keys compressed job.task := by
  unfold compressDone compressedReservations
  rw [hcomp]
  cases compressed with
  | none => rfl
  | some n =>
    by_cases hn : 0 < n
    · simp only [gt_iff_lt, hn, if_true]
      exact left_prepared cfg pooled (some n) keys (setCompressed n job)
    · simp only [gt_iff_lt, hn, if_false]
      rfl

/-- A task being packed holds no scratch and does not wait when it is
prepared. -/
def Settled (pc : Pc) : Prop := charged pc = 0 ∧ blocked pc = false

theorem settled_prepared (job : Job) : Settled (prepared cfg job) := by
  unfold prepared
  split
  · exact ⟨rfl, rfl⟩
  · split
    · exact ⟨rfl, rfl⟩
    · exact ⟨rfl, rfl⟩

theorem prepare_cases (i : Input) (job : Job) :
    prepare cfg i job = .drop job ∨ prepare cfg i job = .scratchLock job ∨
      ∃ job', prepare cfg i job = prepared cfg job' := by
  unfold prepare
  split
  · exact .inl rfl
  · split
    · exact .inr (.inr ⟨job, rfl⟩)
    · split
      · rename_i n _
        split
        · exact .inr (.inr ⟨setCompressed n job, rfl⟩)
        · exact .inr (.inl rfl)
      · exact .inr (.inl rfl)

theorem compressDone_cases (i : Input) (job : Job) :
    compressDone cfg i job = .drop job ∨ ∃ job', compressDone cfg i job = prepared cfg job' := by
  unfold compressDone
  split
  · rename_i n _
    split
    · exact .inr ⟨setCompressed n job, rfl⟩
    · exact .inl rfl
  · exact .inl rfl

theorem settled_prepare (i : Input) (job : Job) : Settled (prepare cfg i job) := by
  obtain h | h | ⟨job', h⟩ := prepare_cases cfg i job
  · rw [h]
    exact ⟨rfl, rfl⟩
  · rw [h]
    exact ⟨rfl, rfl⟩
  · rw [h]
    exact settled_prepared cfg job'

theorem settled_compressDone (i : Input) (job : Job) : Settled (compressDone cfg i job) := by
  obtain h | ⟨job', h⟩ := compressDone_cases cfg i job
  · rw [h]
    exact ⟨rfl, rfl⟩
  · rw [h]
    exact settled_prepared cfg job'

end Left

section Requests

variable {cfg : Config} {pooled compressed : Option ℕ}

/-- Room for everything that is still asked for. -/
def Roomy (cfg : Config) (pooled compressed : Option ℕ) (y : Worker × Producer) : Prop :=
  ∀ n ∈ left cfg pooled compressed y.2.keys y.1.pc, usedIngress y.2+n ≤ cfg.maxBufferBytes.toNat

theorem wait_ok {p : Producer} {need : ℕ} (i : Input)
    (h : hasBufferSpaceLocked cfg p need true = true) :
    waitBufferSpaceLocked cfg p need true i.now i.now2 = (.rc .ok, p) := by
  simp only [waitBufferSpaceLocked, h, if_true, ite_self]

theorem scratch_bound_lt {n : ℕ} (h : compressScratchBound n < 2^31) :
    compressScratchBound n ≠ 2^64-1 := by
  intro he
  rw [he] at h
  exact absurd h (by decide)

theorem scratchLock_granted (hb : Bounded cfg) {w : Worker} {p : Producer} {job : Job} (i : Input)
    (hw : w.pc = .scratchLock job) (ha : Alone (w, p))
    (hfit : usedIngress p+compressScratchBound job.task.bodySize ≤ cfg.maxBufferBytes.toNat) :
    Worker.step cfg i w p = some ({ w with pc := .compress job },
      { p with scratchBytes := p.scratchBytes+compressScratchBound job.task.bodySize }) := by
  have hlt := hb.lt
  have hscratch : p.scratchBytes = 0 := by simpa [hw, charged] using ha.scratch
  have hspace := (space_iff cfg hb p _ ha.queued ha.inflight hscratch).mpr hfit
  simp only [Worker.step, hw]
  rw [if_neg (scratch_bound_lt (by omega)), wait_ok i hspace]
  rfl

theorem sendLock_granted (hb : Bounded cfg) {w : Worker} {p : Producer} {job : Job} (i : Input)
    (hw : w.pc = .sendLock job) (ha : Alone (w, p))
    (hfit : usedIngress p+sendTaskMemoryBytes job.task ≤ cfg.maxBufferBytes.toNat) :
    Worker.step cfg i w p = some ({ w with pc := .push job i.now },
      { p with sendQueueBytes := p.sendQueueBytes+sendTaskMemoryBytes job.task }) := by
  have hscratch : p.scratchBytes = 0 := by simpa [hw, charged] using ha.scratch
  have hspace := (space_iff cfg hb p _ ha.queued ha.inflight hscratch).mpr hfit
  simp only [Worker.step, hw]
  rw [wait_ok i hspace]
  rfl

theorem keyQueueReserve_fst (addr : Addr) (key : CStr) (keys : KeyMap SendTask Builder) :
    (KeyMap.keyQueueReserve cfg.toKeyConfig addr key keys).1 =
      ((KeyMap.lookup cfg.toKeyConfig key keys).isSome ||
        !KeyMap.atLimit cfg.toKeyConfig keys) := by
  unfold KeyMap.keyQueueReserve KeyMap.keyQueueGetOrCreate
  cases KeyMap.lookup cfg.toKeyConfig key keys with
  | some q => rfl
  | none => cases KeyMap.atLimit cfg.toKeyConfig keys <;> rfl

/-- What is said of any number of scratch bytes is said of a bound near the
end of `size_t` without evaluating it. -/
theorem alone_compress {w : Worker} {p : Producer} {job : Job} {n : ℕ} (ha : Alone (w, p))
    (hw : charged w.pc = 0) (hn : n = compressScratchBound job.task.bodySize) :
    Alone ({ w with pc := .compress job }, { p with scratchBytes := p.scratchBytes+n }) := by
  have hscratch : p.scratchBytes = 0 := ha.scratch.trans hw
  refine ⟨ha.queued, ha.inflight, ?_, rfl⟩
  simp only [hscratch, Nat.zero_add, charged, hn]

theorem roomy_compress {w : Worker} {p : Producer} {job : Job} (n : ℕ) :
    Roomy cfg pooled compressed ({ w with pc := .compress job },
      { p with scratchBytes := p.scratchBytes+n }) ↔
    ∀ m ∈ compressedReservations cfg p.keys compressed job.task,
      usedIngress p+m ≤ cfg.maxBufferBytes.toNat := by
  simp only [Roomy, left, usedIngress]

theorem alone_released {w : Worker} {p : Producer} {n : ℕ} (pc : Pc) (ha : Alone (w, p))
    (hn : charged w.pc = n) (hpc : Settled pc) :
    Alone ({ w with pc := pc }, releaseScratchBytes n p) := by
  refine ⟨ha.queued, ha.inflight, ?_, hpc.2⟩
  have hscratch : p.scratchBytes = n := ha.scratch.trans hn
  simp only [releaseScratchBytes, hpc.1, hscratch, Nat.sub_self]

theorem releaseScratchBytes_keys (n : ℕ) (p : Producer) :
    (releaseScratchBytes n p).keys = p.keys := rfl

theorem releaseScratchBytes_usedIngress (n : ℕ) (p : Producer) :
    usedIngress (releaseScratchBytes n p) = usedIngress p := rfl

/-- A request that fits is granted at once, and what is still asked for after
a step was asked for before. -/
theorem roomy_step (hb : Bounded cfg) {w : Worker} {p : Producer} {z : Worker × Producer}
    (i : Input) (ha : Alone (w, p)) (hroom : Roomy cfg pooled compressed (w, p))
    (hpack : packing w.pc = true) (hpool : i.pooled = pooled) (hcomp : i.compressed = compressed)
    (hs : Worker.step cfg i w p = some z) :
    (∀ job, asksFor w.pc = some job → z.1.pc ≠ .drop job) ∧
      (packing z.1.pc = true → Alone z ∧ Roomy cfg pooled compressed z) := by
  cases hw : w.pc with
  | prepare job =>
    simp only [Worker.step, hw, Option.some.injEq] at hs
    subst hs
    refine ⟨nofun, fun _ => ⟨⟨ha.queued, ha.inflight, ?_, ?_⟩, ?_⟩⟩
    · have hscratch := ha.scratch
      rw [hw] at hscratch
      exact hscratch.trans (settled_prepare cfg i job).1.symm
    · exact (settled_prepare cfg i job).2
    · intro n hn
      rw [left_prepare cfg pooled compressed _ i job hpool] at hn
      exact hroom n (by rw [hw]; exact hn)
  | scratchLock job =>
    have hfit : ∀ n ∈ compressScratchBound job.task.bodySize::compressedReservations cfg p.keys
        compressed job.task, usedIngress p+n ≤ cfg.maxBufferBytes.toNat := by
      intro n hn
      refine hroom n ?_
      simpa only [hw, left] using hn
    rw [scratchLock_granted hb i hw ha (hfit _ List.mem_cons_self), Option.some.injEq] at hs
    subst hs
    exact ⟨fun _ _ => nofun, fun _ => ⟨alone_compress ha (by rw [hw]; rfl) rfl,
      (roomy_compress _).mpr fun n hn => hfit n (List.mem_cons_of_mem _ hn)⟩⟩
  | compress job =>
    simp only [Worker.step, hw, Option.some.injEq] at hs
    subst hs
    refine ⟨nofun, fun _ => ⟨alone_released _ ha ?_ (settled_compressDone cfg i job), ?_⟩⟩
    · simp only [hw, charged]
    · intro n hn
      rw [left_compressDone cfg pooled compressed _ i job hcomp, releaseScratchBytes_keys] at hn
      rw [releaseScratchBytes_usedIngress]
      refine hroom n ?_
      simpa only [hw, left] using hn
  | keyReserve job =>
    obtain ⟨addr, hz⟩ : ∃ addr, keyReserve cfg addr job w p = z := by
      simp only [Worker.step, hw] at hs
      split at hs
      · cases hs
      · rename_i a _ _
        split at hs
        · cases hs
        · exact ⟨a, Option.some.inj hs⟩
    subst hz
    refine ⟨nofun, fun hz => ?_⟩
    have hscratch : p.scratchBytes = 0 := by simpa [hw, charged] using ha.scratch
    have hopen : keyOpen cfg p.keys job.task = true := by
      by_contra hclosed
      rw [keyOpen, ← keyQueueReserve_fst addr] at hclosed
      simp [keyReserve, hclosed, packing, asksFor] at hz
    have hz : (keyReserve cfg addr job w p).1.pc = .sendLock job := by
      rw [keyOpen, ← keyQueueReserve_fst addr] at hopen
      simp only [keyReserve, hopen, if_true]
    refine ⟨⟨ha.queued, ha.inflight, ?_, ?_⟩, ?_⟩
    · rw [hz]
      exact hscratch
    · rw [hz]
      rfl
    · intro n hn
      rw [hz] at hn
      refine hroom n ?_
      rw [hw]
      simpa only [left, hopen, if_true] using hn
  | sendLock job =>
    have hfit : usedIngress p+sendTaskMemoryBytes job.task ≤ cfg.maxBufferBytes.toNat :=
      hroom _ (by rw [hw]; exact List.mem_singleton_self _)
    rw [sendLock_granted hb i hw ha hfit, Option.some.injEq] at hs
    subst hs
    exact ⟨fun _ _ => nofun, nofun⟩
  | scratchWait job deadline => exact absurd ha.awake (by rw [hw]; nofun)
  | sendWait job deadline => exact absurd ha.awake (by rw [hw]; nofun)
  | _ => simp [hw, packing, asksFor] at hpack

/-- From a state with room no request on the way is refused. -/
theorem roomy_getsThrough (hb : Bounded cfg) (x : Worker × Producer) (ha : Alone x)
    (hroom : Roomy cfg pooled compressed x) : GetsThrough cfg pooled compressed x := by
  have hreach : ∀ y, Packs cfg pooled compressed x y → packing y.1.pc = true →
      Alone y ∧ Roomy cfg pooled compressed y := by
    intro y hy
    induction hy with
    | refl => exact fun _ => ⟨ha, hroom⟩
    | step i _ hpack hpool hcomp hs ih =>
      obtain ⟨hay, hry⟩ := ih hpack
      exact (roomy_step hb i hay hry hpack hpool hcomp hs).2
  intro y z i job hy hpool hcomp hres hs
  have hpack : packing y.1.pc = true := by
    cases hw : y.1.pc with
    | scratchLock j => rfl
    | scratchWait j d => rfl
    | sendLock j => rfl
    | sendWait j d => rfl
    | _ => rw [hw] at hres; cases hres
  obtain ⟨hay, hry⟩ := hreach y hy hpack
  exact (roomy_step hb i hay hry hpack hpool hcomp hs).1 job hres

theorem Packs.trans {x y z : Worker × Producer} (hxy : Packs cfg pooled compressed x y)
    (hyz : Packs cfg pooled compressed y z) : Packs cfg pooled compressed x z := by
  induction hyz with
  | refl => exact hxy
  | step i _ hpack hpool hcomp hs ih => exact .step i ih hpack hpool hcomp hs

theorem GetsThrough.next {x z : Worker × Producer} (i : Input)
    (h : GetsThrough cfg pooled compressed x) (hpack : packing x.1.pc = true)
    (hpool : i.pooled = pooled) (hcomp : i.compressed = compressed)
    (hs : Worker.step cfg i x.1 x.2 = some z) : GetsThrough cfg pooled compressed z := by
  intro y y' j job hy
  exact h y y' j job (Packs.trans (.step i .refl hpack hpool hcomp hs) hy)

/-- The clock readings at which a wait is over as soon as it begins. -/
def lateInput (cfg : Config) (addr : Addr) (pooled compressed : Option ℕ) : Input :=
  ⟨1, 1+cfg.bufferFullBlockTimeoutMs, [addr], pooled, compressed⟩

section Refused

variable (hb : Bounded cfg) (hv : cfg.budgetValidForCreate = true)

include hb hv

theorem wait_refused {p : Producer} {need : ℕ}
    (h : ¬hasBufferSpaceLocked cfg p need true = true) :
    ∃ rc p', rc ≠ WaitRc.ok ∧ waitBufferSpaceLocked cfg p need true 1
      (1+cfg.bufferFullBlockTimeoutMs) = (.rc rc, p') := by
  have hpos := hb.pos
  rw [waitBufferSpaceLocked, if_neg (by omega), if_neg h]
  split
  · exact ⟨.full, p, nofun, rfl⟩
  · rename_i hblock
    have htimeout : cfg.bufferFullBlockTimeoutMs > 0 := by
      simp only [Config.budgetValidForCreate, Bool.or_eq_true, decide_eq_true_eq, hblock,
        false_or, Bool.and_eq_true] at hv
      exact hv.1.2
    rw [if_pos ⟨htimeout, by decide⟩, waitLoop, if_neg h]
    split
    · exact ⟨.closed, p, nofun, rfl⟩
    · rw [if_pos ⟨by omega, by omega⟩]
      exact ⟨.timeout, _, nofun, rfl⟩

variable {x : Worker × Producer} {job : Job} (ha : Alone x)
  (h : GetsThrough cfg pooled compressed x)

include ha h

theorem sendLock_fits (hw : x.1.pc = .sendLock job) : Roomy cfg pooled compressed x := by
  intro n hn
  simp only [hw, left, List.mem_singleton] at hn
  subst hn
  by_contra hno
  have hscratch : x.2.scratchBytes = 0 := by simpa [hw, charged] using ha.scratch
  rw [← space_iff cfg hb x.2 _ ha.queued ha.inflight hscratch] at hno
  obtain ⟨rc, p', hrc, hwait⟩ := wait_refused hb hv hno
  refine h x ({ x.1 with pc := .drop job }, p') (lateInput cfg 0 pooled compressed) job .refl
    rfl rfl (by rw [hw]; rfl) ?_ rfl
  simp only [Worker.step, hw, lateInput, hwait]
  cases rc with
  | ok => exact absurd rfl hrc
  | _ => rfl

theorem scratchLock_fits (hw : x.1.pc = .scratchLock job) :
    usedIngress x.2+compressScratchBound job.task.bodySize ≤ cfg.maxBufferBytes.toNat := by
  by_contra hno
  have hscratch : x.2.scratchBytes = 0 := by simpa [hw, charged] using ha.scratch
  rw [← space_iff cfg hb x.2 _ ha.queued ha.inflight hscratch] at hno
  obtain ⟨rc, p', hrc, hwait⟩ := wait_refused hb hv hno
  have hdrop : ∃ p', Worker.step cfg (lateInput cfg 0 pooled compressed) x.1 x.2 =
      some ({ x.1 with pc := .drop job }, p') := by
    simp only [Worker.step, hw, lateInput]
    split
    · exact ⟨x.2, rfl⟩
    · rw [hwait]
      cases rc with
      | ok => exact absurd rfl hrc
      | _ => exact ⟨p', rfl⟩
  obtain ⟨p'', hs⟩ := hdrop
  exact h x _ (lateInput cfg 0 pooled compressed) job .refl rfl rfl (by rw [hw]; rfl) hs rfl

theorem keyReserve_fits (hw : x.1.pc = .keyReserve job) : Roomy cfg pooled compressed x := by
  intro n hn
  simp only [hw, left] at hn
  split at hn
  · rename_i hopen
    obtain ⟨addr, hfree⟩ := Infinite.exists_notMem_finset
      (KeyMap.live cfg.toKeyConfig x.2.keys).toFinset
    have hs : Worker.step cfg (lateInput cfg addr pooled compressed) x.1 x.2 =
        some (keyReserve cfg addr job x.1 x.2) := by
      rw [List.mem_toFinset] at hfree
      simp only [Worker.step, hw, lateInput, hfree, if_false]
    have hscratch : x.2.scratchBytes = 0 := by simpa [hw, charged] using ha.scratch
    have hz : (keyReserve cfg addr job x.1 x.2).1.pc = .sendLock job := by
      rw [keyOpen, ← keyQueueReserve_fst addr] at hopen
      simp only [keyReserve, hopen, if_true]
    have hnext := h.next _ (by rw [hw]; rfl) rfl rfl hs
    have halone : Alone (keyReserve cfg addr job x.1 x.2) :=
      ⟨ha.queued, ha.inflight, by rw [hz]; exact hscratch, by rw [hz]; rfl⟩
    refine sendLock_fits hb hv halone hnext hz n ?_
    rw [hz]
    exact hn
  · cases hn

/-- A prepared task is dropped, or asks for its bytes at once or after its
key has a queue. -/
theorem prepared_fits (hw : x.1.pc = prepared cfg job) : Roomy cfg pooled compressed x := by
  unfold prepared at hw
  split at hw
  · intro n hn
    simp [hw, left] at hn
  · split at hw
    · exact sendLock_fits hb hv ha h hw
    · exact keyReserve_fits hb hv ha h hw

theorem compress_fits (hw : x.1.pc = .compress job) : Roomy cfg pooled compressed x := by
  let i := lateInput cfg 0 pooled compressed
  have hs : Worker.step cfg i x.1 x.2 = some ({ x.1 with pc := compressDone cfg i job },
      releaseScratchBytes (compressScratchBound job.task.bodySize) x.2) := by
    simp only [Worker.step, hw]
  have hnext := h.next i (by rw [hw]; rfl) rfl rfl hs
  have hcharged : charged x.1.pc = compressScratchBound job.task.bodySize := by
    simp only [hw, charged]
  have halone := alone_released _ ha hcharged (settled_compressDone cfg i job)
  have hroom : Roomy cfg pooled compressed ({ x.1 with pc := compressDone cfg i job },
      releaseScratchBytes (compressScratchBound job.task.bodySize) x.2) := by
    obtain hpc | ⟨job', hpc⟩ := compressDone_cases cfg i job
    · intro n hn
      simp [hpc, left] at hn
    · exact prepared_fits hb hv halone hnext hpc
  intro n hn
  simp only [hw, left] at hn
  rw [← releaseScratchBytes_usedIngress (compressScratchBound job.task.bodySize)]
  refine hroom n ?_
  rw [left_compressDone cfg pooled compressed _ i job rfl, releaseScratchBytes_keys]
  exact hn

theorem scratch_fits (hw : x.1.pc = .scratchLock job) : Roomy cfg pooled compressed x := by
  have hfit := scratchLock_fits hb hv ha h hw
  have hs := scratchLock_granted hb (lateInput cfg 0 pooled compressed) hw ha hfit
  have hnext := h.next _ (by rw [hw]; rfl) rfl rfl hs
  have hroom := compress_fits hb hv (alone_compress ha (by rw [hw]; rfl) rfl) hnext rfl
  intro n hn
  simp only [hw, left, List.mem_cons] at hn
  obtain rfl | hn := hn
  · exact hfit
  · exact (roomy_compress _).mp hroom n hn

theorem prepare_fits (hw : x.1.pc = .prepare job) : Roomy cfg pooled compressed x := by
  let i := lateInput cfg 0 pooled compressed
  have hs : Worker.step cfg i x.1 x.2 = some ({ x.1 with pc := prepare cfg i job }, x.2) := by
    simp only [Worker.step, hw]
  have hnext := h.next i (by rw [hw]; rfl) rfl rfl hs
  have hscratch : x.2.scratchBytes = 0 := by simpa [hw, charged] using ha.scratch
  have hset := settled_prepare cfg i job
  have halone : Alone ({ x.1 with pc := prepare cfg i job }, x.2) :=
    ⟨ha.queued, ha.inflight, hscratch.trans hset.1.symm, hset.2⟩
  have hroom : Roomy cfg pooled compressed ({ x.1 with pc := prepare cfg i job }, x.2) := by
    obtain hpc | hpc | ⟨job', hpc⟩ := prepare_cases cfg i job
    · intro n hn
      simp [hpc, left] at hn
    · exact scratch_fits hb hv halone hnext hpc
    · exact prepared_fits hb hv halone hnext hpc
  intro n hn
  simp only [hw, left] at hn
  refine hroom n ?_
  rw [left_prepare cfg pooled compressed _ i job rfl]
  exact hn

end Refused

end Requests

end Worker

namespace Sys

open Worker (GetsThrough)

/-- A log of twelve bytes with a hash key is added with the flush flag and
its builder is taken by the worker. -/
def addKeyed : List Act :=
  [.call 0 (.addKv ⟨5, 0, false, [([65], [66])]⟩ [75] true), .writer 0 ⟨1, 1, 9⟩,
    .worker 0 ⟨1, 1, [3], none, none⟩, .worker 0 ⟨1, 1, [3], none, none⟩]

/-- Packages of twelve bytes take half of this budget, as `create` asks. -/
def tightBuffer : Setup :=
  ⟨{ keyQueueBucketCount := 1, maxBufferBytes := 24, logBytesPerPackage := 12
     bufferFullPolicy := .block, bufferFullBlockTimeoutMs := 5 }, 1, 0⟩

end Sys

end VeTls
