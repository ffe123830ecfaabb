import VeTls.Keys.Refine
import VeTls.Keys.Held

/-!
# Runs of the key scheduler

Any sequence of the nine scheduler operations, from an empty key map. A
sender returns a queue with `gate` or `finish` only while it has it, and the
allocator never returns a block that is in use; steps that would break
either rule are skipped. `breaker` is the sender's key breaker moving the
time until which the key stays closed.
-/

set_option autoImplicit false

namespace VeTls.Keys

open VeTls.Intrusive

inductive Op (τ : Type) where
  | push (addr : Addr) (key : CStr) (t : τ)
  | reserve (addr : Addr) (key : CStr)
  | promote (now : ℤ)
  | pop
  | gate (q : Addr) (t : τ) (next : ℤ)
  | breaker (q : Addr) (untilMs : ℤ)
  | finish (q : Addr) (now : ℤ)
  | cleanup (now : ℤ)
  deriving DecidableEq, Repr

structure Sched (τ β : Type) where
  heap : KeyHeap τ β
  held : List Addr

variable {τ β : Type}

def start : Sched τ β := ⟨KeyHeap.empty, []⟩

def step (cfg : KeyConfig) (s : Sched τ β) : Op τ → Option (Sched τ β)
  | .push addr key t =>
    if s.heap.allocated addr then some s
    else do
      let r ← KeyHeap.keyQueuePushTask cfg addr key t s.heap
      some { s with heap := r.2 }
  | .reserve addr key =>
    if s.heap.allocated addr then some s
    else do
      let r ← KeyHeap.keyQueueReserve cfg addr key s.heap
      some { s with heap := r.2 }
  | .promote now => do
    let h ← KeyHeap.delayedPromoteDue now s.heap
    some { s with heap := h }
  | .pop =>
    match KeyHeap.readyPop s.heap with
    | none => some s
    | some (q, h) => some ⟨(KeyHeap.keyQueuePopTask q h).2, q::s.held⟩
  | .gate q t next =>
    if q ∈ s.held then do
      let h ← KeyHeap.gateRequeue q t next s.heap
      some ⟨h, s.held.erase q⟩
    else some s
  | .breaker q untilMs =>
    if q ∈ s.held then
      some ⟨KeyHeap.setInfo q (fun i => { i with breakerOpenUntilMs := untilMs }) s.heap, s.held⟩
    else some s
  | .finish q now =>
    if q ∈ s.held then do
      let h ← KeyHeap.keyQueueFinish cfg now q s.heap
      some ⟨h, s.held.erase q⟩
    else some s
  | .cleanup now => do
    let h ← KeyHeap.idleCleanup cfg now s.heap
    some { s with heap := h }

def run (cfg : KeyConfig) : List (Op τ) → Sched τ β → Option (Sched τ β)
  | [], s => some s
  | op::ops, s => do run cfg ops (← step cfg s op)

/-- The memory stands for a sound key map whose taken queues are `held`. -/
def Rep (cfg : KeyConfig) (s : Sched τ β) : Prop :=
  ∃ m : KeyMap τ β, Refines cfg s.heap m ∧ KeyMap.Sound cfg m ∧ s.held.Nodup ∧
    ∀ a, a ∈ s.held ↔ KeyMap.Held cfg m a

theorem start_rep (cfg : KeyConfig) : Rep cfg (start : Sched τ β) := by
  refine ⟨KeyMap.empty, empty_refines cfg, KeyMap.empty_sound cfg, List.nodup_nil, ?_⟩
  intro a
  simp [start, KeyMap.Held, KeyMap.empty, blank]

theorem delayed_length_le {cfg : KeyConfig} {m : KeyMap τ β} (h : KeyMap.Sound cfg m)
    (l : List Addr) (hn : l.Nodup) (hf : ∀ a ∈ l, ¬ KeyMap.Free (m.info a)) :
    l.length ≤ m.keyQueueCount := by
  rw [h.hashed.count]
  refine (List.subperm_of_subset hn ?_).length_le
  intro a ha
  by_contra hd
  exact hf a ha (h.dead a hd)

theorem Sound.delayed_le {cfg : KeyConfig} {m : KeyMap τ β} (h : KeyMap.Sound cfg m) :
    m.delayed.length ≤ m.keyQueueCount := by
  refine delayed_length_le h m.delayed h.listed.delayedNodup ?_
  intro a ha hfree
  have := (h.listed.delayed a).mp ha
  simp [hfree.delayed] at this

theorem Sound.idle_le {cfg : KeyConfig} {m : KeyMap τ β} (h : KeyMap.Sound cfg m) :
    m.idle.length ≤ m.keyQueueCount := by
  refine delayed_length_le h m.idle h.listed.idleNodup ?_
  intro a ha hfree
  have := (h.listed.idle a).mp ha
  simp [hfree.idle] at this

theorem setBreaker_sound {cfg : KeyConfig} {m : KeyMap τ β} (h : KeyMap.Sound cfg m) (q : Addr)
    (untilMs : ℤ) :
    KeyMap.Sound cfg (KeyMap.setInfo q (fun i => { i with breakerOpenUntilMs := untilMs }) m) :=
  KeyMap.setInfo_sound h q _ fun _ => ⟨rfl, rfl, rfl, rfl, rfl, rfl, rfl⟩

/-- Every operation returns and leads from a sound map to a sound map. -/
theorem step_rep {cfg : KeyConfig} {s : Sched τ β} (h : Rep cfg s) (op : Op τ) :
    ∃ s', step cfg s op = some s' ∧ Rep cfg s' := by
  obtain ⟨m, hr, hs, hn, hheld⟩ := h
  have herase : ∀ q a, a ∈ s.held.erase q ↔ a ≠ q ∧ KeyMap.Held cfg m a := by
    intro q a
    rw [hn.mem_erase_iff, hheld]
  cases op with
  | push addr key t =>
    simp only [step]
    split
    · exact ⟨s, rfl, m, hr, hs, hn, hheld⟩
    · rename_i ha
      have hlive : addr ∉ KeyMap.live cfg m := fun hm => ha ((hr.allocated addr).mpr hm)
      obtain ⟨h', he, hr'⟩ := keyQueuePushTask_refines hr hs addr key t hlive
      refine ⟨⟨h', s.held⟩, by simp only [he]; rfl, _, hr',
        KeyMap.keyQueuePushTask_sound hs addr key t hlive, hn, ?_⟩
      intro a
      rw [KeyMap.keyQueuePushTask_held addr key t hlive a]
      exact hheld a
  | reserve addr key =>
    simp only [step]
    split
    · exact ⟨s, rfl, m, hr, hs, hn, hheld⟩
    · rename_i ha
      have hlive : addr ∉ KeyMap.live cfg m := fun hm => ha ((hr.allocated addr).mpr hm)
      obtain ⟨h', he, hr'⟩ := keyQueueReserve_refines hr hs addr key hlive
      refine ⟨⟨h', s.held⟩, by simp only [he]; rfl, _, hr',
        KeyMap.keyQueueReserve_sound hs addr key hlive, hn, ?_⟩
      intro a
      exact (hheld a).trans (KeyMap.keyQueueGetOrCreate_held addr key hlive a).symm
  | promote now =>
    obtain ⟨h', he, hr'⟩ := delayedPromoteDue_refines hr hs.listed now (Sound.delayed_le hs)
    refine ⟨⟨h', s.held⟩, by simp only [step, he]; rfl, _, hr',
      KeyMap.delayedPromoteDue_sound hs now, hn, ?_⟩
    intro a
    exact (hheld a).trans (KeyMap.promoteGo_held now m.delayed m a).symm
  | pop =>
    simp only [step]
    rcases readyPop_refines hr with ⟨he, _⟩ | ⟨q, h', m', he, hm', hr'⟩
    · rw [he]
      exact ⟨s, rfl, m, hr, hs, hn, hheld⟩
    · rw [he]
      obtain ⟨hs', ht, hlive, hf, hf', _⟩ := KeyMap.readyPop_sound hs q hm'
      have hpop := KeyMap.readyPop_held hs q hm'
      have hnot : q ∉ s.held := by
        rw [hheld]
        rintro ⟨_, hi⟩
        simp [hf'] at hi
      refine ⟨_, rfl, _, (keyQueuePopTask_refines hr' q).2,
        KeyMap.keyQueuePopTask_sound hs' q (by rwa [ht.live cfg]) hf,
        List.nodup_cons.mpr ⟨hnot, hn⟩, ?_⟩
      intro a
      rw [List.mem_cons, KeyMap.keyQueuePopTask_held, hpop, hheld]
  | gate q t next =>
    simp only [step]
    split
    · rename_i hq
      obtain ⟨hlive, hf⟩ := (hheld q).mp hq
      obtain ⟨h', he, hr'⟩ := gateRequeue_refines hr hs.listed q t next (Sound.delayed_le hs)
      refine ⟨_, by simp only [he]; rfl, _, hr',
        KeyMap.gateRequeue_sound hs q t next hlive hf, hn.erase q, ?_⟩
      intro a
      rw [KeyMap.gateRequeue_held]
      exact herase q a
    · exact ⟨s, rfl, m, hr, hs, hn, hheld⟩
  | breaker q untilMs =>
    simp only [step]
    split
    · have hr' := setInfo_refines hr q (fun i => { i with breakerOpenUntilMs := untilMs })
      refine ⟨_, rfl, _, hr', setBreaker_sound hs q untilMs, hn, ?_⟩
      intro a
      have ht := KeyMap.setInfo_touches q (fun i => { i with breakerOpenUntilMs := untilMs }) m m
        rfl rfl rfl rfl fun _ => ⟨rfl, rfl⟩
      exact (hheld a).trans (ht.held (by simp) a).symm
    · exact ⟨s, rfl, m, hr, hs, hn, hheld⟩
  | finish q now =>
    simp only [step]
    split
    · rename_i hq
      obtain ⟨hlive, hf⟩ := (hheld q).mp hq
      obtain ⟨h', he, hr'⟩ := keyQueueFinish_refines hr hs now q hlive (Sound.delayed_le hs)
      refine ⟨_, by simp only [he]; rfl, _, hr',
        KeyMap.keyQueueFinish_sound hs now q hlive hf, hn.erase q, ?_⟩
      intro a
      rw [KeyMap.keyQueueFinish_held hs now q hlive]
      exact herase q a
    · exact ⟨s, rfl, m, hr, hs, hn, hheld⟩
  | cleanup now =>
    obtain ⟨h', he, hr'⟩ := idleCleanup_refines hr hs now (Sound.idle_le hs)
    refine ⟨⟨h', s.held⟩, by simp only [step, he]; rfl, _, hr',
      KeyMap.idleCleanup_sound hs now, hn, ?_⟩
    intro a
    exact (hheld a).trans (KeyMap.idleCleanup_held hs now a).symm

theorem run_rep {cfg : KeyConfig} (ops : List (Op τ)) (s : Sched τ β) (h : Rep cfg s) :
    ∃ s', run cfg ops s = some s' ∧ Rep cfg s' := by
  induction ops generalizing s with
  | nil => exact ⟨s, rfl, h⟩
  | cons op ops ih =>
    obtain ⟨s₁, he, hrep⟩ := step_rep h op
    obtain ⟨s₂, he₂, hrep₂⟩ := ih s₁ hrep
    exact ⟨s₂, by simp [run, he, he₂], hrep₂⟩

def inMap (cfg : KeyConfig) (chain : ℕ → List Addr) : List Addr :=
  (List.range (keyBucketCount cfg)).flatMap chain

/-- The invariant on the memory of the scheduler. `chain` are the hash
chains as lists; the queues in the map are their members. -/
structure WellFormed (cfg : KeyConfig) (h : KeyHeap τ β) (ready delayed idle : List Addr)
    (chain : ℕ → List Addr) : Prop where
  readyLinked : Linked h.ready ready
  delayedLinked : Linked h.delayed delayed
  idleLinked : Linked h.idle idle
  chains : ∀ i, Path h.hnext (h.keyBuckets i) (chain i)
  readyFlag : ∀ q, q ∈ ready ↔ q ∈ inMap cfg chain ∧ (h.info q).ready = true
  delayedFlag : ∀ q, q ∈ delayed ↔ q ∈ inMap cfg chain ∧ (h.info q).delayed = true
  idleFlag : ∀ q, q ∈ idle ↔ q ∈ inMap cfg chain ∧ (h.info q).idle = true
  exclusive : ∀ q ∈ inMap cfg chain, ¬ ((h.info q).ready = true ∧ (h.info q).delayed = true) ∧
    ¬ ((h.info q).ready = true ∧ (h.info q).idle = true) ∧
    ¬ ((h.info q).delayed = true ∧ (h.info q).idle = true)
  inflight : ∀ q ∈ inMap cfg chain, (h.info q).inflight = true →
    q ∉ ready ∧ q ∉ delayed ∧ q ∉ idle
  pending : ∀ q ∈ inMap cfg chain, 0 < KeyHeap.count q h → (h.info q).inflight = false →
    q ∈ ready ∨ q ∈ delayed
  sorted : delayed.Pairwise fun a b => (h.info a).nextReadyMs ≤ (h.info b).nextReadyMs
  bucket : ∀ i, ∀ q ∈ chain i, i = bucketIndex cfg (hash32Fnv1a (h.info q).key)
  unique : ∀ q ∈ inMap cfg chain, ∀ q' ∈ inMap cfg chain,
    (h.info q).key = (h.info q').key → q = q'
  nodup : (inMap cfg chain).Nodup
  count : h.keyQueueCount = (inMap cfg chain).length

theorem Rep.wellFormed {cfg : KeyConfig} {s : Sched τ β} (h : Rep cfg s) :
    ∃ ready delayed idle chain, WellFormed cfg s.heap ready delayed idle chain := by
  obtain ⟨m, hr, hs, _, _⟩ := h
  have hlive : ∀ q, ¬ KeyMap.Free (m.info q) → q ∈ KeyMap.live cfg m := by
    intro q hf
    by_contra hn
    exact hf (hs.dead q hn)
  have hready : ∀ q, q ∈ m.ready ↔ q ∈ KeyMap.live cfg m ∧ (m.info q).ready = true := fun q =>
    ⟨fun hq => ⟨hlive q fun hf => by simp [hs.listed.ready, hf.ready] at hq,
      (hs.listed.ready q).mp hq⟩, fun hq => (hs.listed.ready q).mpr hq.2⟩
  have hdelayed : ∀ q, q ∈ m.delayed ↔ q ∈ KeyMap.live cfg m ∧ (m.info q).delayed = true :=
    fun q => ⟨fun hq => ⟨hlive q fun hf => by simp [hs.listed.delayed, hf.delayed] at hq,
      (hs.listed.delayed q).mp hq⟩, fun hq => (hs.listed.delayed q).mpr hq.2⟩
  have hidle : ∀ q, q ∈ m.idle ↔ q ∈ KeyMap.live cfg m ∧ (m.info q).idle = true := fun q =>
    ⟨fun hq => ⟨hlive q fun hf => by simp [hs.listed.idle, hf.idle] at hq,
      (hs.listed.idle q).mp hq⟩, fun hq => (hs.listed.idle q).mpr hq.2⟩
  refine ⟨m.ready, m.delayed, m.idle, m.buckets, hr.ready, hr.delayed, hr.idle, hr.chain,
    hr.info ▸ hready, hr.info ▸ hdelayed, hr.info ▸ hidle, ?_, ?_, ?_, ?_, ?_, ?_,
    hs.hashed.live_nodup, hr.count.trans hs.hashed.count⟩
  · intro q hq
    rw [hr.info]
    have hb := hs.cell q hq
    refine ⟨?_, ?_, ?_⟩
    · rintro ⟨h1, h2⟩
      simp [(hb.ready h1).1] at h2
    · rintro ⟨h1, h2⟩
      simp [(hb.ready h1).2.1] at h2
    · rintro ⟨h1, h2⟩
      simp [(hb.delayed h1).1] at h2
  · intro q hq hf
    rw [hr.info] at hf
    have hfree := (hs.cell q hq).inflight hf
    simp [hs.listed.ready, hs.listed.delayed, hs.listed.idle, hfree.ready, hfree.delayed,
      hfree.idle]
  · intro q hq hc hf
    rw [hr.info] at hf
    rw [hr.count_eq q] at hc
    have hne : m.tasks q ≠ [] := List.ne_nil_of_length_pos hc
    rw [hs.listed.ready, hs.listed.delayed]
    exact (hs.cell q hq).pending hne hf
  · rw [hr.info]
    exact hs.due
  · intro i q hq
    rw [hr.info, ← hs.hashed.hash i q hq]
    exact (hs.hashed.index i q hq).symm
  · intro q hq q' hq' he
    rw [hr.info] at he
    exact hs.hashed.key q q' hq hq' he

/-- From an empty key map, every sequence of scheduler operations returns
after each of them, with the ready, delayed and idle lists, the flags, the
hash chains and the queue count in agreement. -/
theorem run_wellFormed (cfg : KeyConfig) (ops : List (Op τ)) :
    ∃ s : Sched τ β, run cfg ops start = some s ∧
      ∃ ready delayed idle chain, WellFormed cfg s.heap ready delayed idle chain := by
  obtain ⟨s, he, hrep⟩ := run_rep ops start (start_rep cfg)
  exact ⟨s, he, hrep.wellFormed⟩

end VeTls.Keys
