import VeTls.Lib.Machine

/-!
# The runtime snapshot

A reader loads the published pointer and then counts itself in at the object
it points to; the writer swaps the pointer and gives its reference back. A
step is one atomic access, or the plain `memset` and `free` of a snapshot.
Snapshots are numbered as they are allocated, and no number comes back. A
weak compare-exchange may fail for no reason.
-/

set_option autoImplicit false

namespace VeTls

/-- The pointer of the producer, the counters, how many snapshots were
allocated, those that callers hold, and how often each was freed. -/
structure RuntimeSnapshots where
  runtimeSnapshot : Option ℕ
  refcnt : ℕ → UInt32
  allocated : ℕ
  held : List ℕ
  freed : ℕ → ℕ

namespace RuntimeSnapshots

def start : RuntimeSnapshots := ⟨none, fun _ => 0, 0, [], fun _ => 0⟩

inductive Call where
  | acquire
  | release (s : ℕ)
  | refreshLocked
  | clear
  deriving DecidableEq, Repr

/-- `discard` and `wipe` are the `memset` of a snapshot that could not be
built, and of one whose last reference is gone. -/
inductive Pc where
  | idle
  | acquireLoad
  | acquireRefcnt (s : ℕ)
  | acquireCas (s : ℕ) (cur : UInt32)
  | releaseSub (s : ℕ)
  | refreshStore (s : ℕ)
  | refreshBuild (s : ℕ)
  | refreshExchange (s : ℕ)
  | clearExchange
  | discard (s : ℕ)
  | wipe (s : ℕ)
  | free (s : ℕ)
  deriving DecidableEq, Repr

/-- What an idle thread does, whether `calloc` and the copies of the strings
succeed, and whether a compare-exchange fails for no reason. -/
structure Input where
  call : Call
  calloc : Bool
  built : Bool
  fails : Bool
  deriving DecidableEq, Repr

def setRefcnt (s : ℕ) (v : UInt32) (p : RuntimeSnapshots) : RuntimeSnapshots :=
  { p with refcnt := Function.update p.refcnt s v }

/-- A caller gives back what it holds. -/
def begin (i : Input) (p : RuntimeSnapshots) : Option (Pc × RuntimeSnapshots) :=
  match i.call with
  | .acquire => some (.acquireLoad, p)
  | .release s =>
    if s ∈ p.held then some (.releaseSub s, { p with held := p.held.erase s }) else none
  | .refreshLocked =>
    some (if i.calloc then (.refreshStore p.allocated, { p with allocated := p.allocated+1 })
      else (.idle, p))
  | .clear => some (.clearExchange, p)

/-- The loop goes on with a counter that is not zero, else it starts over. -/
def acquireNext (s : ℕ) (cur : UInt32) : Pc := if cur = 0 then .acquireLoad else .acquireCas s cur

def exchange (next : Option ℕ) (p : RuntimeSnapshots) : Pc × RuntimeSnapshots :=
  (p.runtimeSnapshot.elim .idle .releaseSub, { p with runtimeSnapshot := next })

def move (i : Input) (pc : Pc) (p : RuntimeSnapshots) : Option (Pc × RuntimeSnapshots) :=
  match pc with
  | .idle => begin i p
  | .acquireLoad => some (p.runtimeSnapshot.elim .idle .acquireRefcnt, p)
  | .acquireRefcnt s => some (acquireNext s (p.refcnt s), p)
  | .acquireCas s cur =>
    some (if p.refcnt s = cur ∧ ¬ i.fails then
        (.idle, { setRefcnt s (cur+1) p with held := s::p.held })
      else (acquireNext s (p.refcnt s), p))
  | .releaseSub s =>
    some (if p.refcnt s = 1 then .wipe s else .idle, setRefcnt s (p.refcnt s-1) p)
  | .refreshStore s => some (.refreshBuild s, setRefcnt s 1 p)
  | .refreshBuild s => some (if i.built then .refreshExchange s else .discard s, p)
  | .refreshExchange s => some (exchange (some s) p)
  | .clearExchange => some (exchange none p)
  | .discard s => some (.free s, setRefcnt s 0 p)
  | .wipe s => some (.free s, setRefcnt s 0 p)
  | .free s => some (.idle, { p with freed := Function.update p.freed s (p.freed s+1) })

/-- The snapshot whose counter the next step of a thread reads or writes. -/
def Pc.touches : Pc → Option ℕ
  | .acquireRefcnt s | .acquireCas s _ | .releaseSub s | .refreshStore s | .discard s | .wipe s =>
    some s
  | _ => none

/-- No thread is about to touch a freed snapshot, none was freed twice, and
none that was freed is published or held. -/
structure Safe (n : ℕ) (w : Machine.Crew Pc RuntimeSnapshots) : Prop where
  touches : ∀ i < n, ∀ s, (w.pc i).touches = some s → w.shared.freed s = 0
  once : ∀ s, w.shared.freed s ≤ 1
  gone : ∀ s, 0 < w.shared.freed s → w.shared.runtimeSnapshot ≠ some s ∧ s ∉ w.shared.held

/-- The snapshot that a reader has loaded and not yet counted itself in at. -/
def Pc.reads : Pc → Option ℕ
  | .acquireRefcnt s | .acquireCas s _ => some s
  | _ => none

/-- Nobody has loaded the snapshot that is freed, and the counter does not
overflow. -/
def Meets (n : ℕ) (w : Machine.Crew Pc RuntimeSnapshots) (a : ℕ × Input) : Prop :=
  match w.pc a.1 with
  | .free s => ∀ j < n, (w.pc j).reads ≠ some s
  | .acquireCas s cur => w.shared.refcnt s = cur → a.2.fails = false → cur+1 ≠ 0
  | _ => True

instance (n : ℕ) (w : Machine.Crew Pc RuntimeSnapshots) (a : ℕ × Input) : Decidable (Meets n w a) := by
  unfold Meets
  split <;> infer_instance

section Counting

/-- The thread has a reference of its own. -/
def Pc.owns (s : ℕ) : Pc → ℕ
  | .releaseSub t | .refreshBuild t | .refreshExchange t | .discard t => if t = s then 1 else 0
  | _ => 0

/-- The thread has the snapshot with no reference to it. -/
def Pc.alone (s : ℕ) : Pc → ℕ
  | .refreshStore t | .wipe t | .free t => if t = s then 1 else 0
  | _ => 0

/-- The snapshot that the thread has allocated and not yet published. -/
def Pc.fresh : Pc → Option ℕ
  | .refreshStore s | .refreshBuild s | .refreshExchange s | .discard s => some s
  | _ => none

def published (s : ℕ) (p : RuntimeSnapshots) : ℕ := if p.runtimeSnapshot = some s then 1 else 0

def alive (s : ℕ) (p : RuntimeSnapshots) : ℕ := if p.refcnt s = 0 then 0 else 1

def born (s : ℕ) (p : RuntimeSnapshots) : ℕ := if s < p.allocated then 1 else 0

/-- The counter counts the references, an allocated snapshot is alive, with
one thread, or freed, and nobody else knows of a fresh one. -/
structure Counted (n : ℕ) (pc : ℕ → Pc) (p : RuntimeSnapshots) : Prop where
  count : ∀ s, (p.refcnt s).toNat =
    published s p+p.held.count s+Threads.total n pc (Pc.owns s)
  life : ∀ s, alive s p+Threads.total n pc (Pc.alone s)+p.freed s = born s p
  reads : ∀ i < n, ∀ s, (pc i).reads = some s → p.freed s = 0 ∧ s < p.allocated
  nonzero : ∀ i < n, ∀ s cur, pc i = .acquireCas s cur → cur ≠ 0
  fresh : ∀ i < n, ∀ s, (pc i).fresh = some s →
    (p.refcnt s).toNat = (pc i).owns s ∧ ∀ j < n, (pc j).reads ≠ some s

/-- What a move of thread `i` may change. -/
structure Change (n : ℕ) (pc : ℕ → Pc) (p : RuntimeSnapshots) (i : ℕ) (pc' : Pc)
    (p' : RuntimeSnapshots) : Prop where
  count : ∀ s, (p'.refcnt s).toNat+(published s p+p.held.count s+(pc i).owns s) =
    (p.refcnt s).toNat+(published s p'+p'.held.count s+pc'.owns s)
  life : ∀ s, alive s p'+pc'.alone s+p'.freed s+born s p =
    alive s p+(pc i).alone s+p.freed s+born s p'
  allocated : p.allocated ≤ p'.allocated
  freed : ∀ s, p'.freed s ≠ p.freed s → pc'.reads = none ∧ ∀ j < n, (pc j).reads ≠ some s
  stored : ∀ s, p'.refcnt s ≠ p.refcnt s →
    (pc i).reads = some s ∨ (pc i).owns s = 1 ∨ (pc i).alone s = 1
  reads : ∀ s, pc'.reads = some s → (pc i).reads = some s ∨ p.runtimeSnapshot = some s
  nonzero : ∀ s cur, pc' = .acquireCas s cur → cur ≠ 0
  fresh : ∀ s, pc'.fresh = some s →
    (p'.refcnt s).toNat = pc'.owns s ∧ ∀ j < n, (pc j).reads ≠ some s

variable {n : ℕ}

theorem born_le (s : ℕ) (p : RuntimeSnapshots) : born s p ≤ 1 := by
  unfold born
  split <;> omega

theorem lt_of_born (s : ℕ) (p : RuntimeSnapshots) (h : 0 < born s p) : s < p.allocated := by
  unfold born at h
  split at h
  case isTrue hs => exact hs
  case isFalse => omega

theorem refcnt_ne_zero (p : RuntimeSnapshots) (s : ℕ) (h : 0 < (p.refcnt s).toNat) :
    p.refcnt s ≠ 0 := by
  intro hz
  rw [hz] at h
  exact absurd h (by decide)

/-- A snapshot with a reference has not been freed. -/
theorem Counted.of_count {pc : ℕ → Pc} {p : RuntimeSnapshots} (h : Counted n pc p) (s : ℕ)
    (hs : p.refcnt s ≠ 0) :
    p.freed s = 0 ∧ s < p.allocated ∧ Threads.total n pc (Pc.alone s) = 0 := by
  have hlife := h.life s
  have hborn := born_le s p
  rw [alive, if_neg hs] at hlife
  exact ⟨by omega, lt_of_born s p (by omega), by omega⟩

theorem Counted.of_published {pc : ℕ → Pc} {p : RuntimeSnapshots} (h : Counted n pc p) (s : ℕ)
    (hs : p.runtimeSnapshot = some s) : p.freed s = 0 ∧ s < p.allocated := by
  have hcount := h.count s
  rw [published, if_pos hs] at hcount
  obtain ⟨hf, ha, -⟩ := h.of_count s (refcnt_ne_zero p s (by omega))
  exact ⟨hf, ha⟩

theorem Counted.of_held {pc : ℕ → Pc} {p : RuntimeSnapshots} (h : Counted n pc p) (s : ℕ)
    (hs : s ∈ p.held) : p.freed s = 0 := by
  have hcount := h.count s
  have hpos := List.count_pos_iff.mpr hs
  exact (h.of_count s (refcnt_ne_zero p s (by omega))).1

theorem Counted.of_owns {pc : ℕ → Pc} {p : RuntimeSnapshots} (h : Counted n pc p) (i : ℕ)
    (hi : i < n) (s : ℕ) (hs : (pc i).owns s = 1) : p.refcnt s ≠ 0 ∧ p.freed s = 0 := by
  have hcount := h.count s
  have hle := Threads.le_total n i hi pc (Pc.owns s)
  have hne := refcnt_ne_zero p s (by omega)
  exact ⟨hne, (h.of_count s hne).1⟩

theorem Counted.of_alone {pc : ℕ → Pc} {p : RuntimeSnapshots} (h : Counted n pc p) (i : ℕ)
    (hi : i < n) (s : ℕ) (hs : (pc i).alone s = 1) : p.refcnt s = 0 ∧ p.freed s = 0 := by
  have hlife := h.life s
  have hle := Threads.le_total n i hi pc (Pc.alone s)
  have hborn := born_le s p
  unfold alive at hlife
  split at hlife
  case isTrue hz => exact ⟨hz, by omega⟩
  case isFalse => omega

theorem owns_or_alone (pc : Pc) (s : ℕ) (h : pc.fresh = some s) :
    pc.owns s = 1 ∧ pc.alone s = 0 ∨ pc.owns s = 0 ∧ pc.alone s = 1 := by
  cases pc <;> cases h <;> simp [Pc.owns, Pc.alone]

/-- A fresh snapshot is not published, not held, and with no other thread. -/
theorem Counted.of_fresh {pc : ℕ → Pc} {p : RuntimeSnapshots} (h : Counted n pc p) (i : ℕ)
    (hi : i < n) (s : ℕ) (hs : (pc i).fresh = some s) :
    p.runtimeSnapshot ≠ some s ∧
      ∀ j < n, j ≠ i → (pc j).owns s = 0 ∧ (pc j).alone s = 0 := by
  have hcount := h.count s
  have hle := Threads.le_total n i hi pc (Pc.owns s)
  rw [(h.fresh i hi s hs).1] at hcount
  constructor
  · intro hp
    rw [published, if_pos hp] at hcount
    omega
  · intro j hj hji
    have htwo := Threads.add_le_total n i j hi hj (Ne.symm hji) pc (Pc.owns s)
    have htwo' := Threads.add_le_total n i j hi hj (Ne.symm hji) pc (Pc.alone s)
    have hlife := h.life s
    have hborn := born_le s p
    obtain ⟨howns, -⟩ | ⟨howns, halone⟩ := owns_or_alone (pc i) s hs
    · have hnone := (h.of_count s (h.of_owns i hi s howns).1).2.2
      exact ⟨by omega, by omega⟩
    · exact ⟨by omega, by omega⟩

theorem Counted.update {pc : ℕ → Pc} {p : RuntimeSnapshots} (h : Counted n pc p) (i : ℕ)
    (hi : i < n) (pc' : Pc) (p' : RuntimeSnapshots) (c : Change n pc p i pc' p') :
    Counted n (Function.update pc i pc') p' := by
  constructor
  · intro s
    have htotal := Threads.total_update n i hi pc (Pc.owns s) pc'
    have hold := h.count s
    have hnew := c.count s
    omega
  · intro s
    have htotal := Threads.total_update n i hi pc (Pc.alone s) pc'
    have hold := h.life s
    have hnew := c.life s
    omega
  · intro j hj s hs
    by_cases hji : j = i
    · rw [hji, Function.update_self] at hs
      have hsame : p'.freed s = p.freed s := by
        by_contra hne
        rw [(c.freed s hne).1] at hs
        cases hs
      have hold : p.freed s = 0 ∧ s < p.allocated := by
        obtain hr | hp := c.reads s hs
        · exact h.reads i hi s hr
        · exact h.of_published s hp
      exact ⟨by omega, lt_of_lt_of_le hold.2 c.allocated⟩
    · rw [Function.update_of_ne hji] at hs
      have hsame : p'.freed s = p.freed s := by
        by_contra hne
        exact (c.freed s hne).2 j hj hs
      have hold := h.reads j hj s hs
      exact ⟨by omega, lt_of_lt_of_le hold.2 c.allocated⟩
  · intro j hj s cur hs
    by_cases hji : j = i
    · rw [hji, Function.update_self] at hs
      exact c.nonzero s cur hs
    · rw [Function.update_of_ne hji] at hs
      exact h.nonzero j hj s cur hs
  · intro j hj s hs
    by_cases hji : j = i
    · rw [hji, Function.update_self] at hs ⊢
      obtain ⟨hcount, hnone⟩ := c.fresh s hs
      refine ⟨hcount, fun k hk => ?_⟩
      by_cases hki : k = i
      · rw [hki, Function.update_self]
        cases pc' <;> cases hs <;> exact fun hx => nomatch hx
      · rw [Function.update_of_ne hki]
        exact hnone k hk
    · rw [Function.update_of_ne hji] at hs ⊢
      obtain ⟨hcount, hnone⟩ := h.fresh j hj s hs
      obtain ⟨hpub, hothers⟩ := h.of_fresh j hj s hs
      obtain ⟨howns, halone⟩ := hothers i hi (Ne.symm hji)
      constructor
      · rw [← hcount]
        by_contra hne
        obtain hr | ho | ha := c.stored s fun he => hne (by rw [he])
        · exact hnone i hi hr
        · omega
        · omega
      · intro k hk
        by_cases hki : k = i
        · rw [hki, Function.update_self]
          intro hr
          obtain hr | hp := c.reads s hr
          · exact hnone i hi hr
          · exact hpub hp
        · rw [Function.update_of_ne hki]
          exact hnone k hk

/-- A move of a thread that leaves the snapshots alone. -/
theorem Counted.local {pc : ℕ → Pc} {p : RuntimeSnapshots} (h : Counted n pc p) (i : ℕ)
    (hi : i < n) (pc' : Pc) (howns : ∀ s, pc'.owns s = (pc i).owns s)
    (halone : ∀ s, pc'.alone s = (pc i).alone s)
    (hreads : ∀ s, pc'.reads = some s → (pc i).reads = some s ∨ p.runtimeSnapshot = some s)
    (hnonzero : ∀ s cur, pc' = .acquireCas s cur → cur ≠ 0)
    (hfresh : ∀ s, pc'.fresh = some s → (pc i).fresh = some s) :
    Counted n (Function.update pc i pc') p := by
  apply h.update i hi pc' p
  constructor
  · intro s
    rw [howns]
  · intro s
    rw [halone]
  · exact le_rfl
  · exact fun _ hx => absurd rfl hx
  · exact fun _ hx => absurd rfl hx
  · exact hreads
  · exact hnonzero
  · intro s hs
    rw [howns]
    exact h.fresh i hi s (hfresh s hs)

theorem acquireNext_local (t : ℕ) (cur : UInt32) (s : ℕ) :
    (acquireNext t cur).owns s = 0 ∧ (acquireNext t cur).alone s = 0 ∧
      (acquireNext t cur).fresh = none := by
  unfold acquireNext
  split <;> exact ⟨rfl, rfl, rfl⟩

/-- A reader looks at the counter of the snapshot it has loaded. -/
theorem Counted.look {pc : ℕ → Pc} {p : RuntimeSnapshots} (h : Counted n pc p) (i : ℕ)
    (hi : i < n) (s : ℕ) (hreads : (pc i).reads = some s)
    (howns : ∀ t, (pc i).owns t = 0 ∧ (pc i).alone t = 0) :
    Counted n (Function.update pc i (acquireNext s (p.refcnt s))) p := by
  apply h.local i hi
  · intro t
    rw [(acquireNext_local s _ t).1, (howns t).1]
  · intro t
    rw [(acquireNext_local s _ t).2.1, (howns t).2]
  · intro t ht
    unfold acquireNext at ht
    split at ht
    · cases ht
    · obtain rfl : s = t := Option.some.inj ht
      exact Or.inl hreads
  · intro t cur ht
    unfold acquireNext at ht
    split at ht
    · cases ht
    · next hne =>
      cases ht
      exact hne
  · intro t ht
    rw [(acquireNext_local s _ t).2.2] at ht
    cases ht

theorem setRefcnt_self (s : ℕ) (v : UInt32) (p : RuntimeSnapshots) :
    (setRefcnt s v p).refcnt s = v := Function.update_self _ _ _

theorem setRefcnt_ne (s t : ℕ) (v : UInt32) (p : RuntimeSnapshots) (h : t ≠ s) :
    (setRefcnt s v p).refcnt t = p.refcnt t := Function.update_of_ne h _ _

/-- A store to the counter of `s`, with what the thread and the callers have
of it afterwards. -/
theorem Counted.store {pc : ℕ → Pc} {p : RuntimeSnapshots} (h : Counted n pc p) (i : ℕ)
    (hi : i < n) (pc' : Pc) (s : ℕ) (v : UInt32) (held : List ℕ)
    (hcount : v.toNat+(p.held.count s+(pc i).owns s) =
      (p.refcnt s).toNat+(held.count s+pc'.owns s))
    (hlife : (if v = 0 then 0 else 1)+pc'.alone s = alive s p+(pc i).alone s)
    (hothers : ∀ t, t ≠ s → held.count t = p.held.count t ∧ pc'.owns t = (pc i).owns t ∧
      pc'.alone t = (pc i).alone t)
    (hmine : (pc i).reads = some s ∨ (pc i).owns s = 1 ∨ (pc i).alone s = 1)
    (hreads : pc'.reads = none)
    (hfresh : ∀ t, pc'.fresh = some t → t = s ∧ v.toNat = pc'.owns s ∧ (pc i).fresh = some s) :
    Counted n (Function.update pc i pc') { setRefcnt s v p with held := held } := by
  apply h.update i hi
  constructor
  · intro t
    show ((setRefcnt s v p).refcnt t).toNat+(published t p+p.held.count t+(pc i).owns t) =
      (p.refcnt t).toNat+(published t p+held.count t+pc'.owns t)
    by_cases ht : t = s
    · rw [ht, setRefcnt_self]
      omega
    · obtain ⟨hh, ho, -⟩ := hothers t ht
      rw [setRefcnt_ne s t v p ht, hh, ho]
  · intro t
    show alive t (setRefcnt s v p)+pc'.alone t+p.freed t+born t p =
      alive t p+(pc i).alone t+p.freed t+born t p
    by_cases ht : t = s
    · rw [ht, alive, setRefcnt_self]
      omega
    · rw [alive, setRefcnt_ne s t v p ht, (hothers t ht).2.2]
      rfl
  · exact le_rfl
  · exact fun _ hx => absurd rfl hx
  · intro t ht
    by_cases hts : t = s
    · rw [hts]
      exact hmine
    · exact absurd (setRefcnt_ne s t v p hts) ht
  · intro t ht
    rw [hreads] at ht
    cases ht
  · rintro t cur rfl
    cases hreads
  · intro t ht
    obtain ⟨rfl, hv, hold⟩ := hfresh t ht
    refine ⟨?_, (h.fresh i hi t hold).2⟩
    show ((setRefcnt t v p).refcnt t).toNat = _
    rw [setRefcnt_self, hv]

/-- A reader counts itself in. -/
theorem Counted.enter {pc : ℕ → Pc} {p : RuntimeSnapshots} (h : Counted n pc p) (i : ℕ)
    (hi : i < n) (s : ℕ) (hpc : pc i = .acquireCas s (p.refcnt s)) (hroom : p.refcnt s+1 ≠ 0) :
    Counted n (Function.update pc i .idle)
      { setRefcnt s (p.refcnt s+1) p with held := s::p.held } := by
  have hne := h.nonzero i hi s _ hpc
  have hsucc : (p.refcnt s+1).toNat = (p.refcnt s).toNat+1 := by
    have hlt := (p.refcnt s).toNat_lt
    have hnz : (p.refcnt s+1).toNat ≠ 0 := fun hz => hroom (UInt32.toNat_inj.mp hz)
    rw [UInt32.toNat_add] at hnz ⊢
    simp only [UInt32.toNat_one, Nat.reducePow] at hnz hlt ⊢
    omega
  apply h.store i hi
  · rw [hpc, hsucc, List.count_cons_self]
    show (p.refcnt s).toNat+1+(p.held.count s+0) = (p.refcnt s).toNat+(p.held.count s+1+0)
    omega
  · rw [hpc, alive, if_neg hroom, if_neg hne]
    rfl
  · intro t ht
    rw [hpc]
    exact ⟨List.count_cons_of_ne (Ne.symm ht), rfl, rfl⟩
  · rw [hpc]
    exact Or.inl rfl
  · rfl
  · exact fun _ hx => nomatch hx

/-- A reference is given back; with the last one the snapshot is the
thread's. -/
theorem Counted.giveBack {pc : ℕ → Pc} {p : RuntimeSnapshots} (h : Counted n pc p) (i : ℕ)
    (hi : i < n) (s : ℕ) (hpc : pc i = .releaseSub s) :
    Counted n (Function.update pc i (if p.refcnt s = 1 then .wipe s else .idle))
      (setRefcnt s (p.refcnt s-1) p) := by
  have hown : (pc i).owns s = 1 := by
    rw [hpc]
    exact if_pos rfl
  have hne := (h.of_owns i hi s hown).1
  have hpos : 1 ≤ (p.refcnt s).toNat := by
    by_contra hz
    exact hne (UInt32.toNat_inj.mp (by simp only [UInt32.toNat_zero]; omega))
  have hsub : (p.refcnt s-1).toNat = (p.refcnt s).toNat-1 := by
    rw [UInt32.toNat_sub_of_le]
    · rfl
    · rw [UInt32.le_iff_toNat_le]
      exact hpos
  have hzero : p.refcnt s-1 = 0 ↔ p.refcnt s = 1 := by
    rw [← UInt32.toNat_inj, ← UInt32.toNat_inj, hsub]
    simp only [UInt32.toNat_zero, UInt32.toNat_one]
    omega
  apply h.store i hi _ s (p.refcnt s-1) p.held
  · have hnone : Pc.owns s (if p.refcnt s = 1 then .wipe s else .idle) = 0 := by split <;> rfl
    rw [hnone, hsub, hown]
    omega
  · rw [hpc, alive, if_neg hne]
    by_cases hlast : p.refcnt s = 1
    · rw [if_pos (hzero.mpr hlast), if_pos hlast]
      simp [Pc.alone]
    · rw [if_neg fun hz => hlast (hzero.mp hz), if_neg hlast]
      rfl
  · intro t ht
    rw [hpc]
    split
    · simp [Pc.owns, Pc.alone, Ne.symm ht]
    · simp [Pc.owns, Pc.alone, Ne.symm ht]
  · exact Or.inr (Or.inl hown)
  · split <;> rfl
  · intro t ht
    split at ht <;> cases ht

/-- The thread wipes a snapshot of its own. -/
theorem Counted.wipe {pc : ℕ → Pc} {p : RuntimeSnapshots} (h : Counted n pc p) (i : ℕ)
    (hi : i < n) (s : ℕ) (hpc : pc i = .wipe s ∨ pc i = .discard s) :
    Counted n (Function.update pc i (.free s)) (setRefcnt s 0 p) := by
  have hmine : (p.refcnt s).toNat = (pc i).owns s ∧ alive s p+(pc i).alone s = 1 ∧
      ((pc i).owns s = 1 ∨ (pc i).alone s = 1) := by
    obtain hpc | hpc := hpc
    · have hz := (h.of_alone i hi s (by rw [hpc]; exact if_pos rfl)).1
      rw [hpc, alive, hz]
      simp [Pc.owns, Pc.alone]
    · have hone := (h.fresh i hi s (by rw [hpc]; rfl)).1
      have hne := (h.of_owns i hi s (by rw [hpc]; exact if_pos rfl)).1
      rw [hpc] at hone ⊢
      rw [hone, alive, if_neg hne]
      simp [Pc.owns, Pc.alone]
  apply h.store i hi (.free s) s 0 p.held
  · rw [hmine.1]
    show 0+(p.held.count s+(pc i).owns s) = (pc i).owns s+(p.held.count s+0)
    omega
  · rw [hmine.2.1]
    simp [Pc.alone]
  · intro t ht
    obtain hpc | hpc := hpc <;> rw [hpc] <;> simp [Pc.owns, Pc.alone, Ne.symm ht]
  · exact Or.inr hmine.2.2
  · rfl
  · exact fun _ hx => nomatch hx

/-- The writer swaps the pointer and gets the old reference. -/
theorem Counted.exchange {pc : ℕ → Pc} {p : RuntimeSnapshots} (h : Counted n pc p) (i : ℕ)
    (hi : i < n) (next : Option ℕ)
    (howns : ∀ s, (pc i).owns s = if next = some s then 1 else 0)
    (halone : ∀ s, (pc i).alone s = 0) :
    Counted n (Function.update pc i (exchange next p).1) (exchange next p).2 := by
  have hpc : ∀ s, (RuntimeSnapshots.exchange next p).1.owns s = published s p ∧
      (RuntimeSnapshots.exchange next p).1.alone s = 0 := by
    intro s
    unfold RuntimeSnapshots.exchange published
    cases p.runtimeSnapshot <;> simp [Pc.owns, Pc.alone]
  have hnone : (RuntimeSnapshots.exchange next p).1.reads = none ∧
      (RuntimeSnapshots.exchange next p).1.fresh = none := by
    unfold RuntimeSnapshots.exchange
    cases p.runtimeSnapshot <;> exact ⟨rfl, rfl⟩
  apply h.update i hi
  constructor
  · intro s
    rw [howns, (hpc s).1]
    show (p.refcnt s).toNat+(published s p+p.held.count s+(if next = some s then 1 else 0)) =
      (p.refcnt s).toNat+((if next = some s then 1 else 0)+p.held.count s+published s p)
    omega
  · intro s
    rw [halone, (hpc s).2]
    rfl
  · exact le_rfl
  · exact fun _ hx => absurd rfl hx
  · exact fun _ hx => absurd rfl hx
  · intro s hs
    rw [hnone.1] at hs
    cases hs
  · intro s cur hs
    rw [hs] at hnone
    cases hnone.1
  · intro s hs
    rw [hnone.2] at hs
    cases hs

/-- The thread frees a snapshot that no reader has loaded. -/
theorem Counted.free {pc : ℕ → Pc} {p : RuntimeSnapshots} (h : Counted n pc p) (i : ℕ)
    (hi : i < n) (s : ℕ) (hpc : pc i = .free s) (hreads : ∀ j < n, (pc j).reads ≠ some s) :
    Counted n (Function.update pc i .idle)
      { p with freed := Function.update p.freed s (p.freed s+1) } := by
  apply h.update i hi
  constructor
  · intro t
    rw [hpc]
    rfl
  · intro t
    rw [hpc]
    show alive t p+0+Function.update p.freed s (p.freed s+1) t+born t p =
      alive t p+(if s = t then 1 else 0)+p.freed t+born t p
    by_cases ht : t = s
    · rw [ht, Function.update_self, if_pos rfl]
      omega
    · rw [Function.update_of_ne ht, if_neg (Ne.symm ht)]
  · exact le_rfl
  · intro t ht
    by_cases hts : t = s
    · rw [hts]
      exact ⟨rfl, hreads⟩
    · exact absurd (Function.update_of_ne hts _ _) ht
  · exact fun _ hx => absurd rfl hx
  · exact fun _ hx => nomatch hx
  · exact fun _ _ hx => nomatch hx
  · exact fun _ hx => nomatch hx

theorem Counted.release {pc : ℕ → Pc} {p : RuntimeSnapshots} (h : Counted n pc p) (i : ℕ)
    (hi : i < n) (hidle : pc i = .idle) (s : ℕ) (hheld : s ∈ p.held) :
    Counted n (Function.update pc i (.releaseSub s)) { p with held := p.held.erase s } := by
  have hpos := List.count_pos_iff.mpr hheld
  apply h.update i hi
  constructor
  · intro t
    rw [hidle]
    show (p.refcnt t).toNat+(published t p+p.held.count t+0) =
      (p.refcnt t).toNat+(published t p+(p.held.erase s).count t+(if s = t then 1 else 0))
    by_cases ht : t = s
    · rw [ht, List.count_erase_self, if_pos rfl]
      omega
    · rw [List.count_erase_of_ne ht, if_neg (Ne.symm ht)]
  · intro t
    rw [hidle]
    rfl
  · exact le_rfl
  · exact fun _ hx => absurd rfl hx
  · exact fun _ hx => absurd rfl hx
  · exact fun _ hx => nomatch hx
  · exact fun _ _ hx => nomatch hx
  · exact fun _ hx => nomatch hx

/-- A snapshot that was never allocated has no counter and no reader. -/
theorem Counted.calloc {pc : ℕ → Pc} {p : RuntimeSnapshots} (h : Counted n pc p) (i : ℕ)
    (hi : i < n) (hidle : pc i = .idle) :
    Counted n (Function.update pc i (.refreshStore p.allocated))
      { p with allocated := p.allocated+1 } := by
  have hzero : p.refcnt p.allocated = 0 := by
    by_contra hne
    exact absurd (h.of_count _ hne).2.1 (by omega)
  apply h.update i hi
  constructor
  · intro s
    rw [hidle]
    rfl
  · intro s
    rw [hidle]
    show alive s p+(if p.allocated = s then 1 else 0)+p.freed s+(if s < p.allocated then 1 else 0) =
      alive s p+0+p.freed s+(if s < p.allocated+1 then 1 else 0)
    split <;> split <;> split <;> omega
  · exact Nat.le_succ _
  · exact fun _ hx => absurd rfl hx
  · exact fun _ hx => absurd rfl hx
  · exact fun _ hx => nomatch hx
  · exact fun _ _ hx => nomatch hx
  · intro s hs
    obtain rfl : p.allocated = s := Option.some.inj hs
    constructor
    · show (p.refcnt p.allocated).toNat = 0
      rw [hzero]
      rfl
    · intro j hj hr
      exact absurd (h.reads j hj _ hr).2 (by omega)

theorem Counted.begin {pc : ℕ → Pc} {p p' : RuntimeSnapshots} {pc' : Pc} (h : Counted n pc p)
    (i : ℕ) (hi : i < n) (hidle : pc i = .idle) (a : Input) (hm : begin a p = some (pc', p')) :
    Counted n (Function.update pc i pc') p' := by
  have hstay : ∀ pc', (∀ s, pc'.owns s = 0 ∧ pc'.alone s = 0) → pc'.reads = none →
      pc'.fresh = none → Counted n (Function.update pc i pc') p := by
    intro pc' hnone hreads hfresh
    apply h.local i hi
    · exact fun s => by rw [hidle, (hnone s).1]; rfl
    · exact fun s => by rw [hidle, (hnone s).2]; rfl
    · exact fun s hs => by rw [hreads] at hs; cases hs
    · rintro s cur rfl
      cases hreads
    · exact fun s hs => by rw [hfresh] at hs; cases hs
  unfold RuntimeSnapshots.begin at hm
  cases hc : a.call with
  | acquire =>
    simp only [hc, Option.some.injEq, Prod.mk.injEq] at hm
    obtain ⟨rfl, rfl⟩ := hm
    exact hstay _ (fun _ => ⟨rfl, rfl⟩) rfl rfl
  | release s =>
    simp only [hc] at hm
    split at hm
    case isFalse => cases hm
    case isTrue hheld =>
      cases hm
      exact h.release i hi hidle s hheld
  | refreshLocked =>
    simp only [hc, Option.some.injEq] at hm
    split at hm
    case isTrue =>
      cases hm
      exact h.calloc i hi hidle
    case isFalse =>
      cases hm
      exact hstay _ (fun _ => ⟨rfl, rfl⟩) rfl rfl
  | clear =>
    simp only [hc, Option.some.injEq, Prod.mk.injEq] at hm
    obtain ⟨rfl, rfl⟩ := hm
    exact hstay _ (fun _ => ⟨rfl, rfl⟩) rfl rfl

theorem counted_move (w : Machine.Crew Pc RuntimeSnapshots) (i : ℕ) (a : Input) (pc' : Pc)
    (p' : RuntimeSnapshots) (hi : i < n) (h : Counted n w.pc w.shared) (hmeets : Meets n w (i, a))
    (hm : move a (w.pc i) w.shared = some (pc', p')) :
    Counted n (Function.update w.pc i pc') p' := by
  unfold Meets at hmeets
  unfold move at hm
  cases hpc : w.pc i with
  | idle =>
    simp only [hpc] at hm
    exact h.begin i hi hpc a hm
  | acquireLoad =>
    simp only [hpc, Option.some.injEq, Prod.mk.injEq] at hm
    obtain ⟨rfl, rfl⟩ := hm
    apply h.local i hi <;> cases hp : w.shared.runtimeSnapshot with
    | none => simp [hpc, Pc.owns, Pc.alone, Pc.reads, Pc.fresh]
    | some t => simp [hpc, Pc.owns, Pc.alone, Pc.reads, Pc.fresh]
  | acquireRefcnt s =>
    simp only [hpc, Option.some.injEq, Prod.mk.injEq] at hm
    obtain ⟨rfl, rfl⟩ := hm
    apply h.look i hi s
    · rw [hpc]
      rfl
    · rw [hpc]
      exact fun _ => ⟨rfl, rfl⟩
  | acquireCas s cur =>
    simp only [hpc, Option.some.injEq] at hm hmeets
    split at hm
    case isTrue hcas =>
      cases hm
      obtain ⟨rfl, hf⟩ := hcas
      exact h.enter i hi s hpc (hmeets rfl (by simpa using hf))
    case isFalse =>
      cases hm
      apply h.look i hi s
      · rw [hpc]
        rfl
      · rw [hpc]
        exact fun _ => ⟨rfl, rfl⟩
  | releaseSub s =>
    simp only [hpc, Option.some.injEq, Prod.mk.injEq] at hm
    obtain ⟨rfl, rfl⟩ := hm
    exact h.giveBack i hi s hpc
  | refreshStore s =>
    simp only [hpc, Option.some.injEq, Prod.mk.injEq] at hm
    obtain ⟨rfl, rfl⟩ := hm
    have hz := (h.of_alone i hi s (by rw [hpc]; exact if_pos rfl)).1
    apply h.store i hi (.refreshBuild s) s 1 w.shared.held
    · rw [hpc, hz]
      simp [Pc.owns, Nat.add_comm]
    · rw [hpc, alive, hz]
      simp [Pc.alone]
    · intro t ht
      rw [hpc]
      simp [Pc.owns, Pc.alone, Ne.symm ht]
    · rw [hpc]
      exact Or.inr (Or.inr (if_pos rfl))
    · rfl
    · intro t ht
      obtain rfl : s = t := Option.some.inj ht
      rw [hpc]
      simp [Pc.owns, Pc.fresh]
  | refreshBuild s =>
    simp only [hpc, Option.some.injEq, Prod.mk.injEq] at hm
    obtain ⟨rfl, rfl⟩ := hm
    apply h.local i hi <;> cases a.built <;> simp [hpc, Pc.owns, Pc.alone, Pc.reads, Pc.fresh]
  | refreshExchange s =>
    simp only [hpc, Option.some.injEq] at hm
    have hex := h.exchange i hi (some s) (fun t => by rw [hpc]; simp [Pc.owns])
      fun _ => by rw [hpc]; rfl
    rwa [hm] at hex
  | clearExchange =>
    simp only [hpc, Option.some.injEq] at hm
    have hex := h.exchange i hi none (fun t => by rw [hpc]; rfl) fun _ => by rw [hpc]; rfl
    rwa [hm] at hex
  | discard s =>
    simp only [hpc, Option.some.injEq, Prod.mk.injEq] at hm
    obtain ⟨rfl, rfl⟩ := hm
    exact h.wipe i hi s (Or.inr hpc)
  | wipe s =>
    simp only [hpc, Option.some.injEq, Prod.mk.injEq] at hm
    obtain ⟨rfl, rfl⟩ := hm
    exact h.wipe i hi s (Or.inl hpc)
  | free s =>
    simp only [hpc, Option.some.injEq, Prod.mk.injEq] at hm hmeets
    obtain ⟨rfl, rfl⟩ := hm
    exact h.free i hi s hpc hmeets

theorem Counted.safe (w : Machine.Crew Pc RuntimeSnapshots) (h : Counted n w.pc w.shared) :
    Safe n w := by
  constructor
  · intro i hi s hs
    cases hpc : w.pc i with
    | acquireRefcnt t =>
      rw [hpc] at hs
      exact (h.reads i hi s (by rw [hpc]; exact hs)).1
    | acquireCas t cur =>
      rw [hpc] at hs
      exact (h.reads i hi s (by rw [hpc]; exact hs)).1
    | releaseSub t =>
      rw [hpc] at hs
      obtain rfl : t = s := Option.some.inj hs
      exact (h.of_owns i hi t (by rw [hpc]; exact if_pos rfl)).2
    | discard t =>
      rw [hpc] at hs
      obtain rfl : t = s := Option.some.inj hs
      exact (h.of_owns i hi t (by rw [hpc]; exact if_pos rfl)).2
    | refreshStore t =>
      rw [hpc] at hs
      obtain rfl : t = s := Option.some.inj hs
      exact (h.of_alone i hi t (by rw [hpc]; exact if_pos rfl)).2
    | wipe t =>
      rw [hpc] at hs
      obtain rfl : t = s := Option.some.inj hs
      exact (h.of_alone i hi t (by rw [hpc]; exact if_pos rfl)).2
    | idle | acquireLoad | clearExchange | refreshBuild t | refreshExchange t | free t =>
      rw [hpc] at hs
      cases hs
  · intro s
    have hlife := h.life s
    have hborn := born_le s w.shared
    omega
  · intro s hs
    constructor
    · intro hp
      have hz := (h.of_published s hp).1
      omega
    · intro hheld
      have hz := h.of_held s hheld
      omega

end Counting

def crew : Machine.Crew Pc RuntimeSnapshots := ⟨start, fun _ => .idle⟩

theorem counted_crew (n : ℕ) : Counted n crew.pc crew.shared where
  count := fun s => by
    rw [Threads.total_eq_zero n crew.pc (Pc.owns s) fun _ => rfl]
    rfl
  life := fun s => by
    rw [Threads.total_eq_zero n crew.pc (Pc.alone s) fun _ => rfl]
    rfl
  reads := fun _ _ _ hx => nomatch hx
  nonzero := fun _ _ _ _ hx => nomatch hx
  fresh := fun _ _ _ hx => nomatch hx

/-- In a run of any number of threads where a snapshot is freed only when no
reader has loaded it, and its counter does not overflow, no step touches a
freed snapshot and none is freed twice, published or held after it was
freed. -/
theorem run_snapshot_safe (n : ℕ) (acts : List (ℕ × Input))
    (w : Machine.Crew Pc RuntimeSnapshots)
    (hc : Machine.Along (Machine.Crew.step n move) (Meets n) acts crew)
    (h : Machine.run (Machine.Crew.step n move) acts crew = some w) : Safe n w := by
  have hcounted := Machine.Crew.run_rule n move (Counted n) (Meets n)
    (fun v i a pc p hi hv hm hmove => counted_move v i a pc p hi hv hm hmove) acts crew w
    (counted_crew n) hc h
  exact hcounted.safe w

def act (i : ℕ) (c : Call) : ℕ × Input := (i, ⟨c, true, true, false⟩)

/-- Thread 0 publishes a snapshot, thread 1 loads the pointer, and thread 0
swaps it for another and gives the first one back. -/
def swapped : List (ℕ × Input) :=
  List.replicate 4 (act 0 .refreshLocked)++List.replicate 2 (act 1 .acquire)++
    List.replicate 5 (act 0 .refreshLocked)

/-- The reader counts itself in before that. -/
def counted : List (ℕ × Input) :=
  List.replicate 4 (act 0 .refreshLocked)++List.replicate 4 (act 1 .acquire)++
    List.replicate 5 (act 0 .refreshLocked)

theorem counted_safe :
    ∃ w, Machine.run (Machine.Crew.step 2 move) counted crew = some w ∧
      w.shared.held = [0] ∧ Safe 2 w :=
  ⟨_, rfl, rfl, run_snapshot_safe 2 counted _ (by decide +kernel) rfl⟩

/-- The reader is about to load the counter of a freed snapshot. -/
theorem swapped_not_safe :
    ∃ w, Machine.run (Machine.Crew.step 2 move) (swapped++List.replicate 2 (act 0 .clear)) crew =
      some w ∧ ¬ Safe 2 w := by
  refine ⟨_, rfl, fun h => ?_⟩
  exact absurd (h.touches 1 (by decide) 0 rfl) (by decide)

end RuntimeSnapshots

end VeTls
