import VeTls.Lib.Machine

/-!
# The life of the shared environment

`g_env_init_mu` guards the flags of the environment. A step is one critical
section of that mutex, or a stretch of `ve_tls_env_destroy_prepared` between
two of them. A thread in a condition wait may look at its predicate again at
any time: it is woken by a broadcast, or for no reason.
-/

set_option autoImplicit false

namespace VeTls.Env

/-- The lifecycle part of `ve_tls_env_state`; a resource is there when its
pointer is not null. -/
structure Life where
  inited : Bool
  destroying : Bool
  tearingDown : Bool
  activeOps : ℕ
  mutex : Bool
  cond : Bool
  q : Bool
  senders : Bool
  deriving DecidableEq, Repr

namespace Life

def start : Life := ⟨false, false, false, 0, false, false, false, false⟩

def hasResources (e : Life) : Bool := e.mutex || e.cond || e.q || e.senders

def resourcesReady (e : Life) : Bool := e.inited && e.mutex && e.cond && e.q

inductive Call where
  | init
  | destroy
  | register
  | unregister
  | notify
  deriving DecidableEq, Repr

/-- Where a thread stands. From `entered` to `freed` it is inside
`ve_tls_env_destroy_prepared`. -/
inductive Pc where
  | idle
  | initWait
  | prepareWait
  | opsWait
  | unregisterWait
  | operating
  | entered
  | draining
  | joined
  | unavailable
  | freed
  deriving DecidableEq, Repr

/-- What a thread calls when it is idle, what the platform gives to an
initialisation, and whether the drain loop runs out of time. -/
structure Input where
  call : Call
  mutex : Bool
  cond : Bool
  q : Bool
  senders : Bool
  threads : Bool
  timedOut : Bool
  deriving DecidableEq, Repr

/-- The wait of `ve_tls_env_mark_destroying_locked`. -/
def awaitOps (e : Life) : Pc × Life :=
  if e.activeOps > 0 then (.opsWait, e) else (.entered, { e with tearingDown := true })

def markDestroyingLocked (e : Life) : Pc × Life :=
  if !e.inited && !hasResources e then (.idle, e) else awaitOps { e with destroying := true }

def prepareDestroy (e : Life) : Pc × Life :=
  if e.tearingDown then (.prepareWait, e) else markDestroyingLocked e

def lifecycleBegin (allowDestroying : Bool) (e : Life) : Pc × Life :=
  if resourcesReady e && !e.tearingDown && (allowDestroying || !e.destroying) then
    (.operating, { e with activeOps := e.activeOps+1 })
  else (.idle, e)

def lifecycleBeginUnregister (e : Life) : Pc × Life :=
  if e.tearingDown then (.unregisterWait, e)
  else if resourcesReady e then (.operating, { e with activeOps := e.activeOps+1 })
  else (.idle, e)

def lifecycleEnd (e : Life) : Life := { e with activeOps := e.activeOps-1 }

def destroyAbortLifecycle (e : Life) : Life := { e with destroying := false, tearingDown := false }

def markUnavailable (e : Life) : Life := { e with inited := false }

def destroyFinishLifecycle (e : Life) : Life :=
  { e with destroying := false, tearingDown := false, activeOps := 0 }

/-- All fields are zero but what the platform gave. -/
def cleared (i : Input) : Life :=
  { start with mutex := i.mutex, cond := i.cond, q := i.q, senders := i.senders }

/-- When an allocation or a thread fails, the answer of
`ve_tls_env_mark_destroying_locked` is not looked at. -/
def init (i : Input) (e : Life) : Pc × Life :=
  if e.tearingDown then (.initWait, e)
  else if e.inited then (.idle, e)
  else if i.mutex && i.cond && i.q && i.senders && i.threads then
    (.idle, { cleared i with inited := true })
  else (.entered, (markDestroyingLocked (cleared i)).2)

def begin (i : Input) (e : Life) : Pc × Life :=
  match i.call with
  | .init => init i e
  | .destroy => prepareDestroy e
  | .register => lifecycleBegin false e
  | .unregister => lifecycleBeginUnregister e
  | .notify => lifecycleBegin false e

/-- The stretches of `ve_tls_env_destroy_prepared`. -/
def destroyPrepared (i : Input) (e : Life) : Pc → Pc × Life
  | .entered => if !e.inited && !hasResources e then (.idle, e) else (.draining, e)
  | .draining =>
    if i.timedOut then (.idle, destroyAbortLifecycle e) else (.joined, { e with senders := false })
  | .joined => (.unavailable, markUnavailable e)
  | .unavailable => (.freed, { e with q := false, cond := false, mutex := false })
  | _ => (.idle, destroyFinishLifecycle e)

/-- The next step of a thread; a wait whose predicate still holds goes on. -/
def next (i : Input) (pc : Pc) (e : Life) : Pc × Life :=
  match pc with
  | .idle => begin i e
  | .initWait => init i e
  | .prepareWait => prepareDestroy e
  | .opsWait => awaitOps e
  | .unregisterWait => lifecycleBeginUnregister e
  | .operating => (.idle, lifecycleEnd e)
  | pc => destroyPrepared i e pc

def move (i : Input) (pc : Pc) (e : Life) : Option (Pc × Life) := some (next i pc e)

/-- The thread is inside `ve_tls_env_destroy_prepared`. -/
def Pc.tearing : Pc → Bool
  | .entered | .draining | .joined | .unavailable | .freed => true
  | _ => false

def Pc.outside (pc : Pc) : Bool := !pc.tearing && pc != .operating

/-- What a move does to the thread and to the environment. -/
inductive Moved (pc pc' : Pc) (e e' : Life) : Prop
  | waits (hpc : pc.outside) (hpc' : pc'.outside) (hops : e'.activeOps = e.activeOps)
      (htear : e'.tearingDown = e.tearingDown) (hinit : e'.inited = e.inited)
  | builds (hpc : pc.outside) (hpc' : pc'.outside) (htear : e.tearingDown = false)
      (hinit : e.inited = false) (htear' : e'.tearingDown = false) (hops : e'.activeOps = 0)
  | begins (hpc : pc.outside) (hpc' : pc' = .operating) (htear : e.tearingDown = false)
      (hinit : e.inited = true) (he : e' = { e with activeOps := e.activeOps+1 })
  | ends (hpc : pc = .operating) (hpc' : pc' = .idle) (he : e' = lifecycleEnd e)
  | enters (hpc : pc.outside) (hpc' : pc' = .entered) (htear : e.tearingDown = false)
      (hops : e.inited = true → e.activeOps = 0) (htear' : e'.tearingDown = true)
      (hops' : e'.activeOps = 0)
  | tears (hpc : pc.tearing) (hpc' : pc'.tearing) (hops : e'.activeOps = e.activeOps)
      (htear : e'.tearingDown = e.tearingDown)
  | leaves (hpc : pc.tearing) (hpc' : pc'.outside)
      (hops : e'.activeOps = e.activeOps ∨ e'.activeOps = 0)

theorem awaitOps_moved (pc : Pc) (e e₀ : Life) (hpc : pc.outside) (hops : e₀.activeOps = e.activeOps)
    (htear : e₀.tearingDown = e.tearingDown) (hinit : e₀.inited = e.inited)
    (h : e.activeOps = 0 → e.tearingDown = false) :
    Moved pc (awaitOps e₀).1 e (awaitOps e₀).2 := by
  unfold awaitOps
  split
  case isTrue => exact .waits hpc rfl hops htear hinit
  case isFalse hz =>
    have hzero : e.activeOps = 0 := by omega
    exact .enters hpc rfl (h hzero) (fun _ => hzero) rfl (hops.trans hzero)

theorem prepareDestroy_moved (pc : Pc) (e : Life) (hpc : pc.outside) :
    Moved pc (prepareDestroy e).1 e (prepareDestroy e).2 := by
  unfold prepareDestroy markDestroyingLocked
  split
  case isTrue => exact .waits hpc rfl rfl rfl rfl
  case isFalse htear =>
    split
    case isTrue => exact .waits hpc rfl rfl rfl rfl
    case isFalse =>
      exact awaitOps_moved pc e _ hpc rfl rfl rfl fun _ => by simpa using htear

theorem markDestroyingLocked_quiet (e : Life) (hthere : hasResources e = true)
    (hops : e.activeOps = 0) :
    markDestroyingLocked e = (.entered, { e with destroying := true, tearingDown := true }) := by
  simp [markDestroyingLocked, awaitOps, hthere, hops]

theorem lifecycleBegin_moved (pc : Pc) (e : Life) (allow : Bool) (hpc : pc.outside) :
    Moved pc (lifecycleBegin allow e).1 e (lifecycleBegin allow e).2 := by
  unfold lifecycleBegin
  split
  case isTrue h =>
    simp only [resourcesReady, Bool.and_eq_true, Bool.not_eq_true'] at h
    exact .begins hpc rfl h.1.2 h.1.1.1.1.1 rfl
  case isFalse => exact .waits hpc rfl rfl rfl rfl

theorem lifecycleBeginUnregister_moved (pc : Pc) (e : Life) (hpc : pc.outside) :
    Moved pc (lifecycleBeginUnregister e).1 e (lifecycleBeginUnregister e).2 := by
  unfold lifecycleBeginUnregister
  split
  case isTrue => exact .waits hpc rfl rfl rfl rfl
  case isFalse htear =>
    split
    case isTrue h =>
      simp only [resourcesReady, Bool.and_eq_true] at h
      exact .begins hpc rfl (by simpa using htear) h.1.1.1 rfl
    case isFalse => exact .waits hpc rfl rfl rfl rfl

/-- At least one of the four resources of an initialisation is there. -/
def Input.getsSome (i : Input) : Bool := i.mutex || i.cond || i.q || i.senders

theorem init_moved (pc : Pc) (i : Input) (e : Life) (hpc : pc.outside) (hsome : i.getsSome) :
    Moved pc (init i e).1 e (init i e).2 := by
  unfold init
  split
  case isTrue => exact .waits hpc rfl rfl rfl rfl
  case isFalse htear =>
    split
    case isTrue => exact .waits hpc rfl rfl rfl rfl
    case isFalse hinit =>
      simp only [Bool.not_eq_true] at htear hinit
      split
      case isTrue => exact .builds hpc rfl htear hinit rfl rfl
      case isFalse =>
        rw [markDestroyingLocked_quiet (cleared i) hsome rfl]
        exact .enters hpc rfl htear (fun h => absurd h (by simp [hinit])) rfl rfl

theorem destroyPrepared_moved (pc : Pc) (i : Input) (e : Life) (hpc : pc.tearing) :
    Moved pc (destroyPrepared i e pc).1 e (destroyPrepared i e pc).2 := by
  cases pc with
  | entered =>
    simp only [destroyPrepared]
    split
    · exact .leaves hpc rfl (.inl rfl)
    · exact .tears hpc rfl rfl rfl
  | draining =>
    simp only [destroyPrepared]
    split
    · exact .leaves hpc rfl (.inl rfl)
    · exact .tears hpc rfl rfl rfl
  | joined => exact .tears hpc rfl rfl rfl
  | unavailable => exact .tears hpc rfl rfl rfl
  | freed => exact .leaves hpc rfl (.inr rfl)
  | idle | initWait | prepareWait | opsWait | unregisterWait | operating => cases hpc

/-- A destroyer leaves the wait for the operations only when nobody is
tearing down, and an initialisation gets at least one of its resources. -/
def Meets (w : Machine.Crew Pc Life) (a : ℕ × Input) : Prop :=
  (w.pc a.1 = .opsWait → w.shared.activeOps = 0 → w.shared.tearingDown = false) ∧
    ((w.pc a.1 = .idle ∧ a.2.call = .init) ∨ w.pc a.1 = .initWait → a.2.getsSome)

instance (w : Machine.Crew Pc Life) (a : ℕ × Input) : Decidable (Meets w a) :=
  inferInstanceAs (Decidable (_ ∧ _))

theorem next_moved (w : Machine.Crew Pc Life) (j : ℕ) (i : Input) (hm : Meets w (j, i)) :
    Moved (w.pc j) (next i (w.pc j) w.shared).1 w.shared (next i (w.pc j) w.shared).2 := by
  unfold Meets at hm
  generalize w.pc j = pc at hm ⊢
  cases pc with
  | idle =>
    show Moved .idle (begin i w.shared).1 w.shared (begin i w.shared).2
    unfold begin
    cases hcall : i.call with
    | init => exact init_moved _ i _ rfl (hm.2 (.inl ⟨rfl, hcall⟩))
    | destroy => exact prepareDestroy_moved _ _ rfl
    | register => exact lifecycleBegin_moved _ _ _ rfl
    | unregister => exact lifecycleBeginUnregister_moved _ _ rfl
    | notify => exact lifecycleBegin_moved _ _ _ rfl
  | initWait => exact init_moved _ i _ rfl (hm.2 (.inr rfl))
  | prepareWait => exact prepareDestroy_moved _ _ rfl
  | opsWait => exact awaitOps_moved _ _ _ rfl rfl rfl rfl (hm.1 rfl)
  | unregisterWait => exact lifecycleBeginUnregister_moved _ _ rfl
  | operating => exact .ends rfl rfl rfl
  | entered | draining | joined | unavailable | freed => exact destroyPrepared_moved _ i _ rfl

def opCount (pc : Pc) : ℕ := if pc = .operating then 1 else 0

/-- The operations are counted, and whoever tears down is alone. -/
structure Ordered (n : ℕ) (pc : ℕ → Pc) (e : Life) : Prop where
  counted : Threads.total n pc opCount = e.activeOps
  unused : e.inited = false → e.activeOps = 0
  flagged : ∀ i < n, (pc i).tearing → e.tearingDown = true ∧ e.activeOps = 0
  alone : ∀ i < n, ∀ j < n, (pc i).tearing → (pc j).tearing → i = j

/-- At most one thread is inside `ve_tls_env_destroy_prepared`, and while one
is, no operation is counted and no thread is between its begin and its end. -/
def Exclusive (n : ℕ) (w : Machine.Crew Pc Life) : Prop :=
  (∀ i < n, ∀ j < n, (w.pc i).tearing → (w.pc j).tearing → i = j) ∧
    ∀ i < n, (w.pc i).tearing →
      w.shared.activeOps = 0 ∧ ∀ j < n, j ≠ i → w.pc j ≠ .operating

theorem not_tearing_of_outside (pc : Pc) (h : pc.outside) : pc.tearing = false := by
  cases pc <;> first | rfl | cases h

theorem opCount_of_outside (pc : Pc) (h : pc.outside) : opCount pc = 0 := by
  cases pc <;> first | rfl | cases h

theorem opCount_of_tearing (pc : Pc) (h : pc.tearing) : opCount pc = 0 := by
  cases pc <;> first | rfl | cases h

variable {n : ℕ}

/-- A move of a thread that does not tear down after it. -/
theorem Ordered.step_out {pc : ℕ → Pc} {e e' : Life} (h : Ordered n pc e) (i : ℕ) (hi : i < n)
    (pc' : Pc) (hpc' : pc'.tearing = false)
    (hcount : e'.activeOps+opCount (pc i) = e.activeOps+opCount pc')
    (hunused : e'.inited = false → e'.activeOps = 0)
    (htear : e.tearingDown = true → e'.tearingDown = true ∧ (e.activeOps = 0 → e'.activeOps = 0)) :
    Ordered n (Function.update pc i pc') e' := by
  have hstill : ∀ j, (Function.update pc i pc' j).tearing → (pc j).tearing := by
    intro j hj
    by_cases hji : j = i
    · rw [hji, Function.update_self, hpc'] at hj
      cases hj
    · rwa [Function.update_of_ne hji] at hj
  constructor
  · have htotal := Threads.total_update n i hi pc opCount pc'
    rw [h.counted] at htotal
    omega
  · exact hunused
  · intro j hj hjt
    obtain ⟨hdown, hzero⟩ := h.flagged j hj (hstill j hjt)
    exact ⟨(htear hdown).1, (htear hdown).2 hzero⟩
  · intro j hj k hk hjt hkt
    exact h.alone j hj k hk (hstill j hjt) (hstill k hkt)

/-- A move to or inside of the teardown by a thread that is alone there. -/
theorem Ordered.step_in {pc : ℕ → Pc} {e e' : Life} (h : Ordered n pc e) (i : ℕ)
    (pc' : Pc) (hops : opCount (pc i) = 0) (hpc' : opCount pc' = 0)
    (halone : ∀ j < n, (pc j).tearing → j = i) (hzero : e.activeOps = 0)
    (hzero' : e'.activeOps = 0) (htear : pc'.tearing → e'.tearingDown = true) :
    Ordered n (Function.update pc i pc') e' := by
  have honly : ∀ j < n, (Function.update pc i pc' j).tearing → j = i ∧ pc'.tearing := by
    intro j hj hjt
    by_cases hji : j = i
    · rw [hji, Function.update_self] at hjt
      exact ⟨hji, hjt⟩
    · rw [Function.update_of_ne hji] at hjt
      exact absurd (halone j hj hjt) hji
  constructor
  · rw [Threads.total_same n i pc opCount pc' (hpc'.trans hops.symm), h.counted, hzero, hzero']
  · exact fun _ => hzero'
  · intro j hj hjt
    exact ⟨htear (honly j hj hjt).2, hzero'⟩
  · intro j hj k hk hjt hkt
    rw [(honly j hj hjt).1, (honly k hk hkt).1]

theorem Ordered.move {pc : ℕ → Pc} {e e' : Life} (h : Ordered n pc e) (i : ℕ) (hi : i < n)
    (pc' : Pc) (hm : Moved (pc i) pc' e e') : Ordered n (Function.update pc i pc') e' := by
  -- Nobody tears down while the flag is not set.
  have hnone : e.tearingDown = false → ∀ j < n, ¬ (pc j).tearing := by
    intro hdown j hj hjt
    rw [(h.flagged j hj hjt).1] at hdown
    cases hdown
  cases hm with
  | waits hpc hpc' hops htear hinit =>
    apply h.step_out i hi pc' (not_tearing_of_outside _ hpc')
    · rw [hops, opCount_of_outside _ hpc, opCount_of_outside _ hpc']
    · rw [hops, hinit]
      exact h.unused
    · rw [htear, hops]
      exact fun hdown => ⟨hdown, id⟩
  | builds hpc hpc' htear hinit htear' hops =>
    apply h.step_out i hi pc' (not_tearing_of_outside _ hpc')
    · rw [hops, h.unused hinit, opCount_of_outside _ hpc, opCount_of_outside _ hpc']
    · exact fun _ => hops
    · intro hdown
      rw [htear] at hdown
      cases hdown
  | begins hpc hpc' htear hinit he =>
    subst hpc' he
    apply h.step_out i hi _ rfl
    · rw [opCount_of_outside _ hpc]
      rfl
    · intro hfalse
      rw [hinit] at hfalse
      cases hfalse
    · intro hdown
      rw [htear] at hdown
      cases hdown
  | ends hpc hpc' he =>
    subst hpc' he
    have hpos : opCount (pc i) ≤ e.activeOps := by
      rw [← h.counted]
      exact Threads.le_total n i hi pc opCount
    have hone : opCount (pc i) = 1 := by
      rw [hpc]
      rfl
    apply h.step_out i hi _ rfl
    · show e.activeOps-1+opCount (pc i) = e.activeOps+0
      omega
    · intro hinit
      show e.activeOps-1 = 0
      rw [h.unused hinit]
    · intro hdown
      refine ⟨hdown, fun hzero => ?_⟩
      show e.activeOps-1 = 0
      rw [hzero]
  | enters hpc hpc' htear hops htear' hops' =>
    subst hpc'
    have hzero : e.activeOps = 0 := by
      cases hinit : e.inited with
      | true => exact hops hinit
      | false => exact h.unused hinit
    exact h.step_in i _ (opCount_of_outside _ hpc) rfl
      (fun j hj hjt => absurd hjt (hnone htear j hj)) hzero hops' fun _ => htear'
  | tears hpc hpc' hops htear =>
    obtain ⟨hdown, hzero⟩ := h.flagged i hi hpc
    exact h.step_in i pc' (opCount_of_tearing _ hpc) (opCount_of_tearing _ hpc')
      (fun j hj hjt => h.alone j hj i hi hjt hpc) hzero (hops.trans hzero)
      fun _ => htear.trans hdown
  | leaves hpc hpc' hops =>
    obtain ⟨hdown, hzero⟩ := h.flagged i hi hpc
    have hzero' : e'.activeOps = 0 := hops.elim (fun hx => hx.trans hzero) id
    apply h.step_in i pc' (opCount_of_tearing _ hpc) (opCount_of_outside _ hpc')
      (fun j hj hjt => h.alone j hj i hi hjt hpc) hzero hzero'
    intro hx
    rw [not_tearing_of_outside _ hpc'] at hx
    cases hx

theorem Ordered.exclusive (w : Machine.Crew Pc Life) (h : Ordered n w.pc w.shared) :
    Exclusive n w := by
  refine ⟨h.alone, fun i hi hit => ⟨(h.flagged i hi hit).2, fun j hj _ hjop => ?_⟩⟩
  have hcount : Threads.total n w.pc opCount = 0 := h.counted.trans (h.flagged i hi hit).2
  have hzero := Threads.eq_zero_of_total n j hj w.pc opCount hcount
  rw [hjop] at hzero
  cases hzero

def crew : Machine.Crew Pc Life := ⟨start, fun _ => .idle⟩

theorem ordered_crew : Ordered n crew.pc crew.shared where
  counted := Threads.total_eq_zero n _ _ fun _ => rfl
  unused := fun _ => rfl
  flagged := fun _ _ h => nomatch h
  alone := fun _ _ _ _ h => nomatch h

/-- In a run of any number of threads where no destroyer leaves the wait for
the operations into another one's teardown, and no initialisation comes out
empty-handed, the teardown is exclusive. -/
theorem run_teardown_exclusive (n : ℕ) (acts : List (ℕ × Input)) (w : Machine.Crew Pc Life)
    (hc : Machine.Along (Machine.Crew.step n move) Meets acts crew)
    (h : Machine.run (Machine.Crew.step n move) acts crew = some w) : Exclusive n w := by
  refine Ordered.exclusive w (Machine.Crew.run_rule n move (Ordered n) Meets ?_ acts crew w
    ordered_crew hc h)
  intro v i a pc e hi hv hm hmove
  have hmoved := next_moved v i a hm
  rw [Option.some.inj hmove] at hmoved
  exact hv.move i hi pc hmoved

/-- A call with everything the platform can give. -/
def calls (c : Call) : Input := ⟨c, true, true, true, true, true, false⟩

/-- Two destroyers wait for one notification to end. -/
def parked : List (ℕ × Input) :=
  [(0, calls .init), (0, calls .notify), (1, calls .destroy), (2, calls .destroy),
    (0, calls .notify)]

theorem parked_teardown_exclusive :
    ∃ w, Machine.run (Machine.Crew.step 3 move) (parked++[(1, calls .destroy)]) crew = some w ∧
      (w.pc 1).tearing ∧ Exclusive 3 w :=
  ⟨_, rfl, rfl, run_teardown_exclusive 3 (parked++[(1, calls .destroy)]) _ (by decide) rfl⟩

/-- Both leave the wait when the notification ends. -/
theorem parked_both_tear :
    ∃ w, Machine.run (Machine.Crew.step 3 move)
      (parked++[(1, calls .destroy), (2, calls .destroy)]) crew = some w ∧ ¬ Exclusive 3 w := by
  refine ⟨_, rfl, fun h => ?_⟩
  exact absurd (h.1 1 (by decide) 2 (by decide) rfl rfl) (by decide)

end Life

end VeTls.Env
