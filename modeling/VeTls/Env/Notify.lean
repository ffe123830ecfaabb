import VeTls.Lib.Machine

/-!
# Waking the senders of the shared environment

Producers with work stand in a bounded queue of the environment, and the flag
`env_in_queue` of a producer says that it need not be put there again. The
queue is under the mutex of the environment and the flag is not: `notify`
sets it before it takes the mutex, and a sender resets it after it gave the
mutex back. A tick holds the mutex while it walks over the producers. The
environment itself stays up here: operations are let in, or refused while a
teardown waits.
-/

set_option autoImplicit false

namespace VeTls.Env

/-- The queue part of `ve_tls_env_state`, with the two flags that each
producer has. A slot of the queue may be null. -/
structure Board where
  stop : Bool
  locked : Bool
  registered : ℕ → Bool
  inQueue : ℕ → Bool
  producers : List ℕ
  q : List (Option ℕ)

namespace Board

def qCap : ℕ := 4096

def start : Board := ⟨false, false, fun _ => false, fun _ => false, [], []⟩

inductive Call where
  | register (p : ℕ)
  | unregister (p : ℕ)
  | notify (p : ℕ)
  | tick
  | pop
  | stop
  deriving DecidableEq, Repr

inductive Pc where
  | idle
  | notifyLoad (p : ℕ)
  | notifyExchange (p : ℕ)
  | notifyPush (p : ℕ)
  | ticking (rest : List ℕ)
  | tickExchange (p : ℕ) (rest : List ℕ)
  | tickPush (p : ℕ) (rest : List ℕ)
  | popped (p : ℕ)
  | serving (p : ℕ)
  deriving DecidableEq, Repr

/-- What an idle thread does, whether `lifecycle_begin` lets it in, and what
`ve_tls_producer_has_pending` answers. -/
structure Input where
  call : Call
  letIn : Bool
  pending : Bool
  deriving DecidableEq, Repr

def setFlag (p : ℕ) (v : Bool) (b : Board) : Board :=
  { b with inQueue := Function.update b.inQueue p v }

/-- A full queue refuses without a word. -/
def queuePushLocked (p : ℕ) (b : Board) : Board :=
  if !b.registered p || decide (b.q.length ≥ qCap) then b else { b with q := b.q++[some p] }

def queuePopLocked (b : Board) : Pc × Board :=
  match b.q with
  | [] => (.idle, b)
  | none::q => (.idle, { b with q := q })
  | some p::q => (.popped p, { b with q := q })

def registerProducer (p : ℕ) (b : Board) : Board :=
  if b.stop then b
  else
    { b with
      registered := Function.update b.registered p true
      producers := p::b.producers }

/-- The slots of the producer stay in the queue, as null. -/
def unregisterProducer (p : ℕ) (b : Board) : Board :=
  { b with
    registered := Function.update b.registered p false
    inQueue := Function.update b.inQueue p false
    producers := b.producers.erase p
    q := b.q.map fun slot => if slot = some p then none else slot }

def underMutex (b : Board) (r : Pc × Board) : Option (Pc × Board) :=
  if b.locked then none else some r

/-- A producer is registered once, when it is created. -/
def begin (i : Input) (b : Board) : Option (Pc × Board) :=
  match i.call with
  | .register p =>
    if p ∈ b.producers then none
    else if i.letIn then underMutex b (.idle, registerProducer p b) else some (.idle, b)
  | .unregister p => underMutex b (.idle, unregisterProducer p b)
  | .notify p => some (if i.letIn then .notifyLoad p else .idle, b)
  | .tick => underMutex b (.ticking b.producers, { b with locked := true })
  | .pop => underMutex b (if b.stop then (.idle, b) else queuePopLocked b)
  | .stop => underMutex b (.idle, { b with stop := true })

def notifyLocked (p : ℕ) (b : Board) : Board :=
  if !b.stop && b.registered p then queuePushLocked p b else setFlag p false b

def move (i : Input) (pc : Pc) (b : Board) : Option (Pc × Board) :=
  match pc with
  | .idle => begin i b
  | .notifyLoad p => some (if b.registered p then .notifyExchange p else .idle, b)
  | .notifyExchange p =>
    some (if b.inQueue p then .idle else .notifyPush p, setFlag p true b)
  | .notifyPush p => underMutex b (.idle, notifyLocked p b)
  | .ticking [] => some (.idle, { b with locked := false })
  | .ticking (p::rest) =>
    some (if b.registered p && !b.inQueue p && i.pending then .tickExchange p rest
      else .ticking rest, b)
  | .tickExchange p rest =>
    some (if b.inQueue p then .ticking rest else .tickPush p rest, setFlag p true b)
  | .tickPush p rest => some (.ticking rest, queuePushLocked p b)
  | .popped p => some (.serving p, setFlag p false b)
  | .serving p => some (if i.pending && i.letIn then .notifyLoad p else .idle, b)

/-- The thread has popped the producer and not reset its flag, or has set the
flag and not finished its push. -/
def Pc.minds (p : ℕ) : Pc → Prop
  | .popped p' => p' = p
  | .notifyPush p' => p' = p
  | .tickPush p' _ => p' = p
  | _ => False

/-- Somebody is going to serve the producer. -/
def Minded (n : ℕ) (p : ℕ) (pc : ℕ → Pc) (b : Board) : Prop :=
  some p ∈ b.q ∨ ∃ i < n, (pc i).minds p

/-- No registered producer has its flag set with nobody going to serve it. -/
def Served (n : ℕ) (w : Machine.Crew Pc Board) : Prop :=
  ∀ p, w.shared.registered p = true → w.shared.inQueue p = true → Minded n p w.pc w.shared

/-- The step pushes to the queue. -/
def pushes (b : Board) : Pc → Bool
  | .notifyPush p => !b.stop && b.registered p
  | .tickPush _ _ => true
  | _ => false

/-- The queue has a free slot when a notification or a tick pushes. -/
def Meets (w : Machine.Crew Pc Board) (a : ℕ × Input) : Prop :=
  pushes w.shared (w.pc a.1) = true → w.shared.q.length < qCap

instance (w : Machine.Crew Pc Board) (a : ℕ × Input) : Decidable (Meets w a) :=
  inferInstanceAs (Decidable (_ → _))

/-- The producer that a tick is about to push. -/
def Pc.ticks : Pc → Option (Option ℕ)
  | .ticking _ => some none
  | .tickExchange p _ => some (some p)
  | .tickPush p _ => some (some p)
  | _ => none

/-- One tick at a time has the mutex, and its producer stays registered. -/
structure Latched (n : ℕ) (pc : ℕ → Pc) (b : Board) : Prop where
  held : ∀ i < n, (pc i).ticks.isSome → b.locked = true
  alone : ∀ i < n, ∀ j < n, (pc i).ticks.isSome → (pc j).ticks.isSome → i = j
  listed : ∀ i < n, ∀ p, (pc i).ticks = some (some p) → b.registered p = true

/-- What a move does with the mutex. -/
inductive Latch (pc pc' : Pc) (b b' : Board) : Prop
  | apart (hpc : pc.ticks = none) (hpc' : pc'.ticks = none) (hlock : b'.locked = b.locked)
      (hreg : b.locked = true → b'.registered = b.registered)
  | acquires (hpc' : pc'.ticks = some none) (hlock : b.locked = false) (hlock' : b'.locked = true)
  | holds (hpc : pc.ticks.isSome) (hlock : b'.locked = b.locked)
      (hreg : b'.registered = b.registered)
      (hlisted : ∀ p, pc'.ticks = some (some p) → b.registered p = true)
  | releases (hpc : pc.ticks.isSome) (hpc' : pc'.ticks = none)

theorem underMutex_eq_some (b : Board) (r r' : Pc × Board) (h : underMutex b r = some r') :
    b.locked = false ∧ r' = r := by
  unfold underMutex at h
  split at h
  case isTrue => cases h
  case isFalse hl =>
    cases h
    exact ⟨by simpa using hl, rfl⟩

theorem begin_latch (i : Input) (b b' : Board) (pc' : Pc) (h : begin i b = some (pc', b')) :
    Latch .idle pc' b b' := by
  have hfree : b.locked = false → pc'.ticks = none → b'.locked = b.locked → Latch .idle pc' b b' := by
    intro hl hpc' hlock
    apply Latch.apart rfl hpc' hlock
    intro hx
    rw [hl] at hx
    cases hx
  unfold begin at h
  cases hc : i.call with
  | register p =>
    simp only [hc] at h
    split at h
    · cases h
    · split at h
      · obtain ⟨hl, he⟩ := underMutex_eq_some b _ _ h
        cases he
        refine hfree hl rfl ?_
        unfold registerProducer
        split <;> rfl
      · cases h
        exact .apart rfl rfl rfl fun _ => rfl
  | unregister p =>
    simp only [hc] at h
    obtain ⟨hl, he⟩ := underMutex_eq_some b _ _ h
    cases he
    exact hfree hl rfl rfl
  | notify p =>
    simp only [hc, Option.some.injEq, Prod.mk.injEq] at h
    obtain ⟨rfl, rfl⟩ := h
    refine .apart rfl ?_ rfl fun _ => rfl
    split <;> rfl
  | tick =>
    simp only [hc] at h
    obtain ⟨hl, he⟩ := underMutex_eq_some b _ _ h
    cases he
    exact .acquires rfl hl rfl
  | pop =>
    simp only [hc] at h
    obtain ⟨hl, he⟩ := underMutex_eq_some b _ _ h
    split at he
    · cases he
      exact hfree hl rfl rfl
    · unfold queuePopLocked at he
      split at he
      all_goals
        cases he
        exact hfree hl rfl rfl
  | stop =>
    simp only [hc] at h
    obtain ⟨hl, he⟩ := underMutex_eq_some b _ _ h
    cases he
    exact hfree hl rfl rfl

theorem queuePushLocked_eq (p : ℕ) (b : Board) :
    queuePushLocked p b = { b with q := (queuePushLocked p b).q } := by
  unfold queuePushLocked
  split <;> rfl

theorem notifyLocked_eq (p : ℕ) (b : Board) :
    notifyLocked p b =
      { b with inQueue := (notifyLocked p b).inQueue, q := (notifyLocked p b).q } := by
  unfold notifyLocked
  split
  · rw [queuePushLocked_eq]
  · rfl

theorem move_latch (i : Input) (pc pc' : Pc) (b b' : Board)
    (hl : ∀ p, pc.ticks = some (some p) → b.registered p = true)
    (h : move i pc b = some (pc', b')) : Latch pc pc' b b' := by
  unfold move at h
  cases pc with
  | idle => exact begin_latch i b b' pc' h
  | notifyLoad p | notifyExchange p | popped p | serving p =>
    simp only [Option.some.injEq, Prod.mk.injEq] at h
    obtain ⟨rfl, rfl⟩ := h
    refine .apart rfl ?_ rfl fun _ => rfl
    first
      | rfl
      | split <;> rfl
  | notifyPush p =>
    obtain ⟨_, he⟩ := underMutex_eq_some b _ _ h
    cases he
    rw [notifyLocked_eq]
    exact .apart rfl rfl rfl fun _ => rfl
  | ticking rest =>
    cases rest with
    | nil =>
      cases h
      exact .releases rfl rfl
    | cons p rest =>
      simp only [Option.some.injEq, Prod.mk.injEq] at h
      obtain ⟨rfl, rfl⟩ := h
      apply Latch.holds rfl rfl rfl
      intro p'
      split
      case isTrue hp =>
        intro hx
        cases hx
        simp only [Bool.and_eq_true] at hp
        exact hp.1.1
      case isFalse =>
        intro hx
        cases hx
  | tickExchange p rest =>
    simp only [Option.some.injEq, Prod.mk.injEq] at h
    obtain ⟨rfl, rfl⟩ := h
    refine Latch.holds rfl rfl rfl ?_
    intro p'
    split
    · intro hx
      cases hx
    · exact hl p'
  | tickPush p rest =>
    simp only [Option.some.injEq, Prod.mk.injEq] at h
    obtain ⟨rfl, rfl⟩ := h
    rw [queuePushLocked_eq]
    exact .holds rfl rfl rfl fun p' hx => nomatch hx

variable {n : ℕ}

theorem Latched.move {pc : ℕ → Pc} {b b' : Board} (h : Latched n pc b) (i : ℕ) (hi : i < n)
    (pc' : Pc) (hm : Latch (pc i) pc' b b') : Latched n (Function.update pc i pc') b' := by
  -- Who ticks now is the thread that moved, or ticked before.
  have hwho : ∀ j, (Function.update pc i pc' j).ticks.isSome →
      (j = i ∧ pc'.ticks.isSome) ∨ (j ≠ i ∧ (pc j).ticks.isSome) := by
    intro j hj
    by_cases hji : j = i
    · rw [hji, Function.update_self] at hj
      exact .inl ⟨hji, hj⟩
    · rw [Function.update_of_ne hji] at hj
      exact .inr ⟨hji, hj⟩
  have hwhat : ∀ j p, (Function.update pc i pc' j).ticks = some (some p) →
      (j = i ∧ pc'.ticks = some (some p)) ∨ (j ≠ i ∧ (pc j).ticks = some (some p)) := by
    intro j p hj
    by_cases hji : j = i
    · rw [hji, Function.update_self] at hj
      exact .inl ⟨hji, hj⟩
    · rw [Function.update_of_ne hji] at hj
      exact .inr ⟨hji, hj⟩
  cases hm with
  | apart hpc hpc' hlock hreg =>
    have hno : ¬ pc'.ticks.isSome := by simp [hpc']
    constructor
    · intro j hj ht
      rw [hlock]
      exact h.held j hj ((hwho j ht).resolve_left fun hx => hno hx.2).2
    · intro j hj k hk hjt hkt
      exact h.alone j hj k hk ((hwho j hjt).resolve_left fun hx => hno hx.2).2
        ((hwho k hkt).resolve_left fun hx => hno hx.2).2
    · intro j hj p ht
      have hold := ((hwhat j p ht).resolve_left fun hx => hno (by simp [hx.2])).2
      rw [hreg (h.held j hj (by simp [hold]))]
      exact h.listed j hj p hold
  | acquires hpc' hlock hlock' =>
    have hnone : ∀ j < n, ¬ (pc j).ticks.isSome := by
      intro j hj ht
      have hheld := h.held j hj ht
      rw [hlock] at hheld
      cases hheld
    have hme : ∀ j < n, (Function.update pc i pc' j).ticks.isSome → j = i := by
      intro j hj ht
      exact (hwho j ht).elim And.left fun hx => absurd hx.2 (hnone j hj)
    constructor
    · exact fun _ _ _ => hlock'
    · intro j hj k hk hjt hkt
      rw [hme j hj hjt, hme k hk hkt]
    · intro j hj p ht
      rcases hwhat j p ht with hx | hx
      · rw [hpc'] at hx
        cases hx.2
      · exact absurd (by simp [hx.2]) (hnone j hj)
  | holds hpc hlock hreg hlisted =>
    have hme : ∀ j < n, (pc j).ticks.isSome → j = i := fun j hj ht => h.alone j hj i hi ht hpc
    constructor
    · intro j _ _
      rw [hlock]
      exact h.held i hi hpc
    · intro j hj k hk hjt hkt
      rw [(hwho j hjt).elim And.left fun hx => hme j hj hx.2,
        (hwho k hkt).elim And.left fun hx => hme k hk hx.2]
    · intro j hj p ht
      rw [hreg]
      rcases hwhat j p ht with hx | hx
      · exact hlisted p hx.2
      · exact h.listed j hj p hx.2
  | releases hpc hpc' =>
    have hnone : ∀ j < n, ¬ (Function.update pc i pc' j).ticks.isSome := by
      intro j hj ht
      rcases hwho j ht with hx | hx
      · rw [hpc'] at hx
        cases hx.2
      · exact hx.1 (h.alone j hj i hi hx.2 hpc)
    exact ⟨fun j hj ht => absurd ht (hnone j hj), fun j hj _ _ ht => absurd ht (hnone j hj),
      fun j hj p ht => absurd (by simp [ht]) (hnone j hj)⟩

/-- A flag that is set after a move is minded by the thread that moved, or
was set before and minded by others. -/
def Hands (pc pc' : Pc) (b b' : Board) : Prop :=
  ∀ p, b'.inQueue p = true → pc'.minds p ∨ some p ∈ b'.q ∨
    (b.inQueue p = true ∧ ¬ pc.minds p ∧ (some p ∈ b.q → some p ∈ b'.q))

theorem Hands.keep (pc pc' : Pc) (b b' : Board) (hpc : ∀ p, ¬ pc.minds p)
    (hf : ∀ p, b'.inQueue p = true → b.inQueue p = true)
    (hq : ∀ p, b'.inQueue p = true → some p ∈ b.q → some p ∈ b'.q) : Hands pc pc' b b' :=
  fun p hp => .inr (.inr ⟨hf p hp, hpc p, hq p hp⟩)

theorem queuePopLocked_hands (b : Board) :
    Hands .idle (queuePopLocked b).1 b (queuePopLocked b).2 := by
  intro p hp
  unfold queuePopLocked at hp ⊢
  split at hp
  case h_1 => exact .inr (.inr ⟨hp, id, id⟩)
  case h_2 q hq =>
    refine .inr (.inr ⟨hp, id, fun hx => ?_⟩)
    rw [hq] at hx
    simpa using hx
  case h_3 p' q hq =>
    by_cases hpp : p' = p
    · exact .inl hpp
    · refine .inr (.inr ⟨hp, id, fun hx => ?_⟩)
      rw [hq] at hx
      exact (List.mem_cons.mp hx).resolve_left fun he => hpp (Option.some.inj he).symm

theorem unregisterProducer_hands (p : ℕ) (b : Board) :
    Hands .idle .idle b (unregisterProducer p b) := by
  have hne : ∀ p', (unregisterProducer p b).inQueue p' = true → p' ≠ p := by
    intro p' hp' he
    rw [he] at hp'
    simp [unregisterProducer] at hp'
  apply Hands.keep
  · exact fun _ => id
  · intro p' hp'
    have := hne p' hp'
    simpa [unregisterProducer, this] using hp'
  · intro p' hp' hq
    refine List.mem_map.mpr ⟨some p', hq, ?_⟩
    rw [if_neg fun he => hne p' hp' (Option.some.inj he)]

theorem begin_hands (i : Input) (b b' : Board) (pc' : Pc) (h : begin i b = some (pc', b')) :
    Hands .idle pc' b b' := by
  have hsame : b'.inQueue = b.inQueue → b'.q = b.q → Hands .idle pc' b b' := by
    intro hf hq
    exact Hands.keep _ _ _ _ (fun _ => id) (fun p hp => hf ▸ hp) fun p _ hp => hq ▸ hp
  unfold begin at h
  cases hc : i.call with
  | register p =>
    simp only [hc] at h
    split at h
    · cases h
    · split at h
      · obtain ⟨_, he⟩ := underMutex_eq_some b _ _ h
        cases he
        unfold registerProducer at hsame ⊢
        split
        case isTrue hs => exact Hands.keep _ _ _ _ (fun _ => id) (fun _ => id) fun _ _ => id
        case isFalse hs => exact Hands.keep _ _ _ _ (fun _ => id) (fun _ => id) fun _ _ => id
      · cases h
        exact hsame rfl rfl
  | unregister p =>
    simp only [hc] at h
    obtain ⟨_, he⟩ := underMutex_eq_some b _ _ h
    cases he
    exact unregisterProducer_hands p b
  | notify p =>
    simp only [hc, Option.some.injEq, Prod.mk.injEq] at h
    exact hsame (by rw [h.2]) (by rw [h.2])
  | tick =>
    simp only [hc] at h
    obtain ⟨_, he⟩ := underMutex_eq_some b _ _ h
    cases he
    exact hsame rfl rfl
  | pop =>
    simp only [hc] at h
    obtain ⟨_, he⟩ := underMutex_eq_some b _ _ h
    split at he
    · cases he
      exact hsame rfl rfl
    · have hpop := queuePopLocked_hands b
      rwa [← he] at hpop
  | stop =>
    simp only [hc] at h
    obtain ⟨_, he⟩ := underMutex_eq_some b _ _ h
    cases he
    exact hsame rfl rfl

theorem setFlag_hands (pc pc' : Pc) (p : ℕ) (v : Bool) (b : Board)
    (hv : v = true → b.inQueue p = true ∨ pc'.minds p) (hpc : ∀ p', pc.minds p' → p' = p ∧ v = false) :
    Hands pc pc' b (setFlag p v b) := by
  intro p' hp'
  by_cases hpp : p' = p
  · have htrue : v = true := by simpa [setFlag, hpp] using hp'
    subst hpp
    rcases hv htrue with hold | hnew
    · refine .inr (.inr ⟨hold, fun hx => ?_, id⟩)
      rw [(hpc p' hx).2] at htrue
      cases htrue
    · exact .inl hnew
  · exact .inr (.inr ⟨by simpa [setFlag, hpp] using hp', fun hx => hpp (hpc p' hx).1, id⟩)

theorem queuePushLocked_hands (pc pc' : Pc) (p : ℕ) (b : Board) (hpc : ∀ p', pc.minds p' → p' = p)
    (hreg : b.registered p = true) (hroom : b.q.length < qCap) :
    Hands pc pc' b (queuePushLocked p b) := by
  have hq : queuePushLocked p b = { b with q := b.q++[some p] } := by
    unfold queuePushLocked
    rw [if_neg]
    simp [hreg, hroom]
  rw [hq]
  intro p' hp'
  by_cases hpp : p' = p
  · refine .inr (.inl ?_)
    simp [hpp]
  · exact .inr (.inr ⟨hp', fun hx => hpp (hpc p' hx), fun hx => List.mem_append_left _ hx⟩)

theorem move_hands (w : Machine.Crew Pc Board) (j : ℕ) (i : Input) (pc' : Pc) (b' : Board)
    (hl : ∀ p, (w.pc j).ticks = some (some p) → w.shared.registered p = true)
    (hm : Meets w (j, i)) (h : move i (w.pc j) w.shared = some (pc', b')) :
    Hands (w.pc j) pc' w.shared b' := by
  unfold Meets at hm
  simp only at hm
  generalize w.shared = b at hl hm h ⊢
  generalize w.pc j = pc at hl hm h ⊢
  unfold move at h
  cases pc with
  | idle => exact begin_hands i b b' pc' h
  | notifyLoad p =>
    cases h
    exact Hands.keep _ _ _ _ (fun _ => id) (fun _ => id) fun _ _ => id
  | notifyExchange p =>
    cases h
    refine setFlag_hands _ _ p true b (fun _ => ?_) fun _ hx => absurd hx id
    cases hf : b.inQueue p with
    | true => exact .inl rfl
    | false => exact .inr rfl
  | notifyPush p =>
    obtain ⟨_, he⟩ := underMutex_eq_some b _ _ h
    cases he
    unfold notifyLocked
    split
    case isTrue hp =>
      simp only [Bool.and_eq_true] at hp
      exact queuePushLocked_hands _ _ p b (fun _ hx => hx.symm) hp.2 (hm (by simp [pushes, hp]))
    case isFalse =>
      exact setFlag_hands _ _ p false b (fun hx => by cases hx) fun _ hx => ⟨hx.symm, rfl⟩
  | ticking rest =>
    cases rest with
    | nil =>
      cases h
      exact Hands.keep _ _ _ _ (fun _ => id) (fun _ => id) fun _ _ => id
    | cons p rest =>
      cases h
      exact Hands.keep _ _ _ _ (fun _ => id) (fun _ => id) fun _ _ => id
  | tickExchange p rest =>
    cases h
    refine setFlag_hands _ _ p true b (fun _ => ?_) fun _ hx => absurd hx id
    cases hf : b.inQueue p with
    | true => exact .inl rfl
    | false => exact .inr rfl
  | tickPush p rest =>
    cases h
    exact queuePushLocked_hands _ _ p b (fun _ hx => hx.symm) (hl p rfl) (hm rfl)
  | popped p =>
    cases h
    exact setFlag_hands _ _ p false b (fun hx => by cases hx) fun _ hx => ⟨hx.symm, rfl⟩
  | serving p =>
    cases h
    exact Hands.keep _ _ _ _ (fun _ => id) (fun _ => id) fun _ _ => id

theorem minded_move (i : ℕ) (hi : i < n) (pc : ℕ → Pc) (pc' : Pc) (b b' : Board)
    (hm : Hands (pc i) pc' b b') (h : ∀ p, b.inQueue p = true → Minded n p pc b) (p : ℕ)
    (hp : b'.inQueue p = true) : Minded n p (Function.update pc i pc') b' := by
  rcases hm p hp with hnew | hslot | ⟨hold, hnot, hq⟩
  · refine .inr ⟨i, hi, ?_⟩
    rwa [Function.update_self]
  · exact .inl hslot
  · rcases h p hold with hslot | ⟨j, hj, hminds⟩
    · exact .inl (hq hslot)
    · have hji : j ≠ i := by
        rintro rfl
        exact hnot hminds
      refine .inr ⟨j, hj, ?_⟩
      rwa [Function.update_of_ne hji]

def crew : Machine.Crew Pc Board := ⟨start, fun _ => .idle⟩

theorem latched_crew : Latched n crew.pc crew.shared where
  held := fun _ _ hx => nomatch hx
  alone := fun _ _ _ _ hx => nomatch hx
  listed := fun _ _ _ hx => nomatch hx

/-- In a run of any number of threads and producers where every push finds a
free slot, no registered producer is left with its flag set and nobody to
serve it. -/
theorem run_no_lost_wakeup (n : ℕ) (acts : List (ℕ × Input)) (w : Machine.Crew Pc Board)
    (hc : Machine.Along (Machine.Crew.step n move) Meets acts crew)
    (h : Machine.run (Machine.Crew.step n move) acts crew = some w) : Served n w := by
  have hinv := Machine.Crew.run_rule n move
    (fun pc b => Latched n pc b ∧ ∀ p, b.inQueue p = true → Minded n p pc b) Meets ?_ acts crew w
    ⟨latched_crew, fun _ hx => nomatch hx⟩ hc h
  · exact fun p _ hp => hinv.2 p hp
  · rintro v i a pc b hi ⟨hlatch, hminded⟩ hm hmove
    constructor
    · exact hlatch.move i hi pc (move_latch a (v.pc i) pc v.shared b (hlatch.listed i hi) hmove)
    · exact minded_move i hi v.pc pc v.shared b
        (move_hands v i a pc b (hlatch.listed i hi) hm hmove) hminded

def calls (c : Call) : ℕ × Input := (0, ⟨c, true, true⟩)

/-- The producer 0 is registered and notified, and gone again. -/
def comeAndGo : List (ℕ × Input) :=
  [calls (.register 0), calls (.notify 0), calls .tick, calls .tick, calls .tick,
    calls (.unregister 0)]

def notified : List (ℕ × Input) := comeAndGo.take 5

theorem notified_served :
    ∃ w, Machine.run (Machine.Crew.step 1 move) notified crew = some w ∧
      w.shared.registered 0 = true ∧ w.shared.inQueue 0 = true ∧ Served 1 w :=
  ⟨_, rfl, rfl, rfl, run_no_lost_wakeup 1 notified _ (by decide) rfl⟩

/-- The environment after `k` producers have come and gone, with no sender
that had the time to pop. -/
def littered (k : ℕ) : Machine.Crew Pc Board :=
  ⟨{ start with q := List.replicate k none }, fun _ => .idle⟩

theorem comeAndGo_litters (k : ℕ) (hk : k < qCap) :
    Machine.run (Machine.Crew.step 1 move) comeAndGo (littered k) = some (littered (k+1)) := by
  have hroom : ¬ qCap ≤ k := by omega
  simp [Machine.run, comeAndGo, calls, littered, Machine.Crew.step, move, begin, underMutex,
    registerProducer, start, setFlag, notifyLocked, queuePushLocked, unregisterProducer, hroom]
  exact List.replicate_succ'.symm

theorem comeAndGo_repeats (k : ℕ) (hk : k ≤ qCap) :
    Machine.run (Machine.Crew.step 1 move) (List.replicate k comeAndGo).flatten crew =
      some (littered k) := by
  induction k with
  | zero => rfl
  | succ k ih =>
    rw [List.replicate_succ', List.flatten_append, Machine.run_append, ih (by omega)]
    simpa using comeAndGo_litters k (by omega)

/-- The producer 0 is registered and has its flag set, next to the queue `q`. -/
def stranded (q : List (Option ℕ)) : Machine.Crew Pc Board :=
  ⟨⟨false, false, Function.update (fun _ => false) 0 true,
    Function.update (fun _ => false) 0 true, [0], q⟩, fun _ => .idle⟩

theorem notified_strands (q : List (Option ℕ)) (hq : qCap ≤ q.length) :
    Machine.run (Machine.Crew.step 1 move) notified ⟨{ start with q := q }, fun _ => .idle⟩ =
      some (stranded q) := by
  simp [Machine.run, notified, comeAndGo, calls, stranded, Machine.Crew.step, move, begin,
    underMutex, registerProducer, start, setFlag, notifyLocked, queuePushLocked, hq]

theorem not_served_stranded (q : List (Option ℕ)) (hq : some 0 ∉ q) : ¬ Served 1 (stranded q) := by
  intro h
  rcases h 0 rfl rfl with hslot | ⟨i, _, hminds⟩
  · exact hq hslot
  · exact hminds

/-- After 4096 producers have come and gone, the push of the next one is
refused and its flag stays set. -/
theorem littered_wakeup_lost :
    ∃ w, Machine.run (Machine.Crew.step 1 move)
      ((List.replicate qCap comeAndGo).flatten++notified) crew = some w ∧ ¬ Served 1 w := by
  refine ⟨stranded (List.replicate qCap none), ?_, not_served_stranded _ ?_⟩
  · have hfull : qCap ≤ (List.replicate qCap (none : Option ℕ)).length := by
      rw [List.length_replicate]
    rw [Machine.run_append, comeAndGo_repeats qCap le_rfl, Option.bind_some, littered,
      notified_strands _ hfull]
  · intro h
    cases List.eq_of_mem_replicate h

end Board

end VeTls.Env
