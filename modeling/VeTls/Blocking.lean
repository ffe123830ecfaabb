import VeTls.Lib.Signals
import VeTls.Rings

/-!
# Threads at the send queue

Any number of threads push to the send queue and pop from it. A call takes the
mutex and looks at the queue; it returns, or it waits at the condition of its
kind until a signal, the timeout or nothing at all wakes it, and looks again.
Who puts a task in or takes one out signals one thread of the other kind.
-/

set_option autoImplicit false

namespace VeTls.Blocking

open VeTls.Rings (Reply SendHolds SendOp SendQueue sendQueuePop sendQueuePush sendStep waitTurn)
open VeTls.Signals (Move Served Stance count)

variable {τ : Type}

section Source

inductive Call (τ : Type) where
  | push (t : τ) (waitMs : ℤ)
  | pop (waitMs : ℤ)
  deriving DecidableEq, Repr

/-- A look at the queue so long after the call began. -/
def Call.op : Call τ → ℤ → SendOp τ
  | .push t waitMs, waited => .push t waitMs waited
  | .pop waitMs, waited => .pop waitMs waited

def Call.isPush : Call τ → Bool
  | .push _ _ => true
  | .pop _ => false

def Call.tasks : Call τ → List τ
  | .push t _ => [t]
  | .pop _ => []

/-- `ready` is in front of the mutex, at first or after a wait. -/
inductive Pc (τ : Type) where
  | out
  | ready (c : Call τ) (start : ℤ)
  | waiting (c : Call τ) (start : ℤ)
  | returned (r : Reply τ)
  deriving DecidableEq, Repr

/-- The thread waits for what the other kind of call signals. -/
def Pc.hears (c : Call τ) : Pc τ → Bool
  | .waiting d _ => d.isPush != c.isPush
  | _ => false

def Pc.wake : Pc τ → Pc τ
  | .waiting c start => .ready c start
  | pc => pc

def Pc.free : Pc τ → Bool
  | .out => true
  | .returned _ => true
  | _ => false

/-- What was put in and taken out so far is written down. -/
structure State (τ : Type) where
  queue : SendQueue τ
  pc : ℕ → Pc τ
  pushed : List τ
  popped : List τ

/-- `memory` tells whether there is a block for a task, and `woken` which
sleeper a signal wakes. -/
inductive Act (τ : Type) where
  | call (i : ℕ) (c : Call τ) (start : ℤ)
  | enter (i : ℕ) (now : ℤ) (memory : Bool) (woken : Option ℕ)
  | wake (i : ℕ)
  | stop
  deriving DecidableEq, Repr

variable (n : ℕ)

/-- One of those that hear it wakes up, if there are any. -/
def signal (c : Call τ) (woken : Option ℕ) (f : ℕ → Pc τ) : Option (ℕ → Pc τ) :=
  match woken with
  | some j => if j < n ∧ (f j).hears c = true then some (Function.update f j (f j).wake) else none
  | none => if ∀ j < n, (f j).hears c = false then some f else none

def returns (s : State τ) (i : ℕ) (c : Call τ) (woken : Option ℕ) (r : ℤ) (out : Option τ)
    (q : SendQueue τ) : Option (State τ) :=
  let pc := Function.update s.pc i (.returned (.rc r out))
  if r = 0 then
    (signal n c woken pc).map fun pc => ⟨q, pc, s.pushed++c.tasks, s.popped++out.toList⟩
  else some { s with queue := q, pc := pc }

def enter (s : State τ) (i : ℕ) (now : ℤ) (memory : Bool) (woken : Option ℕ) : Option (State τ) :=
  match s.pc i with
  | .ready c start =>
    match sendStep memory s.queue (c.op (now-start)) with
    | none => none
    | some (.waits, q) => some { s with queue := q, pc := Function.update s.pc i (.waiting c start) }
    | some (.rc r out, q) => returns n s i c woken r out q
  | _ => none

def step (s : State τ) : Act τ → Option (State τ)
  | .call i c start =>
    if i < n ∧ (s.pc i).free = true then
      some { s with pc := Function.update s.pc i (.ready c start) }
    else none
  | .enter i now memory woken => if i < n then enter n s i now memory woken else none
  | .wake i =>
    if i < n then some { s with pc := Function.update s.pc i (s.pc i).wake } else none
  | .stop => some { s with queue := { s.queue with stop := true }, pc := fun i => (s.pc i).wake }

def start (cap : ℕ) : State τ := ⟨⟨RingBuffer.fresh cap, false⟩, fun _ => .out, [], []⟩

end Source

section Looks

variable {cap : ℕ} {q : SendQueue τ} {l : List τ}

/-- What a look may find. -/
inductive Look (cap : ℕ) (c : Call τ) (memory : Bool) (q : SendQueue τ) (l : List τ) :
    Reply τ → SendQueue τ → Prop
  | waits (hs : q.stop = false) (hp : c.isPush = true → cap ≤ l.length)
      (hc : c.isPush = false → l = []) : Look cap c memory q l .waits q
  | refused (r : ℤ) (hr : r ≠ 0)
      (hp : c.isPush = true → q.stop = true ∨ cap ≤ l.length ∨ memory = false)
      (hc : c.isPush = false → l = []) : Look cap c memory q l (.rc r none) q
  | put (t : τ) (waitMs : ℤ) (q' : SendQueue τ) (hcall : c = .push t waitMs) (hs : q.stop = false)
      (hroom : l.length < cap) (hq : SendHolds cap q' (l++[t], false)) :
      Look cap c memory q l (.rc 0 none) q'
  | took (x : τ) (l' : List τ) (q' : SendQueue τ) (hcall : c.isPush = false) (hl : l = x::l')
      (hq : SendHolds cap q' (l', q.stop)) : Look cap c memory q l (.rc 0 (some x)) q'

theorem waitTurn_cases (waitMs waited : ℤ) :
    waitTurn (α := τ) waitMs waited (-2) = .waits ∨
      ∃ r, r ≠ 0 ∧ waitTurn (α := τ) waitMs waited (-2) = .rc r none := by
  unfold waitTurn
  split
  · exact .inr ⟨-1, by decide, rfl⟩
  · split
    · exact .inl rfl
    · split
      · exact .inr ⟨-2, by decide, rfl⟩
      · exact .inl rfl

theorem look_push (h : SendHolds cap q (l, q.stop)) (t : τ) (waitMs waited : ℤ) (memory : Bool) :
    ∃ r q', sendQueuePush memory t waitMs waited q = some (r, q') ∧
      Look cap (.push t waitMs) memory q l r q' := by
  obtain ⟨hb, -⟩ := h
  have hcount := hb.holds.count
  unfold sendQueuePush
  rw [hcount, hb.cap]
  cases hs : q.stop with
  | true =>
    refine ⟨_, q, rfl, .refused (-1) (by decide) (fun _ => .inl hs) fun hc => ?_⟩
    cases hc
  | false =>
    by_cases hfull : cap ≤ l.length
    · rw [Bool.not_false, Bool.true_and, if_pos (decide_eq_true hfull)]
      refine ⟨_, q, rfl, ?_⟩
      rcases waitTurn_cases (τ := τ) waitMs waited with hw | ⟨r, hr, hw⟩ <;> rw [hw]
      · exact .waits hs (fun _ => hfull) fun hc => by cases hc
      · exact .refused r hr (fun _ => .inr (.inl hfull)) fun hc => by cases hc
    · rw [Bool.not_false, Bool.true_and, if_neg (by simpa using hfull), if_neg Bool.false_ne_true]
      cases memory with
      | false =>
        refine ⟨_, q, rfl, .refused (-1) (by decide) (fun _ => .inr (.inr rfl)) fun hc => ?_⟩
        cases hc
      | true =>
        obtain ⟨r, happ, hr⟩ := hb.append cap q.ring l t (not_le.mp hfull)
        rw [happ]
        exact ⟨_, _, rfl, .put t waitMs _ rfl hs (not_le.mp hfull) ⟨hr, rfl⟩⟩

theorem look_pop (h : SendHolds cap q (l, q.stop)) (waitMs waited : ℤ) (memory : Bool) :
    ∃ r q', sendQueuePop waitMs waited q = some (r, q') ∧ Look cap (.pop waitMs) memory q l r q' := by
  obtain ⟨hb, -⟩ := h
  have hcount := hb.holds.count
  unfold sendQueuePop
  rw [hcount]
  cases l with
  | nil =>
    cases hs : q.stop with
    | true =>
      rw [hb.pop_nil cap q.ring]
      refine ⟨_, q, rfl, .refused (-1) (by decide) (fun hc => ?_) fun _ => rfl⟩
      cases hc
    | false =>
      refine ⟨_, q, rfl, ?_⟩
      rcases waitTurn_cases (τ := τ) waitMs waited with hw | ⟨r, hr, hw⟩ <;> rw [hw]
      · exact .waits hs (fun hc => by cases hc) fun _ => rfl
      · exact .refused r hr (fun hc => by cases hc) fun _ => rfl
  | cons x l =>
    obtain ⟨r, hp, hr⟩ := hb.pop cap q.ring l x
    rw [if_neg (by simp), hp]
    exact ⟨_, _, rfl, .took x l _ rfl rfl ⟨hr, rfl⟩⟩

/-- A look never finds the queue broken. -/
theorem look_spec (h : SendHolds cap q (l, q.stop)) (c : Call τ) (waited : ℤ) (memory : Bool) :
    ∃ r q', sendStep memory q (c.op waited) = some (r, q') ∧ Look cap c memory q l r q' := by
  cases c with
  | push t waitMs => exact look_push h t waitMs waited memory
  | pop waitMs => exact look_pop h waitMs waited memory

end Looks

section Signals

/-- Where a thread is with the condition of its kind of call. -/
def stance (push : Bool) : Pc τ → Stance
  | .ready c _ => if c.isPush = push then .awake else .apart
  | .waiting c _ => if c.isPush = push then .asleep else .apart
  | _ => .apart

/-- The slots for those who push, the tasks for those who pop. -/
def units (cap : ℕ) (push : Bool) (l : List τ) : ℕ := if push then cap-l.length else l.length

theorem hears_iff (c : Call τ) (pc : Pc τ) :
    pc.hears c = true ↔ stance (!c.isPush) pc = .asleep := by
  cases pc with
  | waiting d start => cases hd : d.isPush <;> cases hc : c.isPush <;> simp [Pc.hears, stance, hd, hc]
  | ready d start => cases hd : d.isPush <;> cases hc : c.isPush <;> simp [Pc.hears, stance, hd]
  | _ => simp [Pc.hears, stance]

theorem wake_move (push : Bool) (pc : Pc τ) (free : ℕ) :
    Move (stance push pc) (stance push pc.wake) free free := by
  cases pc with
  | waiting c start =>
    unfold Pc.wake stance
    dsimp only
    split
    · exact .wakes free
    · exact .stays _ free
  | _ => exact .stays _ free

theorem wake_awake (push : Bool) (pc : Pc τ) : stance push pc.wake ≠ .asleep := by
  cases pc with
  | waiting c start =>
    unfold Pc.wake stance
    dsimp only
    split <;> decide
  | ready c start =>
    unfold Pc.wake stance
    dsimp only
    split <;> decide
  | _ => simp [Pc.wake, stance]

variable {n cap : ℕ} {f : ℕ → Pc τ} {l l' : List τ}

/-- Who returns with a unit makes one of the other kind, and signals it. -/
theorem signal_served (hf : ∀ b, Served n (stance b) f (units cap b l)) (i : ℕ) (hi : i < n)
    (c : Call τ) (start : ℤ) (hready : f i = .ready c start) (r : Reply τ)
    (hown : units cap c.isPush l = units cap c.isPush l'+1)
    (hother : units cap (!c.isPush) l' = units cap (!c.isPush) l+1) (woken : Option ℕ)
    (g : ℕ → Pc τ) (hg : signal n c woken (Function.update f i (.returned r)) = some g) :
    ∀ b, Served n (stance b) g (units cap b l') := by
  have hmine : Served n (stance c.isPush) (Function.update f i (.returned r))
      (units cap c.isPush l') := by
    refine (hf c.isPush).move i hi _ ?_
    rw [hready, hown]
    simp only [stance, if_true]
    exact .takes _
  have htheirs : Served n (stance (!c.isPush)) (Function.update f i (.returned r))
      (units cap (!c.isPush) l) := by
    refine (hf (!c.isPush)).move i hi _ ?_
    rw [hready]
    simp only [stance, Bool.eq_not_self, if_false]
    exact .stays _ _
  have hboth : ∀ h : ℕ → Pc τ, Served n (stance c.isPush) h (units cap c.isPush l') →
      Served n (stance (!c.isPush)) h (units cap (!c.isPush) l') →
      ∀ b, Served n (stance b) h (units cap b l') := by
    intro h h1 h2 b
    cases b <;> cases hc : c.isPush <;> simp only [hc, Bool.not_true, Bool.not_false] at h1 h2 <;>
      assumption
  unfold signal at hg
  cases woken with
  | none =>
    dsimp only at hg
    split at hg
    · next hnone =>
      obtain rfl := Option.some.inj hg
      refine hboth _ hmine (Signals.served_of_none (fun j hj hsleep => ?_) _)
      exact Bool.false_ne_true ((hnone j hj).symm.trans ((hears_iff c _).mpr hsleep))
    · cases hg
  | some j =>
    dsimp only at hg
    split at hg
    · next hj =>
      obtain rfl := Option.some.inj hg
      have hsleep := (hears_iff c _).mp hj.2
      refine hboth _ (hmine.move j hj.1 _ (wake_move _ _ _)) ?_
      rw [hother]
      refine htheirs.signal j hj.1 hsleep _ ?_
      have hmove := wake_move (!c.isPush) (Function.update f i (.returned r) j) 0
      rw [hsleep] at hmove
      have hne := wake_awake (!c.isPush) (Function.update f i (.returned r) j)
      generalize stance (!c.isPush) (Function.update f i (.returned r) j).wake = x at hmove hne
      cases hmove with
      | stays => exact absurd rfl hne
      | wakes => rfl
    · cases hg

end Signals

section Steps

/-- The queue holds what was put in and not yet taken out, and nobody sleeps
once it is stopped. -/
structure Kept (cap n : ℕ) (s : State τ) (l : List τ) : Prop where
  holds : SendHolds cap s.queue (l, s.queue.stop)
  order : s.pushed = s.popped++l
  stopped : s.queue.stop = true → ∀ i < n, ∀ b, stance b (s.pc i) ≠ .asleep

/-- Nobody sleeps before a unit that no thread awake is for. -/
def Serves (cap n : ℕ) (s : State τ) (l : List τ) : Prop :=
  ∀ b, Served n (stance b) s.pc (units cap b l)

variable {cap n : ℕ} {s s' : State τ} {l : List τ}

theorem update_stopped {f : ℕ → Pc τ} (h : ∀ i < n, ∀ b, stance b (f i) ≠ .asleep) (j : ℕ)
    (pc : Pc τ) (hpc : ∀ b, stance b pc ≠ .asleep) :
    ∀ i < n, ∀ b, stance b (Function.update f j pc i) ≠ .asleep := by
  intro i hi b
  by_cases hij : i = j
  · rw [hij, Function.update_self]
    exact hpc b
  · rw [Function.update_of_ne hij]
    exact h i hi b

theorem stance_returned (r : Reply τ) (b : Bool) : stance b (.returned r : Pc τ) ≠ .asleep := by
  simp [stance]

/-- A thread makes a move that keeps the queue. -/
theorem Kept.moves (h : Kept cap n s l) (i : ℕ) (pc : Pc τ)
    (hstop : s.queue.stop = true → ∀ b, stance b pc ≠ .asleep) :
    Kept cap n { s with pc := Function.update s.pc i pc } l where
  holds := h.holds
  order := h.order
  stopped := fun hs => update_stopped (h.stopped hs) i pc (hstop hs)

theorem Serves.moves (h : Serves cap n s l) (i : ℕ) (hi : i < n) (pc : Pc τ)
    (hmove : ∀ b, Move (stance b (s.pc i)) (stance b pc) (units cap b l) (units cap b l)) :
    Serves cap n { s with pc := Function.update s.pc i pc } l :=
  fun b => (h b).move i hi pc (hmove b)

/-- Who returns without a unit leaves when there is none. -/
theorem Serves.leaves (h : Serves cap n s l) (i : ℕ) (hi : i < n) (c : Call τ) (start : ℤ)
    (hready : s.pc i = .ready c start) (r : Reply τ) (hzero : units cap c.isPush l = 0) :
    Serves cap n { s with pc := Function.update s.pc i (.returned r) } l := by
  refine h.moves i hi _ fun b => ?_
  rw [hready]
  by_cases hb : c.isPush = b
  · rw [← hb, hzero]
    simp only [stance, if_true]
    exact .leaves
  · simp only [stance, if_neg hb]
    exact .stays _ _

theorem Serves.sleeps (h : Serves cap n s l) (i : ℕ) (hi : i < n) (c : Call τ) (start : ℤ)
    (hready : s.pc i = .ready c start) (hzero : units cap c.isPush l = 0) :
    Serves cap n { s with pc := Function.update s.pc i (.waiting c start) } l := by
  refine h.moves i hi _ fun b => ?_
  rw [hready]
  by_cases hb : c.isPush = b
  · rw [← hb, hzero]
    simp only [stance, if_true]
    exact .sleeps
  · simp only [stance, if_neg hb]
    exact .stays _ _

theorem signal_stopped (c : Call τ) (woken : Option ℕ) (f g : ℕ → Pc τ)
    (hg : signal n c woken f = some g) (h : ∀ i < n, ∀ b, stance b (f i) ≠ .asleep) :
    ∀ i < n, ∀ b, stance b (g i) ≠ .asleep := by
  unfold signal at hg
  cases woken with
  | none =>
    dsimp only at hg
    split at hg
    · obtain rfl := Option.some.inj hg
      exact h
    · cases hg
  | some j =>
    dsimp only at hg
    split at hg
    · obtain rfl := Option.some.inj hg
      exact update_stopped h j _ fun b => wake_awake b _
    · cases hg

/-- A turn at the mutex: what the thread sees, and what the state is then. -/
theorem enter_cases (h : SendHolds cap s.queue (l, s.queue.stop)) (i : ℕ) (now : ℤ)
    (memory : Bool) (woken : Option ℕ) (hs : enter n s i now memory woken = some s') :
    ∃ c start r q, s.pc i = .ready c start ∧ Look cap c memory s.queue l r q ∧
      ((r = .waits ∧
          s' = { s with queue := q, pc := Function.update s.pc i (.waiting c start) }) ∨
        ∃ code out, r = .rc code out ∧ returns n s i c woken code out q = some s') := by
  unfold enter at hs
  cases hpc : s.pc i with
  | ready c start =>
    obtain ⟨r, q, hr, hlook⟩ := look_spec h c (now-start) memory
    rw [hpc] at hs
    dsimp only at hs
    rw [hr] at hs
    refine ⟨c, start, r, q, rfl, hlook, ?_⟩
    cases r with
    | waits => exact .inl ⟨rfl, (Option.some.inj hs).symm⟩
    | rc code out => exact .inr ⟨code, out, rfl, hs⟩
  | out =>
    rw [hpc] at hs
    cases hs
  | waiting c start =>
    rw [hpc] at hs
    cases hs
  | returned r =>
    rw [hpc] at hs
    cases hs

theorem returns_zero (i : ℕ) (c : Call τ) (woken : Option ℕ) (out : Option τ) (q : SendQueue τ)
    (hs : returns n s i c woken 0 out q = some s') :
    ∃ g, signal n c woken (Function.update s.pc i (.returned (.rc 0 out))) = some g ∧
      s' = ⟨q, g, s.pushed++c.tasks, s.popped++out.toList⟩ := by
  unfold returns at hs
  rw [if_pos rfl] at hs
  obtain ⟨g, hg, rfl⟩ := Option.map_eq_some_iff.mp hs
  exact ⟨g, hg, rfl⟩

theorem units_zero (c : Call τ) (hp : c.isPush = true → cap ≤ l.length)
    (hc : c.isPush = false → l = []) : units cap c.isPush l = 0 := by
  cases hpush : c.isPush with
  | true => exact Nat.sub_eq_zero_of_le (hp hpush)
  | false =>
    rw [hc hpush]
    rfl

/-- What a turn leaves in the queue, and that it serves the sleepers if there
is memory for the task. -/
theorem Kept.enter (h : Kept cap n s l) (i : ℕ) (hi : i < n) (now : ℤ) (memory : Bool)
    (woken : Option ℕ) (hs : enter n s i now memory woken = some s') :
    ∃ l', Kept cap n s' l' ∧ (memory = true → Serves cap n s l → Serves cap n s' l') := by
  obtain ⟨c, start, r, q, hready, hlook, hcase⟩ := enter_cases h.holds i now memory woken hs
  cases hlook with
  | waits hstop hp hc =>
    obtain ⟨-, rfl⟩ := hcase.resolve_right (by rintro ⟨_, _, hr, -⟩; cases hr)
    exact ⟨l, h.moves i _ fun hs => absurd (hstop.symm.trans hs) Bool.false_ne_true,
      fun _ hserves => hserves.sleeps i hi c start hready (units_zero c hp hc)⟩
  | refused code hcode hp hc =>
    obtain ⟨_, _, hr, hret⟩ := hcase.resolve_left (by rintro ⟨hr, -⟩; cases hr)
    cases hr
    unfold returns at hret
    rw [if_neg hcode] at hret
    obtain rfl := Option.some.inj hret
    have hkept := h.moves i (.returned (.rc code none)) fun _ => stance_returned _
    refine ⟨l, hkept, fun hm hserves => ?_⟩
    by_cases hstop : s.queue.stop = true
    · exact fun b => Signals.served_of_none (fun j hj => hkept.stopped hstop j hj b) _
    · refine hserves.leaves i hi c start hready _ (units_zero c (fun hpush => ?_) hc)
      rcases hp hpush with hs | hfull | hno
      · exact absurd hs hstop
      · exact hfull
      · exact absurd (hno.symm.trans hm) Bool.false_ne_true
  | put t waitMs q' hcall hstop hroom hq =>
    obtain ⟨_, _, hr, hret⟩ := hcase.resolve_left (by rintro ⟨hr, -⟩; cases hr)
    cases hr
    obtain ⟨g, hg, rfl⟩ := returns_zero i c woken none q hret
    refine ⟨l++[t], ⟨⟨hq.1, rfl⟩, ?_, fun hs => ?_⟩, fun _ hserves => ?_⟩
    · rw [hcall, h.order, Option.toList_none, List.append_nil, List.append_assoc]
      rfl
    · exact absurd (hq.2.symm.trans hs) Bool.false_ne_true
    · refine signal_served hserves i hi c start hready _ ?_ ?_ woken g hg
      · rw [hcall]
        simp only [units, Call.isPush, if_true, List.length_append, List.length_singleton]
        omega
      · rw [hcall]
        simp [units, Call.isPush]
  | took x l' q' hpop hl hq =>
    obtain ⟨_, _, hr, hret⟩ := hcase.resolve_left (by rintro ⟨hr, -⟩; cases hr)
    cases hr
    obtain ⟨g, hg, rfl⟩ := returns_zero i c woken (some x) q hret
    refine ⟨l', ⟨⟨hq.1, rfl⟩, ?_, fun hs => ?_⟩, fun _ hserves => ?_⟩
    · have htasks : c.tasks = [] := by
        cases c with
        | push t w => cases hpop
        | pop w => rfl
      rw [htasks, h.order, hl, Option.toList_some, List.append_nil, List.append_assoc]
      rfl
    · refine signal_stopped c woken _ g hg (update_stopped (h.stopped ?_) i _ (stance_returned _))
      exact hq.2.symm.trans hs
    · have hfits := h.holds.1.holds.fits
      rw [h.holds.1.cap, hl, List.length_cons] at hfits
      refine signal_served hserves i hi c start hready _ ?_ ?_ woken g hg
      · rw [hpop, hl]
        simp [units]
      · rw [hpop, hl]
        simp only [units, Bool.not_false, if_true, List.length_cons]
        omega

/-- The action has the memory it asks for. -/
def Act.provided : Act τ → Bool
  | .enter _ _ memory _ => memory
  | _ => true

theorem stance_free (pc : Pc τ) (h : pc.free = true) (b : Bool) : stance b pc = .apart := by
  cases pc <;> first | rfl | cases h

theorem stance_ready (c : Call τ) (start : ℤ) (b : Bool) :
    stance b (.ready c start) ≠ .asleep := by
  unfold stance
  dsimp only
  split <;> decide

theorem Serves.call (h : Serves cap n s l) (i : ℕ) (hi : i < n) (c : Call τ) (start : ℤ)
    (hfree : (s.pc i).free = true) :
    Serves cap n { s with pc := Function.update s.pc i (.ready c start) } l := by
  refine h.moves i hi _ fun b => ?_
  rw [stance_free _ hfree]
  unfold stance
  dsimp only
  split
  · exact .arrives _
  · exact .stays _ _

theorem Kept.step (h : Kept cap n s l) (a : Act τ) (hs : step n s a = some s') :
    ∃ l', Kept cap n s' l' ∧ (a.provided = true → Serves cap n s l → Serves cap n s' l') := by
  cases a with
  | call i c start =>
    rw [Blocking.step] at hs
    split at hs
    · next hfree =>
      obtain rfl := Option.some.inj hs
      exact ⟨l, h.moves i _ fun _ => stance_ready c start, fun _ hserves =>
        hserves.call i hfree.1 c start hfree.2⟩
    · cases hs
  | enter i now memory woken =>
    rw [Blocking.step] at hs
    split at hs
    · next hi => exact h.enter i hi now memory woken hs
    · cases hs
  | wake i =>
    rw [Blocking.step] at hs
    split at hs
    · next hi =>
      obtain rfl := Option.some.inj hs
      exact ⟨l, h.moves i _ fun _ b => wake_awake b _, fun _ hserves =>
        hserves.moves i hi _ fun b => wake_move b _ _⟩
    · cases hs
  | stop =>
    obtain rfl := Option.some.inj hs
    exact ⟨l, ⟨⟨h.holds.1, rfl⟩, h.order, fun _ i _ b => wake_awake b (s.pc i)⟩,
      fun _ _ b => Signals.served_of_none (fun i _ => wake_awake b (s.pc i)) _⟩

end Steps

section Runs

variable {cap n : ℕ} {s s' : State τ} {l : List τ}

theorem start_kept (cap n : ℕ) (hcap : 0 < cap) : Kept cap n (start cap : State τ) [] :=
  ⟨⟨⟨RingBuffer.fresh_holds cap hcap, rfl⟩, rfl⟩, rfl, fun _ _ _ _ => by simp [start, stance]⟩

theorem start_serves (cap n : ℕ) : Serves cap n (start cap : State τ) [] :=
  fun _ => Signals.served_of_none (fun _ _ => by simp [start, stance]) _

theorem run_kept (hcap : 0 < cap) (as : List (Act τ)) (s : State τ)
    (h : Machine.run (step n) as (start cap) = some s) : ∃ l, Kept cap n s l :=
  Machine.run_invariant (step n) (fun s => ∃ l, Kept cap n s l) (fun _ _ => True)
    (fun _ a _ ⟨_, hl⟩ _ hs => (hl.step a hs).imp fun _ h => h.1) as (start cap) s
    ⟨[], start_kept cap n hcap⟩ (Machine.along_of_forall _ _ as _ fun _ _ => trivial) h

theorem run_serves (hcap : 0 < cap) (as : List (Act τ)) (s : State τ)
    (hm : ∀ a ∈ as, a.provided = true)
    (h : Machine.run (step n) as (start cap) = some s) : ∃ l, Kept cap n s l ∧ Serves cap n s l := by
  refine Machine.run_invariant (step n) (fun s => ∃ l, Kept cap n s l ∧ Serves cap n s l)
    (fun _ a => a.provided = true) ?_ as (start cap) s
    ⟨[], start_kept cap n hcap, start_serves cap n⟩ (Machine.along_of_forall _ _ as _ hm) h
  rintro s a s' ⟨l, hl, hserves⟩ ha hs
  obtain ⟨l', hl', hserves'⟩ := hl.step a hs
  exact ⟨l', hl', hserves' ha hserves⟩

end Runs

/-- The thread is at the mutex, to look. -/
def Pc.looks (pc : Pc τ) : Prop := ∃ c start, pc = .ready c start

/-- Tasks come out in the order in which they went in, and no more than the
capacity are inside. If there is memory for the tasks, then whoever sleeps in a
push or a pop has as many threads awake beside it as there are slots or tasks:
when nobody is about to look, the queue is full for those who push and empty
for those who pop, and not stopped. -/
theorem run_no_wakeup_lost (cap n : ℕ) (hcap : 0 < cap) (as : List (Act τ)) (s : State τ)
    (h : Machine.run (step n) as (start cap) = some s) :
    ∃ l, SendHolds cap s.queue (l, s.queue.stop) ∧ s.pushed = s.popped++l ∧ l.length ≤ cap ∧
      ((∀ a ∈ as, a.provided = true) →
        (∀ i < n, ∀ b, stance b (s.pc i) = .asleep → s.queue.stop = false ∧
          units cap b l ≤ count n (stance b) .awake s.pc) ∧
        ((∀ i < n, ¬ (s.pc i).looks) → ∀ i < n, ∀ b, stance b (s.pc i) = .asleep →
          units cap b l = 0 ∧ ∀ j < n, stance (!b) (s.pc j) ≠ .asleep)) := by
  obtain ⟨l, hl⟩ := run_kept hcap as s h
  have hfits := hl.holds.1.holds.fits
  rw [hl.holds.1.cap] at hfits
  refine ⟨l, hl.holds, hl.order, hfits, fun hm => ?_⟩
  obtain ⟨l', hl', hserves⟩ := run_serves hcap as s hm h
  obtain rfl : l = l' := List.append_cancel_left (hl.order.symm.trans hl'.order)
  have hawake : (∀ i < n, ¬ (s.pc i).looks) → ∀ b, ∀ i < n, stance b (s.pc i) ≠ .awake := by
    intro hnone b i hi ha
    apply hnone i hi
    cases hpc : s.pc i with
    | ready c start => exact ⟨c, start, rfl⟩
    | out =>
      rw [hpc] at ha
      cases ha
    | returned r =>
      rw [hpc] at ha
      cases ha
    | waiting c start =>
      rw [hpc] at ha
      unfold stance at ha
      dsimp only at ha
      split at ha <;> cases ha
  refine ⟨fun i hi b hsleep => ⟨?_, ?_⟩, fun hnone i hi b hsleep => ?_⟩
  · by_contra hs
    exact hl.stopped (by simpa using hs) i hi b hsleep
  · exact hserves b (Signals.count_pos n (stance b) .asleep s.pc i hi hsleep)
  · have hzero := (hserves b).none_awake (hawake hnone b) i hi hsleep
    refine ⟨hzero, fun j hj hother => ?_⟩
    have hzero' := (hserves (!b)).none_awake (hawake hnone (!b)) j hj hother
    have hslots : units cap true l = cap-l.length := rfl
    have htasks : units cap false l = l.length := rfl
    cases b <;> simp only [Bool.not_true, Bool.not_false, hslots, htasks] at hzero hzero' <;> omega

/-- One slot; a thread that waits to push, and one that pops. -/
def handOver : List (Act ℕ) :=
  [.call 0 (.push 7 0) 0, .enter 0 0 true none, .call 0 (.push 8 (-1)) 0, .enter 0 0 true none,
    .call 1 (.pop 5) 0, .enter 1 0 true (some 0), .enter 0 9 true none]

theorem handOver_run : ∃ s, Machine.run (step 2) handOver (start 1) = some s ∧
    s.pushed = [7, 8] ∧ s.popped = [7] :=
  ⟨(Machine.run (step 2) handOver (start 1)).get (by decide), by simp, by decide, by decide⟩

theorem run_no_wakeup_lost_two :
    ∃ s l, Machine.run (step 2) handOver (start 1) = some s ∧ s.popped = [7] ∧
      SendHolds 1 s.queue (l, s.queue.stop) ∧ s.pushed = s.popped++l ∧
      ∀ i < 2, ∀ b, stance b (s.pc i) = .asleep → s.queue.stop = false ∧
        units 1 b l ≤ count 2 (stance b) .awake s.pc := by
  obtain ⟨s, hrun, -, hpopped⟩ := handOver_run
  obtain ⟨l, hholds, horder, -, hrest⟩ := run_no_wakeup_lost 1 2 (by decide) handOver s hrun
  exact ⟨s, l, hrun, hpopped, hholds, horder, (hrest (by decide)).1⟩

/-- The reply of the turn after a stop: no push gets in, and a pop gets the
first task that is left. -/
def StopReply (c : Call τ) (l : List τ) (r : ℤ) (out : Option τ) : Prop :=
  if c.isPush then r ≠ 0 ∧ out = none else out = l.head? ∧ (r = 0 ↔ l ≠ [])

theorem look_stopped {cap : ℕ} {q q' : SendQueue τ} {l : List τ} {c : Call τ} {memory : Bool}
    {r : Reply τ} (h : Look cap c memory q l r q') (hs : q.stop = true) :
    ∃ code out, r = .rc code out ∧ StopReply c l code out ∧ q'.stop = true := by
  unfold StopReply
  cases h with
  | waits hstop => exact absurd (hstop.symm.trans hs) Bool.false_ne_true
  | refused code hcode hp hc =>
    refine ⟨code, none, rfl, ?_, hs⟩
    cases hpush : c.isPush with
    | true => exact ⟨hcode, rfl⟩
    | false =>
      rw [hc hpush]
      simp [hcode]
  | put t waitMs q' hcall hstop => exact absurd (hstop.symm.trans hs) Bool.false_ne_true
  | took x l' q' hpop hl hq =>
    refine ⟨0, some x, rfl, ?_, hq.2.trans hs⟩
    rw [hpop, hl]
    simp

/-- Once the queue is stopped nobody sleeps, and every thread that is still in
a call returns from it at its next turn, whatever the clock and the allocator
answer. -/
theorem run_stop_returns (cap n : ℕ) (hcap : 0 < cap) (as : List (Act τ)) (s : State τ)
    (h : Machine.run (step n) as (start cap) = some s) (hs : s.queue.stop = true) :
    (∀ i < n, ∀ b, stance b (s.pc i) ≠ .asleep) ∧
      ∀ i < n, ∀ c begun, s.pc i = .ready c begun → ∀ now memory, ∃ s' r out l,
        step n s (.enter i now memory none) = some s' ∧
        s'.pc = Function.update s.pc i (.returned (.rc r out)) ∧ s'.queue.stop = true ∧
        s.pushed = s.popped++l ∧ StopReply c l r out := by
  obtain ⟨l, hl⟩ := run_kept hcap as s h
  refine ⟨hl.stopped hs, fun i hi c begun hready now memory => ?_⟩
  obtain ⟨r, q, hlook, hspec⟩ := look_spec hl.holds c (now-begun) memory
  obtain ⟨code, out, rfl, hreply, hq⟩ := look_stopped hspec hs
  have hquiet : ∀ j < n, (Function.update s.pc i (.returned (.rc code out)) j).hears c = false := by
    intro j hj
    rw [← Bool.not_eq_true, hears_iff]
    exact update_stopped (hl.stopped hs) i _ (stance_returned _) j hj _
  have hstep : step n s (.enter i now memory none) = returns n s i c none code out q := by
    rw [Blocking.step, if_pos hi, Blocking.enter, hready]
    dsimp only
    rw [hlook]
  rw [hstep]
  unfold returns
  dsimp only
  split
  · have hsignal : signal n c none (Function.update s.pc i (.returned (.rc code out))) = some _ :=
      if_pos hquiet
    rw [hsignal]
    exact ⟨_, code, out, l, rfl, rfl, hq, hl.order, hreply⟩
  · exact ⟨_, code, out, l, rfl, rfl, hq, hl.order, hreply⟩

/-- A task is left; two threads that sleep in a push are woken by the stop. -/
def stopped : List (Act ℕ) :=
  [.call 0 (.push 7 0) 0, .enter 0 0 true none, .call 0 (.push 8 (-1)) 0, .enter 0 0 true none,
    .call 1 (.push 9 50) 0, .enter 1 3 true none, .call 2 (.pop 0) 0, .stop]

theorem run_stop_returns_three :
    ∃ s, Machine.run (step 3) stopped (start 1) = some s ∧
      (∀ i < 3, ∀ b, stance b (s.pc i) ≠ .asleep) ∧
      ∀ i < 3, ∀ c begun, s.pc i = .ready c begun → ∀ now memory, ∃ s' r out l,
        step 3 s (.enter i now memory none) = some s' ∧
        s'.pc = Function.update s.pc i (.returned (.rc r out)) ∧ s'.queue.stop = true ∧
        s.pushed = s.popped++l ∧ StopReply c l r out := by
  have hrun : ((Machine.run (step 3) stopped (start 1)).map fun s => s.queue.stop) = some true := by
    decide
  obtain ⟨s, hs, hstop⟩ := Option.map_eq_some_iff.mp hrun
  exact ⟨s, hs, run_stop_returns 1 3 (by decide) stopped s hs hstop⟩

theorem asleep_push (pc : Pc τ) (h : stance true pc = .asleep) :
    ∃ t waitMs begun, pc = .waiting (.push t waitMs) begun := by
  cases pc with
  | waiting c begun =>
    cases c with
    | push t waitMs => exact ⟨t, waitMs, begun, rfl⟩
    | pop waitMs => cases h
  | ready c begun =>
    unfold stance at h
    dsimp only at h
    split at h <;> cases h
  | out => cases h
  | returned r => cases h

/-- A pop that finds a task, and wakes a thread that sleeps in a push. -/
theorem pop_wakes {cap n : ℕ} {s : State τ} {x : τ} {l : List τ} (h : Kept cap n s (x::l)) (k : ℕ)
    (hk : k < n) (waitMs begun now : ℤ) (hpc : s.pc k = .ready (.pop waitMs) begun) (memory : Bool)
    (i : ℕ) (hi : i < n) (hik : i ≠ k) (hsleep : stance true (s.pc i) = .asleep) :
    ∃ q, step n s (.enter k now memory (some i)) =
        some ⟨q, Function.update (Function.update s.pc k (.returned (.rc 0 (some x)))) i
          (s.pc i).wake, s.pushed, s.popped++[x]⟩ ∧ SendHolds cap q (l, s.queue.stop) := by
  obtain ⟨r, q, hlook, hspec⟩ := look_spec h.holds (.pop waitMs) (now-begun) memory
  cases hspec with
  | waits hs hp hc => exact absurd (hc rfl) (List.cons_ne_nil x l)
  | refused code hcode hp hc => exact absurd (hc rfl) (List.cons_ne_nil x l)
  | put t w q' hcall => cases hcall
  | took y l' q' hpop hl hq =>
    obtain ⟨rfl, rfl⟩ := List.cons.inj hl
    have hhears : (Function.update s.pc k (.returned (.rc 0 (some x))) i).hears (.pop waitMs) = true := by
      rw [Function.update_of_ne hik]
      exact (hears_iff _ _).mpr hsleep
    have hsignal : signal n (.pop waitMs) (some i)
        (Function.update s.pc k (.returned (.rc 0 (some x)))) = some _ := if_pos ⟨hi, hhears⟩
    refine ⟨q, ?_, hq⟩
    rw [step, if_pos hk, enter, hpc]
    dsimp only
    rw [hlook]
    dsimp only
    rw [returns, if_pos rfl, hsignal, Function.update_of_ne hik]
    simp [Call.tasks]

/-- A push that finds a slot and gets no memory. -/
theorem push_fails {cap n : ℕ} {s : State τ} {l : List τ} (h : SendHolds cap s.queue (l, false))
    (i : ℕ) (hi : i < n) (t : τ) (waitMs begun now : ℤ)
    (hpc : s.pc i = .ready (.push t waitMs) begun) (hroom : l.length < cap) :
    step n s (.enter i now false none) =
      some { s with pc := Function.update s.pc i (.returned (.rc (-1) none)) } := by
  have hcount := h.1.holds.count
  have hlook : sendQueuePush false t waitMs (now-begun) s.queue = some (.rc (-1) none, s.queue) := by
    rw [sendQueuePush, hcount, h.1.cap, h.2, Bool.not_false, Bool.true_and,
      if_neg (by simpa using hroom), if_neg Bool.false_ne_true]
    rfl
  have hop : sendStep false s.queue ((Call.push t waitMs).op (now-begun)) =
      some (.rc (-1) none, s.queue) := hlook
  rw [step, if_pos hi, enter, hpc]
  dsimp only
  rw [hop]
  dsimp only
  rw [returns, if_neg (by decide)]

/-- A push that a signal woke and that gets no memory takes the signal with
it. When two threads sleep in a push to a full queue and nobody is about to
look, a pop can leave one of them asleep at a queue with a free slot, with
nobody about to look: the other one was woken and returned an error. -/
theorem memory_loses_wakeup (cap n : ℕ) (hcap : 0 < cap) (as : List (Act τ)) (s : State τ)
    (h : Machine.run (step n) as (start cap) = some s) (i j k : ℕ) (hi : i < n)
    (hk : k < n) (hij : i ≠ j) (hsleep : stance true (s.pc i) = .asleep)
    (hsleep' : stance true (s.pc j) = .asleep) (hfree : (s.pc k).free = true)
    (hnone : ∀ m < n, ¬ (s.pc m).looks) (hfull : s.queue.ring.count = cap) (now : ℤ) :
    ∃ s', Machine.run (step n)
        [.call k (.pop 0) now, .enter k now true (some i), .enter i now false none] s = some s' ∧
      stance true (s'.pc j) = .asleep ∧ s'.queue.stop = false ∧
      s'.queue.ring.count+1 = cap ∧ ∀ m < n, ¬ (s'.pc m).looks := by
  obtain ⟨l, hl⟩ := run_kept hcap as s h
  have hstop : s.queue.stop = false := by
    by_contra hs
    exact hl.stopped (by simpa using hs) i hi true hsleep
  have hlen : l.length = cap := hl.holds.1.holds.count.symm.trans hfull
  obtain ⟨x, l, rfl⟩ : ∃ x l', l = x::l' := List.exists_cons_of_length_pos (by omega)
  have hki : i ≠ k := by
    rintro rfl
    rw [stance_free _ hfree] at hsleep
    cases hsleep
  have hkj : j ≠ k := by
    rintro rfl
    rw [stance_free _ hfree] at hsleep'
    cases hsleep'
  obtain ⟨t, waitMs, begun, hpc⟩ := asleep_push _ hsleep
  let s₁ : State τ := { s with pc := Function.update s.pc k (.ready (.pop 0) now) }
  have hcall : step n s (.call k (.pop 0) now) = some s₁ := if_pos ⟨hk, hfree⟩
  have hkept : Kept cap n s₁ (x::l) := hl.moves k _ fun _ => stance_ready _ _
  have hpci : s₁.pc i = .waiting (.push t waitMs) begun :=
    (Function.update_of_ne hki _ _).trans hpc
  obtain ⟨q, hpop, hq⟩ := pop_wakes hkept k hk 0 now now (Function.update_self ..) true i hi hki
    (by rw [hpci]; rfl)
  have hq : SendHolds cap q (l, false) := by rwa [show s₁.queue.stop = false from hstop] at hq
  let s₂ : State τ := ⟨q, Function.update (Function.update s₁.pc k (.returned (.rc 0 (some x)))) i
    (.ready (.push t waitMs) begun), s.pushed, s.popped++[x]⟩
  have hpop : step n s₁ (.enter k now true (some i)) = some s₂ := by rwa [hpci] at hpop
  let s₃ : State τ := { s₂ with pc := Function.update s₂.pc i (.returned (.rc (-1) none)) }
  have hpush : step n s₂ (.enter i now false none) = some s₃ :=
    push_fails hq i hi t waitMs begun now (Function.update_self ..)
      (by rw [← hlen, List.length_cons]; omega)
  have hself : s₃.pc i = .returned (.rc (-1) none) := Function.update_self ..
  have hpopper : s₃.pc k = .returned (.rc 0 (some x)) := by
    have h1 : s₃.pc k = s₂.pc k := Function.update_of_ne hki.symm _ _
    have h2 : s₂.pc k = Function.update s₁.pc k (.returned (.rc 0 (some x))) k :=
      Function.update_of_ne hki.symm _ _
    rw [h1, h2, Function.update_self]
  have hothers : ∀ m, m ≠ i → m ≠ k → s₃.pc m = s.pc m := by
    intro m hmi hmk
    have h1 : s₃.pc m = s₂.pc m := Function.update_of_ne hmi _ _
    have h2 : s₂.pc m = Function.update s₁.pc k (.returned (.rc 0 (some x))) m :=
      Function.update_of_ne hmi _ _
    have h3 : s₁.pc m = s.pc m := Function.update_of_ne hmk _ _
    rw [h1, h2, Function.update_of_ne hmk, h3]
  refine ⟨s₃, ?_, ?_, hq.2, ?_, ?_⟩
  · simp only [Machine.run, hcall, hpop, hpush, Option.bind_some]
  · rw [hothers j hij.symm hkj]
    exact hsleep'
  · have hcount : s₃.queue.ring.count = l.length := hq.1.holds.count
    rw [hcount, ← hlen, List.length_cons]
  · rintro m hm ⟨c, first, hlooks⟩
    by_cases hmi : m = i
    · rw [hmi, hself] at hlooks
      cases hlooks
    · by_cases hmk : m = k
      · rw [hmk, hpopper] at hlooks
        cases hlooks
      · exact hnone m hm ⟨c, first, (hothers m hmi hmk).symm.trans hlooks⟩

/-- One slot and two threads that sleep in a push. -/
def crowded : List (Act ℕ) :=
  [.call 0 (.push 7 0) 0, .enter 0 0 true none, .call 0 (.push 8 (-1)) 0, .enter 0 0 true none,
    .call 1 (.push 9 (-1)) 0, .enter 1 0 true none]

theorem memory_loses_wakeup_three :
    ∃ s', Machine.run (step 3) (crowded++[.call 2 (.pop 0) 0, .enter 2 0 true (some 0),
        .enter 0 0 false none]) (start 1) = some s' ∧ stance true (s'.pc 1) = .asleep ∧
      s'.queue.stop = false ∧ s'.queue.ring.count+1 = 1 ∧ ∀ m < 3, ¬ (s'.pc m).looks := by
  have hrun : ((Machine.run (step 3) crowded (start 1)).map fun s =>
      (s.pc 0, s.pc 1, s.pc 2, s.queue.ring.count)) =
        some (.waiting (.push 8 (-1)) 0, .waiting (.push 9 (-1)) 0, .out, 1) := by decide
  obtain ⟨s, hs, hpcs⟩ := Option.map_eq_some_iff.mp hrun
  rw [Prod.mk.injEq, Prod.mk.injEq, Prod.mk.injEq] at hpcs
  obtain ⟨h0, h1, h2, hcount⟩ := hpcs
  have hnone : ∀ m < 3, ¬ (s.pc m).looks := by
    rintro m hm ⟨c, first, hlooks⟩
    interval_cases m
    · rw [h0] at hlooks
      cases hlooks
    · rw [h1] at hlooks
      cases hlooks
    · rw [h2] at hlooks
      cases hlooks
  obtain ⟨s', hs', hrest⟩ := memory_loses_wakeup 1 3 (by decide) crowded s hs 0 1 2 (by decide)
    (by decide) (by decide) (by rw [h0]; rfl) (by rw [h1]; rfl) (by rw [h2]; rfl) hnone
    hcount 0
  refine ⟨s', ?_, hrest⟩
  rw [Machine.run_append, hs, Option.bind_some, hs']

end VeTls.Blocking
