import VeTls.Rings

/-!
# Rings whose allocations fail

The first insertion of a growing ring sets the capacity before it asks for
the buffer. If that allocation fails the capacity stays, and the next
insertion stores into a buffer that is not there. A larger buffer that cannot
be had is harmless.
-/

set_option autoImplicit false

namespace VeTls.Rings

open VeTls.RingBuffer
open VeTls.Keys.KeyHeap (keyQueueInitCap)
open VeTls.Machine (Along run along_iff_of_invariant)

variable {α τ σ ω : Type}

/-- The operation returns, a capacity still means a buffer, and a refused
operation leaves what is seen of the queue as it was. -/
def Usable (ring : σ → RingBuffer.Ring α) (view : σ → ω) (s : σ) (res : Option (Reply α × σ)) :
    Prop :=
  ∃ r s', res = some (r, s') ∧ Backed (ring s') ∧ (r = .rc (-1) none → view s' = view s)

/-- The operation leaves a ring that holds some list. -/
def Kept (ring : σ → RingBuffer.Ring α) (view : σ → ω) (s : σ) (res : Option (Reply α × σ)) :
    Prop :=
  ∃ r s', res = some (r, s') ∧ (∃ l, Holds (ring s') l) ∧ (r = .rc (-1) none → view s' = view s)

theorem Kept.usable (ring : σ → RingBuffer.Ring α) (view : σ → ω) (s : σ)
    (res : Option (Reply α × σ)) (h : Kept ring view s res) : Usable ring view s res := by
  obtain ⟨r, s', hres, ⟨l, hl⟩, hview⟩ := h
  exact ⟨r, s', hres, hl.buf, hview⟩

theorem kept_same (ring : σ → RingBuffer.Ring α) (view : σ → ω) (s : σ) (r : Reply α)
    (l : List α) (h : Holds (ring s) l) : Kept ring view s (some (r, s)) :=
  ⟨r, s, rfl, ⟨l, h⟩, fun _ => rfl⟩

section Push

variable (ring : σ → RingBuffer.Ring α) (view : σ → ω) (s : σ) (mk : Bool × RingBuffer.Ring α → σ)
  (hmk : ∀ x, ring (mk x) = x.2)

include hmk

theorem push_kept (done : Bool) (l l' : List α) (P : Option (Bool × RingBuffer.Ring α))
    (hview : ∀ r', Holds r' l → view (mk (false, r')) = view s)
    (hp : ∃ r', P = some (done, r') ∧ Holds r' (if done then l' else l)) :
    Kept ring view s (P.map fun x => (code x.1, mk x)) := by
  obtain ⟨r', rfl, hh⟩ := hp
  refine ⟨code done, mk (done, r'), rfl, ⟨_, by rw [hmk]; exact hh⟩, ?_⟩
  cases done with
  | true => exact fun hc => by simp [code] at hc
  | false => exact fun _ => hview r' hh

theorem push_unusable (P : Option (Bool × RingBuffer.Ring α))
    (hp : ∃ r', P = some (false, r') ∧ ¬ Backed r') :
    ¬ Usable ring view s (P.map fun x => (code x.1, mk x)) := by
  obtain ⟨r', rfl, hb⟩ := hp
  rintro ⟨r, s', hres, hs, -⟩
  obtain ⟨-, rfl⟩ := Prod.mk.inj (Option.some.inj hres)
  rw [hmk] at hs
  exact hb hs

end Push

section Key

/-- A call with the answer of the allocator. -/
abbrev KeyCall (τ : Type) := Bool × KeyOp τ

def keyMove (q : RingBuffer.Ring τ) (a : KeyCall τ) : Option (RingBuffer.Ring τ) :=
  (keyStep a.1 q a.2).map Prod.snd

def keyView (q : RingBuffer.Ring τ) : List (Option τ) × ℕ := (contents q, q.count)

def KeyUsable (q : RingBuffer.Ring τ) (a : KeyCall τ) : Prop :=
  Usable id keyView q (keyStep a.1 q a.2)

def KeyOp.inserts : KeyOp τ → Bool
  | .pushTask found _ => found
  | .pushFrontTask _ => true
  | .popTask => false

/-- The first buffer of the queue is not refused. -/
def KeyGranted (q : RingBuffer.Ring τ) (a : KeyCall τ) : Prop :=
  q.cap = 0 → KeyOp.inserts a.2 = true → a.1 = true

theorem keyView_holds (q q' : RingBuffer.Ring τ) (l : List τ) (h : Holds q l) (h' : Holds q' l) :
    keyView q' = keyView q := by
  rw [keyView, keyView, h.contents_eq, h'.contents_eq, h.count, h'.count]

theorem granted_or (ok : Bool) (cap : ℕ) (h : cap = 0 → ok = true) : ok = true ∨ cap ≠ 0 := by
  by_cases hc : cap = 0
  · exact .inl (h hc)
  · exact .inr hc

theorem key_kept (q : RingBuffer.Ring τ) (l : List τ) (a : KeyCall τ) (h : Holds q l)
    (hg : KeyGranted q a) : Kept id keyView q (keyStep a.1 q a.2) := by
  obtain ⟨ok, op⟩ := a
  cases op with
  | pushTask found t =>
    cases found with
    | false => exact kept_same id keyView q _ l h
    | true =>
      exact push_kept id keyView q Prod.snd (fun _ => rfl) _ l (l++[t]) _
        (fun r' => keyView_holds q r' l h) (pushChecked_holds keyQueueInitCap (by decide) ok t q l h
          (granted_or ok q.cap fun hc => hg hc rfl))
  | pushFrontTask t =>
    exact push_kept id keyView q Prod.snd (fun _ => rfl) _ l (t::l) _
      (fun r' => keyView_holds q r' l h)
      (pushFrontChecked_holds keyQueueInitCap (by decide) ok t q l h
        (granted_or ok q.cap fun hc => hg hc rfl))
  | popTask =>
    obtain ⟨q', hp, hh⟩ := keyQueuePopTask_holds q l h
    refine ⟨_, q', hp, ⟨_, hh⟩, ?_⟩
    cases l with
    | nil => exact fun _ => keyView_holds q q' [] h hh
    | cons t l => exact fun hc => by simp [takeFirst] at hc

theorem key_unusable (q : RingBuffer.Ring τ) (a : KeyCall τ) (hg : ¬ KeyGranted q a) :
    ¬ KeyUsable q a := by
  obtain ⟨ok, op⟩ := a
  simp only [KeyGranted, not_forall, Bool.not_eq_true] at hg
  obtain ⟨h0, hins, rfl⟩ := hg
  cases op with
  | pushTask found t =>
    obtain rfl : found = true := hins
    exact push_unusable id keyView q Prod.snd (fun _ => rfl) _
      (pushChecked_first_fails keyQueueInitCap (by decide) t q h0)
  | pushFrontTask t =>
    exact push_unusable id keyView q Prod.snd (fun _ => rfl) _
      (pushFrontChecked_first_fails keyQueueInitCap (by decide) t q h0)
  | popTask => exact absurd hins Bool.false_ne_true

theorem key_usable_iff (q : RingBuffer.Ring τ) (a : KeyCall τ) (h : ∃ l, Holds q l) :
    KeyUsable q a ↔ KeyGranted q a := by
  obtain ⟨l, hl⟩ := h
  refine ⟨fun hu => ?_, fun hg => (key_kept q l a hl hg).usable id keyView q _⟩
  by_contra hg
  exact key_unusable q a hg hu

theorem keyMove_holds (q q' : RingBuffer.Ring τ) (a : KeyCall τ) (h : ∃ l, Holds q l)
    (hu : KeyUsable q a) (hm : keyMove q a = some q') : ∃ l, Holds q' l := by
  obtain ⟨l, hl⟩ := h
  obtain ⟨r, s', hres, hk, -⟩ := key_kept q l a hl ((key_usable_iff q a ⟨l, hl⟩).mp hu)
  rw [keyMove, hres] at hm
  obtain rfl := Option.some.inj hm
  exact hk

end Key

section Raw

abbrev RawCall := RawMem × RawOp

def rawMove (q : RawQueue) (a : RawCall) : Option RawQueue := (rawStep a.1 q a.2).map Prod.snd

def rawView (q : RawQueue) : List (Option RawItem) × ℕ × UInt64 :=
  (contents q.ring, q.ring.count, q.bytes)

def RawUsable (q : RawQueue) (a : RawCall) : Prop :=
  Usable RawQueue.ring rawView q (rawStep a.1 q a.2)

/-- The call comes to the insertion: the item has data and, where it is
copied, the copies were made. -/
def RawCall.inserts (a : RawCall) : Bool :=
  match a.2 with
  | .pushOwned i => decide (i.size ≠ 0)
  | .pushReservedOwned i => decide (i.size ≠ 0)
  | .push i => a.1.data && (i.hashKey.isEmpty || a.1.dup) && decide (i.size ≠ 0)
  | .pop => false
  | .freeAll => false

def RawGranted (q : RawQueue) (a : RawCall) : Prop :=
  q.ring.cap = 0 → RawCall.inserts a = true → a.1.ring = true

theorem rawView_holds (q q' : RawQueue) (l : List RawItem) (h : Holds q.ring l)
    (h' : Holds q'.ring l) (hb : q'.bytes = q.bytes) : rawView q' = rawView q := by
  rw [rawView, rawView, h.contents_eq, h'.contents_eq, h.count, h'.count, hb]

theorem store_kept (charge : UInt64) (ok : Bool) (i : RawItem) (q : RawQueue) (l : List RawItem)
    (h : Holds q.ring l) (hg : q.ring.cap = 0 → decide (i.size ≠ 0) = true → ok = true) :
    Kept RawQueue.ring rawView q (queueStore charge ok i q) := by
  unfold queueStore
  split_ifs with hz
  · exact kept_same RawQueue.ring rawView q _ l h
  · exact push_kept RawQueue.ring rawView q
      (fun r => ⟨r.2, if r.1 then q.bytes+charge else q.bytes⟩) (fun _ => rfl) _ l (l++[i]) _
      (fun r' hr => rawView_holds q _ l h hr rfl)
      (pushChecked_holds queueInitCap (by decide) ok i q.ring l h
        (granted_or ok q.ring.cap fun hc => hg hc (decide_eq_true hz)))

theorem store_unusable (charge : UInt64) (i : RawItem) (q : RawQueue) (h0 : q.ring.cap = 0)
    (hz : decide (i.size ≠ 0) = true) :
    ¬ Usable RawQueue.ring rawView q (queueStore charge false i q) := by
  unfold queueStore
  rw [if_neg (of_decide_eq_true hz)]
  exact push_unusable RawQueue.ring rawView q
    (fun r => ⟨r.2, if r.1 then q.bytes+charge else q.bytes⟩) (fun _ => rfl) _
    (pushChecked_first_fails queueInitCap (by decide) i q.ring h0)

theorem pop_kept (q : RawQueue) (l : List RawItem) (h : Holds q.ring l) :
    Kept RawQueue.ring rawView q (queuePop q) := by
  obtain ⟨q', hp, hh⟩ := queuePop_spec q l h
  cases l with
  | nil =>
    have hq : queuePop q = some (.rc (-1) none, q) := by
      rw [queuePop, popChecked_holds q.ring [] h, pop_nil q.ring h]
      rfl
    rw [hq]
    exact kept_same RawQueue.ring rawView q _ [] h
  | cons x l =>
    rw [hp]
    exact ⟨_, q', rfl, ⟨l, hh⟩, fun hc => by simp [takeFirst] at hc⟩

theorem raw_kept (q : RawQueue) (l : List RawItem) (a : RawCall) (h : Holds q.ring l)
    (hg : RawGranted q a) : Kept RawQueue.ring rawView q (rawStep a.1 q a.2) := by
  obtain ⟨mem, op⟩ := a
  cases op with
  | pushOwned i => exact store_kept _ mem.ring i q l h hg
  | pushReservedOwned i => exact store_kept 0 mem.ring i q l h hg
  | push i =>
    show Kept RawQueue.ring rawView q (queuePush mem i q)
    unfold queuePush
    split_ifs with hm
    · exact kept_same RawQueue.ring rawView q _ l h
    · refine store_kept _ mem.ring i q l h fun hc hz => hg hc ?_
      simp only [RawCall.inserts]
      simp only [Bool.or_eq_true, Bool.and_eq_true, Bool.not_eq_true', not_or, not_and,
        Bool.not_eq_false] at hm
      have hk : (i.hashKey.isEmpty || mem.dup) = true := by
        cases he : i.hashKey.isEmpty with
        | true => rfl
        | false => exact hm.2 he
      rw [hm.1, hk, hz]
      rfl
  | pop => exact pop_kept q l h
  | freeAll =>
    exact ⟨_, queueFreeAll q, rfl, ⟨[], queueFreeAll_holds q l h⟩, fun hc => by simp [code] at hc⟩

theorem raw_unusable (q : RawQueue) (a : RawCall) (hg : ¬ RawGranted q a) : ¬ RawUsable q a := by
  obtain ⟨⟨data, dup, ok⟩, op⟩ := a
  simp only [RawGranted, not_forall, Bool.not_eq_true] at hg
  obtain ⟨h0, hins, rfl⟩ := hg
  cases op with
  | pushOwned i => exact store_unusable _ i q h0 hins
  | pushReservedOwned i => exact store_unusable 0 i q h0 hins
  | push i =>
    simp only [RawCall.inserts, Bool.and_eq_true] at hins
    have hp : queuePush ⟨data, dup, false⟩ i q = queuePushOwned false i q := by
      unfold queuePush
      rw [if_neg]
      have hk := hins.1.2
      cases he : i.hashKey.isEmpty <;> simp_all
    rw [RawUsable, rawStep, hp]
    exact store_unusable _ i q h0 hins.2
  | pop => exact absurd hins Bool.false_ne_true
  | freeAll => exact absurd hins Bool.false_ne_true

theorem raw_usable_iff (q : RawQueue) (a : RawCall) (h : ∃ l, Holds q.ring l) :
    RawUsable q a ↔ RawGranted q a := by
  obtain ⟨l, hl⟩ := h
  refine ⟨fun hu => ?_, fun hg => (raw_kept q l a hl hg).usable RawQueue.ring rawView q _⟩
  by_contra hg
  exact raw_unusable q a hg hu

theorem rawMove_holds (q q' : RawQueue) (a : RawCall) (h : ∃ l, Holds q.ring l)
    (hu : RawUsable q a) (hm : rawMove q a = some q') : ∃ l, Holds q'.ring l := by
  obtain ⟨l, hl⟩ := h
  obtain ⟨r, s', hres, hk, -⟩ := raw_kept q l a hl ((raw_usable_iff q a ⟨l, hl⟩).mp hu)
  rw [rawMove, hres] at hm
  obtain rfl := Option.some.inj hm
  exact hk

end Raw

/-- Every call of a run leaves its queue usable if and only if no call is
refused the first buffer. -/
theorem rings_usable_iff (rawCalls : List RawCall) (keyCalls : List (KeyCall τ)) :
    (Along rawMove RawUsable rawCalls emptyRaw ↔ Along rawMove RawGranted rawCalls emptyRaw) ∧
    (Along keyMove KeyUsable keyCalls RingBuffer.empty ↔
      Along keyMove KeyGranted keyCalls RingBuffer.empty) :=
  ⟨along_iff_of_invariant rawMove (fun q => ∃ l, Holds q.ring l) RawUsable RawGranted
      raw_usable_iff (fun q a q' => rawMove_holds q q' a) rawCalls emptyRaw ⟨[], empty_holds⟩,
    along_iff_of_invariant keyMove (fun q => ∃ l, Holds q l) KeyUsable KeyGranted
      key_usable_iff (fun q a q' => keyMove_holds q q' a) keyCalls RingBuffer.empty
      ⟨[], empty_holds⟩⟩

section Refused

def oneByteItem : RawItem := ⟨0, 1, 0, 0, false, [65], []⟩

/-- The first buffer is refused, the next push stores through a null
pointer. -/
theorem first_buffer_refused :
    (¬ Along rawMove RawUsable [(⟨true, true, false⟩, .pushOwned oneByteItem)] emptyRaw ∧
      run rawMove [(⟨true, true, false⟩, .pushOwned oneByteItem),
        (enough, .pushOwned oneByteItem)] emptyRaw = none) ∧
    (¬ Along keyMove KeyUsable [(false, .pushTask true 7)] RingBuffer.empty ∧
      run keyMove [(false, .pushTask true 7), (true, .pushTask true 7)] RingBuffer.empty
        = none) := by
  refine ⟨⟨fun h => ?_, rfl⟩, fun h => ?_, rfl⟩
  · exact raw_unusable emptyRaw _ (fun hg => Bool.false_ne_true (hg rfl rfl)) h.1
  · exact key_unusable RingBuffer.empty _ (fun hg => Bool.false_ne_true (hg rfl rfl)) h.1

end Refused

end VeTls.Rings
