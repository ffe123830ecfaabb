import VeTls.Lib.Machine
import VeTls.Pipeline.Recall

/-!
# The breaker of a key

A run of the pipeline is written down with the final results of its batches,
newest first, and with the clock reading at which each sender last stood at
the gate of its key. The queue of a key counts the failures since the last
success as long as it is not freed in between: a new queue starts from zero.
-/

set_option autoImplicit false

namespace VeTls

open VeTls.Keys (Addr CStr KeyMap)
open VeTls.Keys.KeyMap (Sound Held Grows Shrinks Tells)

variable {cfg : Config}

/-- The final result of a batch of the key, counted at the time `now`. -/
structure Ended where
  key : CStr
  sent : Bool
  now : ℤ
  deriving DecidableEq, Repr

namespace Ended

/-- The results of one key. -/
def ofKey (key : CStr) (l : List Ended) : List Ended := l.filter fun e => decide (e.key = key)

/-- The failures since the last success. -/
def streak (l : List Ended) : ℕ := (l.takeWhile fun e => !e.sent).length

/-- The last `n` results are there and are failures. -/
def Failing (n : ℤ) (l : List Ended) : Prop :=
  n.toNat ≤ l.length ∧ ∀ e ∈ l.take n.toNat, e.sent = false

instance (n : ℤ) (l : List Ended) : Decidable (Failing n l) :=
  inferInstanceAs (Decidable (_ ∧ _))

/-- When the breaker lets the key through again; zero is at once. -/
def deadline (cfg : Config) (l : List Ended) : ℤ :=
  if cfg.keyBreakerFailThreshold ≤ streak l then
    (l.head?.map fun e => Sender.openUntil cfg.keyBreakerOpenMs e.now).getD 0
  else 0

theorem streak_sent (e : Ended) (l : List Ended) (h : e.sent = true) : streak (e::l) = 0 := by
  simp [streak, h]

theorem streak_failed (e : Ended) (l : List Ended) (h : e.sent = false) :
    streak (e::l) = streak l+1 := by
  simp [streak, h]

theorem Failing.le_streak {n : ℤ} {l : List Ended} (h : Failing n l) : n ≤ streak l := by
  have hle : ∀ (k : ℕ) (l : List Ended), k ≤ l.length → (∀ e ∈ l.take k, e.sent = false) →
      k ≤ streak l := by
    intro k
    induction k with
    | zero => exact fun _ _ _ => Nat.zero_le _
    | succ k ih =>
      intro l hlen hall
      cases l with
      | nil => simp at hlen
      | cons e l =>
        rw [streak_failed e l (hall e (by simp))]
        apply Nat.succ_le_succ
        apply ih l (by simpa using hlen)
        intro x hx
        exact hall x (by simp [hx])
  have hnat := hle n.toNat l h.1 h.2
  omega

theorem ofKey_cons_self (e : Ended) (l : List Ended) : ofKey e.key (e::l) = e::ofKey e.key l := by
  simp [ofKey]

theorem ofKey_cons_other (e : Ended) (l : List Ended) (key : CStr) (h : e.key ≠ key) :
    ofKey key (e::l) = ofKey key l := by
  simp [ofKey, h]

end Ended

namespace Sender

/-- The task of a sender that the gate of its key has let through. -/
def passed : Pc → Option SendTask
  | .breakerWait _ s | .breakerEnter _ s | .attempt (some _) s => some s.task
  | _ => none

/-- A send without the queue of a key. -/
def offKey : Pc → Bool
  | .counting _ | .attempt none _ => true
  | _ => false

/-- How a sender comes to be let through. -/
structure Clears (cfg : Config) (i : Input) (pc : Pc) (p : Producer) (pc' : Pc) : Prop where
  onKey : offKey pc = false → offKey pc' = false
  gate : ∀ t, passed pc' = some t → passed pc = some t ∧ (∀ q s, pc ≠ .gate q s) ∨
    ∃ q s, pc = .gate q s ∧ s.task = t ∧ keyBreakerAllow cfg i.now q p = true

theorem Clears.none {i : Input} {pc pc' : Pc} {p : Producer} (h : passed pc' = none)
    (hoff : offKey pc' = false) : Clears cfg i pc p pc' :=
  ⟨fun _ => hoff, fun t ht => by rw [h] at ht; cases ht⟩

theorem Clears.same {i : Input} {pc pc' : Pc} {p : Producer} (t : SendTask)
    (h : passed pc = some t) (h' : passed pc' = some t) (hoff : offKey pc' = false)
    (hgate : ∀ q s, pc ≠ .gate q s) : Clears cfg i pc p pc' :=
  ⟨fun _ => hoff, fun _ hx => Or.inl ⟨h.trans (h'.symm.trans hx), hgate⟩⟩

theorem gate_clears (i : Input) (q : Addr) (s : Send) (p : Producer) :
    Clears cfg i (.gate q s) p (gate cfg i q s p) := by
  unfold gate
  dsimp only
  split
  · rename_i hallow
    have hbreaker := (Bool.and_eq_true_iff.mp hallow).1
    split
    · refine ⟨fun _ => rfl, fun t ht => Or.inr ⟨q, s, rfl, ?_, hbreaker⟩⟩
      exact Option.some.inj ht
    · refine ⟨fun _ => rfl, fun t ht => Or.inr ⟨q, s, rfl, ?_, hbreaker⟩⟩
      exact Option.some.inj ht
  · exact .none rfl rfl

theorem attempt_clears (i : Input) (q : Option Addr) (s : Send) (p : Producer) :
    Clears cfg i (.attempt q s) p (attempt cfg i q s p).1 := by
  unfold attempt
  split
  · exact .none rfl rfl
  · exact .none rfl rfl
  · dsimp only
    split
    · cases q with
      | none => exact ⟨nofun, nofun⟩
      | some q => exact .none rfl rfl
    · exact .none rfl rfl

theorem step_clears (i : Input) (pc : Pc) (p : Producer) (r : Pc × Producer)
    (hslow : cfg.fastSend = false) (h : step cfg i pc p = some r) :
    Clears cfg i pc p r.1 := by
  unfold step at h
  split at h
  · cases h
  · cases pc with
    | top =>
      obtain rfl := Option.some.inj h
      unfold top
      dsimp only
      split
      · exact .none rfl rfl
      · split <;> exact .none rfl rfl
    | popSendQueue block =>
      dsimp only at h
      unfold popSendQueue at h
      split at h
      · obtain rfl := Option.some.inj h
        exact .none rfl rfl
      · split at h
        · cases h
        · rw [hslow] at h
          obtain rfl := Option.some.inj h
          exact .none rfl rfl
    | moving t =>
      dsimp only at h
      rw [hslow] at h
      obtain rfl := Option.some.inj h
      exact .none rfl rfl
    | pushing t =>
      obtain rfl := Option.some.inj h
      unfold pushing
      dsimp only
      split <;> exact .none rfl rfl
    | counting t =>
      obtain rfl := Option.some.inj h
      exact ⟨nofun, nofun⟩
    | stopCheck =>
      obtain rfl := Option.some.inj h
      unfold stopCheck
      split <;> exact .none rfl rfl
    | exitPop pending =>
      obtain rfl := Option.some.inj h
      unfold exitPop
      split <;> exact .none rfl rfl
    | exitCheck pending =>
      obtain rfl := Option.some.inj h
      cases pending <;> exact .none rfl rfl
    | gate q s =>
      obtain rfl := Option.some.inj h
      exact gate_clears i q s p
    | breakerWait q s =>
      dsimp only at h
      split at h
      · cases h
      · obtain rfl := Option.some.inj h
        exact .same s.task rfl rfl rfl (fun _ _ hx => nomatch hx)
    | breakerEnter q s =>
      obtain rfl := Option.some.inj h
      unfold breakerEnter
      split
      · exact .same s.task rfl rfl rfl (fun _ _ hx => nomatch hx)
      · split <;> exact .same s.task rfl rfl rfl (fun _ _ hx => nomatch hx)
    | attempt q s =>
      obtain rfl := Option.some.inj h
      exact attempt_clears i q s p
    | report q s sent =>
      obtain rfl := Option.some.inj h
      cases q <;> exact .none rfl rfl
    | release q t =>
      obtain rfl := Option.some.inj h
      cases q <;> exact .none rfl rfl
    | exited => cases h
    | keyDrop t | dropRelease t | requeue q t next | breakerResult q s sent | keyResult q t sent
    | finish q | uncount =>
      obtain rfl := Option.some.inj h
      exact .none rfl rfl

end Sender

/-- A pipeline with its journal of the key breakers. -/
structure Tracked where
  sys : Sys
  /-- The reading with which a sender last stood at the gate. -/
  gateAt : ℕ → ℤ
  /-- The results of all keys, the newest first. -/
  ended : List Ended

namespace Tracked

variable {st : Setup}

def start (st : Setup) : Tracked := ⟨Sys.start st, fun _ => 0, []⟩

/-- The clock of a step; a platform clock is never negative. -/
def reading : Act → ℤ
  | .sender _ input => input.now
  | _ => 0

def endsIn (st : Setup) (s : Sys) : Act → List Ended
  | .sender i input =>
    match s.senders i with
    | .keyResult _ t sent => [⟨st.cfg.normalizeHashKey t.hashKey, sent, input.now⟩]
    | _ => []
  | _ => []

def gateReading (now old : ℤ) : Sender.Pc → ℤ
  | .gate _ _ => now
  | _ => old

def gatesIn (s : Sys) (gateAt : ℕ → ℤ) : Act → ℕ → ℤ
  | .sender i input =>
    Function.update gateAt i (gateReading input.now (gateAt i) (s.senders i))
  | _ => gateAt

def step (st : Setup) (w : Tracked) (a : Act) : Option Tracked :=
  if 0 ≤ reading a then
    (Sys.step st w.sys a).map fun s => ⟨s, gatesIn w.sys w.gateAt a, endsIn st w.sys a++w.ended⟩
  else none

theorem step_some (w w' : Tracked) (a : Act) (h : step st w a = some w') :
    0 ≤ reading a ∧ Sys.step st w.sys a = some w'.sys ∧ w'.gateAt = gatesIn w.sys w.gateAt a ∧
      w'.ended = endsIn st w.sys a++w.ended := by
  unfold step at h
  split at h
  · rename_i hnow
    obtain ⟨s, hs, rfl⟩ := Option.map_eq_some_iff.mp h
    exact ⟨hnow, hs, rfl, rfl⟩
  · cases h

/-- No request for a key is under way that stood at the gate before the open
time after the failures was over. -/
def KeptOpen (st : Setup) (w : Tracked) : Prop :=
  ∀ i < st.cfg.senderCount, ∀ q s, w.sys.senders i = .attempt q s →
    ∀ e rest, Ended.ofKey (st.cfg.normalizeHashKey s.task.hashKey) w.ended = e::rest →
      Ended.Failing st.cfg.keyBreakerFailThreshold (e::rest) →
        Sender.openUntil st.cfg.keyBreakerOpenMs e.now ≤ w.gateAt i

/-- A queue is freed only when it has no failures to remember. -/
def Forgives (st : Setup) (w : Tracked) (a : Act) : Prop :=
  ∀ q ∈ Sys.freedBy st w.sys a, (w.sys.prod.keys.info q).breakerConsecutiveFailures = 0

instance (st : Setup) (w : Tracked) (a : Act) : Decidable (Forgives st w a) :=
  inferInstanceAs (Decidable (∀ q ∈ Sys.freedBy st w.sys a, _))

/-- What a queue knows agrees with the journal. -/
def Agrees (cfg : Config) (ended : List Ended) (key : CStr) (mem : ℤ × ℤ) : Prop :=
  mem.1 = Ended.streak (Ended.ofKey key ended) ∧
    mem.2 = Ended.deadline cfg (Ended.ofKey key ended)

def mem (m : KeyMap SendTask Builder) (q : Addr) : ℤ × ℤ :=
  ((m.info q).breakerConsecutiveFailures, (m.info q).breakerOpenUntilMs)

/-- A sender that was let through had the open time behind it. -/
def Waited (st : Setup) (w : Tracked) : Prop :=
  ∀ i < st.cfg.senderCount, ∀ t, Sender.passed (w.sys.senders i) = some t →
    ∀ e rest, Ended.ofKey (st.cfg.normalizeHashKey t.hashKey) w.ended = e::rest →
      st.cfg.keyBreakerFailThreshold ≤ Ended.streak (e::rest) →
        Sender.openUntil st.cfg.keyBreakerOpenMs e.now ≤ w.gateAt i

structure Minded (st : Setup) (w : Tracked) : Prop where
  filed : Sys.Filed st w.sys
  times : ∀ e ∈ w.ended, 0 ≤ e.now
  onKey : ∀ i, Sender.offKey (w.sys.senders i) = false
  tells : Tells st.cfg.toKeyConfig (Agrees st.cfg w.ended) (0, 0) (mem w.sys.prod.keys)
    w.sys.prod.keys
  waited : Waited st w

theorem Minded.keptOpen {w : Tracked} (h : Minded st w) : KeptOpen st w := by
  intro i hi q s hpc e rest hkey hfail
  cases q with
  | none =>
    have hoff := h.onKey i
    rw [hpc] at hoff
    cases hoff
  | some q => exact h.waited i hi s.task (by rw [hpc]; rfl) e rest hkey hfail.le_streak

/-- The clock has reached the deadline of a key that is let through. -/
theorem allow_openUntil (now : ℤ) (q : Addr) (p : Producer) (e : Ended) (rest : List Ended)
    (hpos : 0 < cfg.keyBreakerFailThreshold) (htime : 0 ≤ e.now)
    (huntil : (p.keys.info q).breakerOpenUntilMs = Ended.deadline cfg (e::rest))
    (hfail : cfg.keyBreakerFailThreshold ≤ Ended.streak (e::rest))
    (hallow : Sender.keyBreakerAllow cfg now q p = true) :
    Sender.openUntil cfg.keyBreakerOpenMs e.now ≤ now := by
  have hopen : 0 < Sender.openUntil cfg.keyBreakerOpenMs e.now := by
    unfold Sender.openUntil
    split <;> omega
  have hstored : (p.keys.info q).breakerOpenUntilMs =
      Sender.openUntil cfg.keyBreakerOpenMs e.now := by
    rw [huntil, Ended.deadline, if_pos hfail]
    rfl
  unfold Sender.keyBreakerAllow at hallow
  rw [hstored] at hallow
  simp only [Bool.or_eq_true, decide_eq_true_eq] at hallow
  rcases hallow with (hoff | hzero) | hpast
  · exact absurd hoff (not_le.mpr hpos)
  · exact absurd hzero hopen.ne'
  · exact hpast

/-- At the gate the sender has the queue of its task's key, and that knows
the deadline. -/
theorem waited_gate {w : Tracked} (hgood : Sys.Good st w.sys) (h : Minded st w)
    (hpos : 0 < st.cfg.keyBreakerFailThreshold) (i : ℕ) (hi : i < st.cfg.senderCount) (q : Addr)
    (s : Send) (hpc : w.sys.senders i = .gate q s) (now : ℤ)
    (hallow : Sender.keyBreakerAllow st.cfg now q w.sys.prod = true) (e : Ended)
    (rest : List Ended)
    (hkey : Ended.ofKey (st.cfg.normalizeHashKey s.task.hashKey) w.ended = e::rest)
    (hfail : st.cfg.keyBreakerFailThreshold ≤ Ended.streak (e::rest)) :
    Sender.openUntil st.cfg.keyBreakerOpenMs e.now ≤ now := by
  have hlive : q ∈ KeyMap.live st.cfg.toKeyConfig w.sys.prod.keys :=
    ((hgood.held q).mpr ⟨i, hi, by rw [hpc]; rfl⟩).1
  have hname := h.filed.hands i hi q s.task (by rw [hpc]; rfl) (by rw [hpc]; rfl)
  have hknows := (h.tells.live q hlive).2
  rw [← hname, hkey] at hknows
  have hin : e ∈ w.ended := by
    have hmem : e ∈ Ended.ofKey (st.cfg.normalizeHashKey s.task.hashKey) w.ended := by
      rw [hkey]
      exact List.mem_cons_self
    exact List.mem_of_mem_filter hmem
  exact allow_openUntil now q w.sys.prod e rest hpos (h.times e hin) hknows hfail hallow

/-- The senders after a step that ends no batch. -/
theorem waited_step {w w' : Tracked} (hgood : Sys.Good st w.sys) (h : Minded st w)
    (hpos : 0 < st.cfg.keyBreakerFailThreshold) (hslow : st.cfg.fastSend = false) (a : Act)
    (hs : Sys.step st w.sys a = some w'.sys) (hgate : w'.gateAt = gatesIn w.sys w.gateAt a)
    (hended : w'.ended = w.ended) :
    (∀ i, Sender.offKey (w'.sys.senders i) = false) ∧ Waited st w' := by
  have hquiet : w'.sys.senders = w.sys.senders → w'.gateAt = w.gateAt →
      (∀ i, Sender.offKey (w'.sys.senders i) = false) ∧ Waited st w' := by
    intro hsame hat
    unfold Waited
    rw [hsame, hat, hended]
    exact ⟨h.onKey, h.waited⟩
  cases a with
  | call i c | writer i input | worker i input =>
    simp only [Sys.step] at hs
    split at hs
    · obtain ⟨r, -, hr⟩ := Option.map_eq_some_iff.mp hs
      exact hquiet (by rw [← hr]; rfl) hgate
    · cases hs
  | sender i input =>
    simp only [Sys.step] at hs
    split at hs
    · rename_i hlt
      obtain ⟨r, hr, hset⟩ := Option.map_eq_some_iff.mp hs
      have hclear := Sender.step_clears input (w.sys.senders i) w.sys.prod r hslow hr
      unfold Waited
      rw [← hset, hended]
      constructor
      · exact Sys.forall_update (fun pc => Sender.offKey pc = false) w.sys.senders i r.1 h.onKey
          (hclear.onKey (h.onKey i))
      · intro j hj t ht e rest hkey hfail
        by_cases hji : j = i
        · subst hji
          rw [Sys.senders_self] at ht
          rcases hclear.gate t ht with ⟨hold, hno⟩ | ⟨q, s, hpc, rfl, hallow⟩
          · have hat : w'.gateAt j = w.gateAt j := by
              rw [hgate, gatesIn, Function.update_self]
              cases hpc : w.sys.senders j with
              | gate q s => exact absurd hpc (hno q s)
              | _ => rfl
            rw [hat]
            exact h.waited j hj t hold e rest hkey hfail
          · have hat : w'.gateAt j = input.now := by
              rw [hgate, gatesIn, Function.update_self, hpc]
              rfl
            rw [hat]
            exact waited_gate hgood h hpos j hj q s hpc input.now hallow e rest hkey hfail
        · rw [Sys.senders_other w.sys i j r hji] at ht
          have hat : w'.gateAt j = w.gateAt j := by
            rw [hgate, gatesIn, Function.update_of_ne hji]
          rw [hat]
          exact h.waited j hj t ht e rest hkey hfail
    · cases hs

theorem keyResult_keys (now : Sender.Input) (q : Addr) (sent : Bool) (p : Producer)
    (hpos : 0 < cfg.keyBreakerFailThreshold) :
    ∃ f, (Sender.keyResult cfg now q sent p).keys = KeyMap.setInfo q f p.keys ∧
      (∀ i, (f i).key = i.key) ∧
      ∀ i, ((f i).breakerConsecutiveFailures, (f i).breakerOpenUntilMs) =
        if sent then (0, 0) else (i.breakerConsecutiveFailures+1,
          if i.breakerConsecutiveFailures+1 ≥ cfg.keyBreakerFailThreshold then
            Sender.openUntil cfg.keyBreakerOpenMs now.now else i.breakerOpenUntilMs) := by
  unfold Sender.keyResult
  rw [if_neg (not_le.mpr hpos)]
  dsimp only
  refine ⟨_, rfl, fun i => ?_, fun i => ?_⟩
  · cases sent <;> rfl
  · cases sent <;> rfl

/-- The queue of the key writes the result down as the journal does. -/
theorem agrees_result (e : Ended) (ended : List Ended) (failures openMs : ℤ)
    (hpos : 0 < cfg.keyBreakerFailThreshold) (h : Agrees cfg ended e.key (failures, openMs)) :
    Agrees cfg (e::ended) e.key (if e.sent then (0, 0) else (failures+1,
      if failures+1 ≥ cfg.keyBreakerFailThreshold then
        Sender.openUntil cfg.keyBreakerOpenMs e.now else openMs)) := by
  obtain ⟨hcount, hdead⟩ := h
  dsimp only at hcount hdead
  unfold Agrees
  rw [Ended.ofKey_cons_self]
  cases hsent : e.sent with
  | true =>
    have hzero := Ended.streak_sent e (Ended.ofKey e.key ended) hsent
    refine ⟨by rw [hzero]; rfl, ?_⟩
    show (0 : ℤ) = _
    rw [Ended.deadline, hzero, if_neg (by omega)]
  | false =>
    have hmore := Ended.streak_failed e (Ended.ofKey e.key ended) hsent
    refine ⟨?_, ?_⟩
    · rw [hmore]
      push_cast
      exact congrArg (·+1) hcount
    · show (if failures+1 ≥ cfg.keyBreakerFailThreshold then _ else openMs) = _
      rw [Ended.deadline, hmore]
      by_cases hreach : failures+1 ≥ cfg.keyBreakerFailThreshold
      · rw [if_pos hreach, if_pos (by omega)]
        rfl
      · rw [if_neg hreach, if_neg (by omega), hdead, Ended.deadline, if_neg (by omega)]

theorem agrees_other (e : Ended) (ended : List Ended) (key : CStr) (x : ℤ × ℤ) (hne : e.key ≠ key)
    (h : Agrees cfg ended key x) : Agrees cfg (e::ended) key x := by
  unfold Agrees at h ⊢
  rwa [Ended.ofKey_cons_other e ended key hne]

/-- A result is counted by the sender that has the queue of its key. -/
theorem minded_result {w w' : Tracked} (hgood : Sys.Good st w.sys) (h : Minded st w)
    (hpos : 0 < st.cfg.keyBreakerFailThreshold) (i : ℕ) (hi : i < st.cfg.senderCount)
    (input : Sender.Input) (q : Addr) (t : SendTask) (sent : Bool) (hnow : 0 ≤ input.now)
    (hpc : w.sys.senders i = .keyResult q t sent) (hfiled : Sys.Filed st w'.sys)
    (hs : w'.sys = w.sys.setSender i
      (.release (some q) t, Sender.keyResult st.cfg input q sent w.sys.prod))
    (hgate : w'.gateAt = gatesIn w.sys w.gateAt (.sender i input))
    (hended : w'.ended = endsIn st w.sys (.sender i input)++w.ended) : Minded st w' := by
  have hlive : q ∈ KeyMap.live st.cfg.toKeyConfig w.sys.prod.keys :=
    ((hgood.held q).mpr ⟨i, hi, by rw [hpc]; rfl⟩).1
  have hname := h.filed.hands i hi q t (by rw [hpc]; rfl) (by rw [hpc]; rfl)
  have hnew : w'.ended = ⟨(w.sys.prod.keys.info q).key, sent, input.now⟩::w.ended := by
    rw [hended, ← hname]
    simp only [endsIn, hpc, List.singleton_append]
  obtain ⟨f, hkeys, hfkey, hfmem⟩ := keyResult_keys input q sent w.sys.prod hpos
  have hother : ∀ a ∈ KeyMap.live st.cfg.toKeyConfig w.sys.prod.keys, a ≠ q →
      (w.sys.prod.keys.info q).key ≠ (w.sys.prod.keys.info a).key := by
    intro a ha hne hsame
    exact hne (hgood.sound.hashed.key a q ha hlive hsame.symm)
  have hmap : w'.sys.prod.keys = KeyMap.setInfo q f w.sys.prod.keys := by
    rw [hs]
    exact hkeys
  refine ⟨hfiled, ?_, ?_, ?_, ?_⟩
  · rw [hnew]
    intro e he
    rcases List.mem_cons.mp he with rfl | he
    · exact hnow
    · exact h.times e he
  · rw [hs]
    exact Sys.forall_update (fun pc => Sender.offKey pc = false) w.sys.senders i _ h.onKey rfl
  · rw [hmap, hnew]
    constructor
    · intro a ha
      by_cases haq : a = q
      · subst haq
        have hresult := agrees_result ⟨(w.sys.prod.keys.info a).key, sent, input.now⟩ w.ended _ _
          hpos (h.tells.live a hlive)
        unfold mem
        rw [KeyMap.setInfo_self, hfkey, hfmem]
        exact hresult
      · unfold mem
        rw [KeyMap.setInfo_other q a f _ haq]
        exact agrees_other _ _ _ _ (hother a ha haq) (h.tells.live a ha)
    · intro key hnone
      have hkeyq : ((KeyMap.setInfo q f w.sys.prod.keys).info q).key =
          (w.sys.prod.keys.info q).key := by
        rw [KeyMap.setInfo_self, hfkey]
      apply agrees_other _ _ _ _ (fun hsame => hnone q hlive (hkeyq.trans hsame))
      apply h.tells.absent key
      intro a ha hkey
      apply hnone a ha
      by_cases haq : a = q
      · subst haq
        exact hkeyq.trans hkey
      · rw [KeyMap.setInfo_other q a f _ haq]
        exact hkey
  · intro j hj x hx e rest hof hfail
    have hji : j ≠ i := by
      rintro rfl
      rw [hs, Sys.senders_self] at hx
      cases hx
    rw [hs, Sys.senders_other w.sys i j _ hji] at hx
    have hat : w'.gateAt j = w.gateAt j := by
      rw [hgate, gatesIn, Function.update_of_ne hji]
    have hqueue : ∃ a, Sender.queue (w.sys.senders j) = some a ∧
        Sender.carried (w.sys.senders j) = some x := by
      generalize w.sys.senders j = pc at hx
      cases pc with
      | breakerWait a s | breakerEnter a s => exact ⟨a, rfl, hx⟩
      | attempt a s =>
        cases a with
        | none => cases hx
        | some a => exact ⟨a, rfl, hx⟩
      | _ => cases hx
    obtain ⟨a, ha, hcarry⟩ := hqueue
    have hne : a ≠ q := by
      rintro rfl
      exact hji (hgood.alone j i a hj hi ha (by rw [hpc]; rfl))
    have hlivea := ((hgood.held a).mpr ⟨j, hj, ha⟩).1
    have hnamea := h.filed.hands j hj a x ha hcarry
    rw [hnew, Ended.ofKey_cons_other _ _ _ (by rw [hnamea]; exact hother a hlivea hne)] at hof
    rw [hat]
    exact h.waited j hj x hx e rest hof hfail

theorem fastSend_off (cfg : Config) (hpos : 0 < cfg.keyBreakerFailThreshold) :
    cfg.fastSend = false := by
  have hoff : decide (cfg.keyBreakerFailThreshold ≤ 0) = false := by
    rw [decide_eq_false_iff_not]
    exact not_le.mpr hpos
  unfold Config.fastSend
  rw [hoff, Bool.and_false]

/-- A step of the senders that counts no result leaves the journal alone. -/
theorem endsIn_nil (s : Sys) (a : Act)
    (h : ∀ i input q t sent, a = .sender i input → s.senders i ≠ .keyResult q t sent) :
    endsIn st s a = [] := by
  cases a with
  | sender i input =>
    unfold endsIn
    dsimp only
    split
    · rename_i q t sent hpc
      exact absurd hpc (h i input q t sent rfl)
    · rfl
  | call i c | writer i input | worker i input => rfl

theorem minded_step (hpos : 0 < st.cfg.keyBreakerFailThreshold) (w w' : Tracked) (a : Act)
    (hgood : Sys.Good st w.sys) (h : Minded st w) (hforgive : Forgives st w a)
    (hstep : step st w a = some w') : Minded st w' := by
  obtain ⟨hnow, hs, hgate, hended⟩ := step_some w w' a hstep
  have hslow := fastSend_off st.cfg hpos
  have hfiled := Sys.filed_step w.sys w'.sys a hgood h.filed hs
  by_cases hresult : ∃ i input q t sent, a = .sender i input ∧ w.sys.senders i = .keyResult q t sent
  · obtain ⟨i, input, q, t, sent, rfl, hpc⟩ := hresult
    simp only [Sys.step, hpc] at hs
    split at hs
    · rename_i hi
      obtain ⟨r, hr, hset⟩ := Option.map_eq_some_iff.mp hs
      unfold Sender.step at hr
      split at hr
      · cases hr
      · obtain rfl := Option.some.inj hr
        exact minded_result hgood h hpos i hi input q t sent hnow hpc hfiled hset.symm hgate hended
    · cases hs
  · have hquiet : w'.ended = w.ended := by
      rw [hended, endsIn_nil w.sys a, List.nil_append]
      intro i input q t sent ha hpc
      exact hresult ⟨i, input, q, t, sent, ha, hpc⟩
    obtain ⟨honKey, hwaited⟩ := waited_step hgood h hpos hslow a hs hgate hquiet
    refine ⟨hfiled, by rw [hquiet]; exact h.times, honKey, ?_, hwaited⟩
    rw [hquiet]
    rcases Sys.step_recalls w.sys w'.sys a hgood hs with hg | hsh | ⟨i, input, q, t, sent, ha, _, hpc, _⟩
    · apply h.tells.grows hg
      · intro q hq
        exact congrArg Prod.snd (hg.kept q hq)
      · intro q hq hnew
        exact congrArg Prod.snd (hg.born q hq hnew).1
    · apply h.tells.shrinks hsh
      · intro q hq
        exact congrArg Prod.snd (hsh.kept q hq)
      · intro q hq hfree
        obtain ⟨hcount, hdead⟩ := h.tells.live q hq
        have hzero : (w.sys.prod.keys.info q).breakerConsecutiveFailures = 0 := hforgive q hfree
        have hstreak : (Ended.streak (Ended.ofKey (w.sys.prod.keys.info q).key w.ended) : ℤ) = 0 :=
          hcount.symm.trans hzero
        refine ⟨hstreak.symm, ?_⟩
        rw [Ended.deadline, if_neg (by omega)]
    · exact absurd ⟨i, input, q, t, sent, ha, hpc⟩ hresult

theorem minded_start (hpos : 0 < st.cfg.keyBreakerFailThreshold) : Minded st (start st) := by
  have hpc : ∀ i, (start st).sys.senders i = .top := by
    intro i
    show Sender.start st.cfg = .top
    unfold Sender.start
    rw [fastSend_off st.cfg hpos]
    rfl
  refine ⟨Sys.filed_start st, nofun, fun i => by rw [hpc]; rfl, ⟨fun q hq => ?_, fun key _ => ?_⟩, ?_⟩
  · simp [start, Sys.start, producerCreate, KeyMap.live, KeyMap.empty] at hq
  · refine ⟨rfl, ?_⟩
    show (0 : ℤ) = Ended.deadline st.cfg []
    rw [Ended.deadline, if_neg]
    simp only [Ended.streak, List.takeWhile_nil, List.length_nil]
    omega
  · intro i _ t ht
    rw [hpc] at ht
    cases ht

/-- With every queue kept until the failures of its key are forgiven, the
breaker of a key holds: after `n` failures in a row no request for it starts
before the open time is over. -/
theorem run_key_breaker_holds (st : Setup) (acts : List Act) (w : Tracked)
    (hpos : 0 < st.cfg.keyBreakerFailThreshold)
    (hc : Machine.Along (step st) (Forgives st) acts (start st))
    (h : Machine.run (step st) acts (start st) = some w) : KeptOpen st w := by
  have hall := Machine.run_invariant (step st) (fun w => Sys.Good st w.sys ∧ Minded st w)
    (Forgives st)
    (fun w a w' hi hforgive hs => ⟨Sys.good_step w.sys w'.sys a hi.1 (step_some w w' a hs).2.1,
      minded_step hpos w w' a hi.1 hi.2 hforgive hs⟩)
    acts (start st) w ⟨Sys.good_start st, minded_start hpos⟩ hc h
  exact hall.2.keptOpen

def refusedAt (now : ℤ) : Act := .sender 0 ⟨now, now, 7, none, .failed false⟩

def oneFailure (ttl : ℤ) : Setup :=
  ⟨{ keyQueueBucketCount := 1, keyBreakerFailThreshold := 1, keyQueueIdleTtlMs := ttl }, 1, 0⟩

/-- The first batch fails at time 1, the second one is held back. -/
def heldBack : List Act :=
  Sys.packKeyed 9++List.replicate 14 (refusedAt 1)++Sys.packKeyed 10++List.replicate 10 (refusedAt 2)++
    List.replicate 4 (refusedAt 30001)

theorem heldBack_breaker_holds :
    ∃ w, Machine.run (step (oneFailure 1000)) heldBack (start (oneFailure 1000)) = some w ∧
      w.ended = [⟨[75], false, 1⟩] ∧ w.gateAt 0 = 30001 ∧ KeptOpen (oneFailure 1000) w :=
  ⟨_, rfl, rfl, rfl, run_key_breaker_holds (oneFailure 1000) heldBack _ (by decide)
    (by decide +kernel) rfl⟩

/-- Queues are not kept: the first failure is forgotten, and the second batch
is sent one millisecond later. -/
theorem forgotten_breaker_fails : ¬ ∀ (st : Setup) (acts : List Act) (w : Tracked),
    0 < st.cfg.keyBreakerFailThreshold → Machine.run (step st) acts (start st) = some w →
      KeptOpen st w := by
  intro h
  have hrun : ∃ w, Machine.run (step (oneFailure 0)) (Sys.packKeyed 9++
      List.replicate 14 (refusedAt 1)++Sys.packKeyed 9++List.replicate 8 (refusedAt 2))
      (start (oneFailure 0)) = some w ∧ w.ended = [⟨[75], false, 1⟩] ∧ w.gateAt 0 = 2 ∧
      ∃ q s, w.sys.senders 0 = .attempt q s ∧ s.task.hashKey = [75] := by
    exact ⟨_, rfl, rfl, rfl, _, _, rfl, rfl⟩
  obtain ⟨w, hw, hended, hgate, q, s, hpc, hkey⟩ := hrun
  have hopen := h (oneFailure 0) _ w (by decide) hw 0 (by decide) q s hpc ⟨[75], false, 1⟩ []
    (by rw [hended, hkey]; decide) (by decide)
  rw [hgate] at hopen
  exact absurd hopen (by decide)

end Tracked

end VeTls
