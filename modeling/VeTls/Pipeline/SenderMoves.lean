import VeTls.Pipeline.WorkerMoves

/-!
# What a sender can do

Every step of a sender is one move. Between two moves it has at most one
task in its hands, either in the window between the send queue and the queue
of the key, or on the way to the server.
-/

set_option autoImplicit false

namespace VeTls.Sender

open VeTls.Keys (Addr CStr KeyMap Info)
open VeTls.Keys.KeyMap (Keeps Effect Sound Held ring)

variable {cfg : Config}

/-- A task that is in no queue, and that nothing counts yet. -/
def window : Pc → Option SendTask
  | .moving t | .pushing t | .counting t | .keyDrop t => some t
  | _ => none

def sending : Pc → Option SendTask
  | .gate _ s | .breakerWait _ s | .breakerEnter _ s | .attempt _ s | .report _ s _ => some s.task
  | .requeue _ t _ => some t
  | _ => none

def queue : Pc → Option Addr
  | .gate q _ | .requeue q _ _ | .breakerWait q _ | .breakerEnter q _ | .breakerResult q _ _
  | .keyResult q _ _ | .finish q => some q
  | .attempt q _ | .report q _ _ | .release q _ => q
  | _ => none

def counted : Pc → Bool
  | .attempt none _ | .report none _ _ | .release none _ | .uncount => true
  | _ => false

/-- Bytes that `sendQueueBytes` has for a task no longer in the queue. -/
def popped : Pc → ℕ
  | .moving t => sendTaskMemoryBytes t
  | _ => 0

/-- The task `inflightBytes` has the bytes of. -/
def carried : Pc → Option SendTask
  | .pushing t | .counting t | .keyDrop t | .dropRelease t | .requeue _ t _ | .keyResult _ t _
  | .release _ t => some t
  | .gate _ s | .breakerWait _ s | .breakerEnter _ s | .attempt _ s | .report _ s _
  | .breakerResult _ s _ => some s.task
  | _ => none

/-- The sender has found nothing to wait for and will end. -/
def committed : Pc → Bool
  | .exitPop pending | .exitCheck pending => !pending
  | .exited => true
  | _ => false

structure Same (pc pc' : Pc) : Prop where
  window : window pc' = window pc
  sending : sending pc' = sending pc
  queue : queue pc' = queue pc
  counted : counted pc' = counted pc
  popped : popped pc' = popped pc
  committed : committed pc' = true → committed pc = true

/-- Only breaker fields and the time of the next cleanup change. -/
def Aside (p p' : Producer) : Prop :=
  ∃ a b c d, p' = { p with
    breakerOpenUntilMs := a, breakerConsecutiveFailures := b, breakerHalfOpenInflight := c
    idleCleanupNextMs := d }

theorem Aside.refl (p : Producer) : Aside p p :=
  ⟨p.breakerOpenUntilMs, p.breakerConsecutiveFailures, p.breakerHalfOpenInflight,
    p.idleCleanupNextMs, rfl⟩

inductive Move (cfg : Config) : Pc × Producer → Pc × Producer → Prop
  | idle (pc pc' : Pc) (p p' : Producer) (ha : Aside p p') (hs : Same pc pc')
      (hc : carried pc' = carried pc) : Move cfg (pc, p) (pc', p')
  | keyed (pc pc' : Pc) (p : Producer) (m : KeyMap SendTask Builder)
      (hk : Keeps cfg.toKeyConfig p.keys m) (hs : Same pc pc') (hc : carried pc' = carried pc) :
      Move cfg (pc, p) (pc', { p with keys := m })
  | take (p : Producer) (q : Addr) (t : SendTask) (rest : List SendTask) (now : ℤ)
      (m : KeyMap SendTask Builder) (hfree : ¬ Held cfg.toKeyConfig p.keys q)
      (hring : ring cfg.toKeyConfig p.keys (m.info q).key = t::rest)
      (he : Effect cfg.toKeyConfig p.keys m (fun a => a = q ∨ Held cfg.toKeyConfig p.keys a)
        (fun k => if k = (m.info q).key then rest else ring cfg.toKeyConfig p.keys k) []) :
      Move cfg (.top, p) (.gate q (firstSend t now), { p with keys := m })
  | pop (pc : Pc) (p : Producer) (t : SendTask) (rest : List SendTask)
      (hpc : (∃ b, pc = .popSendQueue b) ∨ ∃ b, pc = .exitPop b) (hq : p.sendQueue = t::rest) :
      Move cfg (pc, p) (.moving t, { p with sendQueue := rest })
  | move (p : Producer) (t : SendTask) :
      Move cfg (.moving t, p)
        (if cfg.fastSend then .counting t else .pushing t, moveSendTaskToInflight t p)
  | put (p : Producer) (t : SendTask) (m : KeyMap SendTask Builder)
      (he : Effect cfg.toKeyConfig p.keys m (Held cfg.toKeyConfig p.keys)
        (fun k => if k = cfg.normalizeHashKey t.hashKey then ring cfg.toKeyConfig p.keys k++[t]
          else ring cfg.toKeyConfig p.keys k) []) :
      Move cfg (.pushing t, p) (.top, { p with keys := m })
  | count (p : Producer) (t : SendTask) (now : ℤ) :
      Move cfg (.counting t, p)
        (.attempt none (firstSend t now), { p with fastInflight := p.fastInflight+1 })
  | drop (p : Producer) (t : SendTask) :
      Move cfg (.keyDrop t, p) (.dropRelease t, VeTls.report (taskReport t false) p)
  | release (pc pc' : Pc) (p : Producer) (t : SendTask) (hs : Same pc pc')
      (hc : carried pc = some t) (hc' : carried pc' = none) :
      Move cfg (pc, p) (pc', releaseInflightTaskBytes t p)
  | requeue (p : Producer) (q : Addr) (t : SendTask) (next : ℤ) (m : KeyMap SendTask Builder)
      (he : Effect cfg.toKeyConfig p.keys m (fun a => a ≠ q ∧ Held cfg.toKeyConfig p.keys a)
        (fun k => if k = (p.keys.info q).key then t::ring cfg.toKeyConfig p.keys k
          else ring cfg.toKeyConfig p.keys k) []) :
      Move cfg (.requeue q t next, p) (.top, { p with keys := m })
  | attempt (pc' : Pc) (p : Producer) (q : Option Addr) (s : Send)
      (hs : Same (.attempt q s) pc') (hc : carried pc' = some s.task) :
      Move cfg (.attempt q s, p) (pc', attempted s.task p)
  | report (p : Producer) (q : Option Addr) (s : Send) (sent : Bool) :
      Move cfg (.report q s sent, p)
        (reported s sent q, VeTls.report (taskReport s.task sent) p)
  | finish (p : Producer) (q : Addr) (m : KeyMap SendTask Builder) (gone : List (Info Builder))
      (he : Effect cfg.toKeyConfig p.keys m (fun a => a ≠ q ∧ Held cfg.toKeyConfig p.keys a)
        (ring cfg.toKeyConfig p.keys) gone)
      (hg : ∀ i ∈ gone, i.builder = (p.keys.info q).builder ∧ p.keys.tasks q = []) :
      Move cfg (.finish q, p) (.top, { p with keys := m })
  | uncount (p : Producer) :
      Move cfg (.uncount, p) (.popSendQueue true, { p with fastInflight := p.fastInflight-1 })
  | cleanup (pc pc' : Pc) (p : Producer) (next : ℤ) (m : KeyMap SendTask Builder)
      (gone : List (Info Builder)) (hs : Same pc pc')
      (he : Effect cfg.toKeyConfig p.keys m (Held cfg.toKeyConfig p.keys)
        (ring cfg.toKeyConfig p.keys) gone)
      (hg : ∀ i ∈ gone, ∃ q, (p.keys.info q).idle = true ∧
        i.builder = (p.keys.info q).builder) (hc : carried pc' = carried pc) :
      Move cfg (pc, p) (pc', { p with idleCleanupNextMs := next, keys := m })
  | commit (p : Producer) : Move cfg (.stopCheck, p) (.exitPop (keyPending cfg p), p)
  | exitFast (p : Producer) (block : Bool) (hf : cfg.fastSend = true) :
      Move cfg (.popSendQueue block, p) (.exited, p)

section Steps

theorem top_move (i : Input) (p : Producer) (hs : Sound cfg.toKeyConfig p.keys) :
    Move cfg (.top, p) (top i p) := by
  have hk := KeyMap.delayedPromoteDue_keeps hs i.now
  unfold top
  dsimp only
  cases hp : KeyMap.readyPop (KeyMap.delayedPromoteDue i.now p.keys) with
  | none => exact .keyed .top _ p _ hk ⟨rfl, rfl, rfl, rfl, rfl, nofun⟩ rfl
  | some r =>
    obtain ⟨q, m₁⟩ := r
    obtain ⟨t, m₂, hpop, _, hfree, hkey, hring, he⟩ := KeyMap.take_effect hk.sound q hp
    simp only [hpop]
    rw [hk.ring, ← hkey] at hring
    rw [hk.held] at hfree
    apply Move.take p q t (m₂.tasks q) i.now2 m₂ hfree hring
    apply KeyMap.keeps_trans hk
    rw [← hkey] at he
    apply KeyMap.effect_congr he
    · intro a
      rw [hk.held]
    · intro k
      rw [hk.ring]

theorem popSendQueue_move (block : Bool) (p : Producer) (r : Pc × Producer)
    (h : popSendQueue cfg block p = some r) : Move cfg (.popSendQueue block, p) r := by
  unfold popSendQueue at h
  split at h
  · rename_i t rest hq
    rw [← Option.some.inj h]
    exact .pop _ p t rest (Or.inl ⟨block, rfl⟩) hq
  · split at h
    · simp at h
    · split at h
      · rename_i hf
        rw [← Option.some.inj h]
        exact .exitFast p block hf
      · rw [← Option.some.inj h]
        exact .idle _ _ p p (Aside.refl p) ⟨rfl, rfl, rfl, rfl, rfl, nofun⟩ rfl

theorem pushing_move (i : Input) (t : SendTask) (p : Producer)
    (hs : Sound cfg.toKeyConfig p.keys) (ha : i.addr ∉ KeyMap.live cfg.toKeyConfig p.keys) :
    Move cfg (.pushing t, p) (pushing cfg i t p) := by
  have he := KeyMap.keyQueuePushTask_effect hs i.addr (cfg.normalizeHashKey t.hashKey) t ha
  unfold pushing
  dsimp only
  split
  · rename_i hr
    apply Move.put p t
    simpa [hr] using he
  · rename_i hr
    have hpc : Same (.pushing t) (.keyDrop t) := ⟨rfl, rfl, rfl, rfl, rfl, nofun⟩
    apply Move.keyed _ _ p _ _ hpc rfl
    simpa [hr] using he

theorem cleanup_move (i : Input) (pc pc' : Pc) (p : Producer) (hs : Sound cfg.toKeyConfig p.keys)
    (hpc : Same pc pc') (hc : carried pc' = carried pc) :
    Move cfg (pc, p) (pc', idleCleanup cfg i p) := by
  unfold idleCleanup
  split
  · obtain ⟨gone, he, hg⟩ := KeyMap.idleCleanup_effect hs i.now2
    exact .cleanup pc pc' p _ _ gone hpc he hg hc
  · exact .idle pc pc' p p (Aside.refl p) hpc hc

theorem gate_same (i : Input) (q : Addr) (s : Send) (p : Producer) :
    Same (.gate q s) (gate cfg i q s p) ∧ carried (gate cfg i q s p) = some s.task := by
  unfold gate
  dsimp only
  split
  · split
    · exact ⟨⟨rfl, rfl, rfl, rfl, rfl, nofun⟩, rfl⟩
    · exact ⟨⟨rfl, rfl, rfl, rfl, rfl, nofun⟩, rfl⟩
  · exact ⟨⟨rfl, rfl, rfl, rfl, rfl, nofun⟩, rfl⟩

theorem breakerEnter_move (i : Input) (q : Addr) (s : Send) (p : Producer) :
    Move cfg (.breakerEnter q s, p) (breakerEnter cfg i q s p) := by
  unfold breakerEnter
  split
  · exact .idle _ _ p p (Aside.refl p) ⟨rfl, rfl, rfl, rfl, rfl, nofun⟩ rfl
  · split
    · exact .idle _ _ p _ ⟨_, _, _, _, rfl⟩ ⟨rfl, rfl, rfl, rfl, rfl, nofun⟩ rfl
    · exact .idle _ _ p p (Aside.refl p) ⟨rfl, rfl, rfl, rfl, rfl, nofun⟩ rfl

theorem again_same (q : Option Addr) (s : Send) :
    Same (.attempt q s) (again s q) ∧ carried (again s q) = some s.task := by
  cases q <;> exact ⟨⟨rfl, rfl, rfl, rfl, rfl, nofun⟩, rfl⟩

theorem report_same (q : Option Addr) (s : Send) (sent : Bool) :
    Same (.attempt q s) (.report q s sent) := by
  cases q <;> exact ⟨rfl, rfl, rfl, rfl, rfl, nofun⟩

theorem attempt_move (i : Input) (q : Option Addr) (s : Send) (p : Producer) :
    Move cfg (.attempt q s, p) (attempt cfg i q s p) := by
  unfold attempt
  split
  · exact .idle _ _ p p (Aside.refl p) (report_same q s false) rfl
  · exact .attempt _ p q s (report_same q s true) rfl
  · split
    · exact .attempt _ p q s (again_same q s).1 (again_same q s).2
    · exact .attempt _ p q s (report_same q s false) rfl

theorem breakerResult_aside (i : Input) (s : Send) (sent : Bool) (p : Producer) :
    Aside p (breakerResult cfg i s sent p) := by
  have hhalf : Aside p (if s.halfOpen && decide (p.breakerHalfOpenInflight > 0) then
      { p with breakerHalfOpenInflight := p.breakerHalfOpenInflight-1 } else p) := by
    split
    · exact ⟨_, _, _, _, rfl⟩
    · exact Aside.refl p
  unfold breakerResult
  split
  · exact Aside.refl p
  · dsimp only
    obtain ⟨a, b, c, d, he⟩ := hhalf
    rw [he]
    split
    · exact ⟨_, _, _, _, rfl⟩
    · exact ⟨_, _, _, _, rfl⟩

theorem keyResult_move (i : Input) (q : Addr) (t : SendTask) (sent : Bool) (p : Producer)
    (hs : Sound cfg.toKeyConfig p.keys) :
    Move cfg (.keyResult q t sent, p) (.release (some q) t, keyResult cfg i q sent p) := by
  have hpc : Same (.keyResult q t sent) (.release (some q) t) := ⟨rfl, rfl, rfl, rfl, rfl, nofun⟩
  unfold keyResult
  split
  · exact .idle _ _ p p (Aside.refl p) hpc rfl
  · apply Move.keyed _ _ p _ _ hpc rfl
    apply KeyMap.setInfo_keeps hs
    · intro k
      split <;> exact ⟨rfl, rfl, rfl, rfl, rfl, rfl, rfl⟩
    · intro k
      split <;> rfl

/-- A step of a sender is a move. The queue it has is one in flight. -/
theorem step_move (i : Input) (pc pc' : Pc) (p p' : Producer) (hs : Sound cfg.toKeyConfig p.keys)
    (hq : ∀ q, queue pc = some q → Held cfg.toKeyConfig p.keys q)
    (h : step cfg i pc p = some (pc', p')) : Move cfg (pc, p) (pc', p') := by
  unfold step at h
  split at h
  · simp at h
  · rename_i ha
    cases pc with
    | top =>
      rw [← Option.some.inj h]
      exact top_move i p hs
    | popSendQueue block => exact popSendQueue_move block p _ h
    | moving t =>
      rw [← Option.some.inj h]
      exact .move p t
    | pushing t =>
      rw [← Option.some.inj h]
      exact pushing_move i t p hs ha
    | counting t =>
      rw [← Option.some.inj h]
      exact .count p t i.now
    | keyDrop t =>
      rw [← Option.some.inj h]
      exact .drop p t
    | dropRelease t =>
      rw [← Option.some.inj h]
      exact .release _ _ p t ⟨rfl, rfl, rfl, rfl, rfl, nofun⟩ rfl rfl
    | stopCheck =>
      rw [← Option.some.inj h]
      unfold stopCheck
      split
      · exact .commit p
      · exact cleanup_move i _ _ p hs ⟨rfl, rfl, rfl, rfl, rfl, nofun⟩ rfl
    | exitPop pending =>
      rw [← Option.some.inj h]
      unfold exitPop
      split
      · rename_i t rest hsq
        exact .pop _ p t rest (Or.inr ⟨pending, rfl⟩) hsq
      · exact .idle _ _ p p (Aside.refl p) ⟨rfl, rfl, rfl, rfl, rfl, id⟩ rfl
    | exitCheck pending =>
      rw [← Option.some.inj h]
      unfold exitCheck
      split
      · exact cleanup_move i _ _ p hs ⟨rfl, rfl, rfl, rfl, rfl, nofun⟩ rfl
      · rename_i hp
        exact .idle _ _ p p (Aside.refl p)
          ⟨rfl, rfl, rfl, rfl, rfl, fun _ => by simpa [committed] using hp⟩ rfl
    | gate q s =>
      rw [← Option.some.inj h]
      exact .idle _ _ p p (Aside.refl p) (gate_same i q s p).1 (gate_same i q s p).2
    | requeue q t next =>
      rw [← Option.some.inj h]
      exact .requeue p q t next _ (KeyMap.gateRequeue_effect hs q t next (hq q rfl))
    | breakerWait q s =>
      simp only at h
      split at h
      · simp at h
      · rw [← Option.some.inj h]
        exact .idle _ _ p p (Aside.refl p) ⟨rfl, rfl, rfl, rfl, rfl, nofun⟩ rfl
    | breakerEnter q s =>
      rw [← Option.some.inj h]
      exact breakerEnter_move i q s p
    | attempt q s =>
      rw [← Option.some.inj h]
      exact attempt_move i q s p
    | report q s sent =>
      rw [← Option.some.inj h]
      exact .report p q s sent
    | breakerResult q s sent =>
      rw [← Option.some.inj h]
      exact .idle _ _ p _ (breakerResult_aside i s sent p) ⟨rfl, rfl, rfl, rfl, rfl, nofun⟩ rfl
    | keyResult q t sent =>
      rw [← Option.some.inj h]
      exact keyResult_move i q t sent p hs
    | release q t =>
      rw [← Option.some.inj h]
      cases q <;> exact .release _ _ p t ⟨rfl, rfl, rfl, rfl, rfl, nofun⟩ rfl rfl
    | finish q =>
      rw [← Option.some.inj h]
      obtain ⟨gone, he, hg⟩ := KeyMap.keyQueueFinish_effect hs i.now q (hq q rfl)
      exact .finish p q _ gone he hg
    | uncount =>
      rw [← Option.some.inj h]
      exact .uncount p
    | exited => simp at h

end Steps

end VeTls.Sender
