import VeTls.Lib.Threads
import VeTls.Pipeline.SenderMoves

/-!
# Runs of the whole pipeline

`Core` is what every move keeps: the key map is sound, and the queues in
flight are in the hands of one sender each. On top of it `step_rule` reduces
an invariant of the system to its moves, and `run_rule` carries an invariant
along a run whose steps meet a condition.
-/

set_option autoImplicit false

namespace VeTls

open VeTls.Keys (Addr CStr KeyMap)
open VeTls.Keys.KeyMap (Keeps Effect Sound Held ring)

variable {cfg : Config}

/-- What no writer touches, and how its reports look. -/
structure Writer.Frame (cfg : Config) (p p' : Producer) : Prop where
  sendQueue : p'.sendQueue = p.sendQueue
  taken : p'.taken = p.taken
  attempts : p'.attempts = p.attempts
  workerFlushingCount : p'.workerFlushingCount = p.workerFlushingCount
  fastInflight : p'.fastInflight = p.fastInflight
  sendQueueBytes : p'.sendQueueBytes = p.sendQueueBytes
  inflightBytes : p'.inflightBytes = p.inflightBytes
  scratchBytes : p'.scratchBytes = p.scratchBytes
  done : ∃ l, p'.done = p.done++l ∧ ∀ r ∈ l, r.batch = none
  sound : Sound cfg.toKeyConfig p'.keys
  held : ∀ a, Held cfg.toKeyConfig p'.keys a ↔ Held cfg.toKeyConfig p.keys a
  key : ∀ a, Held cfg.toKeyConfig p.keys a → (p'.keys.info a).key = (p.keys.info a).key
  ring : ∀ k, ring cfg.toKeyConfig p'.keys k = ring cfg.toKeyConfig p.keys k
  freed : p'.keys.freed = p.keys.freed
  idle : ∀ a, (p'.keys.info a).idle = true → (p.keys.info a).idle = true ∧
    ((p'.keys.info a).builder = (p.keys.info a).builder ∨ (p'.keys.info a).builder = none)

namespace Writer

theorem Frame.of_eq {p p' : Producer} (hs : Sound cfg.toKeyConfig p.keys)
    (h : p' = { p with
      accepting := p'.accepting, stop := p'.stop, closing := p'.closing
      flushRequested := p'.flushRequested, queue := p'.queue, queueBytes := p'.queueBytes
      ingressQueue := p'.ingressQueue, ingressQueueBytes := p'.ingressQueueBytes
      tlsBytes := p'.tlsBytes, sendQueueStop := p'.sendQueueStop, nextId := p'.nextId
      logsDroppedTotal := p'.logsDroppedTotal, rawNo := p'.rawNo, accepted := p'.accepted
      published := p'.published }) : Frame cfg p p' := by
  rw [h]
  exact ⟨rfl, rfl, rfl, rfl, rfl, rfl, rfl, rfl, ⟨[], by simp, by simp⟩, hs, fun _ => Iff.rfl,
    fun _ _ => rfl, fun _ => rfl, rfl, fun _ ha => ⟨ha, Or.inl rfl⟩⟩

theorem Frame.of_fill {p p' : Producer} {old : Option Builder} {b : Builder}
    (h : Fill cfg p p' old b) : Frame cfg p p' := by
  obtain ⟨d, m, l, n, f, he⟩ := h.frame
  have hk := h.keys
  rw [he] at hk ⊢
  exact ⟨rfl, rfl, rfl, rfl, rfl, rfl, rfl, rfl, ⟨[], by simp, by simp⟩, hk.sound, hk.held, hk.key,
    hk.ring, hk.freed, hk.idle⟩

theorem Frame.of_quiet {p p' : Producer} (hs : Sound cfg.toKeyConfig p.keys) (h : Quiet p p') :
    Frame cfg p p' := by
  obtain ⟨f, n, k, l, _, hl, rfl⟩ := h
  exact ⟨rfl, rfl, rfl, rfl, rfl, rfl, rfl, rfl, ⟨l, rfl, hl⟩, hs, fun _ => Iff.rfl,
    fun _ _ => rfl, fun _ => rfl, rfl, fun _ ha => ⟨ha, Or.inl rfl⟩⟩

theorem Frame.of_keeps {p : Producer} {m : KeyMap SendTask Builder}
    (h : Keeps cfg.toKeyConfig p.keys m) : Frame cfg p { p with keys := m } :=
  ⟨rfl, rfl, rfl, rfl, rfl, rfl, rfl, rfl, ⟨[], by simp, by simp⟩, h.sound, h.held,
    fun a ha => (h.same a ha ((h.held a).mpr ha)).1, h.ring, by simpa using h.freed, fun a ha =>
      ⟨(h.idle a ha).2.resolve_right fun hx => hx.2.1 hx.1, Or.inl (h.idle a ha).1⟩⟩

theorem settleTls_eq (estimated delta : ℕ) (p : Producer) :
    settleTls estimated delta p =
      { p with tlsBytes := (settleTls estimated delta p).tlsBytes } := by
  unfold settleTls
  split
  · rfl
  · split <;> rfl

theorem leaveBatch_eq (me : ℕ) (batch : TlsBatch) (p : Producer) :
    leaveBatch me batch p = { p with tlsBytes := (leaveBatch me batch p).tlsBytes } := by
  unfold leaveBatch
  split <;> rfl

theorem Move.frame {me : ℕ} {src : Pc} {a b : Writer × Producer}
    (h : Move cfg me src a b) (hs : Sound cfg.toKeyConfig a.2.keys) : Frame cfg a.2 b.2 := by
  cases h with
  | quiet w w' p p' hq hb hr hr' => exact Frame.of_quiet hs hq
  | switch w w' p hp hb hr hr' => exact Frame.of_eq hs rfl
  | reserve w p kv flush hkv hown hr hsp => exact Frame.of_eq hs rfl
  | append w w' p kv flush b hkv hown hpc hadd hb hr' =>
    dsimp only
    rw [settleTls_eq]
    exact Frame.of_eq hs rfl
  | publish w w' p t hown ht hb hr hr' => exact Frame.of_eq hs rfl
  | accept w p id h => exact Frame.of_eq hs rfl
  | rawReserve w p log hr hsp => exact Frame.of_eq hs rfl
  | rawPush w w' p log hpc hb hr' hopen ha => exact Frame.of_eq hs rfl
  | rawRelease w w' p log hpc hb hr' => exact Frame.of_eq hs rfl
  | keyed w p m hr hk => exact Frame.of_keeps hk
  | store w w' p p' kv old b hkv hb hr hr' hsp hf he =>
    have hfr := Frame.of_fill hf
    exact ⟨hfr.sendQueue, hfr.taken, hfr.attempts, hfr.workerFlushingCount, hfr.fastInflight,
      hfr.sendQueueBytes, hfr.inflightBytes, hfr.scratchBytes, hfr.done, hfr.sound, hfr.held,
      hfr.key, hfr.ring, hfr.freed, hfr.idle⟩
  | openSlot w p p' old b hr hf he => exact Frame.of_fill hf
  | closeBegin w p => exact Frame.of_eq hs rfl
  | stop w w' p hd hb hr hr' => exact Frame.of_eq hs rfl
  | stopSendQueue w w' p hb hr hr' => exact Frame.of_eq hs rfl

theorem Loss.frame {me : ℕ} {a b : Writer × Producer} (h : Loss cfg me a b)
    (hs : Sound cfg.toKeyConfig a.2.keys) : Frame cfg a.2 b.2 := by
  cases h with
  | leave w w' p hp hr hr' =>
    dsimp only
    rw [leaveBatch_eq]
    exact Frame.of_eq hs rfl
  | overflow w w' p kv flush hown hpc hadd hb hr' => exact Frame.of_eq hs rfl
  | discard w w' p rc hown hpc hb hr' => exact Frame.of_eq hs rfl

end Writer

/-- The key map as far as workers change it: builders come and go. -/
structure Worker.Frame (cfg : Config) (p p' : Producer) : Prop where
  attempts : p'.attempts = p.attempts
  fastInflight : p'.fastInflight = p.fastInflight
  sound : Sound cfg.toKeyConfig p'.keys
  held : ∀ a, Held cfg.toKeyConfig p'.keys a ↔ Held cfg.toKeyConfig p.keys a
  key : ∀ a, Held cfg.toKeyConfig p.keys a → (p'.keys.info a).key = (p.keys.info a).key
  ring : ∀ k, ring cfg.toKeyConfig p'.keys k = ring cfg.toKeyConfig p.keys k
  freed : p'.keys.freed = p.keys.freed
  idle : ∀ a, (p'.keys.info a).idle = true → (p.keys.info a).idle = true ∧
    ((p'.keys.info a).builder = (p.keys.info a).builder ∨ (p'.keys.info a).builder = none)

namespace Worker

theorem Frame.of_writer {p p' : Producer} (h : Writer.Frame cfg p p') : Frame cfg p p' :=
  ⟨h.attempts, h.fastInflight, h.sound, h.held, h.key, h.ring, h.freed, h.idle⟩

theorem Frame.of_eq {p p' : Producer} (hs : Sound cfg.toKeyConfig p.keys)
    (ha : p'.attempts = p.attempts) (hf : p'.fastInflight = p.fastInflight)
    (hk : p'.keys = p.keys) : Frame cfg p p' :=
  ⟨ha, hf, by rwa [hk], fun _ => by rw [hk], fun _ _ => by rw [hk], fun _ => by rw [hk],
    by rw [hk], fun _ ha => by rw [hk] at ha ⊢; exact ⟨ha, Or.inl rfl⟩⟩

theorem Move.frame {a b : Worker × Producer} (h : Move cfg a b)
    (hs : Sound cfg.toKeyConfig a.2.keys) : Frame cfg a.2 b.2 := by
  cases h with
  | idle w w' p p' hq hsame => exact Frame.of_writer (Writer.Frame.of_quiet hs hq)
  | keyed w p m hk => exact Frame.of_writer (Writer.Frame.of_keeps hk)
  | skip w p t rest hi he => exact Frame.of_eq hs rfl rfl rfl
  | refuse w p t rest hi => exact Frame.of_eq hs rfl rfl rfl
  | merge w p p' t rest old b hi hf he =>
    have hfr := Frame.of_writer (Writer.Frame.of_fill hf)
    exact ⟨hfr.attempts, hfr.fastInflight, hfr.sound, hfr.held, hfr.key, hfr.ring, hfr.freed,
      hfr.idle⟩
  | begin w p hf hr => exact Frame.of_eq hs rfl rfl rfl
  | sealUp w p p' b hf => exact Frame.of_writer (Writer.Frame.of_fill hf)
  | take p => exact Frame.of_eq hs rfl rfl rfl
  | rawPop w p item rest hpc hi => exact Frame.of_eq hs rfl rfl rfl
  | scratchReserve w w' p bytes hsame hsp => exact Frame.of_eq hs rfl rfl rfl
  | scratchRelease w w' p bytes hsame => exact Frame.of_eq hs rfl rfl rfl
  | sendReserve w p j now hpc hsp => exact Frame.of_eq hs rfl rfl rfl
  | unreserve w p j hpc => exact Frame.of_eq hs rfl rfl rfl
  | drop w p j hpc => exact Frame.of_eq hs rfl rfl rfl
  | release w p bytes hpc => exact Frame.of_eq hs rfl rfl rfl
  | finish w p hpc => exact Frame.of_eq hs rfl rfl rfl

theorem Push.frame {a b : Worker × Producer} (h : Push a b)
    (hs : Sound cfg.toKeyConfig a.2.keys) : Frame cfg a.2 b.2 := by
  obtain ⟨j, start, _, rfl⟩ := h
  exact Frame.of_eq hs rfl rfl rfl

end Worker

namespace Sys

/-- Every queue in flight is in the hands of one sender, and only those. -/
structure Core (st : Setup) (s : Sys) : Prop where
  sound : Sound st.cfg.toKeyConfig s.prod.keys
  held : ∀ a, Held st.cfg.toKeyConfig s.prod.keys a ↔
    ∃ i < st.cfg.senderCount, Sender.queue (s.senders i) = some a
  alone : ∀ i j q, i < st.cfg.senderCount → j < st.cfg.senderCount →
    Sender.queue (s.senders i) = some q → Sender.queue (s.senders j) = some q → i = j

/-- Between two steps the threads have what their place in the program
promises. -/
structure Good (st : Setup) (s : Sys) : Prop extends Core st s where
  writers : ∀ i, Writer.Ok st.cfg st.me (s.writers i)
  workers : ∀ i, Worker.Ok (s.workers i)

variable {st : Setup}

theorem Core.keep {s s' : Sys} (h : Core st s) (hs : s'.senders = s.senders)
    (hsound : Sound st.cfg.toKeyConfig s'.prod.keys)
    (hheld : ∀ a, Held st.cfg.toKeyConfig s'.prod.keys a ↔ Held st.cfg.toKeyConfig s.prod.keys a) :
    Core st s' := by
  apply Core.mk hsound
  · intro a
    rw [hheld, hs]
    exact h.held a
  · rw [hs]
    exact h.alone

/-- A sender that has the same queue afterwards. -/
theorem Core.sender_keep {s : Sys} (h : Core st s) (i : ℕ) (pc : Sender.Pc) (p : Producer)
    (hq : Sender.queue pc = Sender.queue (s.senders i))
    (hsound : Sound st.cfg.toKeyConfig p.keys)
    (hheld : ∀ a, Held st.cfg.toKeyConfig p.keys a ↔ Held st.cfg.toKeyConfig s.prod.keys a) :
    Core st (s.setSender i (pc, p)) := by
  have hall : ∀ j, Sender.queue ((s.setSender i (pc, p)).senders j) =
      Sender.queue (s.senders j) := by
    intro j
    by_cases hj : j = i
    · simp [setSender, hj, hq]
    · simp [setSender, hj]
  apply Core.mk hsound
  · intro a
    simp only [hall]
    exact (hheld a).trans (h.held a)
  · simp only [hall]
    exact h.alone

/-- A sender that takes a queue nobody has. -/
theorem Core.sender_take {s : Sys} (h : Core st s) (i : ℕ) (hi : i < st.cfg.senderCount)
    (pc : Sender.Pc) (p : Producer) (q : Addr) (hold : Sender.queue (s.senders i) = none)
    (hnew : Sender.queue pc = some q) (hfree : ¬ Held st.cfg.toKeyConfig s.prod.keys q)
    (hsound : Sound st.cfg.toKeyConfig p.keys)
    (hheld : ∀ a, Held st.cfg.toKeyConfig p.keys a ↔
      a = q ∨ Held st.cfg.toKeyConfig s.prod.keys a) : Core st (s.setSender i (pc, p)) := by
  have hself : (s.setSender i (pc, p)).senders i = pc := by simp [setSender]
  have hother : ∀ j, j ≠ i → (s.setSender i (pc, p)).senders j = s.senders j := by
    intro j hj
    simp [setSender, hj]
  have hnone : ∀ j, j < st.cfg.senderCount → Sender.queue (s.senders j) ≠ some q :=
    fun j hj hq => hfree ((h.held q).mpr ⟨j, hj, hq⟩)
  apply Core.mk hsound
  · intro a
    refine (hheld a).trans ⟨?_, ?_⟩
    · rintro (rfl | ha)
      · exact ⟨i, hi, by rw [hself, hnew]⟩
      · obtain ⟨j, hj, hq⟩ := (h.held a).mp ha
        have hji : j ≠ i := by
          rintro rfl
          simp [hold] at hq
        exact ⟨j, hj, by rw [hother j hji, hq]⟩
    · rintro ⟨j, hj, hq⟩
      by_cases hji : j = i
      · subst hji
        rw [hself, hnew] at hq
        exact Or.inl (Option.some.inj hq).symm
      · rw [hother j hji] at hq
        exact Or.inr ((h.held a).mpr ⟨j, hj, hq⟩)
  · intro j k a hj hk hqj hqk
    by_cases hji : j = i
    · by_cases hki : k = i
      · omega
      · subst hji
        rw [hself, hnew] at hqj
        rw [hother k hki, ← hqj] at hqk
        exact absurd hqk (hnone k hk)
    · by_cases hki : k = i
      · subst hki
        rw [hself, hnew] at hqk
        rw [hother j hji, ← hqk] at hqj
        exact absurd hqj (hnone j hj)
      · rw [hother j hji] at hqj
        rw [hother k hki] at hqk
        exact h.alone j k a hj hk hqj hqk

/-- A sender that gives its queue back. -/
theorem Core.sender_give {s : Sys} (h : Core st s) (i : ℕ) (hi : i < st.cfg.senderCount)
    (pc : Sender.Pc) (p : Producer) (q : Addr) (hold : Sender.queue (s.senders i) = some q)
    (hnew : Sender.queue pc = none) (hsound : Sound st.cfg.toKeyConfig p.keys)
    (hheld : ∀ a, Held st.cfg.toKeyConfig p.keys a ↔
      a ≠ q ∧ Held st.cfg.toKeyConfig s.prod.keys a) : Core st (s.setSender i (pc, p)) := by
  have hself : (s.setSender i (pc, p)).senders i = pc := by simp [setSender]
  have hother : ∀ j, j ≠ i → (s.setSender i (pc, p)).senders j = s.senders j := by
    intro j hj
    simp [setSender, hj]
  have hne : ∀ j a, Sender.queue ((s.setSender i (pc, p)).senders j) = some a → j ≠ i := by
    rintro j a hq rfl
    simp [hself, hnew] at hq
  apply Core.mk hsound
  · intro a
    refine (hheld a).trans ⟨?_, ?_⟩
    · rintro ⟨ha, hd⟩
      obtain ⟨j, hj, hq⟩ := (h.held a).mp hd
      have hji : j ≠ i := by
        rintro rfl
        rw [hold] at hq
        exact ha (Option.some.inj hq).symm
      exact ⟨j, hj, by rw [hother j hji, hq]⟩
    · rintro ⟨j, hj, hq⟩
      have hji := hne j a hq
      rw [hother j hji] at hq
      refine ⟨?_, (h.held a).mpr ⟨j, hj, hq⟩⟩
      rintro rfl
      exact hji (h.alone j i a hj hi hq hold)
  · intro j k a hj hk hqj hqk
    have hji := hne j a hqj
    have hki := hne k a hqk
    rw [hother j hji] at hqj
    rw [hother k hki] at hqk
    exact h.alone j k a hj hk hqj hqk

theorem Core.sender {s : Sys} (h : Core st s) (i : ℕ) (hi : i < st.cfg.senderCount)
    (r : Sender.Pc × Producer) (hm : Sender.Move st.cfg (s.senders i, s.prod) r) :
    Core st (s.setSender i r) := by
  generalize ha : (s.senders i, s.prod) = a at hm
  have hpc : s.senders i = a.1 := by rw [← ha]
  have hp : s.prod = a.2 := by rw [← ha]
  have hs := h.sound
  rw [hp] at hs
  cases hm with
  | idle pc pc' p p' haside hsame =>
    obtain ⟨_, _, _, _, rfl⟩ := haside
    exact h.sender_keep i _ _ (by rw [hsame.queue, hpc]) hs (fun a => by rw [hp])
  | keyed pc pc' p m hk hsame =>
    exact h.sender_keep i _ _ (by rw [hsame.queue, hpc]) hk.sound (fun a => by rw [hp]; exact hk.held a)
  | take p q t rest now m hfree hring he =>
    exact h.sender_take i hi _ _ q (by rw [hpc]; rfl) rfl (by rwa [hp]) he.sound
      (fun a => by rw [hp]; exact he.held a)
  | pop pc p t rest hpop hq =>
    refine h.sender_keep i _ _ ?_ hs (fun a => by rw [hp])
    rcases hpop with ⟨b, rfl⟩ | ⟨b, rfl⟩ <;> (rw [hpc]; rfl)
  | move p t =>
    refine h.sender_keep i _ _ ?_ hs (fun a => by rw [hp]; exact Iff.rfl)
    rw [hpc]
    split <;> rfl
  | put p t m he =>
    exact h.sender_keep i _ _ (by rw [hpc]; rfl) he.sound (fun a => by rw [hp]; exact he.held a)
  | count p t now => exact h.sender_keep i _ _ (by rw [hpc]; rfl) hs (fun a => by rw [hp])
  | drop p t => exact h.sender_keep i _ _ (by rw [hpc]; rfl) hs (fun a => by rw [hp]; exact Iff.rfl)
  | release pc pc' p t hsame =>
    exact h.sender_keep i _ _ (by rw [hsame.queue, hpc]) hs (fun a => by rw [hp]; exact Iff.rfl)
  | requeue p q t next m he =>
    exact h.sender_give i hi _ _ q (by rw [hpc]; rfl) rfl he.sound
      (fun a => by rw [hp]; exact he.held a)
  | attempt pc' p q s' hsame =>
    exact h.sender_keep i _ _ (by rw [hsame.queue, hpc]) hs (fun a => by rw [hp]; exact Iff.rfl)
  | report p q s' sent =>
    refine h.sender_keep i _ _ ?_ hs (fun a => by rw [hp]; exact Iff.rfl)
    rw [hpc]
    cases q <;> rfl
  | finish p q m gone he hg =>
    exact h.sender_give i hi _ _ q (by rw [hpc]; rfl) rfl he.sound
      (fun a => by rw [hp]; exact he.held a)
  | uncount p => exact h.sender_keep i _ _ (by rw [hpc]; rfl) hs (fun a => by rw [hp])
  | cleanup pc pc' p next m gone hsame he hg =>
    exact h.sender_keep i _ _ (by rw [hsame.queue, hpc]) he.sound (fun a => by rw [hp]; exact he.held a)
  | commit p => exact h.sender_keep i _ _ (by rw [hpc]; rfl) hs (fun a => by rw [hp])
  | exitFast p block hf => exact h.sender_keep i _ _ (by rw [hpc]; rfl) hs (fun a => by rw [hp])

theorem Core.writer {s : Sys} (h : Core st s) (i : ℕ) (r : Writer × Producer)
    (hf : Writer.Frame st.cfg s.prod r.2) : Core st (s.setWriter i r) :=
  h.keep rfl hf.sound hf.held

theorem Core.worker {s : Sys} (h : Core st s) (i : ℕ) (r : Worker × Producer)
    (hf : Worker.Frame st.cfg s.prod r.2) : Core st (s.setWorker i r) :=
  h.keep rfl hf.sound hf.held

theorem sender_move (s s' : Sys) (i : ℕ) (input : Sender.Input) (hgood : Good st s)
    (h : step st s (.sender i input) = some s') :
    i < st.cfg.senderCount ∧ ∃ r, Sender.step st.cfg input (s.senders i) s.prod = some r ∧
      Sender.Move st.cfg (s.senders i, s.prod) r ∧ s' = s.setSender i r := by
  simp only [step] at h
  split at h
  · rename_i hi
    obtain ⟨r, hr, rfl⟩ := Option.map_eq_some_iff.mp h
    exact ⟨hi, r, hr, Sender.step_move input _ r.1 _ r.2 hgood.sound
      (fun q hq => (hgood.held q).mpr ⟨i, hi, hq⟩) hr, rfl⟩
  · cases h

/-- An invariant is kept by a step when every move keeps it. The moves that
are a step of their own may use what is known before the step. -/
theorem step_rule (I : Sys → Prop) (s s' : Sys) (a : Act) (hgood : Good st s) (hi : I s)
    (hwriter : ∀ (t : Sys) (i : ℕ) (r : Writer × Producer), i < st.writerCount → Core st t → I t →
      Writer.Move st.cfg st.me (s.writers i).pc (t.writers i, t.prod) r →
      I (t.setWriter i r))
    (hloss : ∀ (i : ℕ) (r : Writer × Producer), i < st.writerCount →
      ((∃ c, a = .call i c) ∨ ∃ input, a = .writer i input) →
      Writer.Loss st.cfg st.me (s.writers i, s.prod) r → I (s.setWriter i r))
    (hworker : ∀ (t : Sys) (i : ℕ) (r : Worker × Producer), i < st.cfg.workerCount → Core st t →
      I t → Worker.Move st.cfg (t.workers i, t.prod) r → I (t.setWorker i r))
    (hpush : ∀ (i : ℕ) (r : Worker × Producer), i < st.cfg.workerCount →
      (∃ input, a = .worker i input) →
      Worker.Push (s.workers i, s.prod) r → I (s.setWorker i r))
    (hsender : ∀ (i : ℕ) (r : Sender.Pc × Producer), i < st.cfg.senderCount →
      (∃ input, a = .sender i input) →
      Sender.Move st.cfg (s.senders i, s.prod) r → I (s.setSender i r))
    (h : step st s a = some s') : I s' := by
  have chain : ∀ i r, i < st.writerCount →
      Writer.Moves st.cfg st.me (s.writers i).pc (s.writers i, s.prod) r →
      I (s.setWriter i r) := by
    intro i r hlt hm
    have hc := Threads.chain_invariant _
      (fun f p => Core st { s with prod := p, writers := f } ∧ I { s with prod := p, writers := f })
      i (fun f p r hI hr => ⟨hI.1.writer i r (hr.frame hI.1.sound), hwriter _ i r hlt hI.1 hI.2 hr⟩)
      s.writers s.prod r ⟨hgood.toCore, hi⟩ hm
    exact hc.2
  cases a with
  | call i c =>
    simp only [step] at h
    split at h
    · rename_i hlt
      obtain ⟨r, hr, rfl⟩ := Option.map_eq_some_iff.mp h
      rcases Writer.call_moves (s.writers i) r.1 s.prod r.2 c hlt.2 hr with hm | hl
      · exact chain i r hlt.1 hm
      · exact hloss i r hlt.1 (Or.inl ⟨c, rfl⟩) hl
    · simp at h
  | writer i input =>
    simp only [step] at h
    split at h
    · rename_i hlt
      obtain ⟨r, hr, rfl⟩ := Option.map_eq_some_iff.mp h
      rcases Writer.go_moves _ input (s.writers i) r.1 s.prod r.2 (hgood.writers i) hgood.sound hr
        with hm | hl
      · exact chain i r hlt hm
      · exact hloss i r hlt (Or.inr ⟨input, rfl⟩) hl
    · simp at h
  | worker i input =>
    simp only [step] at h
    split at h
    · rename_i hlt
      obtain ⟨r, hr, rfl⟩ := Option.map_eq_some_iff.mp h
      rcases Worker.step_moves input (s.workers i) r.1 s.prod r.2 (hgood.workers i) hgood.sound hr
        with hm | hp
      · have hc := Threads.chain_invariant _
          (fun f p => Core st { s with prod := p, workers := f } ∧
            I { s with prod := p, workers := f })
          i (fun f p r hI hr =>
            ⟨hI.1.worker i r (hr.frame hI.1.sound), hworker _ i r hlt hI.1 hI.2 hr⟩)
          s.workers s.prod r ⟨hgood.toCore, hi⟩ hm
        exact hc.2
      · exact hpush i r hlt ⟨input, rfl⟩ hp
    · simp at h
  | sender i input =>
    simp only [step] at h
    split at h
    · rename_i hlt
      obtain ⟨r, hr, rfl⟩ := Option.map_eq_some_iff.mp h
      apply hsender i r hlt ⟨input, rfl⟩
      exact Sender.step_move input (s.senders i) r.1 s.prod r.2 hgood.sound
        (fun q hq => (hgood.held q).mpr ⟨i, hlt, hq⟩) hr
    · simp at h

theorem core_step (s s' : Sys) (a : Act) (hgood : Good st s) (h : step st s a = some s') :
    Core st s' :=
  step_rule (Core st) s s' a hgood hgood.toCore
    (fun _ i r _ hc _ hm => hc.writer i r (hm.frame hc.sound))
    (fun i r _ _ hl => hgood.writer i r (hl.frame hgood.sound))
    (fun _ i r _ hc _ hm => hc.worker i r (hm.frame hc.sound))
    (fun i r _ _ hp => hgood.worker i r (hp.frame hgood.sound))
    (fun i r hi _ hm => hgood.sender i hi r hm) h

/-- What holds of every thread of a family is shown of the one that moved. -/
theorem forall_update {α : Type} (P : α → Prop) (f : ℕ → α) (i : ℕ) (a : α) (h : ∀ j, P (f j))
    (ha : P a) (j : ℕ) : P (Function.update f i a j) := by
  by_cases hj : j = i
  · rw [hj, Function.update_self]
    exact ha
  · rw [Function.update_of_ne hj]
    exact h j

theorem good_step (s s' : Sys) (a : Act) (hgood : Good st s) (h : step st s a = some s') :
    Good st s' := by
  refine ⟨core_step s s' a hgood h, ?_, ?_⟩
  · cases a with
    | call i c =>
      simp only [step] at h
      split at h
      · rename_i hlt
        obtain ⟨r, hr, rfl⟩ := Option.map_eq_some_iff.mp h
        exact forall_update _ s.writers i r.1 hgood.writers (Writer.call_ok _ _ c r hlt.2 hr)
      · simp at h
    | writer i input =>
      simp only [step] at h
      split at h
      · obtain ⟨r, hr, rfl⟩ := Option.map_eq_some_iff.mp h
        exact forall_update _ s.writers i r.1 hgood.writers
          (Writer.go_ok _ input _ _ r (hgood.writers i) hr)
      · simp at h
    | worker i input =>
      simp only [step] at h
      split at h
      · obtain ⟨r, hr, rfl⟩ := Option.map_eq_some_iff.mp h
        exact hgood.writers
      · simp at h
    | sender i input =>
      simp only [step] at h
      split at h
      · obtain ⟨r, hr, rfl⟩ := Option.map_eq_some_iff.mp h
        exact hgood.writers
      · simp at h
  · cases a with
    | call i c =>
      simp only [step] at h
      split at h
      · obtain ⟨r, hr, rfl⟩ := Option.map_eq_some_iff.mp h
        exact hgood.workers
      · simp at h
    | writer i input =>
      simp only [step] at h
      split at h
      · obtain ⟨r, hr, rfl⟩ := Option.map_eq_some_iff.mp h
        exact hgood.workers
      · simp at h
    | worker i input =>
      simp only [step] at h
      split at h
      · obtain ⟨r, hr, rfl⟩ := Option.map_eq_some_iff.mp h
        exact forall_update _ s.workers i r.1 hgood.workers
          (Worker.step_ok input _ r.1 _ r.2 (hgood.workers i) hr)
      · simp at h
    | sender i input =>
      simp only [step] at h
      split at h
      · obtain ⟨r, hr, rfl⟩ := Option.map_eq_some_iff.mp h
        exact hgood.workers
      · simp at h

theorem good_start (st : Setup) : Good st (start st) := by
  have hq : ∀ i, Sender.queue ((start st).senders i) = none := by
    intro i
    simp only [start, Sender.start]
    split <;> rfl
  refine ⟨⟨KeyMap.empty_sound _, ?_, ?_⟩, fun i => ⟨nofun, nofun⟩, fun i => rfl⟩
  · intro a
    constructor
    · intro ha
      simp [start, producerCreate, Held, KeyMap.empty, Keys.blank] at ha
    · rintro ⟨i, _, hi⟩
      simp [hq] at hi
  · intro i j q _ _ hi
    simp [hq] at hi

def asSender : Act → Option ℕ
  | .sender i _ => some i
  | _ => none

/-- The condition `C` holds before every step of the run. -/
def Along (st : Setup) (C : Sys → Act → Prop) : List Act → Sys → Prop
  | [], _ => True
  | a::acts, s => C s a ∧ (step st s a).elim True (Along st C acts)

instance decidableElim {α : Type} (P : α → Prop) [DecidablePred P] (o : Option α) :
    Decidable (o.elim True P) :=
  match o with
  | none => isTrue trivial
  | some a => inferInstanceAs (Decidable (P a))

instance decidableAlong (C : Sys → Act → Prop) [∀ s a, Decidable (C s a)] (acts : List Act)
    (s : Sys) : Decidable (Along st C acts s) :=
  match acts with
  | [] => isTrue trivial
  | a::acts =>
    haveI : DecidablePred (Along st C acts) := decidableAlong C acts
    inferInstanceAs (Decidable (C s a ∧ (step st s a).elim True (Along st C acts)))

theorem run_rule (I : Sys → Prop) (C : Sys → Act → Prop)
    (hstep : ∀ s a s', Good st s → I s → C s a → step st s a = some s' → I s')
    (acts : List Act) (s s' : Sys) (hgood : Good st s) (hi : I s) (hc : Along st C acts s)
    (h : run st acts s = some s') : Good st s' ∧ I s' := by
  induction acts generalizing s with
  | nil =>
    obtain rfl := Option.some.inj h
    exact ⟨hgood, hi⟩
  | cons a acts ih =>
    obtain ⟨s₁, h₁, h₂⟩ := Option.bind_eq_some_iff.mp h
    obtain ⟨ha, hrest⟩ := hc
    rw [h₁] at hrest
    exact ih s₁ (good_step s s₁ a hgood h₁) (hstep s a s₁ hgood hi ha h₁) hrest h₂

theorem along_forall {P : Act → Prop} (acts : List Act) (s : Sys) (h : ∀ a ∈ acts, P a) :
    Along st (fun _ a => P a) acts s := by
  induction acts generalizing s with
  | nil => trivial
  | cons a acts ih =>
    refine ⟨h a (by simp), ?_⟩
    cases step st s a with
    | none => trivial
    | some s' => exact ih s' fun b hb => h b (by simp [hb])

end Sys

end VeTls
