import VeTls.Env.Atomic

/-!
# Sends that meet an update

A sender tries four times to see a version and a snapshot that agree. The
updates count the version up before they swap the snapshot, so a sender whose
tries all fall into one update gives up, and its batch is lost. It succeeds
when its last try sees the producer between two updates.
-/

set_option autoImplicit false

namespace VeTls.Env

open VeTls.Keys (CStr)

section LastTry

variable {β : Type}

/-- The version is not loaded for the last time in an update that has already
written one of the line's values. -/
def Line.LoadMeets (l : Line β) (s : Shared) : Acquire → Prop
  | .load n _ => 3 ≤ n → l.Untouched s
  | _ => True

/-- An update does not swap the snapshot between the last load of a version
that it has changed and the load of the snapshot. -/
def Line.SwapMeets (l : Line β) (u : Update) : Acquire → Prop
  | .snapshot n _ _ => 3 ≤ n → u.writes.filter l.touched = []
  | _ => True

/-- In its last try a sender has a version that agrees with the snapshot. -/
def Line.Sure (l : Line β) (s : Shared) : Acquire → Prop
  | .snapshot n _ want => 3 ≤ n → l.stamp s.prod.runtimeSnapshot = want
  | _ => True

theorem acquire_not_failed (l : Line β) (s : Shared) (cache : Option (Cached β)) (a : Acquire)
    (h : l.Sure s a) : l.acquire s cache a ≠ .failed := by
  cases a with
  | check =>
    cases cache with
    | none => simp [Line.acquire]
    | some x =>
      simp only [Line.acquire]
      split <;> simp
  | load n start => simp [Line.acquire]
  | snapshot n start want =>
    simp only [Line.acquire]
    split
    · simp
    · rename_i hne
      split
      · simp
      · rename_i hn
        exact absurd (h (by omega)) hne

theorem acquire_sure (l : Line β) (s : Shared) (cache : Option (Cached β)) (a a' : Acquire)
    (hs : l.Stamped s) (hm : l.LoadMeets s a) (h : l.acquire s cache a = .going a') :
    l.Sure s a' := by
  cases a with
  | check =>
    cases cache with
    | none =>
      simp only [Line.acquire, Acquired.going.injEq] at h
      subst h
      trivial
    | some x =>
      simp only [Line.acquire] at h
      split at h
      · simp at h
      · simp only [Acquired.going.injEq] at h
        subst h
        trivial
  | load n start =>
    simp only [Line.acquire, Acquired.going.injEq] at h
    subst h
    exact fun hn => hs.current (hm hn)
  | snapshot n start want =>
    simp only [Line.acquire] at h
    split at h
    · simp at h
    · split at h
      · simp only [Acquired.going.injEq] at h
        subst h
        trivial
      · simp at h

/-- Only the swap of the snapshot moves its stamp. -/
theorem stamp_kept (l : Line β) (hl : l.Sound) {s s' : Shared} (hst : l.Stamped s)
    (hs : SharedStep s s')
    (hu : ∀ u, s.pending = some (u, []) → s'.pending = none → u.writes.filter l.touched = []) :
    l.stamp s'.prod.runtimeSnapshot = l.stamp s.prod.runtimeSnapshot := by
  cases hs with
  | refused | begin | close => rfl
  | write u w ws hp => rw [apply_runtimeSnapshot]
  | finish u hp =>
    have hempty := hu u hp rfl
    by_cases hw : u.writes = []
    · rw [publish_unwritten u s.prod hw]
    · rw [publish_written u s.prod hw, hl.stamped]
      symm
      apply hst.current
      intro v ws hv
      obtain ⟨rfl, rfl⟩ : u = v ∧ [] = ws := by simpa [hp] using hv
      rw [hempty]
      rfl

end LastTry

namespace Net

/-- The last version load of a send does not fall into an update that has
already changed that version, and no such update swaps the snapshot between
that load and the load of the snapshot. -/
def Meets (n : Net) : Act → Prop
  | .send i =>
    match (n.threads i).pc with
    | .cred a => staticCredLine.LoadMeets n.shared a
    | .cfg _ a => sendCfgLine.LoadMeets n.shared a
    | _ => True
  | .finish => ∀ u, n.shared.pending = some (u, []) → ∀ i,
    match (n.threads i).pc with
    | .cred a => staticCredLine.SwapMeets u a
    | .cfg _ a => sendCfgLine.SwapMeets u a
    | _ => True
  | _ => True

def AllMeet (n : Net) : List Act → Prop
  | [] => True
  | a::acts => n.Meets a ∧ ∀ n', step n a = some n' → AllMeet n' acts

theorem AllMeet.cons {n n' : Net} {a : Act} {acts : List Act} (hm : n.Meets a)
    (hs : step n a = some n') (h : n'.AllMeet acts) : n.AllMeet (a::acts) := by
  refine ⟨hm, ?_⟩
  intro m hm
  obtain rfl := Option.some.inj (hs.symm.trans hm)
  exact h

end Net

def Settings.hasKeys (c : Settings) : Prop :=
  c.accessKeyId.isSome = true ∧ c.accessKeySecret.isSome = true

theorem setAll_hasKeys (ws : List Write) (c : Settings) (h : c.hasKeys) :
    (setAll ws c).hasKeys := by
  induction ws generalizing c with
  | nil => exact h
  | cons w ws ih =>
    apply ih
    cases w with
    | endpoint s | region s | topicId s | token s => exact h
    | keys ak sk => exact ⟨rfl, rfl⟩

theorem inForce_hasKeys (calls : List Update) (c : Settings) (h : c.hasKeys) :
    (inForce c calls).hasKeys := by
  induction calls generalizing c with
  | nil => exact h
  | cons u calls ih => exact ih _ (setAll_hasKeys u.writes c h)

theorem newProducer_hasKeys (cfg : Settings) (v w : ℤ) (h : configIsValidForCreate cfg = true) :
    (newProducer cfg v w).cfg.hasKeys := by
  simp only [configIsValidForCreate, Bool.and_eq_true, Bool.not_eq_true'] at h
  obtain ⟨⟨_, hak⟩, hsk⟩ := h
  constructor
  · change cfg.accessKeyId.isSome = true
    cases hk : cfg.accessKeyId with
    | none => simp [hk, strEmpty] at hak
    | some s => rfl
  · change cfg.accessKeySecret.isSome = true
    cases hk : cfg.accessKeySecret with
    | none => simp [hk, strEmpty] at hsk
    | some s => rfl

def SureThread (s : Shared) (t : SendThread) : Prop :=
  match t.pc with
  | .idle => True
  | .cred a => staticCredLine.Sure s a
  | .cfg _ a => sendCfgLine.Sure s a
  | .failed _ => False

theorem getSigningCredentials_sure {c : Settings} {s : Shared} (hk : c.hasKeys)
    (hc : Consistent c s) (hst : staticCredLine.Stamped s) (t : SendThread) (a : Acquire)
    (hpc : t.pc = .cred a) (ht : ThreadFits c s t) (hs : staticCredLine.Sure s a)
    (hm : staticCredLine.LoadMeets s a) :
    SureThread s (SendThread.getSigningCredentials s a t) := by
  have ha : a.startedBy s.calls := by
    have := ht.pc
    rwa [hpc] at this
  unfold SendThread.getSigningCredentials
  split
  · rename_i a' hgo
    exact acquire_sure _ s _ a a' hst hm hgo
  · rename_i hfail
    exact absurd hfail (acquire_not_failed _ s _ a hs)
  · rename_i start x hready
    obtain ⟨⟨j, _, _, hx⟩, _⟩ := acquire_ready _ c s _ a hc hst ht.credCache ha start x hready
    have hkeys := inForce_hasKeys (s.calls.take j) c hk
    have hsome : x.value.1.isSome = true ∧ x.value.2.1.isSome = true := by
      rw [hx]
      exact hkeys
    rw [hsome.1, hsome.2]
    trivial

theorem sendPutLogs_sure {s : Shared} (hst : sendCfgLine.Stamped s) (t : SendThread) (start : ℕ)
    (a : Acquire) (hs : sendCfgLine.Sure s a) (hm : sendCfgLine.LoadMeets s a) :
    SureThread s (SendThread.sendPutLogs s start a t).1 := by
  unfold SendThread.sendPutLogs
  split
  · rename_i a' hgo
    exact acquire_sure _ s _ a a' hst hm hgo
  · rename_i hfail
    exact absurd hfail (acquire_not_failed _ s _ a hs)
  · trivial

structure Sure (c : Settings) (n : Net) : Prop where
  good : Good c n
  sure : ∀ i, SureThread n.shared (n.threads i)

theorem Sure.send {c : Settings} {n : Net} (hk : c.hasKeys) (h : Sure c n) (i : ℕ)
    (hm : n.Meets (.send i)) : Sure c (n.send i) := by
  refine ⟨h.good.send i, ?_⟩
  intro j
  simp only [Net.send]
  by_cases hj : j = i
  · subst hj
    rw [Function.update_self]
    have hs := h.sure j
    simp only [Net.Meets] at hm
    unfold SendThread.step
    split
    · trivial
    · rename_i a hpc
      simp only [SureThread, hpc] at hs hm
      exact getSigningCredentials_sure hk h.good.consistent h.good.credStamped _ a hpc
        (h.good.threads j) hs hm
    · rename_i start a hpc
      simp only [SureThread, hpc] at hs hm
      exact sendPutLogs_sure h.good.cfgStamped _ start a hs hm
    · rename_i e hpc
      simp [SureThread, hpc] at hs
  · rw [Function.update_of_ne hj]
    exact h.sure j

theorem sure_kept {β : Type} (l : Line β) (hl : l.Sound) {s s' : Shared} (hst : l.Stamped s)
    (hs : SharedStep s s') (a : Acquire) (h : l.Sure s a)
    (hu : ∀ u, s.pending = some (u, []) → s'.pending = none → l.SwapMeets u a) :
    l.Sure s' a := by
  cases a with
  | check | load n start => trivial
  | snapshot n start want =>
    intro hn
    rw [stamp_kept l hl hst hs (fun u hp hp' => hu u hp hp' hn)]
    exact h hn

/-- An update that keeps the mutex, or ends as it may, leaves every sender
sure of its last try. -/
theorem Sure.update {c : Settings} {n : Net} (h : Sure c n) (s : Shared)
    (hs : SharedStep n.shared s)
    (hm : ∀ u, n.shared.pending = some (u, []) → s.pending = none → n.Meets .finish) :
    Sure c (n.setShared s) := by
  refine ⟨h.good.update s hs, ?_⟩
  intro i
  have hi := h.sure i
  change SureThread s (n.threads i)
  simp only [SureThread] at hi ⊢
  cases hpc : (n.threads i).pc with
  | idle => trivial
  | cred a =>
    rw [hpc] at hi
    apply sure_kept _ staticCredLine_sound h.good.credStamped hs a hi
    intro u hu hs'
    have hfin := hm u hu hs' u hu i
    rwa [hpc] at hfin
  | cfg start a =>
    rw [hpc] at hi
    apply sure_kept _ sendCfgLine_sound h.good.cfgStamped hs a hi
    intro u hu hs'
    have hfin := hm u hu hs' u hu i
    rwa [hpc] at hfin
  | failed e => simp [hpc] at hi

theorem Sure.step {c : Settings} {n n' : Net} (hk : c.hasKeys) (h : Sure c n) (a : Net.Act)
    (hm : n.Meets a) (hs : Net.step n a = some n') : Sure c n' := by
  cases a with
  | begin u =>
    obtain ⟨s, hb, rfl⟩ := Option.map_eq_some_iff.mp hs
    apply h.update s (begin_step u _ s hb)
    intro v hv hs'
    -- an update that finds the mutex taken waits
    simp only [Net.begin, hv, Option.isSome_some, if_true] at hb
    split at hb
    · obtain rfl := Option.some.inj hb
      simp [hv] at hs'
    · simp at hb
  | write =>
    obtain ⟨s, hw, rfl⟩ := Option.map_eq_some_iff.mp hs
    apply h.update s (write_step _ s hw)
    intro v hv hs'
    simp [Net.write, hv] at hw
  | finish =>
    obtain ⟨s, hf, rfl⟩ := Option.map_eq_some_iff.mp hs
    exact h.update s (finish_step _ s hf) (fun _ _ _ => hm)
  | close =>
    obtain ⟨s, hc, rfl⟩ := Option.map_eq_some_iff.mp hs
    apply h.update s (close_step _ s hc)
    intro v hv hs'
    simp [Net.close, hv] at hc
  | send i =>
    obtain rfl := Option.some.inj hs
    exact h.send hk i hm

theorem Sure.run {c : Settings} {n n' : Net} (hk : c.hasKeys) (h : Sure c n)
    (acts : List Net.Act) (hm : n.AllMeet acts) (hr : Net.run acts n = some n') : Sure c n' := by
  induction acts generalizing n with
  | nil =>
    obtain rfl := Option.some.inj hr
    exact h
  | cons a acts ih =>
    obtain ⟨m, hstep, hr⟩ := Option.bind_eq_some_iff.mp hr
    exact ih (h.step hk a hm.1 hstep) (hm.2 m hstep) hr

/-- The update writes once, and then all four tries of a sender come before
its swap. -/
def crowded : List Net.Act :=
  [.begin (.endpoint none (some [99]) none), .write]++List.replicate 13 (.send 0)

end VeTls.Env
