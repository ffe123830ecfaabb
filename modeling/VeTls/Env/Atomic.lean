import VeTls.Env.Updates

/-!
# Updates are atomic for requests

The snapshot always holds what the calls that returned have left, and it is
stamped with the versions these values had. A cache is no newer than the
snapshot, and the snapshot no newer than the producer; so a cache that agrees
with the producer's version agrees with the snapshot, and what a sender uses
is what some number of whole calls have made.
-/

set_option autoImplicit false

namespace VeTls.Env

open VeTls.Keys (CStr)

theorem snapshotOf_allCopies (p : Producer) : (snapshotOf allCopies p).cfg = p.cfg :=
  snapshotOf_cfg allCopies p ⟨rfl, rfl, rfl⟩

theorem setAll_cons (w : Write) (ws : List Write) (c : Settings) :
    setAll (w::ws) c = setAll ws (w.set c) := rfl

/-- What is needed of a version: it counts the writes of its own values and
nothing else, and a snapshot is stamped with it. -/
structure Line.Sound {β : Type} (l : Line β) : Prop where
  counted : ∀ w p, l.touched w = true → l.version p < l.version (w.apply p)
  version_kept : ∀ w p, l.touched w = false → l.version (w.apply p) = l.version p
  value_kept : ∀ w c, l.touched w = false → l.value (w.set c) = l.value c
  stamped : ∀ p, l.stamp (snapshotOf allCopies p) = l.version p
  swapped : ∀ (p : Producer) s, l.version { p with runtimeSnapshot := s } = l.version p
  closed : ∀ (p : Producer) b, l.version { p with accepting := b } = l.version p

theorem sendCfgLine_sound : sendCfgLine.Sound where
  counted w p h := by
    cases w with
    | endpoint s | region s | topicId s => exact Int.lt_succ p.sendCfgVersion
    | keys ak sk | token s => simp [sendCfgLine, Write.isCredential] at h
  version_kept w p h := by
    cases w with
    | endpoint s | region s | topicId s => simp [sendCfgLine, Write.isCredential] at h
    | keys ak sk | token s => rfl
  value_kept w c h := by
    cases w with
    | endpoint s | region s | topicId s => simp [sendCfgLine, Write.isCredential] at h
    | keys ak sk | token s => rfl
  stamped _ := rfl
  swapped _ _ := rfl
  closed _ _ := rfl

theorem staticCredLine_sound : staticCredLine.Sound where
  counted w p h := by
    cases w with
    | endpoint s | region s | topicId s => simp [staticCredLine, Write.isCredential] at h
    | keys ak sk | token s => exact Int.lt_succ p.staticCredVersion
  version_kept w p h := by
    cases w with
    | endpoint s | region s | topicId s => rfl
    | keys ak sk | token s => simp [staticCredLine, Write.isCredential] at h
  value_kept w c h := by
    cases w with
    | endpoint s | region s | topicId s => rfl
    | keys ak sk | token s => simp [staticCredLine, Write.isCredential] at h
  stamped _ := rfl
  swapped _ _ := rfl
  closed _ _ := rfl

/-- The snapshot is what the calls have left, and the update that has the
mutex will leave what it should. -/
structure Consistent (c : Settings) (s : Shared) : Prop where
  snapshot : s.prod.runtimeSnapshot.cfg = inForce c s.calls
  idle : s.pending = none → s.prod.cfg = inForce c s.calls
  writing : ∀ u ws, s.pending = some (u, ws) →
    ws <:+ u.writes ∧ setAll ws s.prod.cfg = setAll u.writes (inForce c s.calls)

/-- The update that has the mutex has written nothing of the line yet. -/
def Line.Untouched {β : Type} (l : Line β) (s : Shared) : Prop :=
  ∀ u ws, s.pending = some (u, ws) → ws.filter l.touched = u.writes.filter l.touched

structure Line.Stamped {β : Type} (l : Line β) (s : Shared) : Prop where
  behind : Follows (l.stamp s.prod.runtimeSnapshot) (l.value s.prod.runtimeSnapshot.cfg)
    (l.version s.prod) (l.value s.prod.cfg)
  current : l.Untouched s → l.stamp s.prod.runtimeSnapshot = l.version s.prod

theorem apply_runtimeSnapshot (w : Write) (p : Producer) :
    (w.apply p).runtimeSnapshot = p.runtimeSnapshot := by
  cases w <;> rfl

theorem publish_written (u : Update) (p : Producer) (h : u.writes ≠ []) :
    (publish (!u.writes.isEmpty) allCopies p).2 =
      { p with runtimeSnapshot := snapshotOf allCopies p } := by
  cases hw : u.writes with
  | nil => exact absurd hw h
  | cons w ws => rfl

theorem publish_unwritten (u : Update) (p : Producer) (h : u.writes = []) :
    (publish (!u.writes.isEmpty) allCopies p).2 = p := by
  rw [h]
  rfl

/-- One step of the updates: what each of them can do. -/
inductive SharedStep (s : Shared) : Shared → Prop
  | refused : SharedStep s s
  | begin (u : Update) (h : s.pending = none) :
    SharedStep s { s with pending := some (u, u.writes) }
  | write (u : Update) (w : Write) (ws : List Write) (h : s.pending = some (u, w::ws)) :
    SharedStep s { s with prod := w.apply s.prod, pending := some (u, ws) }
  | finish (u : Update) (h : s.pending = some (u, [])) :
    SharedStep s { prod := (publish (!u.writes.isEmpty) allCopies s.prod).2, pending := none,
                   calls := s.calls++[u] }
  | close (h : s.pending = none) :
    SharedStep s { s with prod := { s.prod with accepting := false } }

theorem begin_step (u : Update) (s s' : Shared) (h : Net.begin u s = some s') :
    SharedStep s s' := by
  unfold Net.begin at h
  split at h
  · obtain rfl := Option.some.inj h
    exact .refused
  · split at h
    · simp at h
    · rename_i hp
      split at h
      · obtain rfl := Option.some.inj h
        exact .refused
      · obtain rfl := Option.some.inj h
        exact .begin u (by simpa using hp)

theorem write_step (s s' : Shared) (h : Net.write s = some s') : SharedStep s s' := by
  unfold Net.write at h
  split at h
  · rename_i u w ws hp
    obtain rfl := Option.some.inj h
    exact .write u w ws hp
  · simp at h

theorem finish_step (s s' : Shared) (h : Net.finish s = some s') : SharedStep s s' := by
  unfold Net.finish at h
  split at h
  · rename_i u hp
    obtain rfl := Option.some.inj h
    exact .finish u hp
  · simp at h

theorem close_step (s s' : Shared) (h : Net.close s = some s') : SharedStep s s' := by
  unfold Net.close at h
  split at h
  · simp at h
  · rename_i hp
    obtain rfl := Option.some.inj h
    exact .close (by simpa using hp)

theorem Consistent.step {c : Settings} {s s' : Shared} (h : Consistent c s)
    (hs : SharedStep s s') : Consistent c s' := by
  cases hs with
  | refused => exact h
  | begin u hp =>
    refine ⟨h.snapshot, by simp, ?_⟩
    rintro v ws hv
    obtain ⟨rfl, rfl⟩ : u = v ∧ u.writes = ws := by simpa using hv
    exact ⟨List.suffix_refl _, by rw [h.idle hp]⟩
  | write u w ws hp =>
    obtain ⟨hsuf, hset⟩ := h.writing u _ hp
    refine ⟨?_, by simp, ?_⟩
    · rw [apply_runtimeSnapshot]
      exact h.snapshot
    · rintro v ws' hv
      obtain ⟨rfl, rfl⟩ : u = v ∧ ws = ws' := by simpa using hv
      refine ⟨(List.suffix_cons w ws).trans hsuf, ?_⟩
      rw [apply_cfg, ← hset, setAll_cons]
  | finish u hp =>
    have hset := (h.writing u [] hp).2
    have hcfg : s.prod.cfg = inForce c (s.calls++[u]) := by
      rw [inForce_append, ← hset]
      rfl
    by_cases hw : u.writes = []
    · refine ⟨?_, ?_, by simp⟩
      · rw [publish_unwritten u s.prod hw, h.snapshot, inForce_append, hw]
        rfl
      · intro _
        rw [publish_unwritten u s.prod hw]
        exact hcfg
    · refine ⟨?_, ?_, by simp⟩
      · rw [publish_written u s.prod hw]
        exact (snapshotOf_allCopies s.prod).trans hcfg
      · intro _
        rw [publish_written u s.prod hw]
        exact hcfg
  | close hp => exact ⟨h.snapshot, fun _ => h.idle hp, fun u ws hv => h.writing u ws hv⟩

section Lines

variable {β : Type} {l : Line β} (hl : l.Sound)

include hl

/-- A write moves the version if it is one of the line's, and else neither
the version nor the value. -/
theorem Line.Sound.moved (w : Write) (p : Producer) : l.version p < l.version (w.apply p) ∨
    (l.version (w.apply p) = l.version p ∧ l.value (w.apply p).cfg = l.value p.cfg) := by
  cases hw : l.touched w with
  | true => exact Or.inl (hl.counted w p hw)
  | false =>
    rw [apply_cfg]
    exact Or.inr ⟨hl.version_kept w p hw, hl.value_kept w p.cfg hw⟩

theorem Line.Sound.stamped_of_publish (s : Shared) (u : Update) (calls : List Update)
    (h : l.Stamped s) (hp : s.pending = some (u, [])) :
    l.Stamped ⟨(publish (!u.writes.isEmpty) allCopies s.prod).2, none, calls⟩ := by
  by_cases hw : u.writes = []
  · rw [publish_unwritten u s.prod hw]
    refine ⟨h.behind, fun _ => h.current ?_⟩
    intro v ws hv
    obtain ⟨rfl, rfl⟩ : u = v ∧ [] = ws := by simpa [hp] using hv
    rw [hw]
  · rw [publish_written u s.prod hw]
    have hstamp : l.stamp (snapshotOf allCopies s.prod) =
        l.version { s.prod with runtimeSnapshot := snapshotOf allCopies s.prod } :=
      (hl.stamped s.prod).trans (hl.swapped s.prod _).symm
    refine ⟨?_, fun _ => hstamp⟩
    change Follows (l.stamp (snapshotOf allCopies s.prod))
      (l.value (snapshotOf allCopies s.prod).cfg) _ (l.value s.prod.cfg)
    rw [hstamp, snapshotOf_allCopies]
    exact Follows.refl _ _

theorem Line.Stamped.step {c : Settings} {s s' : Shared} (h : l.Stamped s)
    (hc : Consistent c s) (hs : SharedStep s s') : l.Stamped s' := by
  cases hs with
  | refused => exact h
  | begin u hp => exact ⟨h.behind, fun _ => h.current (by simp [Line.Untouched, hp])⟩
  | write u w ws hp =>
    obtain ⟨pre, hpre⟩ := (hc.writing u _ hp).1
    refine ⟨?_, ?_⟩
    · rw [apply_runtimeSnapshot]
      exact h.behind.bump (hl.moved w s.prod)
    · intro hun
      have heq : ws.filter l.touched = u.writes.filter l.touched := hun u ws rfl
      have hlen := congrArg List.length heq
      rw [← hpre, List.filter_append, List.length_append, List.filter_cons] at hlen
      have hw : l.touched w = false := by
        by_contra hw
        simp only [Bool.not_eq_false] at hw
        rw [if_pos hw, List.length_cons] at hlen
        omega
      rw [apply_runtimeSnapshot, hl.version_kept w s.prod hw]
      apply h.current
      intro v ws' hv
      obtain ⟨rfl, rfl⟩ : u = v ∧ w::ws = ws' := by simpa [hp] using hv
      rw [← heq, List.filter_cons, hw]
      rfl
  | finish u hp => exact hl.stamped_of_publish s u _ h hp
  | close hp =>
    refine ⟨?_, ?_⟩
    · rw [hl.closed]
      exact h.behind
    · intro _
      rw [hl.closed]
      exact h.current (by simp [Line.Untouched, hp])

/-- The stamp of the snapshot only moves on, and with it what is stamped. -/
theorem Line.Stamped.stamp_moved {s s' : Shared} (h : l.Stamped s) (hs : SharedStep s s') :
    l.stamp s.prod.runtimeSnapshot < l.stamp s'.prod.runtimeSnapshot ∨
      (l.stamp s'.prod.runtimeSnapshot = l.stamp s.prod.runtimeSnapshot ∧
        l.value s'.prod.runtimeSnapshot.cfg = l.value s.prod.runtimeSnapshot.cfg) := by
  cases hs with
  | refused | begin | close => exact Or.inr ⟨rfl, rfl⟩
  | write u w ws hp =>
    rw [apply_runtimeSnapshot]
    exact Or.inr ⟨rfl, rfl⟩
  | finish u hp =>
    by_cases hw : u.writes = []
    · rw [publish_unwritten u s.prod hw]
      exact Or.inr ⟨rfl, rfl⟩
    · rw [publish_written u s.prod hw, hl.stamped, snapshotOf_allCopies]
      rcases h.behind.1.lt_or_eq with hlt | heq
      · exact Or.inl hlt
      · exact Or.inr ⟨heq.symm, (h.behind.2 heq).symm⟩

end Lines

/-- What some number of whole calls have left, not fewer than `start`. -/
def Uses {β : Type} (l : Line β) (c : Settings) (calls : List Update) (start : ℕ) (x : β) : Prop :=
  ∃ j, start ≤ j ∧ j ≤ calls.length ∧ x = l.value (inForce c (calls.take j))

theorem Uses.append {β : Type} {l : Line β} {c : Settings} {calls : List Update} {start : ℕ}
    {x : β} (h : Uses l c calls start x) (more : List Update) :
    Uses l c (calls++more) start x := by
  obtain ⟨j, hstart, hj, hx⟩ := h
  refine ⟨j, hstart, ?_, ?_⟩
  · rw [List.length_append]
    omega
  · rw [List.take_append_of_le_length hj]
    exact hx

theorem Uses.now {β : Type} (l : Line β) (c : Settings) (calls : List Update) (start : ℕ)
    (h : start ≤ calls.length) : Uses l c calls start (l.value (inForce c calls)) :=
  ⟨calls.length, h, le_refl _, by rw [List.take_length]⟩

/-- A cache is no newer than the snapshot. -/
def CacheFits {β : Type} (l : Line β) (s : Shared) (cache : Option (Cached β)) : Prop :=
  ∀ x, cache = some x → Follows x.version x.value (l.stamp s.prod.runtimeSnapshot)
    (l.value s.prod.runtimeSnapshot.cfg)

def Acquire.startedBy (calls : List Update) : Acquire → Prop
  | .check => True
  | .load _ start => start ≤ calls.length
  | .snapshot _ start _ => start ≤ calls.length

/-- What a sender gets from a cache or a snapshot is what whole calls have
left, and it may stay in the cache. -/
theorem acquire_ready {β : Type} (l : Line β) (c : Settings) (s : Shared)
    (cache : Option (Cached β)) (a : Acquire) (hc : Consistent c s) (hs : l.Stamped s)
    (hcache : CacheFits l s cache) (ha : a.startedBy s.calls) (start : ℕ) (x : Cached β)
    (h : l.acquire s cache a = .ready start x) :
    Uses l c s.calls start x.value ∧ CacheFits l s (some x) := by
  cases a with
  | check =>
    cases cache with
    | none => simp [Line.acquire] at h
    | some y =>
      simp only [Line.acquire] at h
      split at h
      · rename_i hv
        simp only [Acquired.ready.injEq] at h
        obtain ⟨rfl, rfl⟩ := h
        have hfits := hcache y rfl
        -- the cache cannot be newer than the snapshot, so all three versions agree
        have heq : y.version = l.stamp s.prod.runtimeSnapshot := by
          have h1 := hfits.1
          have h2 := hs.behind.1
          omega
        refine ⟨?_, hcache⟩
        rw [hfits.2 heq, hc.snapshot]
        exact Uses.now l c s.calls _ (le_refl _)
      · simp at h
  | load n st => simp [Line.acquire] at h
  | snapshot n st want =>
    simp only [Line.acquire] at h
    split at h
    · rename_i hv
      simp only [Acquired.ready.injEq] at h
      obtain ⟨rfl, rfl⟩ := h
      refine ⟨?_, ?_⟩
      · rw [hc.snapshot]
        exact Uses.now l c s.calls st ha
      · intro y hy
        obtain rfl := Option.some.inj hy
        rw [← hv]
        exact Follows.refl _ _
    · split at h <;> simp at h

theorem acquire_going {β : Type} (l : Line β) (s : Shared) (cache : Option (Cached β))
    (a a' : Acquire) (ha : a.startedBy s.calls) (h : l.acquire s cache a = .going a') :
    a'.startedBy s.calls := by
  cases a with
  | check =>
    cases cache with
    | none =>
      simp only [Line.acquire, Acquired.going.injEq] at h
      subst h
      exact le_refl _
    | some y =>
      simp only [Line.acquire] at h
      split at h
      · simp at h
      · simp only [Acquired.going.injEq] at h
        subst h
        exact le_refl _
  | load n st =>
    simp only [Line.acquire, Acquired.going.injEq] at h
    subst h
    exact ha
  | snapshot n st want =>
    simp only [Line.acquire] at h
    split at h
    · simp at h
    · split at h
      · simp only [Acquired.going.injEq] at h
        subst h
        exact ha
      · simp at h

theorem CacheFits.step {β : Type} {l : Line β} (hl : l.Sound) {s s' : Shared}
    {cache : Option (Cached β)} (h : CacheFits l s cache) (hst : l.Stamped s)
    (hs : SharedStep s s') : CacheFits l s' cache := by
  intro x hx
  exact (h x hx).bump (hst.stamp_moved hl hs)

theorem SharedStep.calls_grow {s s' : Shared} (hs : SharedStep s s') :
    ∃ more, s'.calls = s.calls++more := by
  cases hs with
  | refused | begin | write | close => exact ⟨[], (List.append_nil _).symm⟩
  | finish u hp => exact ⟨[u], rfl⟩

theorem Acquire.startedBy.append {calls : List Update} {a : Acquire} (h : a.startedBy calls)
    (more : List Update) : a.startedBy (calls++more) := by
  cases a with
  | check => trivial
  | load n start | snapshot n start want =>
    simp only [Acquire.startedBy, List.length_append] at h ⊢
    omega

/-- Once a sender has its credentials, they are what whole calls have left. -/
def PcFits (c : Settings) (calls : List Update)
    (cred : Option (Cached (Option CStr × Option CStr × Option CStr))) : SendThread.Pc → Prop
  | .cred a => a.startedBy calls
  | .cfg start a => a.startedBy calls ∧ ∃ x, cred = some x ∧
      Uses staticCredLine c calls start x.value
  | _ => True

structure ThreadFits (c : Settings) (s : Shared) (t : SendThread) : Prop where
  cfgCache : CacheFits sendCfgLine s t.cfgCache
  credCache : CacheFits staticCredLine s t.credCache
  pc : PcFits c s.calls t.credCache t.pc

def Request.Atomic (c : Settings) (calls : List Update) (r : Request) : Prop :=
  Uses sendCfgLine c calls r.cfgStart r.cfg ∧ Uses staticCredLine c calls r.credStart r.cred

structure Good (c : Settings) (n : Net) : Prop where
  consistent : Consistent c n.shared
  cfgStamped : sendCfgLine.Stamped n.shared
  credStamped : staticCredLine.Stamped n.shared
  threads : ∀ i, ThreadFits c n.shared (n.threads i)
  requests : ∀ r ∈ n.requests, r.Atomic c n.shared.calls

theorem start_good (cfg : Settings) (v w : ℤ) :
    Good (newProducer cfg v w).cfg (Net.start cfg v w) where
  consistent := by
    refine ⟨snapshotOf_allCopies _, fun _ => rfl, ?_⟩
    intro u ws h
    simp [Net.start] at h
  cfgStamped := ⟨by
    change Follows v _ v (newProducer cfg v w).cfg.sendCfg
    exact Follows.refl _ _, fun _ => rfl⟩
  credStamped := ⟨by
    change Follows w (snapshotOf allCopies (newProducer cfg v w)).cfg.cred w
      (newProducer cfg v w).cfg.cred
    rw [snapshotOf_allCopies]
    exact Follows.refl _ _, fun _ => rfl⟩
  threads _ := ⟨fun _ h => by simp [Net.start, SendThread.start] at h,
    fun _ h => by simp [Net.start, SendThread.start] at h, trivial⟩
  requests _ h := by simp [Net.start] at h

theorem PcFits.append {c : Settings} {calls : List Update}
    {cred : Option (Cached (Option CStr × Option CStr × Option CStr))} {pc : SendThread.Pc}
    (h : PcFits c calls cred pc) (more : List Update) : PcFits c (calls++more) cred pc := by
  cases pc with
  | idle | failed e => trivial
  | cred a => exact Acquire.startedBy.append h more
  | cfg start a =>
    obtain ⟨ha, x, hx, huses⟩ := h
    exact ⟨ha.append more, x, hx, huses.append more⟩

theorem Good.update {c : Settings} {n : Net} (h : Good c n) (s : Shared)
    (hs : SharedStep n.shared s) : Good c (n.setShared s) := by
  obtain ⟨more, hmore⟩ := hs.calls_grow
  refine ⟨h.consistent.step hs, h.cfgStamped.step sendCfgLine_sound h.consistent hs,
    h.credStamped.step staticCredLine_sound h.consistent hs, ?_, ?_⟩
  · intro i
    refine ⟨(h.threads i).cfgCache.step sendCfgLine_sound h.cfgStamped hs,
      (h.threads i).credCache.step staticCredLine_sound h.credStamped hs, ?_⟩
    change PcFits c s.calls _ _
    rw [hmore]
    exact (h.threads i).pc.append more
  · intro r hr
    change r.Atomic c s.calls
    rw [hmore]
    exact ⟨(h.requests r hr).1.append more, (h.requests r hr).2.append more⟩

section Sends

variable {c : Settings} {s : Shared} (hc : Consistent c s) (hcfg : sendCfgLine.Stamped s)
  (hcred : staticCredLine.Stamped s)

include hc hcred

theorem getSigningCredentials_fits (t : SendThread) (a : Acquire) (h : ThreadFits c s t)
    (hpc : t.pc = .cred a) : ThreadFits c s (SendThread.getSigningCredentials s a t) := by
  have ha : a.startedBy s.calls := by
    have := h.pc
    rwa [hpc] at this
  unfold SendThread.getSigningCredentials
  split
  · rename_i a' hgo
    exact ⟨h.cfgCache, h.credCache, acquire_going _ s _ a a' ha hgo⟩
  · exact ⟨h.cfgCache, h.credCache, trivial⟩
  · rename_i start x hready
    obtain ⟨huses, hfits⟩ := acquire_ready _ c s _ a hc hcred h.credCache ha start x hready
    split
    · exact ⟨h.cfgCache, hfits, trivial, x, rfl, huses⟩
    · exact ⟨h.cfgCache, h.credCache, trivial⟩

omit hcred
include hcfg

theorem sendPutLogs_fits (t : SendThread) (credStart : ℕ) (a : Acquire) (h : ThreadFits c s t)
    (hpc : t.pc = .cfg credStart a) : ThreadFits c s (SendThread.sendPutLogs s credStart a t).1 ∧
    ∀ r ∈ (SendThread.sendPutLogs s credStart a t).2, r.Atomic c s.calls := by
  obtain ⟨ha, y, hy, hcredUses⟩ : a.startedBy s.calls ∧ ∃ x, t.credCache = some x ∧
      Uses staticCredLine c s.calls credStart x.value := by
    have := h.pc
    rwa [hpc] at this
  unfold SendThread.sendPutLogs
  split
  · rename_i a' hgo
    exact ⟨⟨h.cfgCache, h.credCache, acquire_going _ s _ a a' ha hgo, y, hy, hcredUses⟩, by simp⟩
  · exact ⟨⟨h.cfgCache, h.credCache, trivial⟩, by simp⟩
  · rename_i start x hready
    obtain ⟨huses, hfits⟩ := acquire_ready _ c s _ a hc hcfg h.cfgCache ha start x hready
    refine ⟨⟨hfits, h.credCache, trivial⟩, ?_⟩
    intro r hr
    simp only [hy, Option.map_some, Option.mem_some_iff] at hr
    subst hr
    exact ⟨huses, hcredUses⟩

include hcred

theorem send_fits (t : SendThread) (h : ThreadFits c s t) :
    ThreadFits c s (t.step s).1 ∧ ∀ r ∈ (t.step s).2, r.Atomic c s.calls := by
  unfold SendThread.step
  split
  · exact ⟨⟨h.cfgCache, h.credCache, trivial⟩, by simp⟩
  · rename_i a hpc
    exact ⟨getSigningCredentials_fits hc hcred t a h hpc, by simp⟩
  · rename_i start a hpc
    exact sendPutLogs_fits hc hcfg t start a h hpc
  · exact ⟨⟨h.cfgCache, h.credCache, trivial⟩, by simp⟩

end Sends

theorem Good.send {c : Settings} {n : Net} (h : Good c n) (i : ℕ) : Good c (n.send i) := by
  obtain ⟨hthread, hreq⟩ := send_fits h.consistent h.cfgStamped h.credStamped _ (h.threads i)
  refine ⟨h.consistent, h.cfgStamped, h.credStamped, ?_, ?_⟩
  · intro j
    simp only [Net.send]
    by_cases hj : j = i
    · subst hj
      rw [Function.update_self]
      exact hthread
    · rw [Function.update_of_ne hj]
      exact h.threads j
  · intro r hr
    simp only [Net.send, List.mem_append, Option.mem_toList] at hr
    rcases hr with hr | hr
    · exact h.requests r hr
    · exact hreq r hr

theorem step_shared_or_send (n n' : Net) (a : Net.Act) (h : Net.step n a = some n') :
    (∃ s, SharedStep n.shared s ∧ n' = n.setShared s) ∨ ∃ i, a = .send i ∧ n' = n.send i := by
  cases a with
  | begin u =>
    obtain ⟨s, hs, rfl⟩ := Option.map_eq_some_iff.mp h
    exact Or.inl ⟨s, begin_step u _ s hs, rfl⟩
  | write =>
    obtain ⟨s, hs, rfl⟩ := Option.map_eq_some_iff.mp h
    exact Or.inl ⟨s, write_step _ s hs, rfl⟩
  | finish =>
    obtain ⟨s, hs, rfl⟩ := Option.map_eq_some_iff.mp h
    exact Or.inl ⟨s, finish_step _ s hs, rfl⟩
  | close =>
    obtain ⟨s, hs, rfl⟩ := Option.map_eq_some_iff.mp h
    exact Or.inl ⟨s, close_step _ s hs, rfl⟩
  | send i => exact Or.inr ⟨i, rfl, (Option.some.inj h).symm⟩

theorem Good.step {c : Settings} {n n' : Net} (h : Good c n) (a : Net.Act)
    (hs : Net.step n a = some n') : Good c n' := by
  rcases step_shared_or_send n n' a hs with ⟨s, hshared, rfl⟩ | ⟨i, _, rfl⟩
  · exact h.update s hshared
  · exact h.send i

theorem Good.run {c : Settings} {n n' : Net} (h : Good c n) (acts : List Net.Act)
    (hr : Net.run acts n = some n') : Good c n' := by
  induction acts generalizing n with
  | nil =>
    obtain rfl := Option.some.inj hr
    exact h
  | cons a acts ih =>
    obtain ⟨m, hm, hr⟩ := Option.bind_eq_some_iff.mp hr
    exact ih (h.step a hm) hr

/-- In every run of updates and senders, both triples of every request are
what the first `j` calls have left, for some `j` not smaller than the number
of calls that had returned when the sender looked at its cache. -/
theorem run_requests_atomic (cfg : Settings) (v w : ℤ) (acts : List Net.Act) (n : Net)
    (h : Net.run acts (Net.start cfg v w) = some n) (r : Request) (hr : r ∈ n.requests) :
    (∃ j, r.cfgStart ≤ j ∧ j ≤ n.shared.calls.length ∧
      r.cfg = (inForce (newProducer cfg v w).cfg (n.shared.calls.take j)).sendCfg) ∧
    ∃ j, r.credStart ≤ j ∧ j ≤ n.shared.calls.length ∧
      r.cred = (inForce (newProducer cfg v w).cfg (n.shared.calls.take j)).cred :=
  ((start_good cfg v w).run acts h).requests r hr

/-- A sender meets an update between its write and its snapshot, and tries
again. -/
def overtaken : List Net.Act :=
  [.begin (.endpoint none (some [99]) none), .send 0, .send 0, .send 0, .write, .send 0, .send 0,
    .send 0, .send 0, .finish, .send 0, .send 0]

theorem overtaken_atomic :
    ∃ n r, Net.run overtaken (Net.start (tenant 97) 1 1) = some n ∧ n.requests = [r] ∧
      r.cfg.2.1 = [99] ∧ r.cfgStart = 0 ∧
      (∃ j, r.cfgStart ≤ j ∧ j ≤ n.shared.calls.length ∧
        r.cfg = (inForce (newProducer (tenant 97) 1 1).cfg (n.shared.calls.take j)).sendCfg) ∧
      ∃ j, r.credStart ≤ j ∧ j ≤ n.shared.calls.length ∧
        r.cred = (inForce (newProducer (tenant 97) 1 1).cfg (n.shared.calls.take j)).cred := by
  have hn : Net.run overtaken (Net.start (tenant 97) 1 1) =
      some ((Net.run overtaken (Net.start (tenant 97) 1 1)).get (by decide)) := by simp
  refine ⟨_, ⟨(tenant 97).cred, 0, ((tenant 97).endpoint, [99], (tenant 97).topicId), 0⟩, hn,
    by decide, rfl, rfl, ?_⟩
  exact run_requests_atomic (tenant 97) 1 1 overtaken _ hn _ (by decide)

end VeTls.Env
