import VeTls.Env.Cache

/-!
# Isolation of the producers in the shared environment

A cache is no newer than the live producer at its address, and in the same
version it holds the same settings. Updates keep this because they count the
version up; only the creation of a producer at an address that a cache still
names can break it, since the seed does not follow the updates.
-/

set_option autoImplicit false

namespace VeTls.Env

open VeTls.Keys (Addr CStr)

def Copies.creds (c : Copies) : Prop := c.ak = true ∧ c.sk = true ∧ c.token = true

/-- What a step must meet: no copy of a credential is missing, and when a
producer is created, no cache that still names its address is as new as it
will be. -/
def Meets (s : State) : Op → Prop
  | .create a _ c => c.creds ∧
      (∀ i, (s.cfgCache i).producer = some a → (s.cfgCache i).version < s.sendCfgVersionSeed+1) ∧
      (∀ i, (s.credCache i).producer = some a →
        (s.credCache i).version < s.staticCredVersionSeed+1)
  | .updateEndpoint _ _ _ _ c => c.creds
  | .updateCredentials _ _ _ _ c => c.creds
  | .sendCred _ _ c => c.creds
  | _ => True

def AllMeet : List Op → State → Prop
  | [], _ => True
  | op::ops, s => Meets s op ∧ AllMeet ops (step s op)

def Settings.sendCfg (c : Settings) : CStr × CStr × CStr := (c.endpoint, c.region, c.topicId)

def Settings.cred (c : Settings) : Option CStr × Option CStr × Option CStr :=
  (c.accessKeyId, c.accessKeySecret, c.securityToken)

/-- A value recorded in version `v` of a setting that is now `x` in version
`w`. -/
def Follows {α : Type} (v : ℤ) (y : α) (w : ℤ) (x : α) : Prop := v ≤ w ∧ (v = w → y = x)

theorem Follows.refl {α : Type} (v : ℤ) (x : α) : Follows v x v x := ⟨le_refl v, fun _ => rfl⟩

theorem Follows.bump {α : Type} {v w w' : ℤ} {x y x' : α} (h : Follows v y w x)
    (hw : w < w' ∨ (w' = w ∧ x' = x)) : Follows v y w' x' := by
  rcases hw with hw | ⟨rfl, rfl⟩
  · exact ⟨by have := h.1; omega, fun he => by have := h.1; omega⟩
  · exact h

structure Fresh (s : State) : Prop where
  cfgSnapshot : ∀ a p, s.mem a = some p → Follows p.runtimeSnapshot.sendCfgVersion
    p.runtimeSnapshot.cfg.sendCfg p.sendCfgVersion p.cfg.sendCfg
  credSnapshot : ∀ a p, s.mem a = some p → Follows p.runtimeSnapshot.staticCredVersion
    p.runtimeSnapshot.cfg.cred p.staticCredVersion p.cfg.cred
  cfg : ∀ i a p, s.mem a = some p → (s.cfgCache i).producer = some a →
    Follows (s.cfgCache i).version
      ((s.cfgCache i).endpoint, (s.cfgCache i).region, (s.cfgCache i).topicId)
      p.sendCfgVersion p.cfg.sendCfg
  cred : ∀ i a p, s.mem a = some p → (s.credCache i).producer = some a →
    Follows (s.credCache i).version
      ((s.credCache i).accessKeyId, (s.credCache i).accessKeySecret, (s.credCache i).securityToken)
      p.staticCredVersion p.cfg.cred

theorem Fresh.isolated {s : State} (h : Fresh s) : Isolated s := by
  intro i a p hp
  constructor
  · rintro ⟨ha, hv⟩
    have he := (h.cfg i a p hp ha).2 hv
    simpa [Settings.sendCfg] using he
  · rintro ⟨ha, hv⟩
    have he := (h.cred i a p hp ha).2 hv
    simpa [Settings.cred] using he

theorem start_fresh : Fresh start :=
  ⟨fun _ _ h => by simp [start] at h, fun _ _ h => by simp [start] at h,
    fun _ _ _ h => by simp [start] at h, fun _ _ _ h => by simp [start] at h⟩

/-- A call that only moves one live producer forward keeps every cache no
newer than it. -/
structure Forward (p p' : Producer) : Prop where
  sendCfg : p.sendCfgVersion < p'.sendCfgVersion ∨
    (p'.sendCfgVersion = p.sendCfgVersion ∧ p'.cfg.sendCfg = p.cfg.sendCfg)
  cred : p.staticCredVersion < p'.staticCredVersion ∨
    (p'.staticCredVersion = p.staticCredVersion ∧ p'.cfg.cred = p.cfg.cred)
  cfgSnapshot : Follows p.runtimeSnapshot.sendCfgVersion p.runtimeSnapshot.cfg.sendCfg
      p.sendCfgVersion p.cfg.sendCfg →
    Follows p'.runtimeSnapshot.sendCfgVersion p'.runtimeSnapshot.cfg.sendCfg
      p'.sendCfgVersion p'.cfg.sendCfg
  credSnapshot : Follows p.runtimeSnapshot.staticCredVersion p.runtimeSnapshot.cfg.cred
      p.staticCredVersion p.cfg.cred →
    Follows p'.runtimeSnapshot.staticCredVersion p'.runtimeSnapshot.cfg.cred
      p'.staticCredVersion p'.cfg.cred

theorem Forward.refl (p : Producer) : Forward p p :=
  ⟨Or.inr ⟨rfl, rfl⟩, Or.inr ⟨rfl, rfl⟩, id, id⟩

theorem Fresh.forward {s : State} (h : Fresh s) (a : Addr) (p p' : Producer)
    (hp : s.mem a = some p) (hf : Forward p p') : Fresh (setMem a (some p') s) := by
  have hcases : ∀ b r, (setMem a (some p') s).mem b = some r →
      (b = a ∧ r = p') ∨ (b ≠ a ∧ s.mem b = some r) := by
    intro b r hr
    by_cases hb : b = a
    · subst hb
      simp only [setMem, Function.update_self, Option.some.injEq] at hr
      exact Or.inl ⟨rfl, hr.symm⟩
    · simp only [setMem, Function.update_of_ne hb] at hr
      exact Or.inr ⟨hb, hr⟩
  refine ⟨?_, ?_, ?_, ?_⟩
  · intro b r hr
    rcases hcases b r hr with ⟨rfl, rfl⟩ | ⟨_, hr⟩
    · exact hf.cfgSnapshot (h.cfgSnapshot b p hp)
    · exact h.cfgSnapshot b r hr
  · intro b r hr
    rcases hcases b r hr with ⟨rfl, rfl⟩ | ⟨_, hr⟩
    · exact hf.credSnapshot (h.credSnapshot b p hp)
    · exact h.credSnapshot b r hr
  · intro i b r hr hb
    rcases hcases b r hr with ⟨rfl, rfl⟩ | ⟨_, hr⟩
    · exact (h.cfg i b p hp hb).bump hf.sendCfg
    · exact h.cfg i b r hr hb
  · intro i b r hr hb
    rcases hcases b r hr with ⟨rfl, rfl⟩ | ⟨_, hr⟩
    · exact (h.cred i b p hp hb).bump hf.cred
    · exact h.cred i b r hr hb

theorem snapshotOf_cfg (c : Copies) (p : Producer) (hc : c.creds) :
    (snapshotOf c p).cfg = p.cfg := by
  obtain ⟨h1, h2, h3⟩ := hc
  simp [snapshotOf, dup, h1, h2, h3]

/-- The snapshot is either renewed, with all copies, or left behind. -/
theorem publish_forward (changed : Bool) (c : Copies) (p q : Producer) (hc : c.creds)
    (hs : q.runtimeSnapshot = p.runtimeSnapshot)
    (h1 : p.sendCfgVersion < q.sendCfgVersion ∨
      (q.sendCfgVersion = p.sendCfgVersion ∧ q.cfg.sendCfg = p.cfg.sendCfg))
    (h2 : p.staticCredVersion < q.staticCredVersion ∨
      (q.staticCredVersion = p.staticCredVersion ∧ q.cfg.cred = p.cfg.cred)) :
    Forward p (publish changed c q).2 := by
  have hold : Forward p q :=
    ⟨h1, h2, fun hf => by rw [hs]; exact hf.bump h1, fun hf => by rw [hs]; exact hf.bump h2⟩
  unfold publish runtimeSnapshotRefreshLocked
  split
  · split
    · rename_i r hr
      split at hr
      · obtain rfl := Option.some.inj hr
        refine ⟨h1, h2, fun _ => ?_, fun _ => ?_⟩
        · change Follows q.sendCfgVersion (snapshotOf c q).cfg.sendCfg _ _
          rw [snapshotOf_cfg c q hc]
          exact Follows.refl _ _
        · change Follows q.staticCredVersion (snapshotOf c q).cfg.cred _ _
          rw [snapshotOf_cfg c q hc]
          exact Follows.refl _ _
      · simp at hr
    · exact hold
  · exact hold

theorem producerUpdateEndpoint_forward (e r t : Option CStr) (c : Copies) (p : Producer)
    (hc : c.creds) : Forward p (producerUpdateEndpoint e r t c p).2 := by
  unfold producerUpdateEndpoint
  split
  · exact Forward.refl p
  · split
    · exact Forward.refl p
    · split
      · exact Forward.refl p
      · refine publish_forward _ c p _ hc ?_ ?_ ?_
        · cases e <;> cases r <;> cases t <;> rfl
        · cases e <;> cases r <;> cases t <;>
            simp [setEndpoint, setRegion, setTopicId, Settings.sendCfg]
          omega
        · cases e <;> cases r <;> cases t <;>
            simp [setEndpoint, setRegion, setTopicId, Settings.cred]

theorem producerUpdateStaticCredentials_forward (ak sk tok : Option CStr) (c : Copies)
    (p : Producer) (hc : c.creds) :
    Forward p (producerUpdateStaticCredentials ak sk tok c p).2 := by
  unfold producerUpdateStaticCredentials
  split
  · exact Forward.refl p
  · split
    · exact Forward.refl p
    · split
      · exact Forward.refl p
      · split
        · exact Forward.refl p
        · refine publish_forward _ c p _ hc ?_ ?_ ?_
          · cases ak <;> cases tok <;> rfl
          · cases ak <;> cases tok <;> simp [setKeys, setToken, Settings.sendCfg]
          · cases ak <;> cases tok <;> simp [setKeys, setToken, Settings.cred]

theorem Fresh.remove {s : State} (h : Fresh s) (a : Addr) : Fresh (setMem a none s) := by
  have hmem : ∀ b r, (setMem a none s).mem b = some r → s.mem b = some r := by
    intro b r hr
    by_cases hb : b = a
    · subst hb
      simp [setMem] at hr
    · simpa [setMem, hb] using hr
  exact ⟨fun b r hr => h.cfgSnapshot b r (hmem b r hr), fun b r hr => h.credSnapshot b r (hmem b r hr),
    fun i b r hr => h.cfg i b r (hmem b r hr), fun i b r hr => h.cred i b r (hmem b r hr)⟩

theorem Fresh.create {s : State} (h : Fresh s) (a : Addr) (cfg : Settings) (c : Copies)
    (hm : Meets s (.create a cfg c)) : Fresh (step s (.create a cfg c)) := by
  obtain ⟨hc, hcfg, hcred⟩ := hm
  simp only [step]
  split
  · exact h
  · have hseed : Fresh { s with
        sendCfgVersionSeed := s.sendCfgVersionSeed+1
        staticCredVersionSeed := s.staticCredVersionSeed+1 } :=
      ⟨h.cfgSnapshot, h.credSnapshot, h.cfg, h.cred⟩
    unfold runtimeSnapshotRefreshLocked
    split
    · have hcases : ∀ b r, Function.update s.mem a (some { newProducer cfg
          (s.sendCfgVersionSeed+1) (s.staticCredVersionSeed+1) with
          runtimeSnapshot := snapshotOf c (newProducer cfg (s.sendCfgVersionSeed+1)
            (s.staticCredVersionSeed+1)) }) b = some r →
          (b = a ∧ r = { newProducer cfg (s.sendCfgVersionSeed+1) (s.staticCredVersionSeed+1) with
            runtimeSnapshot := snapshotOf c (newProducer cfg (s.sendCfgVersionSeed+1)
              (s.staticCredVersionSeed+1)) }) ∨ (b ≠ a ∧ s.mem b = some r) := by
        intro b r hr
        by_cases hb : b = a
        · subst hb
          rw [Function.update_self, Option.some.injEq] at hr
          exact Or.inl ⟨rfl, hr.symm⟩
        · rw [Function.update_of_ne hb] at hr
          exact Or.inr ⟨hb, hr⟩
      have hsnap := snapshotOf_cfg c (newProducer cfg (s.sendCfgVersionSeed+1)
        (s.staticCredVersionSeed+1)) hc
      refine ⟨?_, ?_, ?_, ?_⟩
      · intro b r hr
        rcases hcases b r hr with ⟨rfl, rfl⟩ | ⟨_, hr⟩
        · dsimp only
          rw [hsnap]
          exact Follows.refl _ _
        · exact h.cfgSnapshot b r hr
      · intro b r hr
        rcases hcases b r hr with ⟨rfl, rfl⟩ | ⟨_, hr⟩
        · dsimp only
          rw [hsnap]
          exact Follows.refl _ _
        · exact h.credSnapshot b r hr
      · intro i b r hr hb
        rcases hcases b r hr with ⟨rfl, rfl⟩ | ⟨_, hr⟩
        · have hlt := hcfg i hb
          exact ⟨hlt.le, fun he => absurd he hlt.ne⟩
        · exact h.cfg i b r hr hb
      · intro i b r hr hb
        rcases hcases b r hr with ⟨rfl, rfl⟩ | ⟨_, hr⟩
        · have hlt := hcred i hb
          exact ⟨hlt.le, fun he => absurd he hlt.ne⟩
        · exact h.cred i b r hr hb
    · exact hseed.remove a

/-- A cache that is filled again holds what the producer has in the version
it is in. -/
theorem Fresh.sendCfg {s : State} (h : Fresh s) (i : ℕ) (a : Addr) (ok : Bool) :
    Fresh (step s (.sendCfg i a ok)) := by
  simp only [step]
  split
  · rename_i p hp
    split
    · exact h
    · refine ⟨h.cfgSnapshot, h.credSnapshot, ?_, h.cred⟩
      intro j b r hr hb
      by_cases hj : j = i
      · subst hj
        simp only [Function.update_self] at hb ⊢
        unfold sendCfgCacheRefresh at hb ⊢
        split at hb
        · rename_i hg
          rw [if_pos hg]
          obtain rfl := Option.some.inj hb
          obtain rfl := Option.some.inj (hp.symm.trans hr)
          exact ⟨le_refl _, fun _ => (h.cfgSnapshot a p hp).2 hg.1⟩
        · rename_i hg
          rw [if_neg hg]
          exact h.cfg j b r hr hb
      · simp only [Function.update_of_ne hj] at hb ⊢
        exact h.cfg j b r hr hb
  · exact h

theorem Fresh.sendCred {s : State} (h : Fresh s) (i : ℕ) (a : Addr) (c : Copies)
    (hc : c.creds) : Fresh (step s (.sendCred i a c)) := by
  obtain ⟨h1, h2, h3⟩ := hc
  simp only [step]
  split
  · rename_i p hp
    split
    · exact h
    · refine ⟨h.cfgSnapshot, h.credSnapshot, h.cfg, ?_⟩
      intro j b r hr hb
      by_cases hj : j = i
      · subst hj
        simp only [Function.update_self] at hb ⊢
        unfold staticCredCacheRefresh at hb ⊢
        simp only [h1, h2, h3, dup, if_true] at hb ⊢
        split at hb
        · rename_i hg
          rw [if_pos hg]
          obtain rfl := Option.some.inj hb
          obtain rfl := Option.some.inj (hp.symm.trans hr)
          exact ⟨le_refl _, fun _ => (h.credSnapshot a p hp).2 hg.1⟩
        · rename_i hg
          rw [if_neg hg]
          exact h.cred j b r hr hb
      · simp only [Function.update_of_ne hj] at hb ⊢
        exact h.cred j b r hr hb
  · exact h

theorem step_fresh {s : State} (h : Fresh s) (op : Op) (hm : Meets s op) : Fresh (step s op) := by
  cases op with
  | create a cfg c => exact h.create a cfg c hm
  | updateEndpoint a e r t c =>
    simp only [step]
    split
    · rename_i p hp
      exact h.forward a p _ hp (producerUpdateEndpoint_forward e r t c p hm)
    · exact h
  | updateCredentials a ak sk tok c =>
    simp only [step]
    split
    · rename_i p hp
      exact h.forward a p _ hp (producerUpdateStaticCredentials_forward ak sk tok c p hm)
    · exact h
  | close a =>
    simp only [step]
    split
    · rename_i p hp
      exact h.forward a p _ hp ⟨Or.inr ⟨rfl, rfl⟩, Or.inr ⟨rfl, rfl⟩, id, id⟩
    · exact h
  | destroy a => exact h.remove a
  | sendCfg i a ok => exact h.sendCfg i a ok
  | sendCred i a c => exact h.sendCred i a c hm

theorem run_fresh (ops : List Op) (s : State) (h : Fresh s) (hm : AllMeet ops s) :
    Fresh (run ops s) := by
  induction ops generalizing s with
  | nil => exact h
  | cons op ops ih => exact ih (step s op) (step_fresh h op hm.1) hm.2

/-- In every run whose steps meet the condition, a sender that finds one of
its caches valid for a live producer holds that producer's own settings. -/
theorem run_isolated (ops : List Op) (hm : AllMeet ops start) : Isolated (run ops start) :=
  (run_fresh ops start start_fresh hm).isolated

def tenant (c : UInt8) : Settings :=
  { endpoint := [104, 116, 116, 112, 58, 47, 47, c], region := [c], topicId := [c]
    accessKeyId := some [c], accessKeySecret := some [c], securityToken := none }

def allCopies : Copies := ⟨true, true, true, true, true⟩

/-- Two tenants one after the other at one address; nothing was updated in
between, so the second one starts in a version of its own. -/
def tenants : List Op :=
  [.create 0 (tenant 97) allCopies, .sendCfg 0 0 true, .sendCred 0 0 allCopies, .destroy 0,
    .create 0 (tenant 98) allCopies]

theorem tenants_isolated : AllMeet tenants start ∧ Isolated (run tenants start) := by
  have hm : AllMeet tenants start := by
    refine ⟨⟨⟨rfl, rfl, rfl⟩, ?_, ?_⟩, trivial, ⟨rfl, rfl, rfl⟩, trivial, ⟨⟨rfl, rfl, rfl⟩, ?_, ?_⟩,
      trivial⟩
    · intro i hi
      simp [start] at hi
    · intro i hi
      simp [start] at hi
    · intro i _
      by_cases hi : i = 0
      · subst hi
        decide
      · simp [step, start, setMem, runtimeSnapshotRefreshLocked, allCopies, hi, tenant,
          configIsValidForCreate, isHttpUrl, strEmpty, SendCfgCache.valid, newProducer,
          StaticCredCache.valid]
    · intro i _
      by_cases hi : i = 0
      · subst hi
        decide
      · simp [step, start, setMem, runtimeSnapshotRefreshLocked, allCopies, hi, tenant,
          configIsValidForCreate, isHttpUrl, strEmpty, SendCfgCache.valid, newProducer,
          StaticCredCache.valid]
  exact ⟨hm, run_isolated tenants hm⟩

/-- With one update of the first tenant, the second one is created in the
version a sender has cached for the first. -/
def updated : List Op :=
  [.create 0 (tenant 97) allCopies, .updateEndpoint 0 none (some [99]) none allCopies,
    .updateCredentials 0 (some [99]) (some [99]) none allCopies, .sendCfg 0 0 true,
    .sendCred 0 0 allCopies, .destroy 0, .create 0 (tenant 98) allCopies]

theorem updated_not_isolated : ¬ Isolated (run updated start) := by
  intro h
  have hp : (run updated start).mem 0 = some ((run updated start).mem 0 |>.getD
      (newProducer (tenant 98) 0 0)) := by decide
  have hcfg := ((h 0 0 _ hp).1 (by decide)).1
  revert hcfg
  decide

end VeTls.Env
