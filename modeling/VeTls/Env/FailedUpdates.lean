import VeTls.Env.Atomic
import VeTls.Env.Credentials

/-!
# Updates that fail, and the sends after them

A send takes its credentials and its configuration from the caches of its
thread, renewed from the snapshot where their version is not the producer's.
A call that fails before it takes the mutex leaves the producer as it was.
When the snapshot cannot be renewed the versions have already moved on.
-/

set_option autoImplicit false

namespace VeTls.Env

open VeTls.Keys (Addr CStr)
open VeTls.Credentials (Triple)

def Update.call (u : Update) (c : Copies) (p : Producer) : Result × Producer :=
  match u with
  | .endpoint e r t => producerUpdateEndpoint e r t c p
  | .credentials ak sk t => producerUpdateStaticCredentials ak sk t c p

def Update.isCredentials : Update → Bool
  | .endpoint _ _ _ => false
  | .credentials _ _ _ => true

namespace Sends

structure Caches where
  sendCfg : SendCfgCache
  staticCred : StaticCredCache
  deriving DecidableEq, Repr

/-- A send of one thread: what a provider would give it, and which of the
allocations for its caches succeed. -/
structure Send where
  thread : ℕ
  dynamic : Option Triple
  block : Bool
  copies : Copies
  deriving DecidableEq, Repr

def tripleOf (c : StaticCredCache) : Option Triple :=
  match c.accessKeyId, c.accessKeySecret with
  | some ak, some sk => some ⟨ak, sk, c.securityToken⟩
  | _, _ => none

/-- With a provider the static credentials are not looked at. A refresh that
fails leaves the cache as it was. -/
def getSigningCredentials (provider : Bool) (a : Addr) (p : Producer) (s : Send)
    (c : StaticCredCache) : Option Triple × StaticCredCache :=
  if provider then (s.dynamic, c)
  else
    let c := if c.valid a p then c else staticCredCacheRefresh s.copies a p c
    (if c.valid a p then tripleOf c else none, c)

def getSendCfg (a : Addr) (p : Producer) (s : Send) (c : SendCfgCache) :
    Option (CStr × CStr × CStr) × SendCfgCache :=
  let c := if c.valid a p then c else sendCfgCacheRefresh s.block a p c
  (if c.valid a p then some (c.endpoint, c.region, c.topicId) else none, c)

/-- What a send is made with, if it gets that far. -/
abbrev Got := Option (Triple × CStr × CStr × CStr)

/-- Without credentials the configuration is not asked for. -/
def get (provider : Bool) (a : Addr) (p : Producer) (s : Send) (c : Caches) : Got × Caches :=
  match getSigningCredentials provider a p s c.staticCred with
  | (none, cred) => (none, { c with staticCred := cred })
  | (some t, cred) =>
    let r := getSendCfg a p s c.sendCfg
    (r.1.map fun cfg => (t, cfg), ⟨r.2, cred⟩)

def getAll (provider : Bool) (a : Addr) (p : Producer) : List Send → (ℕ → Caches) → List Got
  | [], _ => []
  | s::ss, caches =>
    let r := get provider a p s (caches s.thread)
    r.1::getAll provider a p ss (Function.update caches s.thread r.2)

/-- All sends of all threads are made with the same, whichever of the two
producers is at the address. -/
def Alike (provider : Bool) (a : Addr) (p p' : Producer) : Prop :=
  ∀ (ss : List Send) (caches : ℕ → Caches),
    getAll provider a p' ss caches = getAll provider a p ss caches

/-- A valid cache is what the send is made with. -/
theorem getSendCfg_valid (a : Addr) (p : Producer) (s : Send) (c : SendCfgCache)
    (h : c.valid a p) : (getSendCfg a p s c).1 = some (c.endpoint, c.region, c.topicId) := by
  rw [getSendCfg, if_pos h]
  exact if_pos h

theorem getSigningCredentials_valid (a : Addr) (p : Producer) (s : Send) (c : StaticCredCache)
    (h : c.valid a p) : getSigningCredentials false a p s c = (tripleOf c, c) := by
  rw [getSigningCredentials, if_neg (by decide), if_pos h]
  dsimp only
  rw [if_pos h]

/-- Else the snapshot is, or nothing. -/
theorem getSendCfg_endpoint (a : Addr) (p : Producer) (s : Send) (c : SendCfgCache)
    (h : ¬ c.valid a p) (v : CStr × CStr × CStr) (hv : (getSendCfg a p s c).1 = some v) :
    v.1 = p.runtimeSnapshot.cfg.endpoint := by
  rw [getSendCfg, if_neg h] at hv
  unfold sendCfgCacheRefresh at hv
  by_cases hg : p.runtimeSnapshot.sendCfgVersion = p.sendCfgVersion ∧ s.block = true
  · simp only [if_pos hg, SendCfgCache.valid, and_self, if_true] at hv
    rw [← Option.some.inj hv]
  · simp only [if_neg hg, if_neg h] at hv
    cases hv

theorem getSigningCredentials_key (a : Addr) (p : Producer) (s : Send) (c : StaticCredCache)
    (h : ¬ c.valid a p) (t : Triple) (ht : (getSigningCredentials false a p s c).1 = some t) :
    p.runtimeSnapshot.cfg.accessKeyId = some t.accessKeyId := by
  rw [getSigningCredentials, if_neg (by decide), if_neg h] at ht
  unfold staticCredCacheRefresh at ht
  dsimp only at ht
  split at ht
  case isTrue hg =>
    simp only [StaticCredCache.valid, and_self, if_true] at ht
    unfold tripleOf at ht
    split at ht
    case h_1 ak sk hak hsk =>
      obtain rfl := Option.some.inj ht
      dsimp only at hak ⊢
      unfold dup at hak
      split at hak
      · exact hak
      · cases hak
    case h_2 => cases ht
  case isFalse => cases ht

/-- What a send gets is what it gets from the two caches. -/
theorem get_some (provider : Bool) (a : Addr) (p : Producer) (s : Send) (c : Caches) (t : Triple)
    (v : CStr × CStr × CStr) : (get provider a p s c).1 = some (t, v) ↔
      (getSigningCredentials provider a p s c.staticCred).1 = some t ∧
        (getSendCfg a p s c.sendCfg).1 = some v := by
  unfold get
  generalize getSigningCredentials provider a p s c.staticCred = r
  obtain ⟨_ | u, cred⟩ := r
  · simp
  · cases h : (getSendCfg a p s c.sendCfg).1 <;> simp [h]

theorem Alike.one (provider : Bool) (a : Addr) (p p' : Producer) (h : Alike provider a p p')
    (s : Send) (c : Caches) : (get provider a p' s c).1 = (get provider a p s c).1 :=
  (List.cons.inj (h [s] fun _ => c)).1

/-- Once the version has moved on, a send that had the configuration in its
cache is not made with the same. -/
theorem not_alike_sendCfg (provider : Bool) (a : Addr) (p p' : Producer)
    (hcfg : p.sendCfgVersion < p'.sendCfgVersion) : ¬ Alike provider a p p' := by
  intro h
  let t : Triple := ⟨[0], [0], none⟩
  let s : Send := ⟨0, some t, true, allCopies⟩
  let c : Caches := ⟨⟨some a, p.sendCfgVersion, 0::p'.runtimeSnapshot.cfg.endpoint, [], []⟩,
    ⟨some a, p.staticCredVersion, some [0], some [0], none⟩⟩
  have hbefore : (get provider a p s c).1 = some (t, c.sendCfg.endpoint, [], []) := by
    rw [get_some, getSendCfg_valid a p s c.sendCfg ⟨rfl, rfl⟩]
    refine ⟨?_, rfl⟩
    cases provider with
    | true => rfl
    | false => rw [getSigningCredentials_valid a p s c.staticCred ⟨rfl, rfl⟩]; rfl
  have hafter := (h.one provider a p p' s c).trans hbefore
  rw [get_some] at hafter
  have hstale : ¬ c.sendCfg.valid a p' := fun hv => hcfg.ne hv.2
  exact absurd (getSendCfg_endpoint a p' s c.sendCfg hstale _ hafter.2) (List.cons_ne_self _ _)

theorem not_alike_staticCred (a : Addr) (p p' : Producer)
    (hcred : p.staticCredVersion < p'.staticCredVersion) : ¬ Alike false a p p' := by
  intro h
  let key : CStr := 0::p'.runtimeSnapshot.cfg.accessKeyId.getD []
  let t : Triple := ⟨key, [0], none⟩
  let s : Send := ⟨0, none, true, allCopies⟩
  let c : Caches := ⟨⟨some a, p.sendCfgVersion, [], [], []⟩,
    ⟨some a, p.staticCredVersion, some key, some [0], none⟩⟩
  have hbefore : (get false a p s c).1 = some (t, [], [], []) := by
    rw [get_some, getSendCfg_valid a p s c.sendCfg ⟨rfl, rfl⟩,
      getSigningCredentials_valid a p s c.staticCred ⟨rfl, rfl⟩]
    exact ⟨rfl, rfl⟩
  have hafter := (h.one false a p p' s c).trans hbefore
  rw [get_some] at hafter
  have hstale : ¬ c.staticCred.valid a p' := fun hv => hcred.ne hv.2
  have hkey := getSigningCredentials_key a p' s c.staticCred hstale t hafter.1
  have hself : t.accessKeyId = 0::t.accessKeyId := by
    conv_lhs => rw [show t.accessKeyId = 0::p'.runtimeSnapshot.cfg.accessKeyId.getD [] from rfl, hkey]
    rfl
  exact List.cons_ne_self _ _ hself.symm

/-- A provider's credentials do not depend on the static ones. -/
theorem alike_of_provider (a : Addr) (p p' : Producer)
    (hcfg : p'.sendCfgVersion = p.sendCfgVersion)
    (hsnap : p'.runtimeSnapshot = p.runtimeSnapshot) : Alike true a p p' := by
  obtain ⟨cfg, v, w, snapshot, accepting⟩ := p
  obtain ⟨cfg', v', w', snapshot', accepting'⟩ := p'
  dsimp only at hcfg hsnap
  subst hcfg hsnap
  intro ss
  induction ss with
  | nil =>
    intro caches
    rfl
  | cons s ss ih =>
    intro caches
    exact congrArg _ (ih _)

end Sends

section Calls

variable {β : Type}

theorem applyAll_snapshot (ws : List Write) (p : Producer) :
    (applyAll ws p).runtimeSnapshot = p.runtimeSnapshot := by
  induction ws generalizing p with
  | nil => rfl
  | cons w ws ih =>
    rw [applyAll, List.foldl_cons]
    exact (ih _).trans (apply_runtimeSnapshot w p)

theorem applyAll_kept (l : Line β) (hl : l.Sound) (ws : List Write) (p : Producer)
    (h : ∀ w ∈ ws, l.touched w = false) : l.version (applyAll ws p) = l.version p := by
  induction ws generalizing p with
  | nil => rfl
  | cons w ws ih =>
    rw [applyAll, List.foldl_cons]
    refine (ih _ fun v hv => h v (List.mem_cons_of_mem w hv)).trans ?_
    exact hl.version_kept w p (h w List.mem_cons_self)

theorem applyAll_le (l : Line β) (hl : l.Sound) (ws : List Write) (p : Producer)
    (h : ∀ w ∈ ws, l.touched w = true) : l.version p ≤ l.version (applyAll ws p) := by
  induction ws generalizing p with
  | nil => exact le_rfl
  | cons w ws ih =>
    rw [applyAll, List.foldl_cons]
    refine le_trans ?_ (ih _ fun v hv => h v (List.mem_cons_of_mem w hv))
    exact (hl.counted w p (h w List.mem_cons_self)).le

theorem applyAll_lt (l : Line β) (hl : l.Sound) (ws : List Write) (p : Producer) (hne : ws ≠ [])
    (h : ∀ w ∈ ws, l.touched w = true) : l.version p < l.version (applyAll ws p) := by
  cases ws with
  | nil => exact absurd rfl hne
  | cons w ws =>
    rw [applyAll, List.foldl_cons]
    refine lt_of_lt_of_le (hl.counted w p (h w List.mem_cons_self)) ?_
    exact applyAll_le l hl ws _ fun v hv => h v (List.mem_cons_of_mem w hv)

theorem writes_isCredential (u : Update) (w : Write) (h : w ∈ u.writes) :
    w.isCredential = u.isCredentials := by
  cases u with
  | endpoint e r t =>
    cases e <;> cases r <;> cases t <;> simp [Update.writes] at h <;>
      rcases h with rfl | rfl | rfl <;> rfl
  | credentials ak sk t =>
    cases ak <;> cases sk <;> cases t <;> simp [Update.writes] at h <;>
      rcases h with rfl | rfl <;> rfl

theorem writes_sendCfg (u : Update) (w : Write) (h : w ∈ u.writes) :
    sendCfgLine.touched w = !u.isCredentials :=
  congrArg Bool.not (writes_isCredential u w h)

theorem writes_staticCred (u : Update) (w : Write) (h : w ∈ u.writes) :
    staticCredLine.touched w = u.isCredentials :=
  writes_isCredential u w h

theorem call_eq (u : Update) (c : Copies) (p : Producer) :
    u.call c p =
      if u.invalid = true then (.invalid, p)
      else if c.args = false then (.dropError, p)
      else if p.accepting = false then (.closed, p)
      else publish (!u.writes.isEmpty) c (applyAll u.writes p) := by
  cases u with
  | endpoint e r t =>
    simp only [Update.call, producerUpdateEndpoint, Update.invalid, Bool.not_eq_true']
    cases e <;> cases r <;> cases t <;> rfl
  | credentials ak sk t =>
    simp only [Update.call, producerUpdateStaticCredentials, Update.invalid, Bool.not_eq_true']
    cases ak <;> cases sk <;> cases t <;> simp [Update.writes, applyAll, Write.apply, setKeys, setToken]

/-- A call that reaches the snapshot and cannot renew it has moved the
version of what it wrote, and only that. -/
theorem stuck_alike_iff (provider : Bool) (a : Addr) (u : Update) (p : Producer)
    (hne : u.writes ≠ []) : Sends.Alike provider a p (applyAll u.writes p) ↔
      (provider && u.isCredentials) = true := by
  have hcfg := writes_sendCfg u
  have hcred := writes_staticCred u
  cases hu : u.isCredentials with
  | false =>
    have hlt : p.sendCfgVersion < (applyAll u.writes p).sendCfgVersion :=
      applyAll_lt sendCfgLine sendCfgLine_sound u.writes p hne fun w hw => by rw [hcfg w hw, hu]; rfl
    rw [Bool.and_false]
    exact iff_of_false (Sends.not_alike_sendCfg provider a p _ hlt) Bool.false_ne_true
  | true =>
    have hlt : p.staticCredVersion < (applyAll u.writes p).staticCredVersion :=
      applyAll_lt staticCredLine staticCredLine_sound u.writes p hne fun w hw => by rw [hcred w hw, hu]
    have hkept : (applyAll u.writes p).sendCfgVersion = p.sendCfgVersion :=
      applyAll_kept sendCfgLine sendCfgLine_sound u.writes p fun w hw => by rw [hcfg w hw, hu]; rfl
    rw [Bool.and_true]
    cases provider with
    | false => exact iff_of_false (Sends.not_alike_staticCred a p _ hlt) Bool.false_ne_true
    | true =>
      exact iff_of_true (Sends.alike_of_provider a p _ hkept (applyAll_snapshot u.writes p)) rfl

end Calls

/-- A failed update leaves the sends of all threads as they were exactly when
it failed before it wrote anything, or what it wrote are static credentials
that a provider keeps from being used. -/
theorem failed_update_alike_iff (provider : Bool) (a : Addr) (u : Update) (c : Copies)
    (p : Producer) :
    ((u.call c p).1 ≠ .ok → Sends.Alike provider a p (u.call c p).2) ↔
      u.invalid = true ∨ c.args = false ∨ p.accepting = false ∨ u.writes = [] ∨ c.block = true ∨
        provider = true ∧ u.isCredentials = true := by
  rw [call_eq]
  by_cases hearly : u.invalid = true ∨ c.args = false ∨ p.accepting = false
  · refine iff_of_true (fun _ => ?_) ?_
    · split_ifs with h1 h2 h3
      · exact fun _ _ => rfl
      · exact fun _ _ => rfl
      · exact fun _ _ => rfl
      · exact absurd hearly (by simp [h1, h2, h3])
    · rcases hearly with h | h | h <;> simp [h]
  · obtain ⟨h1, h2, h3⟩ : ¬ u.invalid = true ∧ ¬ c.args = false ∧ ¬ p.accepting = false := by
      simpa only [not_or] using hearly
    rw [if_neg h1, if_neg h2, if_neg h3]
    simp only [h1, h2, h3, Bool.true_eq_false, false_or]
    unfold publish runtimeSnapshotRefreshLocked
    by_cases hne : u.writes = []
    · simp [hne]
    · have hempty : (!u.writes.isEmpty) = true := by simpa using hne
      rw [if_pos hempty]
      cases hb : c.block with
      | true => simp
      | false =>
        simp only [hne, Bool.false_eq_true, if_false, false_or, ← Bool.and_eq_true]
        rw [← stuck_alike_iff provider a u p hne]
        exact ⟨fun h => h (by decide), fun h _ => h⟩

/-- An update of the region that cannot renew the snapshot: a sender that had
the configuration gets none any more. -/
theorem regionUpdate_changes_sends :
    ¬ ∀ (provider : Bool) (a : Addr) (u : Update) (c : Copies) (p : Producer),
      (u.call c p).1 ≠ .ok → Sends.Alike provider a p (u.call c p).2 := by
  intro h
  have halike := h false 0 (.endpoint none (some [98]) none) ⟨true, false, true, true, true⟩
    (newProducer (tenant 97) 1 1) (by decide) [⟨0, none, true, allCopies⟩]
    fun _ => ⟨⟨some 0, 1, [97], [97], [97]⟩, ⟨some 0, 1, some [97], some [97], none⟩⟩
  revert halike
  decide

end VeTls.Env
