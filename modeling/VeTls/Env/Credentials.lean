import VeTls.Keys.Map
import VeTls.Lib.Machine

/-!
# Refreshing the credentials

With a provider the credentials are cached in the producer. A call looks at
the cache in one section of the mutex; if it has to ask the provider it sets
`cred_refreshing`, asks with the mutex free, and stores the answer in a
second section. Then it looks again. Times are integers, and a sum that
would leave an `int64_t` is left out.
-/

set_option autoImplicit false

namespace VeTls.Credentials

open VeTls.Keys (CStr)

structure CredentialsConfig where
  credentialsExpireAdvanceMs : ℤ
  credentialsRefreshMinIntervalMs : ℤ
  deriving DecidableEq, Repr

/-- A negative setting is none. -/
def CredentialsConfig.advance (cfg : CredentialsConfig) : ℤ := max cfg.credentialsExpireAdvanceMs 0

def CredentialsConfig.minInt (cfg : CredentialsConfig) : ℤ :=
  max cfg.credentialsRefreshMinIntervalMs 0

/-- What the provider returns and fills in. -/
structure Answer where
  rc : ℤ
  accessKeyId : Option CStr
  accessKeySecret : Option CStr
  securityToken : Option CStr
  expireTimeMs : ℤ
  deriving DecidableEq, Repr

/-- Which copies of the three strings succeed. -/
structure Copies where
  accessKeyId : Bool
  accessKeySecret : Bool
  securityToken : Bool
  deriving DecidableEq, Repr

def allCopies : Copies := ⟨true, true, true⟩

structure Triple where
  accessKeyId : CStr
  accessKeySecret : CStr
  securityToken : Option CStr
  deriving DecidableEq, Repr

structure CredCache where
  refreshing : Bool
  expireMs : ℤ
  lastRefreshMs : ℤ
  accessKeyId : Option CStr
  accessKeySecret : Option CStr
  securityToken : Option CStr
  deriving DecidableEq, Repr

def CredCache.start : CredCache := ⟨false, 0, 0, none, none, none⟩

def strdup (ok : Bool) (s : Option CStr) : Option CStr := s.filter fun _ => ok

/-- The copies the caller gets, if it gets the keys. -/
def owned (m : Copies) (c : CredCache) : Option Triple :=
  match strdup m.accessKeyId c.accessKeyId, strdup m.accessKeySecret c.accessKeySecret with
  | some ak, some sk => some ⟨ak, sk, strdup m.securityToken c.securityToken⟩
  | _, _ => none

def haveKeys (c : CredCache) : Bool := c.accessKeyId.isSome && c.accessKeySecret.isSome

def expires (cfg : CredentialsConfig) (now expireMs : ℤ) : Bool :=
  decide (expireMs > 0) && decide (now+cfg.advance ≥ expireMs)

def need (cfg : CredentialsConfig) (now : ℤ) (c : CredCache) : Bool :=
  !haveKeys c || expires cfg now c.expireMs

def tooSoon (cfg : CredentialsConfig) (now : ℤ) (c : CredCache) : Bool :=
  decide (cfg.minInt > 0) && decide (c.lastRefreshMs > 0) &&
    decide (now-c.lastRefreshMs < cfg.minInt)

inductive Look where
  | wait
  | done (r : Option Triple)
  | refresh (c : CredCache)
  deriving DecidableEq, Repr

/-- The first section. A call that finds a refresh going on waits in it, and
looks again when it is woken. -/
def look (cfg : CredentialsConfig) (now : ℤ) (m : Copies) (c : CredCache) : Look :=
  if c.refreshing then .wait
  else if !need cfg now c then .done (owned m c)
  else if tooSoon cfg now c then .done (if haveKeys c then owned m c else none)
  else .refresh { c with refreshing := true }

def tokenOf (a : Answer) : Option CStr := a.securityToken.filter fun t => decide (t ≠ [])

/-- The answer replaces the cache as a whole; without a copy of a key there
is nothing in it. -/
def storeKeys (a : Answer) (m : Copies) (c : CredCache) : Bool × CredCache :=
  let ak := strdup m.accessKeyId a.accessKeyId
  let sk := strdup m.accessKeySecret a.accessKeySecret
  if ak.isSome && sk.isSome then
    (true, { c with
      accessKeyId := ak, accessKeySecret := sk
      securityToken := strdup m.securityToken (tokenOf a), expireMs := a.expireTimeMs })
  else
    (false, { c with
      accessKeyId := none, accessKeySecret := none, securityToken := none, expireMs := 0 })

def usable (a : Answer) : Bool :=
  decide (a.rc = 0) && a.accessKeyId.isSome && a.accessKeySecret.isSome

/-- The second section; the call fails with the answer. -/
def store (now : ℤ) (a : Answer) (m : Copies) (c : CredCache) : Bool × CredCache :=
  let c := { c with lastRefreshMs := now }
  let r := if usable a then storeKeys a m c else (false, c)
  (r.1, { r.2 with refreshing := false })

section Alone

/-- What a call came to, and how often it asked the provider. -/
structure Outcome where
  result : Option Triple
  calls : ℕ
  cache : CredCache
  deriving DecidableEq, Repr

/-- A call that runs alone; the `i`-th time it asks, the provider answers
`answers i`, and the copies of that round succeed as `copies i` says. A
call that would wait has nobody to wake it. -/
def getDynamicCredentialsOwned (cfg : CredentialsConfig) (now : ℤ) (answers : ℕ → Answer)
    (copies : ℕ → Copies) : ℕ → ℕ → CredCache → Option Outcome
  | 0, _, _ => none
  | fuel+1, calls, c =>
    match look cfg now (copies calls) c with
    | .wait => none
    | .done r => some ⟨r, calls, c⟩
    | .refresh c =>
      match store now (answers calls) (copies calls) c with
      | (false, c) => some ⟨none, calls+1, c⟩
      | (true, c) => getDynamicCredentialsOwned cfg now answers copies fuel (calls+1) c

/-- The call comes back after it has asked the provider at most once. -/
def ReturnsAfterOne (cfg : CredentialsConfig) (now : ℤ) (answers : ℕ → Answer)
    (copies : ℕ → Copies) (c : CredCache) : Prop :=
  ∃ fuel r, getDynamicCredentialsOwned cfg now answers copies fuel 0 c = some r ∧ r.calls ≤ 1

theorem look_free (cfg : CredentialsConfig) (now : ℤ) (m : Copies) (c : CredCache)
    (h : c.refreshing = false) : look cfg now m c =
      if need cfg now c = false then .done (owned m c)
      else if tooSoon cfg now c = true then .done (if haveKeys c then owned m c else none)
      else .refresh { c with refreshing := true } := by
  rw [look, if_neg (by simp [h])]
  simp only [Bool.not_eq_true']

/-- After an answer that is stored the next look sees that answer. -/
theorem store_ok (cfg : CredentialsConfig) (now : ℤ) (a : Answer) (m : Copies) (c : CredCache)
    (h : (store now a m c).1 = true) :
    need cfg now (store now a m c).2 = expires cfg now a.expireTimeMs ∧
      tooSoon cfg now (store now a m c).2 = (decide (cfg.minInt > 0) && decide (now > 0)) := by
  unfold store storeKeys at h ⊢
  dsimp only at h ⊢
  split at h
  case isFalse => cases h
  case isTrue hu =>
    split at h
    case isFalse => cases h
    case isTrue hk =>
      rw [if_pos hu, if_pos hk]
      constructor
      · rw [need, haveKeys, hk]
        rfl
      · rw [tooSoon]
        simp only [sub_self, Bool.and_assoc]
        by_cases hm : cfg.minInt > 0 <;> simp [hm]

theorem store_ok_iff (now : ℤ) (a : Answer) (m : Copies) (c : CredCache) :
    (store now a m c).1 = true ↔
      usable a = true ∧ m.accessKeyId = true ∧ m.accessKeySecret = true := by
  unfold store storeKeys usable strdup
  cases a.accessKeyId <;> cases a.accessKeySecret <;> cases m.accessKeyId <;>
    cases m.accessKeySecret <;> by_cases h : a.rc = 0 <;> simp [h]

theorem store_refreshing (now : ℤ) (a : Answer) (m : Copies) (c : CredCache) :
    (store now a m c).2.refreshing = false := rfl

theorem calls_le (cfg : CredentialsConfig) (now : ℤ) (answers : ℕ → Answer) (copies : ℕ → Copies)
    (fuel calls : ℕ) (c : CredCache) (r : Outcome)
    (h : getDynamicCredentialsOwned cfg now answers copies fuel calls c = some r) :
    calls ≤ r.calls := by
  induction fuel generalizing calls c with
  | zero => cases h
  | succ fuel ih =>
    rw [getDynamicCredentialsOwned] at h
    cases hl : look cfg now (copies calls) c with
    | wait => rw [hl] at h; cases h
    | done res =>
      rw [hl] at h
      obtain rfl := Option.some.inj h
      exact le_rfl
    | refresh c' =>
      rw [hl] at h
      dsimp only at h
      split at h
      · obtain rfl := Option.some.inj h
        exact Nat.le_succ calls
      · have := ih _ _ h
        omega

/-- One round of a call that has to ask. -/
theorem get_refresh (cfg : CredentialsConfig) (now : ℤ) (answers : ℕ → Answer)
    (copies : ℕ → Copies) (fuel calls : ℕ) (c : CredCache) (h : c.refreshing = false)
    (hneed : need cfg now c = true) (hsoon : tooSoon cfg now c = false) :
    getDynamicCredentialsOwned cfg now answers copies (fuel+1) calls c =
      let r := store now (answers calls) (copies calls) { c with refreshing := true }
      if r.1 then getDynamicCredentialsOwned cfg now answers copies fuel (calls+1) r.2
      else some ⟨none, calls+1, r.2⟩ := by
  rw [getDynamicCredentialsOwned, look_free cfg now _ c h, if_neg (by simp [hneed]),
    if_neg (by simp [hsoon])]
  dsimp only
  generalize store now (answers calls) (copies calls) { c with refreshing := true } = r
  obtain ⟨ok, c'⟩ := r
  cases ok <;> rfl

theorem get_done (cfg : CredentialsConfig) (now : ℤ) (answers : ℕ → Answer)
    (copies : ℕ → Copies) (fuel calls : ℕ) (c : CredCache) (h : c.refreshing = false)
    (hdone : need cfg now c = false ∨ tooSoon cfg now c = true) :
    ∃ r, getDynamicCredentialsOwned cfg now answers copies (fuel+1) calls c = some r ∧
      r.calls = calls := by
  rw [getDynamicCredentialsOwned, look_free cfg now _ c h]
  by_cases hneed : need cfg now c = false
  · rw [if_pos hneed]
    exact ⟨_, rfl, rfl⟩
  · rw [if_neg hneed, if_pos (hdone.resolve_left hneed)]
    exact ⟨_, rfl, rfl⟩


/-- A wait that nobody ends never comes back. -/
theorem get_refreshing (cfg : CredentialsConfig) (now : ℤ) (answers : ℕ → Answer)
    (copies : ℕ → Copies) (fuel calls : ℕ) (c : CredCache) (h : c.refreshing = true) :
    getDynamicCredentialsOwned cfg now answers copies fuel calls c = none := by
  cases fuel with
  | zero => rfl
  | succ fuel => rw [getDynamicCredentialsOwned, look, if_pos h]

/-- A round whose answer is stored comes back at the next look exactly when
that answer will do or is too new to be replaced. -/
theorem stored_returns_iff (cfg : CredentialsConfig) (now : ℤ) (answers : ℕ → Answer)
    (copies : ℕ → Copies) (a : Answer) (m : Copies) (c : CredCache)
    (hok : (store now a m c).1 = true) :
    (∃ fuel r, getDynamicCredentialsOwned cfg now answers copies fuel 1 (store now a m c).2 =
        some r ∧ r.calls ≤ 1) ↔
      expires cfg now a.expireTimeMs = false ∨ cfg.minInt > 0 ∧ now > 0 := by
  obtain ⟨hneed, hsoon⟩ := store_ok cfg now a m c hok
  have hfree := store_refreshing now a m c
  generalize store now a m c = s at *
  constructor
  · rintro ⟨fuel, r, hr, hcalls⟩
    by_contra hnot
    rw [not_or, Bool.not_eq_false] at hnot
    have hlate : tooSoon cfg now s.2 = false := by
      rw [hsoon]
      simpa using hnot.2
    cases fuel with
    | zero => cases hr
    | succ fuel =>
      rw [get_refresh cfg now answers copies fuel 1 s.2 hfree (hneed.trans hnot.1) hlate] at hr
      dsimp only at hr
      split at hr
      · have := calls_le cfg now answers copies _ _ _ r hr
        omega
      · obtain rfl := Option.some.inj hr
        dsimp only at hcalls
        omega
  · intro hlast
    have hdone : need cfg now s.2 = false ∨ tooSoon cfg now s.2 = true := by
      rw [hneed, hsoon]
      exact hlast.imp_right fun hl => by simpa using hl
    obtain ⟨r, hr, hcalls⟩ := get_done cfg now answers copies 0 1 s.2 hfree hdone
    exact ⟨1, r, hr, by omega⟩

/-- While a least interval is not set and all answers are stored and about to
expire, the call goes on asking. -/
theorem get_never_returns (cfg : CredentialsConfig) (now : ℤ) (answers : ℕ → Answer)
    (copies : ℕ → Copies) (hint : ¬ (cfg.minInt > 0 ∧ now > 0))
    (hall : ∀ i, usable (answers i) = true ∧ (copies i).accessKeyId = true ∧
      (copies i).accessKeySecret = true ∧ expires cfg now (answers i).expireTimeMs = true)
    (fuel calls : ℕ) (c : CredCache) (h : c.refreshing = false) (hneed : need cfg now c = true)
    (hsoon : tooSoon cfg now c = false) :
    getDynamicCredentialsOwned cfg now answers copies fuel calls c = none := by
  induction fuel generalizing calls c with
  | zero => rfl
  | succ fuel ih =>
    obtain ⟨huse, hak, hsk, hexp⟩ := hall calls
    have hok := (store_ok_iff now (answers calls) (copies calls)
      { c with refreshing := true }).mpr ⟨huse, hak, hsk⟩
    obtain ⟨hneed', hsoon'⟩ := store_ok cfg now _ _ _ hok
    rw [get_refresh cfg now answers copies fuel calls c h hneed hsoon]
    dsimp only
    rw [if_pos hok]
    apply ih _ _ (store_refreshing now _ _ _) (hneed'.trans hexp)
    rw [hsoon']
    simpa using hint

end Alone

/-- A call that runs alone comes back after at most one call of the provider
exactly when no refresh is marked, and the cache will do, or the last refresh
was just now, or the answer is not stored, or it will do, or a least interval
is set and the clock is positive. -/
theorem returnsAfterOne_iff (cfg : CredentialsConfig) (now : ℤ) (answers : ℕ → Answer)
    (copies : ℕ → Copies) (c : CredCache) :
    ReturnsAfterOne cfg now answers copies c ↔ c.refreshing = false ∧
      (need cfg now c = false ∨ tooSoon cfg now c = true ∨
        ¬ (usable (answers 0) = true ∧ (copies 0).accessKeyId = true ∧
          (copies 0).accessKeySecret = true) ∨
        expires cfg now (answers 0).expireTimeMs = false ∨ cfg.minInt > 0 ∧ now > 0) := by
  cases h : c.refreshing with
  | true =>
    refine iff_of_false ?_ fun hf => Bool.noConfusion hf.1
    rintro ⟨fuel, r, hr, -⟩
    rw [get_refreshing cfg now answers copies fuel 0 c h] at hr
    cases hr
  | false =>
    rw [eq_self_iff_true, true_and]
    by_cases hdone : need cfg now c = false ∨ tooSoon cfg now c = true
    · obtain ⟨r, hr, hcalls⟩ := get_done cfg now answers copies 0 0 c h hdone
      refine iff_of_true ⟨1, r, hr, by omega⟩ ?_
      rw [← or_assoc]
      exact Or.inl hdone
    · rw [not_or, Bool.not_eq_false, Bool.not_eq_true] at hdone
      obtain ⟨hneed, hsoon⟩ := hdone
      have hround := fun fuel => get_refresh cfg now answers copies fuel 0 c h hneed hsoon
      rw [hneed, hsoon, ← store_ok_iff now (answers 0) (copies 0) { c with refreshing := true }]
      simp only [Bool.true_eq_false, Bool.false_eq_true, false_or]
      by_cases hok : (store now (answers 0) (copies 0) { c with refreshing := true }).1 = true
      · rw [← stored_returns_iff cfg now answers copies _ _ _ hok]
        simp only [hok, if_true, not_true, false_or] at hround ⊢
        constructor
        · rintro ⟨fuel, r, hr, hcalls⟩
          cases fuel with
          | zero => cases hr
          | succ fuel => exact ⟨fuel, r, (hround fuel).symm.trans hr, hcalls⟩
        · rintro ⟨fuel, r, hr, hcalls⟩
          exact ⟨fuel+1, r, (hround fuel).trans hr, hcalls⟩
      · have hret := hround 0
        simp only [if_neg hok] at hret
        exact iff_of_true ⟨1, _, hret, le_rfl⟩ (Or.inl hok)

/-- No advance and no least interval, and a provider that hands out expired
credentials: the call asks for ever. -/
theorem expiredAnswers_never_return :
    ¬ ∀ (cfg : CredentialsConfig) (now : ℤ) (answers : ℕ → Answer) (copies : ℕ → Copies)
      (c : CredCache), c.refreshing = false → ReturnsAfterOne cfg now answers copies c := by
  intro hall
  obtain ⟨fuel, r, hr, -⟩ := hall ⟨0, 0⟩ 5 (fun _ => ⟨0, some [97], some [115], none, 1⟩)
    (fun _ => allCopies) CredCache.start rfl
  rw [get_never_returns ⟨0, 0⟩ 5 _ _ (by decide) (fun _ => by decide) fuel 0 _ rfl (by decide)
    (by decide)] at hr
  cases hr


section Together

/-- Where a sender stands: outside, at the top of the loop (or in its wait),
or between the two sections, with the provider. -/
inductive Phase where
  | idle
  | ready (now : ℤ)
  | asking (now : ℤ)
  deriving DecidableEq, Repr

def Phase.asks : Phase → ℕ
  | .asking _ => 1
  | _ => 0

/-- The clock of a call that begins, the answer of the provider, and the
copies of the section. -/
structure Input where
  now : ℤ
  answer : Answer
  copies : Copies
  deriving DecidableEq, Repr

/-- The cache, what the provider has answered, and what the calls have
returned. -/
structure Shared where
  cache : CredCache
  answers : List Answer
  returned : List (Option Triple)
  deriving DecidableEq, Repr

/-- One locked section. A wait may be woken at any time. -/
def move (cfg : CredentialsConfig) (a : Input) : Phase → Shared → Option (Phase × Shared)
  | .idle, s => some (.ready a.now, s)
  | .ready now, s =>
    match look cfg now a.copies s.cache with
    | .wait => some (.ready now, s)
    | .done r => some (.idle, { s with returned := r::s.returned })
    | .refresh c => some (.asking now, { s with cache := c })
  | .asking now, s =>
    let answers := a.answer::s.answers
    match store now a.answer a.copies s.cache with
    | (true, c) => some (.ready now, { s with cache := c, answers := answers })
    | (false, c) =>
      some (.idle, { cache := c, answers := answers, returned := none::s.returned })

def start : Machine.Crew Phase Shared := ⟨⟨.start, [], []⟩, fun _ => .idle⟩

/-- The fields are empty or those of one answer. -/
def Whole (answers : List Answer) (c : CredCache) : Prop :=
  (c.accessKeyId = none ∧ c.accessKeySecret = none ∧ c.securityToken = none) ∨
    ∃ a ∈ answers, usable a = true ∧ c.accessKeyId = a.accessKeyId ∧
      c.accessKeySecret = a.accessKeySecret ∧ c.securityToken = tokenOf a

def FromOne (answers : List Answer) (t : Triple) : Prop :=
  ∃ a ∈ answers, usable a = true ∧ a.accessKeyId = some t.accessKeyId ∧
    a.accessKeySecret = some t.accessKeySecret ∧ tokenOf a = t.securityToken

structure Kept (n : ℕ) (pc : ℕ → Phase) (s : Shared) : Prop where
  single : Threads.total n pc Phase.asks = if s.cache.refreshing then 1 else 0
  whole : Whole s.answers s.cache
  returned : ∀ t, some t ∈ s.returned → FromOne s.answers t

theorem look_refresh (cfg : CredentialsConfig) (now : ℤ) (m : Copies) (c c' : CredCache)
    (h : look cfg now m c = .refresh c') :
    c.refreshing = false ∧ c' = { c with refreshing := true } := by
  unfold look at h
  split_ifs at h with hr
  exact ⟨Bool.not_eq_true _ |>.mp hr, (Look.refresh.inj h).symm⟩

theorem look_done (cfg : CredentialsConfig) (now : ℤ) (m : Copies) (c : CredCache) (t : Triple)
    (h : look cfg now m c = .done (some t)) : owned m c = some t := by
  unfold look at h
  split_ifs at h
  · exact Look.done.inj h
  · exact Look.done.inj h
  · cases Look.done.inj h

theorem strdup_true (s : Option CStr) : strdup true s = s := by
  cases s <;> rfl

theorem owned_all (c : CredCache) (t : Triple) (h : owned allCopies c = some t) :
    c.accessKeyId = some t.accessKeyId ∧ c.accessKeySecret = some t.accessKeySecret ∧
      c.securityToken = t.securityToken := by
  simp only [owned, allCopies, strdup_true] at h
  split at h
  case h_1 hak hsk =>
    obtain rfl := Option.some.inj h
    exact ⟨hak, hsk, rfl⟩
  case h_2 => cases h

theorem Whole.fromOne (answers : List Answer) (c : CredCache) (t : Triple)
    (h : Whole answers c) (ht : owned allCopies c = some t) : FromOne answers t := by
  obtain ⟨hak, hsk, htok⟩ := owned_all c t ht
  rcases h with ⟨hnone, -, -⟩ | ⟨a, ha, huse, hak', hsk', htok'⟩
  · rw [hnone] at hak
    cases hak
  · exact ⟨a, ha, huse, hak'.symm.trans hak, hsk'.symm.trans hsk, htok'.symm.trans htok⟩

theorem Whole.mono (answers : List Answer) (a : Answer) (c : CredCache) (h : Whole answers c) :
    Whole (a::answers) c :=
  h.imp_right fun ⟨b, hb, hrest⟩ => ⟨b, List.mem_cons_of_mem a hb, hrest⟩

theorem FromOne.mono (answers : List Answer) (a : Answer) (t : Triple) (h : FromOne answers t) :
    FromOne (a::answers) t := by
  obtain ⟨b, hb, hrest⟩ := h
  exact ⟨b, List.mem_cons_of_mem a hb, hrest⟩

/-- The answer is stored as a whole, or the cache stays or is emptied. -/
theorem store_whole (now : ℤ) (a : Answer) (answers : List Answer) (c : CredCache)
    (h : Whole answers c) : Whole (a::answers) (store now a allCopies c).2 := by
  unfold store storeKeys
  dsimp only
  by_cases hu : usable a = true
  · rw [if_pos hu]
    simp only [allCopies, strdup_true]
    split_ifs
    · exact Or.inr ⟨a, List.mem_cons_self, hu, rfl, rfl, rfl⟩
    · exact Or.inl ⟨rfl, rfl, rfl⟩
  · rw [if_neg hu]
    exact h.mono answers a _

theorem move_kept (n i : ℕ) (hi : i < n) (cfg : CredentialsConfig) (a : Input)
    (ha : a.copies = allCopies) (pc : ℕ → Phase) (s s' : Shared) (q : Phase) (h : Kept n pc s)
    (hm : move cfg a (pc i) s = some (q, s')) : Kept n (Function.update pc i q) s' := by
  have htotal := Threads.total_update n i hi pc Phase.asks q
  have hle := Threads.le_total n i hi pc Phase.asks
  have hsingle := h.single
  cases hp : pc i with
  | idle =>
    rw [hp] at hm htotal
    obtain ⟨rfl, rfl⟩ := Prod.mk.inj (Option.some.inj hm)
    refine ⟨?_, h.whole, h.returned⟩
    simp only [Phase.asks] at htotal
    omega
  | ready now =>
    rw [hp] at hm htotal
    rw [move] at hm
    cases hl : look cfg now a.copies s.cache with
    | wait =>
      rw [hl] at hm
      obtain ⟨rfl, rfl⟩ := Prod.mk.inj (Option.some.inj hm)
      refine ⟨?_, h.whole, h.returned⟩
      simp only [Phase.asks] at htotal
      omega
    | done r =>
      rw [hl] at hm
      obtain ⟨rfl, rfl⟩ := Prod.mk.inj (Option.some.inj hm)
      refine ⟨?_, h.whole, ?_⟩
      · simp only [Phase.asks] at htotal
        dsimp only
        omega
      · intro t ht
        rcases List.mem_cons.mp ht with rfl | ht
        · rw [ha] at hl
          exact h.whole.fromOne _ _ t (look_done cfg now _ _ t hl)
        · exact h.returned t ht
    | refresh c =>
      rw [hl] at hm
      obtain ⟨rfl, rfl⟩ := Prod.mk.inj (Option.some.inj hm)
      obtain ⟨hfree, rfl⟩ := look_refresh cfg now _ _ c hl
      refine ⟨?_, h.whole, h.returned⟩
      rw [hfree] at hsingle
      simp only [Phase.asks, Bool.false_eq_true, if_false, if_true] at htotal hsingle ⊢
      omega
  | asking now =>
    rw [hp] at hm htotal hle
    have hwhole := store_whole now a.answer s.answers s.cache h.whole
    have hfree := store_refreshing now a.answer allCopies s.cache
    have hold : ∀ t, some t ∈ s.returned → FromOne (a.answer::s.answers) t := fun t ht =>
      (h.returned t ht).mono _ _ t
    -- the thread that asks is the one that the flag stands for
    have hrefreshing : s.cache.refreshing = true := by
      by_contra hr
      rw [if_neg hr] at hsingle
      simp only [Phase.asks] at hle
      omega
    rw [hrefreshing] at hsingle
    rw [move, ha] at hm
    generalize store now a.answer allCopies s.cache = r at *
    obtain ⟨ok, c⟩ := r
    dsimp only at hwhole hfree
    simp only [Phase.asks, if_true] at htotal hsingle
    cases ok with
    | true =>
      obtain ⟨rfl, rfl⟩ := Prod.mk.inj (Option.some.inj hm)
      refine ⟨?_, hwhole, hold⟩
      simp only [hfree, Bool.false_eq_true, if_false] at htotal ⊢
      omega
    | false =>
      obtain ⟨rfl, rfl⟩ := Prod.mk.inj (Option.some.inj hm)
      refine ⟨?_, hwhole, ?_⟩
      · simp only [hfree, Bool.false_eq_true, if_false] at htotal ⊢
        omega
      · intro t ht
        rcases List.mem_cons.mp ht with hnone | ht
        · cases hnone
        · exact hold t ht

theorem start_kept (n : ℕ) : Kept n start.pc start.shared where
  single := Threads.total_eq_zero n _ _ fun _ => rfl
  whole := Or.inl ⟨rfl, rfl, rfl⟩
  returned := by
    intro t ht
    cases ht

/-- However the sections of `n` senders interleave, with every copy made, at
most one of them is with the provider, the flag is set exactly while one is,
and what a call returns is one answer of the provider. -/
theorem refresh_single_flight (n : ℕ) (cfg : CredentialsConfig) (as : List (ℕ × Input))
    (w : Machine.Crew Phase Shared) (hcopies : ∀ a ∈ as, a.2.copies = allCopies)
    (h : Machine.run (Machine.Crew.step n (move cfg)) as start = some w) :
    Threads.total n w.pc Phase.asks ≤ 1 ∧
      (w.shared.cache.refreshing = true ↔ Threads.total n w.pc Phase.asks = 1) ∧
      ∀ t, some t ∈ w.shared.returned → FromOne w.shared.answers t := by
  have hkept : Kept n w.pc w.shared := by
    refine Machine.Crew.run_rule n (move cfg) (Kept n) (fun _ a => a.2.copies = allCopies) ?_ as
      start w (start_kept n) (Machine.along_of_forall _ _ as start hcopies) h
    intro v i a q s hi hv ha hm
    exact move_kept n i hi cfg a ha v.pc v.shared s q hv hm
  rw [hkept.single]
  refine ⟨?_, ?_, hkept.returned⟩
  · split_ifs <;> omega
  · split_ifs with hr
    · exact iff_of_true hr rfl
    · exact iff_of_false hr not_false

def answered : Input := ⟨5, ⟨0, some [97], some [115], some [116], 0⟩, allCopies⟩

/-- Two senders: the second waits while the first is with the provider, and
both get its answer. -/
def twoSenders : List (ℕ × Input) := [0, 1, 0, 1, 0, 0, 1].map fun i => (i, answered)

theorem twoSenders_refresh :
    ∃ w, Machine.run (Machine.Crew.step 2 (move ⟨0, 0⟩)) twoSenders start = some w ∧
      w.shared.returned = [some ⟨[97], [115], some [116]⟩, some ⟨[97], [115], some [116]⟩] ∧
      Threads.total 2 w.pc Phase.asks ≤ 1 ∧
      (w.shared.cache.refreshing = true ↔ Threads.total 2 w.pc Phase.asks = 1) ∧
      ∀ t, some t ∈ w.shared.returned → FromOne w.shared.answers t :=
  ⟨_, rfl, rfl, refresh_single_flight 2 ⟨0, 0⟩ twoSenders _ (by decide) rfl⟩

end Together

end VeTls.Credentials
