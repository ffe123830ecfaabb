import VeTls.Lib.Memo
import VeTls.Sign.Request

/-!
# The caches of a signing thread

A thread remembers the last path and query it normalised, and the last
signing key. The key is found by hashes of region and service and by the
secret, which is kept up to 96 bytes and as a digest above.
-/

set_option autoImplicit false

namespace VeTls.Sign

open VeTls.Wire (Bytes)
open VeTls.Memo (Policy Holds)

structure SignNormCache where
  path : Bytes
  query : Bytes
  normUri : Bytes
  normQuery : Bytes
  deriving DecidableEq, Repr

structure SigningKeyCache where
  date8 : Bytes
  regionSig : UInt64
  serviceSig : UInt64
  skLen : ℕ
  skUseDigest : Bool
  skInline : Bytes
  skDigest : Bytes
  key : Bytes
  deriving DecidableEq, Repr

/-- An entry that is not valid is `none`. -/
structure SignCaches where
  norm : Option SignNormCache
  signingKey : Option SigningKeyCache
  deriving DecidableEq, Repr

def SignCaches.start : SignCaches := ⟨none, none⟩

def signThreadCacheClear (c : SignCaches) : SignCaches := { c with signingKey := none }

def normFits (path query uri nquery : Bytes) : Bool :=
  decide (path.length+1 ≤ 128) && decide (query.length+1 ≤ 512) && decide (uri.length+1 ≤ 256) &&
    decide (nquery.length+1 ≤ 1024)

def normPathQueryForSign (path query : Bytes) (c : SignCaches) : (Bytes × Bytes) × SignCaches :=
  let miss :=
    let uri := normUri path
    let nquery := normQuery query
    ((uri, nquery), if normFits path query uri nquery then
      { c with norm := some ⟨path, query, uri, nquery⟩ } else c)
  match c.norm with
  | some e => if e.path = path ∧ e.query = query then ((e.normUri, e.normQuery), c) else miss
  | none => miss

def skInlineCacheMax : ℕ := 96

/-- The secret is the one of the entry, as far as the entry tells. -/
def skMatch (e : SigningKeyCache) (sk : Bytes) : Bool :=
  if e.skUseDigest then decide (e.skDigest = sha256 sk)
  else decide (sk.length ≤ skInlineCacheMax) && decide (e.skInline = sk)

def signingKeyCached (sk date8 region service : Bytes) (c : SignCaches) : Bytes × SignCaches :=
  let miss :=
    let key := signingKey sk date8 region service
    let small := decide (sk.length ≤ skInlineCacheMax)
    let e : SigningKeyCache := ⟨date8, fnv1a64 region, fnv1a64 service, sk.length, !small,
      if small then sk else [], if small then [] else sha256 sk, key⟩
    (key, { c with signingKey := some e })
  match c.signingKey with
  | some e =>
    if e.date8 = date8 ∧ e.regionSig = fnv1a64 region ∧ e.serviceSig = fnv1a64 service ∧
        e.skLen = sk.length ∧ skMatch e sk = true then (e.key, c) else miss
  | none => miss

def cachedSteps : Steps SignCaches := ⟨normPathQueryForSign, signingKeyCached⟩

inductive SignOp where
  | sign (r : SignRequest)
  | clear
  deriving DecidableEq, Repr

/-- What the calls of a thread return. -/
def signRun : List SignOp → SignCaches → List Signed
  | [], _ => []
  | .sign r::ops, c => (signV4AppendAt cachedSteps r c).1::signRun ops (signV4AppendAt cachedSteps r c).2
  | .clear::ops, c => signRun ops (signThreadCacheClear c)

def requests (ops : List SignOp) : List SignRequest :=
  ops.filterMap fun
    | .sign r => some r
    | .clear => none

section Tables

/-- The last normalised pair, if it fits. -/
def normPolicy : Policy Unit (Bytes × Bytes) (Bytes × Bytes) :=
  ⟨fun _ => (), fun _ => true, fun q => normFits q.1.1 q.1.2 q.2.1 q.2.2⟩

def normTable (c : SignCaches) (_ : Unit) : Option ((Bytes × Bytes) × (Bytes × Bytes)) :=
  c.norm.map fun e => ((e.path, e.query), (e.normUri, e.normQuery))

def normQuestion (path query : Bytes) : (Bytes × Bytes) × (Bytes × Bytes) :=
  ((path, query), (normUri path, normQuery query))

theorem update_unit {β : Type*} (f : Unit → β) (v : β) :
    Function.update f () v = fun _ => v := by
  funext u
  exact Function.update_self u v f

theorem normHit (c : SignCaches) (path query : Bytes) :
    normPolicy.hit (normTable c) (path, query) = c.norm.bind fun e =>
      if e.path = path ∧ e.query = query then some (e.normUri, e.normQuery) else none := by
  unfold Policy.hit normTable
  cases c.norm with
  | none => rfl
  | some e => simp only [Option.map_some, Prod.mk.injEq, Option.bind_some]

theorem normPathQueryForSign_table (path query : Bytes) (c : SignCaches) :
    (normPathQueryForSign path query c).1 =
        normPolicy.ask (normTable c) (normQuestion path query) ∧
      normTable (normPathQueryForSign path query c).2 =
        normPolicy.learn (normTable c) (normQuestion path query) ∧
      (normPathQueryForSign path query c).2.signingKey = c.signingKey := by
  have hlearn : normTable (if normFits path query (normUri path) (normQuery query) then
      { c with norm := some ⟨path, query, normUri path, normQuery query⟩ } else c) =
      if normFits path query (normUri path) (normQuery query) then
        Function.update (normTable c) () (some (normQuestion path query)) else normTable c := by
    split
    · rw [update_unit]
      rfl
    · rfl
  have hkey : (if normFits path query (normUri path) (normQuery query) then
      { c with norm := some ⟨path, query, normUri path, normQuery query⟩ } else c).signingKey =
      c.signingKey := by
    split <;> rfl
  have hhit := normHit c path query
  unfold normPathQueryForSign Policy.ask Policy.learn
  rw [show (normQuestion path query).1 = (path, query) from rfl, hhit]
  cases hc : c.norm with
  | none => exact ⟨rfl, hlearn, hkey⟩
  | some e =>
    dsimp only [Option.bind_some]
    split
    · exact ⟨rfl, rfl, rfl⟩
    · exact ⟨rfl, hlearn, hkey⟩

/-- What the entry of a signing key is found by; the secret of the entry is
the text or its digest, as its length says. -/
structure KeyTag where
  date8 : Bytes
  regionSig : UInt64
  serviceSig : UInt64
  skLen : ℕ
  sk : Bytes
  deriving DecidableEq, Repr

def keyTag (sk date8 region service : Bytes) : KeyTag :=
  ⟨date8, fnv1a64 region, fnv1a64 service, sk.length,
    if sk.length ≤ skInlineCacheMax then sk else sha256 sk⟩

def keyQuestion (sk date8 region service : Bytes) : KeyTag × Bytes :=
  (keyTag sk date8 region service, signingKey sk date8 region service)

def keyPolicy : Policy Unit KeyTag Bytes := ⟨fun _ => (), fun _ => true, fun _ => true⟩

def entryTag (e : SigningKeyCache) : KeyTag :=
  ⟨e.date8, e.regionSig, e.serviceSig, e.skLen, if e.skUseDigest then e.skDigest else e.skInline⟩

def keyTable (c : SignCaches) (_ : Unit) : Option (KeyTag × Bytes) :=
  c.signingKey.map fun e => (entryTag e, e.key)

/-- An entry has the digest exactly when the secret is long. -/
def Kept (c : SignCaches) : Prop :=
  ∀ e, c.signingKey = some e → e.skUseDigest = !decide (e.skLen ≤ skInlineCacheMax)

theorem entryTag_eq_iff (e : SigningKeyCache) (sk date8 region service : Bytes)
    (h : e.skUseDigest = !decide (e.skLen ≤ skInlineCacheMax)) :
    entryTag e = keyTag sk date8 region service ↔
      e.date8 = date8 ∧ e.regionSig = fnv1a64 region ∧ e.serviceSig = fnv1a64 service ∧
        e.skLen = sk.length ∧ skMatch e sk = true := by
  unfold entryTag keyTag skMatch
  rw [KeyTag.mk.injEq]
  refine and_congr_right fun _ => and_congr_right fun _ => and_congr_right fun _ =>
    and_congr_right fun hlen => ?_
  rw [h, hlen]
  by_cases hs : sk.length ≤ skInlineCacheMax
  · simp [hs]
  · simp [hs]

theorem keyHit (c : SignCaches) (hc : Kept c) (sk date8 region service : Bytes) :
    keyPolicy.hit (keyTable c) (keyTag sk date8 region service) = c.signingKey.bind fun e =>
      if e.date8 = date8 ∧ e.regionSig = fnv1a64 region ∧ e.serviceSig = fnv1a64 service ∧
        e.skLen = sk.length ∧ skMatch e sk = true then some e.key else none := by
  unfold Policy.hit keyTable
  cases he : c.signingKey with
  | none => rfl
  | some e =>
    simp only [Option.map_some, Option.bind_some,
      entryTag_eq_iff e sk date8 region service (hc e he)]

theorem signingKeyCached_table (sk date8 region service : Bytes) (c : SignCaches) (hc : Kept c) :
    (signingKeyCached sk date8 region service c).1 =
        keyPolicy.ask (keyTable c) (keyQuestion sk date8 region service) ∧
      keyTable (signingKeyCached sk date8 region service c).2 =
        keyPolicy.learn (keyTable c) (keyQuestion sk date8 region service) ∧
      (signingKeyCached sk date8 region service c).2.norm = c.norm ∧
      Kept (signingKeyCached sk date8 region service c).2 := by
  have hnew : ∀ e : SigningKeyCache,
      e = ⟨date8, fnv1a64 region, fnv1a64 service, sk.length,
        !decide (sk.length ≤ skInlineCacheMax),
        if decide (sk.length ≤ skInlineCacheMax) then sk else [],
        if decide (sk.length ≤ skInlineCacheMax) then [] else sha256 sk,
        signingKey sk date8 region service⟩ →
      keyTable { c with signingKey := some e } = Function.update (keyTable c) ()
        (some (keyQuestion sk date8 region service)) ∧ Kept { c with signingKey := some e } := by
    rintro e rfl
    constructor
    · rw [update_unit]
      funext u
      by_cases hs : sk.length ≤ skInlineCacheMax <;>
        simp [keyTable, entryTag, keyQuestion, keyTag, hs]
    · rintro e' he
      obtain rfl := Option.some.inj he
      rfl
  have hhit := keyHit c hc sk date8 region service
  unfold signingKeyCached Policy.ask Policy.learn
  rw [show (keyQuestion sk date8 region service).1 = keyTag sk date8 region service from rfl, hhit]
  cases he : c.signingKey with
  | none => exact ⟨rfl, (hnew _ rfl).1, rfl, (hnew _ rfl).2⟩
  | some e =>
    dsimp only [Option.bind_some]
    split
    · exact ⟨rfl, rfl, rfl, hc⟩
    · exact ⟨rfl, (hnew _ rfl).1, rfl, (hnew _ rfl).2⟩

end Tables

section Runs

/-- The hashes tell the strings of the requests apart. -/
structure Distinct (rs : List SignRequest) : Prop where
  region : ∀ r ∈ rs, ∀ r' ∈ rs, fnv1a64 r.region = fnv1a64 r'.region → r.region = r'.region
  service : ∀ r ∈ rs, ∀ r' ∈ rs, fnv1a64 r.service = fnv1a64 r'.service → r.service = r'.service
  secret : ∀ r ∈ rs, ∀ r' ∈ rs, 96 < r.accessKeySecret.length → 96 < r'.accessKeySecret.length →
    sha256 r.accessKeySecret = sha256 r'.accessKeySecret → r.accessKeySecret = r'.accessKeySecret

def normAsked (q : (Bytes × Bytes) × (Bytes × Bytes)) : Prop := q = normQuestion q.1.1 q.1.2

def keyAsked (rs : List SignRequest) (q : KeyTag × Bytes) : Prop :=
  ∃ r ∈ rs, q = keyQuestion r.accessKeySecret r.date8 r.region r.service

/-- With one tag there is one key. -/
theorem keyAsked_one (rs : List SignRequest) (h : Distinct rs) (a b : KeyTag × Bytes)
    (ha : keyAsked rs a) (hb : keyAsked rs b) (hab : a.1 = b.1) : a.2 = b.2 := by
  obtain ⟨r, hr, rfl⟩ := ha
  obtain ⟨r', hr', rfl⟩ := hb
  unfold keyQuestion keyTag at hab
  rw [KeyTag.mk.injEq] at hab
  obtain ⟨hdate, hregion, hservice, hlen, hsk⟩ := hab
  have hsecret : r.accessKeySecret = r'.accessKeySecret := by
    rw [← hlen] at hsk
    by_cases hs : r.accessKeySecret.length ≤ skInlineCacheMax
    · rwa [if_pos hs, if_pos hs] at hsk
    · rw [if_neg hs, if_neg hs] at hsk
      have hlong : 96 < r.accessKeySecret.length := Nat.lt_of_not_le hs
      exact h.secret r hr r' hr' hlong (hlen ▸ hlong) hsk
  show signingKey _ _ _ _ = signingKey _ _ _ _
  rw [hsecret, hdate, h.region r hr r' hr' hregion, h.service r hr r' hr' hservice]

/-- What the caches hold comes from requests of the run. -/
structure Sound (rs : List SignRequest) (c : SignCaches) : Prop where
  norm : Holds (normTable c) normAsked
  key : Holds (keyTable c) (keyAsked rs)
  kept : Kept c

theorem sound_start (rs : List SignRequest) : Sound rs .start where
  norm := by
    intro i e h
    cases h
  key := by
    intro i e h
    cases h
  kept := by
    intro e h
    cases h

theorem Sound.clear {rs : List SignRequest} {c : SignCaches} (h : Sound rs c) :
    Sound rs (signThreadCacheClear c) where
  norm := h.norm
  key := by
    intro i e he
    cases he
  kept := by
    intro e he
    cases he

theorem normKeyTables (c d : SignCaches) (h : d.signingKey = c.signingKey) :
    keyTable d = keyTable c ∧ (Kept c → Kept d) := by
  refine ⟨?_, fun hc e he => hc e (h ▸ he)⟩
  unfold keyTable
  rw [h]

theorem Sound.norm_step {rs : List SignRequest} {c : SignCaches} (h : Sound rs c)
    (path query : Bytes) :
    (normPathQueryForSign path query c).1 = (normUri path, normQuery query) ∧
      Sound rs (normPathQueryForSign path query c).2 := by
  obtain ⟨hans, htab, hkey⟩ := normPathQueryForSign_table path query c
  have hasked : normAsked (normQuestion path query) := rfl
  constructor
  · rw [hans]
    apply normPolicy.ask_eq_of_holds (normTable c) normAsked _ h.norm hasked
    intro a b ha hb hab
    rw [ha, hb, hab]
  · obtain ⟨hkt, hkept⟩ := normKeyTables c _ hkey
    constructor
    · rw [htab]
      exact normPolicy.holds_learn _ _ _ h.norm hasked
    · rw [hkt]
      exact h.key
    · exact hkept h.kept

theorem Sound.key_step {rs : List SignRequest} {c : SignCaches} (h : Sound rs c)
    (hd : Distinct rs) (r : SignRequest) (hr : r ∈ rs) :
    (signingKeyCached r.accessKeySecret r.date8 r.region r.service c).1 =
        signingKey r.accessKeySecret r.date8 r.region r.service ∧
      Sound rs (signingKeyCached r.accessKeySecret r.date8 r.region r.service c).2 := by
  obtain ⟨hans, htab, hnorm, hkept⟩ :=
    signingKeyCached_table r.accessKeySecret r.date8 r.region r.service c h.kept
  have hasked : keyAsked rs (keyQuestion r.accessKeySecret r.date8 r.region r.service) :=
    ⟨r, hr, rfl⟩
  constructor
  · rw [hans]
    exact keyPolicy.ask_eq_of_holds (keyTable c) (keyAsked rs) _ h.key hasked (keyAsked_one rs hd)
  · constructor
    · unfold normTable
      rw [hnorm]
      exact h.norm
    · rw [htab]
      exact keyPolicy.holds_learn _ _ _ h.key hasked
    · exact hkept

/-- A call gives what it gives without the caches. -/
theorem Sound.sign {rs : List SignRequest} {c : SignCaches} (h : Sound rs c) (hd : Distinct rs)
    (r : SignRequest) (hr : r ∈ rs) :
    (signV4AppendAt cachedSteps r c).1 = (signV4AppendAt plainSteps r ()).1 ∧
      Sound rs (signV4AppendAt cachedSteps r c).2 := by
  obtain ⟨hnorm, hc⟩ := h.norm_step r.path (r.query.getD [])
  obtain ⟨hkey, hc'⟩ := hc.key_step hd r hr
  unfold signV4AppendAt
  dsimp only [cachedSteps, plainSteps]
  rw [hnorm, hkey]
  split
  · exact ⟨rfl, h⟩
  · split
    · exact ⟨rfl, hc⟩
    · split
      · exact ⟨rfl, hc⟩
      · exact ⟨rfl, hc'⟩

theorem signRun_sound (rs : List SignRequest) (hd : Distinct rs) (ops : List SignOp)
    (c : SignCaches) (h : Sound rs c) (hops : ∀ r ∈ requests ops, r ∈ rs) :
    signRun ops c = (requests ops).map fun r => (signV4AppendAt plainSteps r ()).1 := by
  induction ops generalizing c with
  | nil => rfl
  | cons op ops ih =>
    cases op with
    | clear => exact ih _ h.clear hops
    | sign r =>
      have hsplit : requests (.sign r::ops) = r::requests ops := rfl
      rw [hsplit] at hops ⊢
      obtain ⟨hres, hc⟩ := h.sign hd r (hops r List.mem_cons_self)
      rw [signRun, List.map_cons, hres, ih _ hc fun r' hr' => hops r' (List.mem_cons_of_mem r hr')]

end Runs

/-- The calls of a thread, with the signing key forgotten in between or not,
give what each of them gives without the caches, provided that the hashes
tell the regions, the services and the long secrets of the run apart. -/
theorem signRun_transparent (ops : List SignOp) (hd : Distinct (requests ops)) :
    signRun ops .start = (requests ops).map fun r => (signV4AppendAt plainSteps r ()).1 :=
  signRun_sound (requests ops) hd ops .start (sound_start _) fun _ hr => hr

/-- A short secret, a rotated date, another region, and a clear. -/
def rotated : List SignOp :=
  let r : SignRequest := ⟨text "ak", text "sk", none, text "cn-a", text "TLS", text "POST",
    text "h", text "/PutLogs", some (text "TopicId=t"), none, some (text "20240101T000000Z"),
    some (text "x-a: 1"), []⟩
  [.sign r, .sign { r with xdateOverride := some (text "20240102T000000Z") }, .clear,
    .sign { r with region := text "cn-b", accessKeySecret := text "sl" }]

theorem rotated_transparent :
    signRun rotated .start = (requests rotated).map fun r => (signV4AppendAt plainSteps r ()).1 := by
  apply signRun_transparent rotated
  constructor
  · decide +kernel
  · decide +kernel
  · intro r hr r' hr' hlong
    have hshort : ∀ r ∈ requests rotated, r.accessKeySecret.length ≤ 96 := by decide +kernel
    exact absurd hlong (Nat.not_lt.mpr (hshort r hr))

end VeTls.Sign
