import VeTls.Compress.Payload
import VeTls.Proto.RoundTrip
import VeTls.Sign.Accepted
import VeTls.Sign.PutLogs
import VeTls.Sign.Target

/-!
# From logs to what a server stores

The request of a task: the block of headers, the signature over it and the
fields behind it. A server that verifies the request, checks the digest and
the size, undoes the compression and decodes the body has the logs.
-/

set_option autoImplicit false

namespace VeTls.Delivery

open VeTls.Env (isHttpUrl)
open VeTls.Proto (DecodedGroup Entry Meta decodeGroupList encodeEntries entriesBytes)
open VeTls.Sign
open VeTls.Sign.SignRequest (Segment Unsigned)
open VeTls.Url (inAuthority)
open VeTls.Wire (Bytes)

section Source

/-- The send configuration of a thread; the URL, the host and the query are
made of endpoint and topic. -/
structure SendCfg where
  endpoint : Bytes
  topicId : Bytes
  region : Option Bytes
  apiVersion : Option Bytes
  compressType : Option Bytes
  defaultHashKey : Option Bytes
  deriving DecidableEq, Repr

structure SendArgs where
  accessKeyId : Bytes
  accessKeySecret : Bytes
  securityToken : Option Bytes
  actualCompressType : Option Bytes
  body : Bytes
  rawBodySize : ℕ
  logCount : ℤ
  earliest : ℤ
  latest : ℤ
  hashKey : Option Bytes
  deriving DecidableEq, Repr

structure HttpCall where
  method : Bytes
  url : Bytes
  headers : Bytes
  body : Bytes
  deriving DecidableEq, Repr

/-- `%d` and `%lld`. -/
def signedDecimal (z : ℤ) : Bytes := if z < 0 then 45::decimal z.natAbs else decimal z.natAbs

namespace SendArgs

variable (a : SendArgs) (cfg : SendCfg)

def putLogs : PutLogs :=
  ⟨cfg.apiVersion, a.actualCompressType, cfg.compressType, a.hashKey, cfg.defaultHashKey, a.body,
    a.rawBodySize⟩

def signRequest (clock block : Bytes) : SignRequest :=
  { accessKeyId := a.accessKeyId
    accessKeySecret := a.accessKeySecret
    securityToken := a.securityToken
    region := cfg.region.getD []
    service := text "TLS"
    method := text "POST"
    host := (target cfg.endpoint cfg.topicId).host
    path := text "/PutLogs"
    query := some (target cfg.endpoint cfg.topicId).query
    body := some a.body
    xdateOverride := none
    headersIn := some block
    clock := clock }

def counted : List KvPair :=
  [(text "log-count", signedDecimal a.logCount),
    (text "earliest-log-time", signedDecimal a.earliest),
    (text "latest-log-time", signedDecimal a.latest)]

end SendArgs

/-- The request that is handed to the HTTP client, or the message of the
error. Signing gets a block, so it does not crash. -/
def sendPutLogs {σ : Type*} (steps : Steps σ) (cfg : SendCfg) (a : SendArgs) (clock : Bytes)
    (s : σ) : Except Bytes HttpCall × σ :=
  if a.body = [] ∨ a.rawBodySize = 0 then (.error (text "invalid request"), s)
  else match (a.putLogs cfg).headers with
    | none => (.error (text "build headers failed"), s)
    | some block =>
      match signV4AppendAt steps (a.signRequest cfg clock block) s with
      | (.ok signed, s) =>
        match a.counted.foldlM headersAppend signed with
        | none => (.error (text "build headers failed"), s)
        | some headers =>
          (.ok ⟨text "POST", (target cfg.endpoint cfg.topicId).url, headers, a.body⟩, s)
      | (_, s) => (.error (text "sign request failed"), s)

end Source

section Server

/-- What a server has of a request. -/
structure Stored where
  accessKeyId : Bytes
  topicId : Bytes
  hashKey : Bytes
  logCount : Bytes
  groups : List DecodedGroup
  deriving DecidableEq, Repr

def topicOf (query : Bytes) : Option Bytes :=
  ((decodePairs query).find? fun p => p.1 == text "TopicId").map Prod.snd

def HttpCall.request (c : HttpCall) (u : Url.Parts) : HttpRequest :=
  ⟨c.method, u.path, u.query.getD [], c.headers, c.body⟩

/-- What a header of the request is checked for. -/
def Checks (q : HttpRequest) (u : Url.Parts) (raw : Bytes) : Prop :=
  q.method = text "POST" ∧ q.path = text "/PutLogs" ∧
    q.field (text "host") = some u.authority ∧
    q.field (text "content-type") = some (text "application/x-protobuf") ∧
    q.field (text "content-md5") = some (hexUpper (md5 q.body)) ∧
    q.field (text "x-tls-bodyrawsize") = some (decimal raw.length)

instance (q : HttpRequest) (u : Url.Parts) (raw : Bytes) : Decidable (Checks q u raw) :=
  inferInstanceAs (Decidable (_ ∧ _))

def HttpCall.store (inflate secretOf : Bytes → Option Bytes) (c : HttpCall) : Option Stored := do
  let u ← Url.parse c.url
  let q := c.request u
  let accessKeyId ← q.verify secretOf
  let topicId ← topicOf q.query
  let hashKey ← q.field (text "x-tls-hashkey")
  let logCount ← q.field (text "log-count")
  let compressType ← q.field (text "x-tls-compresstype")
  let raw ← Payload.receive inflate compressType q.body
  let groups ← decodeGroupList raw
  if Checks q u raw then return ⟨accessKeyId, topicId, hashKey, logCount, groups⟩ else none

end Server

section Values

theorem tight_of_solid (v : Bytes) (h : ∀ c ∈ v, isSpace c = false) : Tight v where
  line := fun hc => absurd (h 10 hc) (by decide)
  trimmed := trim_of_solid v h

theorem decimal_solid (n : ℕ) : ∀ c ∈ decimal n, isSpace c = false := by
  intro c hc
  rw [decimal] at hc
  split at hc
  · rw [List.mem_singleton.mp hc]
    decide
  · obtain ⟨d, hd, rfl⟩ := List.mem_map.mp hc
    have hlt : d < 10 := Nat.digits_lt_base (by decide) (List.mem_reverse.mp hd)
    have hall : ∀ d : Fin 10, isSpace (UInt8.ofNat (48+d)) = false := by decide
    exact hall ⟨d, hlt⟩

theorem signedDecimal_tight (z : ℤ) : Tight (signedDecimal z) := by
  refine tight_of_solid _ fun c hc => ?_
  rw [signedDecimal] at hc
  split at hc
  · rcases List.mem_cons.mp hc with rfl | hc
    · decide
    · exact decimal_solid _ c hc
  · exact decimal_solid _ c hc

theorem hexUpper_tight (data : Bytes) : Tight (hexUpper data) := by
  refine tight_of_solid _ fun c hc => ?_
  obtain ⟨b, -, hb⟩ := List.mem_flatMap.mp hc
  have hall := Percent.forall_byte
    (fun b => (isSpace (hexDigitUpper (b >>> 4)) || isSpace (hexDigitUpper (b &&& 15))) = false)
    (by decide +kernel) b
  rw [Bool.or_eq_false_iff] at hall
  rw [List.mem_cons, List.mem_singleton] at hb
  rcases hb with rfl | rfl
  · exact hall.1
  · exact hall.2

theorem length_decimal (n : ℕ) (h : n < 2^64) : (decimal n).length ≤ 20 := by
  rw [decimal]
  split
  · decide
  · rw [List.length_map, List.length_reverse, Nat.digits_length_le_iff (by decide)]
    omega

theorem length_signedDecimal (z : ℤ) (h : z.natAbs < 2^64) : (signedDecimal z).length ≤ 21 := by
  have hdigits := length_decimal z.natAbs h
  rw [signedDecimal]
  split
  · rw [List.length_cons]
    omega
  · omega

theorem length_hexUpper_md5 (data : Bytes) : (hexUpper (md5 data)).length = 32 := by
  simp [hexUpper, md5, md5Final, storeLe32]

theorem headersAppend_fields (fields : List KvPair) (headers : Bytes)
    (h : ∀ f ∈ fields, f.1.length+f.2.length+3 ≤ 2^31-1) :
    fields.foldlM headersAppend headers = some (headers++fieldText fields) := by
  induction fields generalizing headers with
  | nil => simp [fieldText, headerText]
  | cons f fields ih =>
    have hline : ¬ (fieldLine f.1 f.2++[10]).length > 2^31-1 := by
      have hmark : (text ": ").length = 2 := by decide
      have := h f List.mem_cons_self
      simp only [fieldLine, List.length_append, List.length_singleton, hmark]
      omega
    rw [List.foldlM_cons, headersAppend, if_neg hline]
    dsimp only [Option.bind_eq_bind, Option.bind_some]
    rw [ih _ fun x hx => h x (List.mem_cons_of_mem f hx)]
    simp [fieldText, headerText, List.append_assoc]

theorem solid_of_strcasecmp (ct name : Bytes)
    (hname : ∀ c ∈ name.map toLower, isSpace c = false) (h : Payload.strcasecmp ct name = true) :
    ∀ c ∈ ct, isSpace c = false := by
  intro c hc
  have hlower : isSpace (toLower c) = isSpace c :=
    Percent.forall_byte (fun c => isSpace (toLower c) = isSpace c) (by decide +kernel) c
  rw [← hlower]
  apply hname
  rw [← beq_iff_eq.mp h]
  exact List.mem_map_of_mem hc

/-- A compress type that a receiver knows. -/
theorem receive_known (inflate : Bytes → Option Bytes) (ct payload raw : Bytes)
    (h : Payload.receive inflate ct payload = some raw) : Tight ct ∧ ct.length ≤ 4 := by
  have hall : ∀ name ∈ [text "none", text "zlib", text "lz4"], Payload.strcasecmp ct name = true →
      Tight ct ∧ ct.length ≤ 4 := by
    have hnames : ∀ name ∈ [text "none", text "zlib", text "lz4"],
        (∀ c ∈ name.map toLower, isSpace c = false) ∧ name.length ≤ 4 := by decide +kernel
    intro name hname hcmp
    refine ⟨tight_of_solid ct (solid_of_strcasecmp ct name (hnames name hname).1 hcmp), ?_⟩
    have hlen := congrArg List.length (beq_iff_eq.mp hcmp)
    rw [List.length_map, List.length_map] at hlen
    rw [hlen]
    exact (hnames name hname).2
  unfold Payload.receive at h
  split at h
  · exact hall (text "none") (by simp) ‹_›
  · split at h
    · exact hall (text "zlib") (by simp) ‹_›
    · split at h
      · exact hall (text "lz4") (by simp) ‹_›
      · cases h

theorem find_of_nodup (pairs : List KvPair) (p : KvPair) (hnodup : (pairs.map Prod.fst).Nodup)
    (hp : p ∈ pairs) : pairs.find? (fun x => x.1 == p.1) = some p := by
  induction pairs with
  | nil => exact absurd hp List.not_mem_nil
  | cons x pairs ih =>
    rw [List.map_cons, List.nodup_cons] at hnodup
    rcases List.mem_cons.mp hp with rfl | hp
    · exact List.find?_cons_of_pos (beq_self_eq_true p.1)
    · have hne : ¬ (x.1 == p.1) = true := fun he =>
        hnodup.1 (beq_iff_eq.mp he ▸ List.mem_map_of_mem hp)
      rw [List.find?_cons]
      simp only [hne]
      exact ih hnodup.2 hp

theorem field_of_mem (q : HttpRequest) (p : KvPair)
    (hnodup : ((textPairs q.headers).map Prod.fst).Nodup) (hp : p ∈ textPairs q.headers) :
    q.field p.1 = some p.2 := by
  rw [HttpRequest.field, find_of_nodup _ p hnodup hp]
  rfl

end Values

section Request

variable {cfg : SendCfg} {a : SendArgs} {clock : Bytes}

/-- What the settings, the credentials and the clock must be for a request
that a server can read: the endpoint is a host, the topic has nothing to
encode, and no value goes on in another line or has the separators of the
Authorization. -/
structure Settled (cfg : SendCfg) (a : SendArgs) (clock : Bytes) : Prop where
  endpoint : isHttpUrl cfg.endpoint = true
  hostOnly : HostOnly cfg.endpoint cfg.topicId
  host : Tight (extractHost cfg.endpoint)
  topicId : cfg.topicId ≠ [] ∧ ∀ c ∈ cfg.topicId, shouldEscape c = false
  region : Segment (cfg.region.getD []) ∧ (cfg.region.getD []).length < 235
  accessKeyId : Segment a.accessKeyId
  token : ∀ t ∈ a.securityToken, Tight t
  clock : clock.length = 16 ∧ Tight clock ∧ Segment (clock.take 8)
  apiVersion : Unbroken (a.putLogs cfg).api ∧ (a.putLogs cfg).api.length < 2^30
  key : Unbroken (a.putLogs cfg).key ∧ (a.putLogs cfg).key.length < 2^30
  counts : ∀ z ∈ [a.logCount, a.earliest, a.latest], z.natAbs < 2^64

/-- With a payload, too. -/
structure Sendable (cfg : SendCfg) (a : SendArgs) (clock : Bytes) : Prop extends
    Settled cfg a clock where
  compress : Tight (a.putLogs cfg).compress ∧ (a.putLogs cfg).compress.length ≤ 4
  rawBodySize : a.rawBodySize < 2^64
  body : a.body ≠ [] ∧ a.rawBodySize ≠ 0

def SendArgs.block (a : SendArgs) (cfg : SendCfg) : Bytes := fieldText (a.putLogs cfg).fields

def SendArgs.signing (a : SendArgs) (cfg : SendCfg) (clock : Bytes) : SignRequest :=
  a.signRequest cfg clock (a.block cfg)

theorem Sendable.fields_unbroken (h : Sendable cfg a clock) :
    ∀ f ∈ (a.putLogs cfg).fields, Unbroken f.2 :=
  ((a.putLogs cfg).fields_unbroken).mpr
    ⟨h.apiVersion.1, unbroken_of_notMem _ h.compress.1.line, h.key.1⟩

theorem Sendable.headers (h : Sendable cfg a clock) :
    (a.putLogs cfg).headers = some (a.block cfg) := by
  have hbody : ¬ ((a.putLogs cfg).body = [] ∨ (a.putLogs cfg).rawBodySize = 0) :=
    not_or.mpr h.body
  have hraw := length_decimal a.rawBodySize h.rawBodySize
  have hmd5 := length_hexUpper_md5 a.body
  have hnames : (text "Content-Type").length = 12 ∧ (text "application/x-protobuf").length = 22 ∧
      (text "Content-MD5").length = 11 ∧ (text "x-tls-apiversion").length = 16 ∧
      (text "x-tls-bodyrawsize").length = 17 ∧ (text "x-tls-compresstype").length = 18 ∧
      (text "x-tls-hashkey").length = 13 := by decide
  obtain ⟨h1, h2, h3, h4, h5, h6, h7⟩ := hnames
  have hapi := h.apiVersion.2
  have hcompress := h.compress.2
  have hkey := h.key.2
  rw [PutLogs.headers, if_neg hbody, headersAppend_fields, List.nil_append]
  · rfl
  · simp only [PutLogs.fields, List.forall_mem_cons, h1, h2, h3, h4, h5, h6, h7]
    refine ⟨by omega, ?_, by omega, ?_, by omega, by omega, by simp⟩
    · rw [show (a.putLogs cfg).body = a.body from rfl]
      omega
    · rw [show (a.putLogs cfg).rawBodySize = a.rawBodySize from rfl]
      omega

theorem Sendable.parse_block (h : Sendable cfg a clock) :
    parseHeaders (a.block cfg) = (a.putLogs cfg).fields.map fieldPair :=
  (parse_fields_unbroken _ (a.putLogs cfg).fields_named (a.putLogs cfg).fields_unmanaged).mpr
    h.fields_unbroken

theorem fields_names (r : PutLogs) : ∀ f ∈ r.fields, 44 ∉ f.1.map toLower ∧ 59 ∉ f.1.map toLower := by
  simp only [PutLogs.fields, List.forall_mem_cons]
  refine ⟨?_, ?_, ?_, ?_, ?_, ?_, by simp⟩ <;> decide

/-- What is in the query is the topic as it is. -/
theorem Sendable.query (h : Sendable cfg a clock) :
    (target cfg.endpoint cfg.topicId).query = text "TopicId="++cfg.topicId := by
  rw [target, buildTopicQuery, if_neg (queryEncodeValue_ne_nil _ h.topicId.1), queryEncodeValue_eq,
    urlEncodeSpan_eq, Percent.encode_of_plain shouldEscape _ h.topicId.2]

theorem Sendable.plain (h : Sendable cfg a clock) : (a.signing cfg clock).Plain where
  host := h.host
  xdate := h.clock.2.1
  token := by
    intro t ht
    exact h.token t (Option.mem_filter_iff.mp ht).1
  accessKeyId := h.accessKeyId
  scope := by
    simp only [List.forall_mem_cons]
    have hservice : Segment (text "TLS") := by decide
    exact ⟨h.clock.2.2, h.region.1, hservice, by simp⟩
  names := by
    intro p hp
    have hmem := (List.mem_filter.mp hp).1
    rw [show (a.signing cfg clock).headersIn.getD [] = a.block cfg from rfl, h.parse_block] at hmem
    obtain ⟨f, hf, rfl⟩ := List.mem_map.mp hmem
    exact fields_names _ f hf
  query := by
    rw [show (a.signing cfg clock).query.getD [] = (target cfg.endpoint cfg.topicId).query from rfl,
      h.query, List.mem_append, not_or]
    refine ⟨by decide, fun hc => ?_⟩
    have hesc := h.topicId.2 37 hc
    exact absurd hesc (by decide)

theorem Sendable.block_ne_nil (h : Sendable cfg a clock) : a.block cfg ≠ [] := by
  intro he
  have hparse := h.parse_block
  rw [he] at hparse
  cases hparse

theorem Sendable.scope (h : Sendable cfg a clock) : (a.signing cfg clock).scope.length < 256 := by
  have hdate : (clock.take 8).length = 8 := by rw [List.length_take, h.clock.1]; rfl
  have hnames : (text "TLS").length = 3 ∧ (text "request").length = 7 := by decide
  have hregion := h.region.2
  simp only [SignRequest.scope, joinWith, List.intersperse_cons_cons, List.intersperse_singleton,
    List.flatten_cons, List.flatten_nil, List.length_append, List.length_cons, List.length_nil]
  rw [show (a.signing cfg clock).date8 = clock.take 8 from rfl,
    show (a.signing cfg clock).region = cfg.region.getD [] from rfl,
    show (a.signing cfg clock).service = text "TLS" from rfl, hdate, hnames.1, hnames.2]
  omega

theorem counted_unsigned (a : SendArgs) : Unsigned a.counted where
  named := by
    simp only [SendArgs.counted, List.forall_mem_cons]
    refine ⟨?_, ?_, ?_, by simp⟩ <;> exact ⟨by decide, by decide, by decide⟩
  unbroken := by
    simp only [SendArgs.counted, List.forall_mem_cons]
    refine ⟨?_, ?_, ?_, by simp⟩ <;> exact unbroken_of_notMem _ (signedDecimal_tight _).line
  names := by
    simp only [SendArgs.counted, List.forall_mem_cons]
    refine ⟨?_, ?_, ?_, by simp⟩ <;> decide

/-- The request of the call: the whole block, signed, and the counts. -/
def SendArgs.call (a : SendArgs) (cfg : SendCfg) (clock : Bytes) : HttpCall :=
  ⟨text "POST", (target cfg.endpoint cfg.topicId).url,
    (a.signing cfg clock).headersOut (a.signing cfg clock).signature++fieldText a.counted, a.body⟩

/-- Nothing makes the call fail; the caches of the thread do not matter. -/
theorem Sendable.sends (h : Sendable cfg a clock) {rs : List SignRequest} {c : SignCaches}
    (hc : Sound rs c) (hd : Distinct rs) (hr : a.signing cfg clock ∈ rs) :
    (sendPutLogs cachedSteps cfg a clock c).1 = .ok (a.call cfg clock) := by
  have hsign := (a.signing cfg clock).signs h.block_ne_nil h.clock.1 h.scope
  rw [← (hc.sign hd _ hr).1] at hsign
  have hcount : a.counted.foldlM headersAppend
      ((a.signing cfg clock).headersOut (a.signing cfg clock).signature) =
      some (a.call cfg clock).headers := by
    apply headersAppend_fields
    have hnames : (text "log-count").length = 9 ∧ (text "earliest-log-time").length = 17 ∧
        (text "latest-log-time").length = 15 := by decide
    obtain ⟨h1, h2, h3⟩ := hnames
    have hcounts := h.counts
    simp only [List.forall_mem_cons] at hcounts
    obtain ⟨hcount, hearliest, hlatest, -⟩ := hcounts
    have := length_signedDecimal a.logCount hcount
    have := length_signedDecimal a.earliest hearliest
    have := length_signedDecimal a.latest hlatest
    simp only [SendArgs.counted, List.forall_mem_cons, h1, h2, h3]
    exact ⟨by omega, by omega, by omega, by simp⟩
  unfold sendPutLogs
  rw [if_neg (not_or.mpr h.body), h.headers]
  dsimp only
  split
  · next signed s heq =>
    have hsame : (signV4AppendAt cachedSteps (a.signing cfg clock) c).1 = .ok signed :=
      congrArg Prod.fst heq
    obtain rfl := Signed.ok.inj (hsign.symm.trans hsame)
    rw [hcount]
    rfl
  · next hno heq =>
    have hsame := (congrArg Prod.fst heq).symm.trans hsign
    exact absurd hsame (hno _)

/-- All pairs that the server reads. -/
theorem Sendable.pairs (h : Sendable cfg a clock) :
    textPairs (a.call cfg clock).headers = (a.putLogs cfg).fields.map fieldPair++
      ([(text "host", (a.signing cfg clock).host), (text "x-date", clock),
        (text "x-content-sha256", (a.signing cfg clock).payloadHash),
        (a.signing cfg clock).authorizationPair (a.signing cfg clock).signature]++
        (a.signing cfg clock).token.toList.map fun t => (text "x-security-token", t))++
      a.counted.map fieldPair := by
  have hpairs := h.plain.sent_pairs (a.signing cfg clock).signature (hexLower_digits _) a.counted
    (counted_unsigned a)
  rw [show (a.signing cfg clock).headersIn.getD [] = a.block cfg from rfl, h.parse_block] at hpairs
  exact hpairs

theorem Sendable.nodup (h : Sendable cfg a clock) :
    ((textPairs (a.call cfg clock).headers).map Prod.fst).Nodup := by
  rw [h.pairs]
  cases (a.signing cfg clock).token <;>
    simp only [PutLogs.fields, SendArgs.counted, fieldPair, SignRequest.authorizationPair,
      Option.toList_none, Option.toList_some, List.map_append, List.map_cons, List.map_nil] <;>
    decide

theorem Sendable.field (h : Sendable cfg a clock) (u : Url.Parts) (f : KvPair)
    (hf : f ∈ (a.putLogs cfg).fields++a.counted) :
    ((a.call cfg clock).request u).field (f.1.map toLower) = some (trim f.2) := by
  refine field_of_mem ((a.call cfg clock).request u) (fieldPair f) h.nodup ?_
  rw [show ((a.call cfg clock).request u).headers = (a.call cfg clock).headers from rfl, h.pairs]
  rcases List.mem_append.mp hf with hf | hf
  · exact List.mem_append_left _ (List.mem_append_left _ (List.mem_map_of_mem hf))
  · exact List.mem_append_right _ (List.mem_map_of_mem hf)

theorem Sendable.field_host (h : Sendable cfg a clock) (u : Url.Parts) :
    ((a.call cfg clock).request u).field (text "host") = some (target cfg.endpoint cfg.topicId).host := by
  refine field_of_mem ((a.call cfg clock).request u)
    (text "host", (target cfg.endpoint cfg.topicId).host) h.nodup ?_
  rw [show ((a.call cfg clock).request u).headers = (a.call cfg clock).headers from rfl, h.pairs]
  exact List.mem_append_left _ (List.mem_append_right _ List.mem_cons_self)

theorem Sendable.topic (h : Sendable cfg a clock) :
    topicOf (target cfg.endpoint cfg.topicId).query = some cfg.topicId := by
  have hplain : ∀ c : UInt8, shouldEscape c = true → c ∉ cfg.topicId := fun c hc hmem =>
    Bool.false_ne_true ((h.topicId.2 c hmem).symm.trans hc)
  have hkey : text "TopicId=" = text "TopicId"++[61] := by decide
  have hquery : (target cfg.endpoint cfg.topicId).query = text "TopicId"++61::cfg.topicId := by
    rw [h.query, hkey, List.append_assoc]
    rfl
  have hamp : 38 ∉ text "TopicId"++61::cfg.topicId := by
    rw [List.mem_append, List.mem_cons, not_or, not_or]
    exact ⟨by decide, by decide, hplain 38 (by decide)⟩
  have hpairs : decodePairs (text "TopicId"++61::cfg.topicId) =
      [(text "TopicId", cfg.topicId)] := by
    rw [decodePairs, querySpans_eq _ _ le_rfl, pieces_of_notMem 38 _ (by simp) hamp,
      List.map_singleton, cut_at 61 _ _ (by decide)]
    dsimp only
    rw [decode_plain _ (show 37 ∉ text "TopicId" by decide), decode_plain _ (hplain 37 (by decide))]
  rw [topicOf, hquery, hpairs]
  simp

/-- The request of a body that decodes, compressed in a way that a receiver
undoes, is stored with its logs. -/
theorem Sendable.stored (h : Sendable cfg a clock) (inflate secretOf : Bytes → Option Bytes)
    (hsecret : secretOf a.accessKeyId = some a.accessKeySecret) (raw : Bytes)
    (groups : List DecodedGroup)
    (hraw : Payload.receive inflate (a.putLogs cfg).compress a.body = some raw)
    (hsize : a.rawBodySize = raw.length) (hgroups : decodeGroupList raw = some groups) :
    (a.call cfg clock).store inflate secretOf = some ⟨a.accessKeyId, cfg.topicId,
      trim (a.putLogs cfg).key, signedDecimal a.logCount, groups⟩ := by
  obtain ⟨u, hu, hhost, hpath, hquery⟩ :=
    (url_agrees_iff cfg.endpoint cfg.topicId h.endpoint h.topicId.1).mpr h.hostOnly
  have hrequest : (a.call cfg clock).request u =
      (a.signing cfg clock).sent ((a.signing cfg clock).headersOut (a.signing cfg clock).signature)
        a.counted := by
    rw [HttpCall.request, hpath, hquery]
    rfl
  have hverify : ((a.call cfg clock).request u).verify secretOf = some a.accessKeyId := by
    rw [hrequest]
    exact h.plain.verifies a.counted (counted_unsigned a) secretOf hsecret
  have hfield := h.field u
  simp only [List.forall_mem_append, PutLogs.fields, SendArgs.counted, List.forall_mem_cons]
    at hfield
  obtain ⟨⟨htype, hmd5, -, hrawsize, hcompress, hkey, -⟩, hcount, -⟩ := hfield
  have hlower : (text "Content-Type").map toLower = text "content-type" ∧
      (text "Content-MD5").map toLower = text "content-md5" ∧
      (text "x-tls-bodyrawsize").map toLower = text "x-tls-bodyrawsize" ∧
      (text "x-tls-compresstype").map toLower = text "x-tls-compresstype" ∧
      (text "x-tls-hashkey").map toLower = text "x-tls-hashkey" ∧
      (text "log-count").map toLower = text "log-count" ∧
      trim (text "application/x-protobuf") = text "application/x-protobuf" := by decide
  obtain ⟨h1, h2, h3, h4, h5, h6, h7⟩ := hlower
  rw [h1, h7] at htype
  rw [h2, (hexUpper_tight _).trimmed] at hmd5
  rw [h3, (tight_of_solid _ (decimal_solid _)).trimmed] at hrawsize
  rw [h4, h.compress.1.trimmed] at hcompress
  rw [h5] at hkey
  rw [h6, (signedDecimal_tight _).trimmed] at hcount
  have hchecks : Checks ((a.call cfg clock).request u) u raw := by
    refine ⟨rfl, hpath, ?_, htype, hmd5, ?_⟩
    · rw [h.field_host, hhost]
    · rw [hrawsize, ← hsize]
      rfl
  have htopic : topicOf ((a.call cfg clock).request u).query = some cfg.topicId := by
    rw [hrequest]
    exact h.topic
  rw [HttpCall.store, show Url.parse (a.call cfg clock).url = some u from hu]
  dsimp only [Option.bind_eq_bind, Option.bind_some]
  rw [hverify, htopic, hkey, hcount, hcompress]
  dsimp only [Option.bind_eq_bind, Option.bind_some]
  rw [show ((a.call cfg clock).request u).body = a.body from rfl, hraw]
  dsimp only [Option.bind_eq_bind, Option.bind_some]
  rw [hgroups]
  dsimp only [Option.bind_eq_bind, Option.bind_some]
  rw [if_pos hchecks]
  rfl

end Request

/-- The arguments of the call for a payload, its raw size and its type. -/
def SendArgs.withPayload (a : SendArgs) (p : Bytes × ℕ × Bytes) : SendArgs :=
  { a with body := p.1, rawBodySize := p.2.1, actualCompressType := some p.2.2 }

section Tasks

variable (inflate secretOf : Bytes → Option Bytes) (env : Payload.Env) (pcfg : Payload.Config)
  (cfg : SendCfg) (a : SendArgs) (clock : Bytes)

/-- A task is sent, and what it was built from is stored. -/
def Arrives (t : Payload.Task) (groups : List DecodedGroup) : Prop :=
  ∃ payload call, Payload.resolvePayload pcfg t = some payload ∧
    (∀ (rs : List SignRequest) (c : SignCaches), Sound rs c → Distinct rs →
      (a.withPayload payload).signing cfg clock ∈ rs →
      (sendPutLogs cachedSteps cfg (a.withPayload payload) clock c).1 = .ok call) ∧
    call.store inflate secretOf = some ⟨a.accessKeyId, cfg.topicId, trim (a.putLogs cfg).key,
      signedDecimal a.logCount, groups⟩

variable {inflate secretOf env pcfg cfg a clock}

theorem task_arrives (hl : env.Lawful inflate) (hset : Settled cfg a clock)
    (hsecret : secretOf a.accessKeyId = some a.accessKeySecret) (given : Payload.Given)
    (body : Bytes) (hsize : body.length < 2^64) (groups : List DecodedGroup)
    (hgroups : decodeGroupList body = some groups) (p : Payload.Prepared)
    (hp : Payload.prepareSendTask env pcfg given ⟨body, body.length, []⟩ = .ok p) (h0 : p.rc = 0) :
    Arrives inflate secretOf pcfg cfg a clock p.task groups := by
  have hcarries := (Payload.prepareSendTask_meets hl pcfg given ⟨body, body.length, []⟩ rfl).of_ok
    hp h0
  have hne : body ≠ [] := hcarries.2.2.1
  have hraw : (if body.length > 0 then body.length else body.length) = body.length := ite_self _
  obtain ⟨payload, ct, hresolve, hpayload, hreceive⟩ := Payload.resolvePayload_received hcarries
  dsimp only at hresolve
  rw [hraw] at hresolve
  have hknown := receive_known inflate ct payload body hreceive
  have hlen := List.length_pos_iff.mpr hne
  have hsendable : Sendable cfg (a.withPayload (payload, body.length, ct)) clock :=
    ⟨⟨hset.endpoint, hset.hostOnly, hset.host, hset.topicId, hset.region, hset.accessKeyId,
      hset.token, hset.clock, hset.apiVersion, hset.key, hset.counts⟩, hknown, hsize, hpayload,
      by simp only [SendArgs.withPayload]; omega⟩
  exact ⟨_, _, hresolve, fun rs c hc hd hr => hsendable.sends hc hd hr,
    hsendable.stored inflate secretOf hsecret body groups hreceive rfl hgroups⟩

end Tasks

def plainCfg : SendCfg :=
  ⟨text "https://tls.example.com", text "topic-1", some (text "cn-a"), none, some (text "lz4"), none⟩

/-- Before the payload is known. -/
def plainArgs : SendArgs :=
  { accessKeyId := text "ak"
    accessKeySecret := text "sk"
    securityToken := some (text "tok")
    actualCompressType := none
    body := []
    rawBodySize := 0
    logCount := 2
    earliest := -1
    latest := 7
    hashKey := some (text " key ") }

theorem plain_settled : Settled plainCfg plainArgs (text "20240101T000000Z") where
  endpoint := by decide
  hostOnly := .inl (by decide +kernel)
  host := ⟨by decide, by decide⟩
  topicId := ⟨by decide, by decide +kernel⟩
  region := ⟨by decide, by decide⟩
  accessKeyId := by decide
  token := by
    intro t ht
    obtain rfl : text "tok" = t := Option.some.inj ht
    exact ⟨by decide, by decide⟩
  clock := ⟨by decide, ⟨by decide, by decide⟩, by decide⟩
  apiVersion := ⟨by decide +kernel, by decide⟩
  key := ⟨by decide +kernel, by decide⟩
  counts := by decide

end VeTls.Delivery
