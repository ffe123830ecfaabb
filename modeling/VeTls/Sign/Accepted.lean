import VeTls.Sign.Cache
import VeTls.Sign.Server

/-!
# Signed requests verify

What the two scans of the headers, the sort and the canonical forms are for:
a server that takes the request apart comes to the same signature.
-/

set_option autoImplicit false

namespace VeTls.Sign

open VeTls.Wire (Bytes)
open SignRequest (copiedLines)

section Pairs

theorem headerText_append (lines lines' : List Bytes) :
    headerText lines++headerText lines' = headerText (lines++lines') :=
  List.flatMap_append.symm

theorem textPairs_append (lines lines' : List Bytes) :
    textPairs (headerText lines++headerText lines') =
      textPairs (headerText lines)++textPairs (headerText lines') := by
  rw [headerText_append, textPairs, textPairs, textPairs, pieces_headerText_splitOn,
    pieces_headerText_splitOn, pieces_headerText_splitOn, List.flatMap_append,
    List.flatMap_append]

def fieldText (fields : List KvPair) : Bytes := headerText (fields.map fun f => fieldLine f.1 f.2)

def fieldPair (f : KvPair) : KvPair := (f.1.map toLower, trim f.2)

theorem textPairs_unbroken (fields : List KvPair) (hk : ∀ f ∈ fields, Named f.1)
    (hv : ∀ f ∈ fields, Unbroken f.2) : textPairs (fieldText fields) = fields.map fieldPair := by
  rw [fieldText, textPairs_fields fields hk]
  refine (flatMap_eq_map _ _ _ _).mpr fun f hf => ⟨?_, extraPairs_unbroken f.2 (hv f hf)⟩
  rw [(first_trim_iff f.2).mpr (hv f hf)]
  rfl

/-- A value that is sent as it is. -/
structure Tight (v : Bytes) : Prop where
  line : 10 ∉ v
  trimmed : trim v = v

theorem fieldPair_tight (k v : Bytes) (h : Tight v) : fieldPair (k, v) = (k.map toLower, v) :=
  congrArg (k.map toLower, ·) h.trimmed

end Pairs

namespace SignRequest

variable (r : SignRequest)

def signedHeaders : Bytes := (buildCanonicalHeaders r.pairs).2

def authorization (parts : Bytes × Bytes) : Bytes :=
  text "HMAC-SHA256 Credential="++(r.accessKeyId++47::r.scope)++
    44::(text " SignedHeaders="++(parts.1++44::(text " Signature="++parts.2)))

def ownFields (parts : Bytes × Bytes) : List KvPair :=
  [(text "Host", r.host), (text "X-Date", r.xdate), (text "X-Content-Sha256", r.payloadHash),
    (text "Authorization", r.authorization parts)]++
    r.token.toList.map fun t => (text "X-Security-Token", t)

theorem ownHeaders_fields (parts : Bytes × Bytes) :
    r.ownHeaders parts = fieldText (r.ownFields parts) := by
  have hhost : text "Host: " = text "Host"++text ": " := by decide
  have hdate : text "X-Date: " = text "X-Date"++text ": " := by decide
  have hhash : text "X-Content-Sha256: " = text "X-Content-Sha256"++text ": " := by decide
  have htoken : text "X-Security-Token: " = text "X-Security-Token"++text ": " := by decide
  have hauth : text "Authorization: HMAC-SHA256 Credential=" =
      text "Authorization"++(text ": "++text "HMAC-SHA256 Credential=") := by decide
  have hsigned : text ", SignedHeaders=" = 44::text " SignedHeaders=" := by decide
  have hsignature : text ", Signature=" = 44::text " Signature=" := by decide
  unfold ownHeaders fieldText headerText ownFields authorization fieldLine
  rw [hhost, hdate, hhash, htoken, hauth, hsigned, hsignature]
  cases r.token <;> simp [List.append_assoc]

/-- The request as it is sent, with more fields behind those that signing
returns. -/
def sent (headers : Bytes) (extra : List KvPair) : HttpRequest :=
  ⟨r.method, r.path, r.query.getD [], headers++fieldText extra, r.body.getD []⟩

/-- A part of the scope. -/
def Segment (v : Bytes) : Prop := 10 ∉ v ∧ 44 ∉ v ∧ 47 ∉ v

instance (v : Bytes) : Decidable (Segment v) :=
  inferInstanceAs (Decidable (10 ∉ v ∧ 44 ∉ v ∧ 47 ∉ v))

/-- What is written comes out as it was: no value goes on in another line or
has blanks around it, the separators of the Authorization are in none of its
parts, and nothing in the query is encoded already. -/
structure Plain : Prop where
  host : Tight r.host
  xdate : Tight r.xdate
  token : ∀ t ∈ r.token, Tight t
  accessKeyId : Segment r.accessKeyId
  scope : ∀ v ∈ [r.date8, r.region, r.service], Segment v
  names : ∀ p ∈ signablePairs (parseHeaders (r.headersIn.getD [])), 44 ∉ p.1 ∧ 59 ∉ p.1
  query : 37 ∉ r.query.getD []

end SignRequest

section Bytes

theorem mem_trim (s : Bytes) (c : UInt8) (h : c ∈ trim s) : c ∈ s := by
  rw [trim, List.mem_reverse] at h
  exact List.dropWhile_subset isSpace (List.mem_reverse.mp (List.dropWhile_subset isSpace h))

theorem lineKey_notMem (line : Bytes) (d : UInt8) (hd : d < 65) (h : d ∉ line) :
    d ∉ lineKey line := by
  intro hc
  obtain ⟨c, hmem, hlow⟩ := List.mem_map.mp hc
  obtain rfl := toLower_eq_of_small c d hd hlow
  exact h (List.takeWhile_subset _ (mem_trim _ _ hmem))

theorem parseHeaders_key_line (headers : Bytes) :
    ∀ p ∈ parseHeaders headers, 10 ∉ p.1 := by
  intro p hp
  rw [parseHeaders_eq] at hp
  obtain ⟨line, hline, hp⟩ := List.mem_flatMap.mp (List.mem_filter.mp hp).1
  unfold linePairs at hp
  split at hp
  · rw [List.mem_singleton.mp hp]
    exact lineKey_notMem line 10 (by decide) (mem_pieces 10 headers line hline)
  · cases hp

theorem pieces_subset (sep : UInt8) (s : Bytes) : ∀ p ∈ pieces sep s, p ⊆ s := by
  intro p hp
  unfold pieces at hp
  dsimp only at hp
  split at hp
  · exact fun c hc => (splitOn_parts sep s p (List.mem_of_mem_dropLast hp)).2 c hc
  · exact fun c hc => (splitOn_parts sep s p hp).2 c hc

theorem mem_joinWith (sep c : UInt8) (parts : List Bytes) (h : c ∈ joinWith [sep] parts) :
    c = sep ∨ ∃ p ∈ parts, c ∈ p := by
  induction parts with
  | nil => exact absurd h List.not_mem_nil
  | cons p parts ih =>
    cases parts with
    | nil =>
      rw [show joinWith [sep] [p] = p by simp [joinWith]] at h
      exact .inr ⟨p, List.mem_cons_self, h⟩
    | cons q parts =>
      rw [joinWith_cons, List.mem_append, List.mem_append, List.mem_singleton] at h
      rcases h with (h | h) | h
      · exact .inr ⟨p, List.mem_cons_self, h⟩
      · exact .inl h
      · rcases ih h with hsep | ⟨x, hx, hc⟩
        · exact .inl hsep
        · exact .inr ⟨x, List.mem_cons_of_mem p hx, hc⟩

theorem splitOn_joinWith (sep : UInt8) (parts : List Bytes) (hne : parts ≠ [])
    (h : ∀ p ∈ parts, sep ∉ p) : (joinWith [sep] parts).splitOn sep = parts :=
  List.splitOn_intercalate sep h hne

theorem strip_append (front s : Bytes) : strip front (front++s) = some s := by
  rw [strip, if_pos (List.isPrefixOf_iff_prefix.mpr (List.prefix_append front s)),
    List.drop_left]

theorem decode_plain (s : Bytes) (h : 37 ∉ s) : Percent.decode s = s := by
  induction s with
  | nil => rfl
  | cons c s ih =>
    rw [List.mem_cons, not_or] at h
    rw [Percent.decode_cons c s (Ne.symm h.1), ih h.2]

/-- Without anything encoded the server's form of a query is the client's. -/
theorem canonicalQuery_eq (query : Bytes) (h : 37 ∉ query) :
    canonicalQuery query = normQuery query := by
  have hsort : pairSortWith pairSort = pairSort := funext fun pairs =>
    (sorts_pairSortWith pairSort sorts_pairSort).eq_of_perm sorts_pairSort pairs pairs
      (List.Perm.refl _)
  have hpair : ∀ p ∈ pieces 38 query,
      (urlEncodeSpan (Percent.decode (cut 61 p).1), urlEncodeSpan (Percent.decode (cut 61 p).2)) =
        encodedPair p := by
    intro p hp
    have hno : 37 ∉ p := fun hc => h (pieces_subset 38 query p hp hc)
    have hkey : Percent.decode (cut 61 p).1 = (cut 61 p).1 :=
      decode_plain _ fun hc => hno (List.takeWhile_subset _ hc)
    have hvalue : Percent.decode (cut 61 p).2 = (cut 61 p).2 :=
      decode_plain _ fun hc => hno (List.dropWhile_subset _ (List.mem_of_mem_drop hc))
    rw [hkey, hvalue, encodedPair]
  rw [canonicalQuery, List.map_congr_left hpair, ← normQueryBy_eq pairSort sorts_pairSort]
  by_cases hne : query = []
  · have hnil : pieces 38 [] = [] := rfl
    rw [hne, hnil, List.map_nil, pairSort, List.mergeSort_nil]
    rfl
  · rw [normQueryBy_slow pairSort query hne, normQuerySlow, hsort, querySpans_eq _ _ le_rfl]

theorem find_unmanaged (headers name : Bytes) (h : isSdkManagedHeaderLower name = true) :
    (parseHeaders headers).find? (fun p => p.1 == name) = none := by
  rw [List.find?_eq_none]
  intro p hp heq
  rw [parseHeaders_eq] at hp
  have hfree := (List.mem_filter.mp hp).2
  rw [beq_iff_eq.mp heq, h] at hfree
  cases hfree

theorem length_hexLower (data : Bytes) : (hexLower data).length = 2*data.length := by
  induction data with
  | nil => rfl
  | cons b data ih =>
    rw [hexLower, List.flatMap_cons, List.length_append, List.length_cons]
    have htail : (data.flatMap fun b : UInt8 => [hexDigit (b >>> 4), hexDigit (b &&& 15)]).length =
        2*data.length := ih
    rw [htail]
    simp only [List.length_cons, List.length_nil]
    omega

theorem length_sha256 (data : Bytes) : (sha256 data).length = 32 := by
  simp [sha256, sha256Final, storeBe32]

end Bytes

namespace SignRequest

variable (r : SignRequest)

theorem pairs_eq : r.pairs = parseHeaders (r.headersIn.getD [])++r.ownPairs := by
  unfold pairs ownPairs
  rw [List.append_assoc]

/-- The pairs that are signed, in their order. -/
def signed : List KvPair := signablePairs (pairSort r.pairs)

theorem mem_signed (p : KvPair) : p ∈ r.signed ↔ p ∈ r.pairs ∧ headerSignable p.1 = true := by
  unfold signed signablePairs
  rw [List.mem_filter, (sorts_pairSort r.pairs).1.mem_iff]

theorem ownPairs_names (p : KvPair) (h : p ∈ r.ownPairs) :
    p.1 ∈ [text "host", text "x-date", text "x-content-sha256", text "x-security-token"] := by
  rcases List.mem_append.mp h with h | h
  · simp only [List.mem_cons, List.not_mem_nil, or_false] at h
    rcases h with rfl | rfl | rfl <;> simp
  · obtain ⟨t, -, rfl⟩ := List.mem_map.mp h
    simp

variable {r}

theorem Plain.signed_names (h : r.Plain) :
    ∀ p ∈ r.signed, 10 ∉ p.1 ∧ 44 ∉ p.1 ∧ 59 ∉ p.1 := by
  intro p hp
  obtain ⟨hmem, hsign⟩ := (r.mem_signed p).mp hp
  rw [pairs_eq] at hmem
  rcases List.mem_append.mp hmem with hmem | hmem
  · exact ⟨parseHeaders_key_line _ p hmem, h.names p (List.mem_filter.mpr ⟨hmem, hsign⟩)⟩
  · have hall : ∀ k ∈ [text "host", text "x-date", text "x-content-sha256",
        text "x-security-token"], (10 : UInt8) ∉ k ∧ 44 ∉ k ∧ 59 ∉ k := by decide
    exact hall p.1 (r.ownPairs_names p hmem)

theorem Plain.names_splitOn (h : r.Plain) :
    r.signedHeaders.splitOn 59 = r.signed.map Prod.fst := by
  apply splitOn_joinWith
  · intro he
    have hhost : (text "host", r.host) ∈ r.signed := by
      refine (r.mem_signed _).mpr ⟨?_, by simp [headerSignable]⟩
      rw [pairs_eq]
      exact List.mem_append_right _ List.mem_cons_self
    have hnone : r.signed = [] := List.map_eq_nil_iff.mp he
    rw [hnone] at hhost
    exact absurd hhost List.not_mem_nil
  · intro k hk
    obtain ⟨p, hp, rfl⟩ := List.mem_map.mp hk
    exact (h.signed_names p hp).2.2

theorem Plain.signedHeaders_solid (h : r.Plain) : 10 ∉ r.signedHeaders ∧ 44 ∉ r.signedHeaders := by
  constructor <;> intro hc <;> rcases mem_joinWith 59 _ _ hc with hc | ⟨k, hk, hc⟩
  · exact absurd hc (by decide)
  · obtain ⟨p, hp, rfl⟩ := List.mem_map.mp hk
    exact (h.signed_names p hp).1 hc
  · exact absurd hc (by decide)
  · obtain ⟨p, hp, rfl⟩ := List.mem_map.mp hk
    exact (h.signed_names p hp).2.1 hc

theorem Plain.scope_solid (h : r.Plain) : 10 ∉ r.scope ∧ 44 ∉ r.scope := by
  have hrequest : (10 : UInt8) ∉ text "request" ∧ 44 ∉ text "request" := by decide
  have hparts : ∀ v ∈ [r.date8, r.region, r.service, text "request"], 10 ∉ v ∧ 44 ∉ v := by
    simp only [List.forall_mem_cons]
    obtain ⟨hdate, hregion, hservice, -⟩ := by simpa only [List.forall_mem_cons] using h.scope
    exact ⟨⟨hdate.1, hdate.2.1⟩, ⟨hregion.1, hregion.2.1⟩, ⟨hservice.1, hservice.2.1⟩, hrequest,
      by simp⟩
  constructor <;> intro hc <;> rcases mem_joinWith 47 _ _ hc with hc | ⟨v, hv, hc⟩
  · exact absurd hc (by decide)
  · exact (hparts v hv).1 hc
  · exact absurd hc (by decide)
  · exact (hparts v hv).2 hc

theorem Plain.scope_splitOn (h : r.Plain) :
    r.scope.splitOn 47 = [r.date8, r.region, r.service, text "request"] := by
  apply splitOn_joinWith _ _ (by simp)
  simp only [List.forall_mem_cons]
  obtain ⟨hdate, hregion, hservice, -⟩ := by simpa only [List.forall_mem_cons] using h.scope
  exact ⟨hdate.2.2, hregion.2.2, hservice.2.2, by decide, by simp⟩

/-- The Authorization of a request with a signature in hexadecimal digits. -/
theorem Plain.authorization_tight (h : r.Plain) (signature : Bytes)
    (hs : ∀ c ∈ signature, isHexLower c = true) :
    Tight (r.authorization (r.signedHeaders, signature)) := by
  constructor
  · simp only [authorization, List.mem_append, List.mem_cons, not_or]
    exact ⟨⟨by decide, h.accessKeyId.1, by decide, h.scope_solid.1⟩, by decide, by decide,
      h.signedHeaders_solid.1, by decide, by decide,
      fun hc => (hexDigits_solid 10 (hs 10 hc)).2.1 rfl⟩
  · apply trim_eq_self
    · have hfront : text "HMAC-SHA256 Credential=" = 72::text "MAC-SHA256 Credential=" := by decide
      rw [authorization, hfront]
      intro c hc
      obtain rfl := Option.some.inj hc
      decide
    · intro c hc
      have hback : r.authorization (r.signedHeaders, signature) =
          (text "HMAC-SHA256 Credential="++(r.accessKeyId++47::r.scope)++
            44::(text " SignedHeaders="++(r.signedHeaders++44::text " Signature")))++
            61::signature := by
        have heq : text " Signature=" = text " Signature"++[61] := by decide
        simp only [authorization, heq, List.append_assoc, List.cons_append, List.nil_append]
      rw [hback, List.getLast?_append, List.getLast?_cons] at hc
      obtain rfl := Option.some.inj hc
      cases signature with
      | nil => decide
      | cons d signature => exact (hexDigits_solid _ (hs _ (List.getLast_mem _))).1

theorem Plain.parse_authorization (h : r.Plain) (signature : Bytes) :
    parseAuthorization (r.authorization (r.signedHeaders, signature)) =
      some ⟨r.accessKeyId, r.scope, r.signedHeaders, signature⟩ := by
  have hcredential : 44 ∉ r.accessKeyId++47::r.scope := by
    rw [List.mem_append, List.mem_cons, not_or, not_or]
    exact ⟨h.accessKeyId.2.1, by decide, h.scope_solid.2⟩
  rw [parseAuthorization, authorization, List.append_assoc, strip_append]
  dsimp only [Option.bind_eq_bind, Option.bind_some]
  rw [cut_at 44 _ _ hcredential, strip_append]
  dsimp only [Option.bind_eq_bind, Option.bind_some]
  rw [cut_at 44 _ _ h.signedHeaders_solid.2, strip_append]
  dsimp only [Option.bind_eq_bind, Option.bind_some]
  rw [cut_at 47 _ _ h.accessKeyId.2.2]
  rfl

theorem ownFields_named (parts : Bytes × Bytes) : ∀ f ∈ r.ownFields parts, Named f.1 := by
  have hall : ∀ k ∈ [text "Host", text "X-Date", text "X-Content-Sha256", text "Authorization",
      text "X-Security-Token"], 10 ∉ k ∧ 58 ∉ k ∧ trim k = k := by decide
  intro f hf
  have hmem : f.1 ∈ [text "Host", text "X-Date", text "X-Content-Sha256", text "Authorization",
      text "X-Security-Token"] := by
    rcases List.mem_append.mp hf with hf | hf
    · simp only [List.mem_cons, List.not_mem_nil, or_false] at hf
      rcases hf with rfl | rfl | rfl | rfl <;> simp
    · obtain ⟨t, -, rfl⟩ := List.mem_map.mp hf
      simp
  exact ⟨(hall _ hmem).1, (hall _ hmem).2.1, (hall _ hmem).2.2⟩

theorem payloadHash_tight : Tight r.payloadHash where
  line := fun hc => (hexDigits_solid 10 (hexLower_digits _ 10 hc)).2.1 rfl
  trimmed := trim_of_solid _ fun c hc => (hexDigits_solid c (hexLower_digits _ c hc)).1

theorem Plain.ownFields_tight (h : r.Plain) (signature : Bytes)
    (hs : ∀ c ∈ signature, isHexLower c = true) :
    ∀ f ∈ r.ownFields (r.signedHeaders, signature), Tight f.2 := by
  simp only [ownFields, List.forall_mem_append, List.forall_mem_cons]
  refine ⟨⟨h.host, h.xdate, payloadHash_tight, h.authorization_tight signature hs, by simp⟩, ?_⟩
  intro f hf
  obtain ⟨t, ht, rfl⟩ := List.mem_map.mp hf
  exact h.token t (Option.mem_toList.mp ht)

def authorizationPair (r : SignRequest) (signature : Bytes) : KvPair :=
  (text "authorization", r.authorization (r.signedHeaders, signature))

/-- Taken apart, the headers that signing adds are the pairs that it signs and
the Authorization. -/
theorem Plain.own_textPairs (h : r.Plain) (signature : Bytes)
    (hs : ∀ c ∈ signature, isHexLower c = true) :
    textPairs (r.ownHeaders (r.signedHeaders, signature)) =
      [(text "host", r.host), (text "x-date", r.xdate), (text "x-content-sha256", r.payloadHash),
        r.authorizationPair signature]++r.token.toList.map fun t => (text "x-security-token", t) := by
  have htight := h.ownFields_tight signature hs
  have hpairs : ∀ f ∈ r.ownFields (r.signedHeaders, signature),
      fieldPair f = (f.1.map toLower, f.2) := fun f hf => fieldPair_tight f.1 f.2 (htight f hf)
  have hlower : (text "Host").map toLower = text "host" ∧
      (text "X-Date").map toLower = text "x-date" ∧
      (text "X-Content-Sha256").map toLower = text "x-content-sha256" ∧
      (text "Authorization").map toLower = text "authorization" ∧
      (text "X-Security-Token").map toLower = text "x-security-token" := by decide
  obtain ⟨h1, h2, h3, h4, h5⟩ := hlower
  rw [ownHeaders_fields, textPairs_unbroken _ (ownFields_named _) fun f hf =>
    unbroken_of_notMem _ (htight f hf).line, List.map_congr_left hpairs, ownFields,
    List.map_append, List.map_map]
  simp only [List.map_cons, List.map_nil, h1, h2, h3, h4]
  exact congrArg (_++·) (List.map_congr_left fun t _ => congrArg (·, t) h5)

/-- Fields behind the signed ones, which are not signed. -/
structure Unsigned (extra : List KvPair) : Prop where
  named : ∀ f ∈ extra, Named f.1
  unbroken : ∀ f ∈ extra, Unbroken f.2
  names : ∀ f ∈ extra, headerSignable (f.1.map toLower) = false

theorem Plain.sent_pairs (h : r.Plain) (signature : Bytes)
    (hs : ∀ c ∈ signature, isHexLower c = true) (extra : List KvPair) (he : Unsigned extra) :
    textPairs (r.sent (r.headersOut signature) extra).headers =
      parseHeaders (r.headersIn.getD [])++
        ([(text "host", r.host), (text "x-date", r.xdate), (text "x-content-sha256", r.payloadHash),
          r.authorizationPair signature]++
          r.token.toList.map fun t => (text "x-security-token", t))++extra.map fieldPair := by
  rw [sent, headersOut_eq]
  dsimp only
  rw [copiedLines_eq, show (buildCanonicalHeaders r.pairs).2 = r.signedHeaders from rfl,
    ownHeaders_fields, fieldText, fieldText, headerText_append, textPairs_append,
    ← headerText_append, textPairs_append, ← copiedLines_eq, textPairs_copiedLines, ← fieldText,
    ← ownHeaders_fields, ← fieldText, h.own_textPairs signature hs,
    textPairs_unbroken extra he.named he.unbroken]

theorem Plain.sent_field (h : r.Plain) (signature : Bytes)
    (hs : ∀ c ∈ signature, isHexLower c = true) (extra : List KvPair) (he : Unsigned extra) :
    let q := r.sent (r.headersOut signature) extra
    q.field (text "x-date") = some r.xdate ∧ q.field (text "x-content-sha256") = some r.payloadHash ∧
      q.field (text "authorization") = some (r.authorization (r.signedHeaders, signature)) := by
  intro q
  have hpairs := h.sent_pairs signature hs extra he
  have hne : (text "host" == text "x-date") = false ∧ (text "host" == text "x-content-sha256") = false ∧
      (text "x-date" == text "x-content-sha256") = false ∧ (text "host" == text "authorization") = false ∧
      (text "x-date" == text "authorization") = false ∧
      (text "x-content-sha256" == text "authorization") = false := by decide
  obtain ⟨h1, h2, h3, h4, h5, h6⟩ := hne
  have hmanaged : isSdkManagedHeaderLower (text "x-date") = true ∧
      isSdkManagedHeaderLower (text "x-content-sha256") = true ∧
      isSdkManagedHeaderLower (text "authorization") = true := by decide
  obtain ⟨hm1, hm2, hm3⟩ := hmanaged
  refine ⟨?_, ?_, ?_⟩
  · rw [HttpRequest.field, hpairs, List.append_assoc, List.find?_append, find_unmanaged _ _ hm1]
    simp [h1]
  · rw [HttpRequest.field, hpairs, List.append_assoc, List.find?_append, find_unmanaged _ _ hm2]
    simp [h2, h3]
  · rw [HttpRequest.field, hpairs, List.append_assoc, List.find?_append, find_unmanaged _ _ hm3]
    simp [h4, h5, h6, authorizationPair]

theorem Plain.sent_signable (h : r.Plain) (signature : Bytes)
    (hs : ∀ c ∈ signature, isHexLower c = true) (extra : List KvPair) (he : Unsigned extra) :
    signablePairs (textPairs (r.sent (r.headersOut signature) extra).headers) =
      signablePairs r.pairs := by
  have hauth : headerSignable (r.authorizationPair signature).1 = false := by
    show headerSignable (text "authorization") = false
    decide
  have hextra : (extra.map fieldPair).filter (fun p => headerSignable p.1) = [] := by
    rw [List.filter_eq_nil_iff]
    intro p hp hsign
    obtain ⟨f, hf, rfl⟩ := List.mem_map.mp hp
    rw [fieldPair, he.names f hf] at hsign
    cases hsign
  rw [h.sent_pairs signature hs extra he, pairs_eq, ownPairs]
  simp only [signablePairs, List.filter_append, hextra, List.append_nil]
  simp [List.filter_cons, hauth]

theorem signablePairs_pairSort (pairs : List KvPair) :
    pairSort (signablePairs pairs) = signablePairs (pairSort pairs) := by
  apply List.Perm.eq_of_pairwise (fun x y _ _ => pairLe_antisymm x y) (sorts_pairSort _).2
  · exact (sorts_pairSort pairs).2.filter _
  · exact (sorts_pairSort _).1.trans ((sorts_pairSort pairs).1.filter _).symm

/-- Of the pairs that are sent, the ones whose names are listed are the ones
that were signed. -/
theorem Plain.sent_signed (h : r.Plain) (signature : Bytes)
    (hs : ∀ c ∈ signature, isHexLower c = true) (extra : List KvPair) (he : Unsigned extra) :
    (r.sent (r.headersOut signature) extra).signed (r.signedHeaders.splitOn 59) = r.signed := by
  have hsignable := h.sent_signable signature hs extra he
  have hname : ∀ p ∈ textPairs (r.sent (r.headersOut signature) extra).headers,
      ((r.signedHeaders.splitOn 59).contains p.1) = headerSignable p.1 := by
    intro p hp
    rw [h.names_splitOn, Bool.eq_iff_iff, List.contains_iff_mem]
    constructor
    · intro hk
      obtain ⟨x, hx, hxp⟩ := List.mem_map.mp hk
      rw [← hxp]
      exact ((r.mem_signed x).mp hx).2
    · intro hsign
      have hmem : p ∈ signablePairs r.pairs := hsignable ▸ List.mem_filter.mpr ⟨hp, hsign⟩
      exact List.mem_map.mpr ⟨p, (r.mem_signed p).mpr (List.mem_filter.mp hmem), rfl⟩
  rw [HttpRequest.signed, List.filter_congr hname]
  exact (congrArg pairSort hsignable).trans (signablePairs_pairSort r.pairs)

theorem Plain.signature_eq (h : r.Plain) (signature : Bytes)
    (hs : ∀ c ∈ signature, isHexLower c = true) (extra : List KvPair) (he : Unsigned extra) :
    (r.sent (r.headersOut signature) extra).signature r.accessKeySecret r.xdate r.payloadHash
        ⟨r.accessKeyId, r.scope, r.signedHeaders, signature⟩ =
      some (hexLower (hmacSha256 (signingKey r.accessKeySecret r.date8 r.region r.service)
        (r.stringToSign (normUri r.path, normQuery (r.query.getD []))))) := by
  rw [HttpRequest.signature, h.scope_splitOn]
  dsimp only
  rw [if_pos ⟨rfl, rfl⟩, HttpRequest.stringToSign, HttpRequest.canonReq,
    h.sent_signed signature hs extra he]
  simp only [sent, canonicalQuery_eq _ h.query]
  rfl

theorem Plain.must_sign (h : r.Plain) :
    ∀ name ∈ mustSign, name ∈ r.signedHeaders.splitOn 59 := by
  have hsign : ∀ name ∈ mustSign, headerSignable name = true := by decide
  rw [h.names_splitOn]
  intro name hname
  have hown : ∃ p ∈ r.ownPairs, p.1 = name := by
    simp only [mustSign, List.mem_cons, List.not_mem_nil, or_false] at hname
    rcases hname with rfl | rfl | rfl <;> simp [ownPairs]
  obtain ⟨p, hp, rfl⟩ := hown
  refine List.mem_map.mpr ⟨p, (r.mem_signed p).mpr ⟨?_, hsign _ hname⟩, rfl⟩
  rw [pairs_eq]
  exact List.mem_append_right _ hp

def norm (r : SignRequest) : Bytes × Bytes := (normUri r.path, normQuery (r.query.getD []))

/-- The signature of a call without the caches. -/
def signature (r : SignRequest) : Bytes :=
  hexLower (hmacSha256 (signingKey r.accessKeySecret r.date8 r.region r.service)
    (r.stringToSign r.norm))

theorem Plain.verifies (h : r.Plain) (extra : List KvPair) (he : Unsigned extra)
    (secretOf : Bytes → Option Bytes) (hsecret : secretOf r.accessKeyId = some r.accessKeySecret) :
    (r.sent (r.headersOut r.signature) extra).verify secretOf = some r.accessKeyId := by
  have hs : ∀ c ∈ r.signature, isHexLower c = true := hexLower_digits _
  obtain ⟨hdate, hhash, hauth⟩ := h.sent_field r.signature hs extra he
  rw [HttpRequest.verify, hdate, hhash, hauth]
  dsimp only [Option.bind_eq_bind, Option.bind_some]
  rw [h.parse_authorization]
  dsimp only [Option.bind_eq_bind, Option.bind_some]
  rw [hsecret]
  dsimp only [Option.bind_eq_bind, Option.bind_some]
  rw [h.signature_eq r.signature hs extra he]
  dsimp only [Option.bind_eq_bind, Option.bind_some]
  rw [if_pos ⟨rfl, rfl, h.must_sign⟩]
  rfl

theorem length_stringToSign (r : SignRequest) (norm : Bytes × Bytes) :
    (r.stringToSign norm).length = 78+r.xdate.length+r.scope.length := by
  have hname : (text "HMAC-SHA256").length = 11 := by decide
  simp only [stringToSign, joinWith, List.intersperse_cons_cons, List.intersperse_singleton,
    List.flatten_cons, List.flatten_nil, List.length_append, List.length_cons, List.length_nil,
    hname, length_hexLower, length_sha256]
  omega

/-- A date of sixteen bytes leaves the scope alone to be too long. -/
theorem signs (r : SignRequest) (hheaders : r.headersIn.getD [] ≠ []) (hdate : r.xdate.length = 16)
    (hscope : r.scope.length < 256) :
    (signV4AppendAt plainSteps r ()).1 = .ok (r.headersOut r.signature) := by
  unfold signV4AppendAt
  dsimp only [plainSteps]
  rw [if_neg hheaders, if_neg (Nat.not_le.mpr hscope),
    if_neg (by rw [length_stringToSign, hdate]; omega)]
  rfl

theorem signV4AppendAt_signature (r : SignRequest) (headers : Bytes)
    (h : (signV4AppendAt plainSteps r ()).1 = .ok headers) :
    headers = r.headersOut r.signature := by
  unfold signV4AppendAt at h
  dsimp only [plainSteps] at h
  split at h
  · cases h
  · split at h
    · cases h
    · split at h
      · cases h
      · exact (Signed.ok.inj h).symm

end SignRequest

/-- A token, and lines of the caller with a name that signing sets, with a
blank in front of the colon and without a colon. -/
def tokenRequest : SignRequest :=
  ⟨text "ak", text "sk", some (text "tok"), text "cn-a", text "TLS", text "POST", text "h",
    text "/PutLogs", some (text "b=1&a"), some (text "body"), some (text "20240101T000000Z"),
    some (text "x-b : 2\r\nHOST: other\nnone\nx-a: 1"), []⟩

theorem tokenRequest_plain : tokenRequest.Plain where
  host := ⟨by decide, by decide⟩
  xdate := ⟨by decide, by decide⟩
  token := by
    intro t ht
    obtain rfl : text "tok" = t := Option.some.inj ht
    exact ⟨by decide, by decide⟩
  accessKeyId := by decide
  scope := by decide
  names := by decide +kernel
  query := by decide

def tokenRun : List SignOp := [.sign tokenRequest, .clear, .sign tokenRequest]

theorem tokenRun_distinct : Distinct (requests tokenRun) where
  region := by decide +kernel
  service := by decide +kernel
  secret := by decide +kernel

theorem tokenRun_signs : (signRun tokenRun .start)[1]? =
    some (.ok (tokenRequest.headersOut tokenRequest.signature)) := by
  have hsecond : (requests tokenRun)[1]? = some tokenRequest := rfl
  have hsigns := tokenRequest.signs (by decide) (by decide) (by decide +kernel)
  rw [signRun_sound (requests tokenRun) tokenRun_distinct tokenRun _ (sound_start _)
    fun _ hr => hr, List.getElem?_map, hsecond, Option.map_some, hsigns]

end VeTls.Sign
