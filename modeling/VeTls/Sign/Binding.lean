import VeTls.Sign.Accepted

/-!
# What a signature binds

A request that verifies under the Authorization of another one is that other
request, up to the headers that are not signed, or the two are a collision of
a digest. The canonical request is cut at line breaks, so it has to be shown
that none of its parts can take over a piece of another.
-/

set_option autoImplicit false

namespace VeTls.Sign

open VeTls.Wire (Bytes)

/-- Two texts that a digest does not tell apart. -/
def Collide (digest : Bytes → Bytes) (x y : Bytes) : Prop := x ≠ y ∧ digest x = digest y

section Texts

def unhex (d : UInt8) : UInt8 := if d < 58 then d-48 else d-87

theorem unhex_digits (b : UInt8) :
    (unhex (hexDigit (b >>> 4)) <<< 4) ||| unhex (hexDigit (b &&& 15)) = b :=
  Percent.forall_byte
    (fun b => (unhex (hexDigit (b >>> 4)) <<< 4) ||| unhex (hexDigit (b &&& 15)) = b)
    (by decide +kernel) b

theorem hexLower_injective (x y : Bytes) (h : hexLower x = hexLower y) : x = y := by
  induction x generalizing y with
  | nil =>
    have hlen := congrArg List.length h
    rw [length_hexLower, length_hexLower] at hlen
    exact (List.eq_nil_of_length_eq_zero (by simpa using hlen.symm)).symm
  | cons b x ih =>
    cases y with
    | nil =>
      have hlen := congrArg List.length h
      rw [length_hexLower, length_hexLower] at hlen
      simp at hlen
    | cons c y =>
      rw [hexLower, hexLower, List.flatMap_cons, List.flatMap_cons] at h
      obtain ⟨hdigits, htail⟩ := List.append_inj h rfl
      obtain ⟨hhigh, hlow⟩ := List.cons.inj hdigits
      rw [ih y htail, ← unhex_digits b, hhigh, (List.cons.inj hlow).1, unhex_digits c]

/-- A text is cut at its first line break in one way. -/
theorem line_inj (s s' t t' : Bytes) (hs : 10 ∉ s) (hs' : 10 ∉ s') (h : s++10::t = s'++10::t') :
    s = s' ∧ t = t' := by
  have hcut := congrArg (cut 10) h
  rw [cut_at 10 s t hs, cut_at 10 s' t' hs'] at hcut
  exact Prod.mk.inj hcut

theorem canonicalText_eq (pairs : List KvPair) :
    canonicalText pairs = headerText (pairs.map fun p => p.1++58::p.2) := by
  unfold canonicalText headerText
  rw [List.flatMap_map]
  simp [List.append_assoc]

/-- A pair that can be read back from its canonical line. -/
structure OneLine (p : KvPair) : Prop where
  key : 10 ∉ p.1
  colon : 58 ∉ p.1
  value : 10 ∉ p.2

theorem canonicalText_injective (x y : List KvPair) (hx : ∀ p ∈ x, OneLine p)
    (hy : ∀ p ∈ y, OneLine p) (h : canonicalText x = canonicalText y) : x = y := by
  have hread : ∀ l : List KvPair, (∀ p ∈ l, OneLine p) →
      (pieces 10 (canonicalText l)).map (cut 58) = l := by
    intro l hl
    have hline : ∀ t ∈ l.map fun p => p.1++58::p.2, 10 ∉ t := by
      intro t ht
      obtain ⟨p, hp, rfl⟩ := List.mem_map.mp ht
      rw [List.mem_append, List.mem_cons, not_or, not_or]
      exact ⟨(hl p hp).key, by decide, (hl p hp).value⟩
    rw [canonicalText_eq, pieces_headerText _ hline, List.map_map]
    conv_rhs => rw [← List.map_id l]
    exact List.map_congr_left fun p hp => cut_at 58 p.1 p.2 (hl p hp).colon
  rw [← hread x hx, ← hread y hy, h]

theorem linePairs_oneLine (line : Bytes) (h : 10 ∉ line) : ∀ p ∈ linePairs line, OneLine p := by
  intro p hp
  unfold linePairs at hp
  split at hp
  · rw [List.mem_singleton.mp hp]
    refine ⟨lineKey_notMem line 10 (by decide) h, ?_, ?_⟩
    · intro hc
      obtain ⟨c, hmem, hlow⟩ := List.mem_map.mp hc
      obtain rfl := toLower_eq_of_small c 58 (by decide) hlow
      simpa using List.mem_takeWhile_imp (mem_trim _ _ hmem)
    · exact fun hc => h (List.dropWhile_subset _ (List.mem_of_mem_drop (mem_trim _ _ hc)))
  · cases hp

theorem textPairs_oneLine (headers : Bytes) : ∀ p ∈ textPairs headers, OneLine p := by
  intro p hp
  obtain ⟨line, hline, hp⟩ := List.mem_flatMap.mp hp
  exact linePairs_oneLine line (mem_pieces 10 headers line hline) p hp

theorem escape_notMem (s : Bytes) : 10 ∉ urlEncodeSpan s :=
  separator_notMem 10 (by decide) (by decide) (by decide) s

theorem normUri_line (path : Bytes) : 10 ∉ normUri path := by
  have hescape : ∀ c : UInt8, 10 ∉ escape c := fun c hc =>
    escape_notMem [c] (List.mem_flatMap.mpr ⟨c, List.mem_singleton_self c, hc⟩)
  unfold normUri
  split
  · decide
  · rw [List.mem_append, List.mem_flatMap, not_or]
    constructor
    · split <;> decide
    · rintro ⟨c, -, hc⟩
      split at hc
      · exact absurd hc (by decide)
      · exact hescape c hc

theorem canonicalQuery_line (query : Bytes) : 10 ∉ canonicalQuery query := by
  intro hc
  rcases mem_joinWith 38 10 _ hc with h | ⟨t, ht, hc⟩
  · exact absurd h (by decide)
  · obtain ⟨p, hp, rfl⟩ := List.mem_map.mp ht
    obtain ⟨s, -, rfl⟩ := List.mem_map.mp ((sorts_pairSort _).1.mem_iff.mp hp)
    rw [pairText, List.mem_append, List.mem_append, List.mem_singleton] at hc
    rcases hc with (hc | hc) | hc
    · exact escape_notMem _ hc
    · exact absurd hc (by decide)
    · exact escape_notMem _ hc

theorem field_line (q : HttpRequest) (name value : Bytes) (h : q.field name = some value) :
    10 ∉ value := by
  obtain ⟨p, hp, rfl⟩ := Option.map_eq_some_iff.mp h
  exact (textPairs_oneLine q.headers p (List.mem_of_find?_eq_some hp)).value

end Texts

theorem HttpRequest.verify_some (q : HttpRequest) (secretOf : Bytes → Option Bytes) (key : Bytes)
    (h : q.verify secretOf = some key) :
    ∃ date a secret, q.field (text "x-date") = some date ∧
      (q.field (text "authorization")).bind parseAuthorization = some a ∧
      secretOf a.accessKeyId = some secret ∧
      q.signature secret date (hexLower (sha256 q.body)) a = some a.signature := by
  obtain ⟨date, hdate, h⟩ := Option.bind_eq_some_iff.mp h
  obtain ⟨hash, hhash, h⟩ := Option.bind_eq_some_iff.mp h
  obtain ⟨a, ha, h⟩ := Option.bind_eq_some_iff.mp h
  obtain ⟨secret, hsecret, h⟩ := Option.bind_eq_some_iff.mp h
  obtain ⟨expected, hexpected, h⟩ := Option.bind_eq_some_iff.mp h
  split at h
  · rename_i hchecks
    obtain ⟨hbody, hsame, -⟩ := hchecks
    refine ⟨date, a, secret, hdate, ha, hsecret, ?_⟩
    rw [← hbody, hexpected, hsame]
  · cases h

theorem HttpRequest.signed_oneLine (q : HttpRequest) (names : List Bytes) :
    ∀ p ∈ q.signed names, OneLine p := by
  intro p hp
  have hmem := (sorts_pairSort _).1.mem_iff.mp hp
  exact textPairs_oneLine q.headers p (List.mem_filter.mp hmem).1

namespace SignRequest

variable {r : SignRequest}

theorem Plain.signed_oneLine (h : r.Plain) : ∀ p ∈ r.signed, OneLine p := by
  intro p hp
  have hmem := ((r.mem_signed p).mp hp).1
  rw [pairs_eq] at hmem
  rcases List.mem_append.mp hmem with hmem | hmem
  · rw [parseHeaders_eq] at hmem
    exact textPairs_oneLine _ p (List.mem_filter.mp hmem).1
  · have hall : ∀ k ∈ [text "host", text "x-date", text "x-content-sha256",
        text "x-security-token"], (10 : UInt8) ∉ k ∧ 58 ∉ k := by decide
    obtain ⟨hline, hcolon⟩ := hall p.1 (r.ownPairs_names p hmem)
    refine ⟨hline, hcolon, ?_⟩
    rcases List.mem_append.mp hmem with hmem | hmem
    · simp only [List.mem_cons, List.not_mem_nil, or_false] at hmem
      rcases hmem with rfl | rfl | rfl
      · exact h.host.line
      · exact h.xdate.line
      · exact payloadHash_tight.line
    · obtain ⟨t, ht, rfl⟩ := List.mem_map.mp hmem
      exact (h.token t (Option.mem_toList.mp ht)).line

end SignRequest

/-- The parts of the canonical request are told by it. -/
theorem canonReq_inj (m m' u u' k k' x x' names hash hash' : Bytes) (hm : 10 ∉ m) (hm' : 10 ∉ m')
    (hu : 10 ∉ u) (hu' : 10 ∉ u') (hk : 10 ∉ k) (hk' : 10 ∉ k') (hlen : hash.length = hash'.length)
    (h : joinWith [10] [m, u, k, x, names, hash] = joinWith [10] [m', u', k', x', names, hash']) :
    m = m' ∧ u = u' ∧ k = k' ∧ x = x' ∧ hash = hash' := by
  have hjoin : ∀ m u k x hash : Bytes, joinWith [10] [m, u, k, x, names, hash] =
      m++10::(u++10::(k++10::((x++10::(names++[10]))++hash))) := by
    intro m u k x hash
    simp [joinWith, List.append_assoc]
  rw [hjoin, hjoin] at h
  obtain ⟨hmethod, hafter⟩ := line_inj _ _ _ _ hm hm' h
  obtain ⟨huri, hrest⟩ := line_inj _ _ _ _ hu hu' hafter
  obtain ⟨hquery, hlast⟩ := line_inj _ _ _ _ hk hk' hrest
  obtain ⟨hfront, hhash⟩ := List.append_inj' hlast hlen
  exact ⟨hmethod, huri, hquery, List.append_cancel_right hfront, hhash⟩

theorem stringToSign_inj (name d d' scope x x' : Bytes) (hname : 10 ∉ name) (hd : 10 ∉ d)
    (hd' : 10 ∉ d')
    (h : joinWith [10] [name, d, scope, x] = joinWith [10] [name, d', scope, x']) :
    d = d' ∧ x = x' := by
  have hjoin : ∀ d x : Bytes, joinWith [10] [name, d, scope, x] =
      name++10::(d++10::(scope++10::x)) := by
    intro d x
    simp [joinWith]
  rw [hjoin, hjoin] at h
  obtain ⟨-, hafter⟩ := line_inj _ _ _ _ hname hname h
  obtain ⟨hdate, hrest⟩ := line_inj _ _ _ _ hd hd' hafter
  exact ⟨hdate, (List.cons.inj (List.append_cancel_left hrest)).2⟩

/-- What the server relies on is what was signed. -/
def Bound (r : SignRequest) (q : HttpRequest) : Prop :=
  q.method = r.method ∧ normUri q.path = normUri r.path ∧
    canonicalQuery q.query = normQuery (r.query.getD []) ∧
    q.field (text "x-date") = some r.xdate ∧
    q.signed (r.signedHeaders.splitOn 59) = r.signed ∧ q.body = r.body.getD []

/-- A collision that can be read off the two requests. -/
def Collision (r : SignRequest) (q : HttpRequest) : Prop :=
  let hash := hexLower (sha256 q.body)
  let key := signingKey r.accessKeySecret r.date8 r.region r.service
  (∃ date, q.field (text "x-date") = some date ∧
      Collide (hmacSha256 key)
        (q.stringToSign date hash ⟨r.accessKeyId, r.scope, r.signedHeaders, r.signature⟩)
        (r.stringToSign r.norm)) ∨
    Collide sha256 (q.canonReq hash r.signedHeaders) (r.canonReq r.norm) ∨
    Collide sha256 q.body (r.body.getD [])

end VeTls.Sign
