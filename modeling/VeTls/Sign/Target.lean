import VeTls.Env.Cache
import VeTls.Lib.Url
import VeTls.Sign.Query

/-!
# What is signed and what is requested

The request goes to a URL made of the endpoint and the encoded topic, and the
signature is over a host taken from the endpoint, a fixed path and a query
that is encoded once more. The two agree when the endpoint is nothing but a
host and the topic has nothing to encode.
-/

set_option autoImplicit false

namespace VeTls.Sign

open VeTls.Env (isHttpUrl)
open VeTls.Url (Parts Formed inAuthority inPath inQuery parse render renderTail)
open VeTls.Wire (Bytes)

section Source

def queryValueShouldEscape (c : UInt8) : Bool :=
  if (65 ≤ c && c ≤ 90) || (97 ≤ c && c ≤ 122) || (48 ≤ c && c ≤ 57) then false
  else !(c == 45 || c == 95 || c == 46 || c == 126)

def queryEncodeValue (value : Bytes) : Bytes := Percent.encode queryValueShouldEscape value

def putLogs : Bytes := text "/PutLogs?TopicId="

def buildPutLogsUrl (endpoint encodedTopicId : Bytes) : Bytes := endpoint++putLogs++encodedTopicId

/-- What follows the first `://`. -/
def afterMark : Bytes → Option Bytes
  | [] => none
  | c::s => if [58, 47, 47].isPrefixOf (c::s) then some ((c::s).drop 3) else afterMark s

def afterScheme (endpoint : Bytes) : Bytes := (afterMark endpoint).getD endpoint

def extractHost (endpoint : Bytes) : Bytes := (afterScheme endpoint).takeWhile (· != 47)

def buildTopicQuery (encodedTopicId : Bytes) : Bytes :=
  if encodedTopicId = [] then [] else text "TopicId="++encodedTopicId

/-- The request of the send configuration. -/
structure Target where
  url : Bytes
  host : Bytes
  query : Bytes
  deriving DecidableEq, Repr

def target (endpoint topicId : Bytes) : Target :=
  ⟨buildPutLogsUrl endpoint (queryEncodeValue topicId), extractHost endpoint,
    buildTopicQuery (queryEncodeValue topicId)⟩

end Source

/-- The URL has the signed host, the signed path and the query that is
signed, and the signed form of the query has the topic encoded once. -/
def Agrees (qsort : List KvPair → List KvPair) (endpoint topicId : Bytes) : Prop :=
  (∃ u, parse (target endpoint topicId).url = some u ∧
      u.authority = (target endpoint topicId).host ∧ u.path = text "/PutLogs" ∧
      u.query = some (target endpoint topicId).query) ∧
    normQueryBy (pairSortWith qsort) (target endpoint topicId).query =
      text "TopicId="++queryEncodeValue topicId

/-- The endpoint ends with its host, or it is the whole URL with a fragment
that takes up what is appended. -/
def HostOnly (endpoint topicId : Bytes) : Prop :=
  (∀ c ∈ afterScheme endpoint, inAuthority c = true) ∨
    ∃ host fragment, (∀ c ∈ host, inAuthority c = true) ∧
      afterScheme endpoint = host++(putLogs++queryEncodeValue topicId)++35::fragment

section Topic

theorem queryEncodeValue_eq (value : Bytes) : queryEncodeValue value = urlEncodeSpan value := by
  have hesc : queryValueShouldEscape = shouldEscape := by
    funext c
    exact Percent.forall_byte (fun c => queryValueShouldEscape c = shouldEscape c)
      (by decide +kernel) c
  rw [queryEncodeValue, hesc]
  rfl

theorem queryEncodeValue_ne_nil (value : Bytes) (h : value ≠ []) : queryEncodeValue value ≠ [] := by
  intro he
  have hlen := Percent.length_encode queryValueShouldEscape value
  rw [queryEncodeValue] at he
  rw [he] at hlen
  have := List.length_pos_iff.mpr h
  simp at hlen
  omega

theorem topicQuery_notMem (topicId : Bytes) : 38 ∉ text "TopicId="++queryEncodeValue topicId := by
  rw [queryEncodeValue_eq, List.mem_append]
  rintro (h | h)
  · exact absurd h (by decide)
  · exact amp_notMem topicId h

/-- The signed form of the query encodes the topic a second time. -/
theorem normQuery_topic (qsort : List KvPair → List KvPair) (topicId : Bytes) :
    normQueryBy (pairSortWith qsort) (text "TopicId="++queryEncodeValue topicId) =
      text "TopicId="++urlEncodeSpan (queryEncodeValue topicId) := by
  have hkey : text "TopicId=" = text "TopicId"++[61] := by decide
  have hne : text "TopicId="++queryEncodeValue topicId ≠ [] := by
    rw [hkey]
    simp
  have hjoin : ∀ s : Bytes, joinWith [38] [s] = s := fun s => by simp [joinWith]
  have hslow := normQuerySlow_joinWith (pairSortWith qsort)
    [text "TopicId="++queryEncodeValue topicId] fun s hs => by
      rw [List.mem_singleton.mp hs]
      exact ⟨hne, topicQuery_notMem topicId⟩
  have hone : ∀ p, pairSortWith qsort [p] = [p] := fun p => rfl
  rw [hjoin, List.map_singleton, hone, List.map_singleton, hjoin, pairText_encodedPair, hkey,
    List.append_assoc, List.singleton_append, cut_at 61 _ _ (by decide)] at hslow
  rw [normQueryBy_slow qsort _ hne, hkey, List.append_assoc, List.singleton_append, hslow]
  have hplain : urlEncodeSpan (text "TopicId") = text "TopicId" := by decide
  rw [hplain, List.append_assoc, List.singleton_append]

theorem canonical_iff (qsort : List KvPair → List KvPair) (topicId : Bytes) :
    normQueryBy (pairSortWith qsort) (text "TopicId="++queryEncodeValue topicId) =
        text "TopicId="++queryEncodeValue topicId ↔ ∀ c ∈ topicId, shouldEscape c = false := by
  rw [normQuery_topic, List.append_cancel_left_eq, queryEncodeValue_eq, urlEncodeSpan_eq,
    urlEncodeSpan_eq, Percent.encode_eq_self, Percent.encode_plain_iff shouldEscape (by decide)]

end Topic

section Endpoint

variable (scheme rest : Bytes)

theorem isHttpUrl_spec (endpoint : Bytes) (h : isHttpUrl endpoint = true) : ∃ scheme rest,
    (∀ c ∈ scheme, (c != 58) = true) ∧ endpoint = scheme++58::47::47::rest ∧
      afterScheme endpoint = rest := by
  rcases Bool.or_eq_true_iff.mp h with h | h
  · obtain ⟨rest, rfl⟩ := List.isPrefixOf_iff_prefix.mp h
    exact ⟨[104, 116, 116, 112], rest, by decide +kernel, rfl, rfl⟩
  · obtain ⟨rest, rfl⟩ := List.isPrefixOf_iff_prefix.mp h
    exact ⟨[104, 116, 116, 112, 115], rest, by decide +kernel, rfl, rfl⟩

theorem parse_after (hs : ∀ c ∈ scheme, (c != 58) = true) (u : Parts)
    (h : parse (scheme++58::47::47::rest) = some u) :
    rest = u.authority++(u.path++renderTail u.query u.fragment) ∧ Formed u := by
  obtain ⟨he, hf⟩ := (Url.parse_eq_some _ u).mp h
  have hdrop := congrArg (List.dropWhile (· != 58)) he
  rw [render, (Url.span_append (· != 58) scheme _ hs (by simp)).2,
    (Url.span_append (· != 58) u.scheme _ hf.scheme (by simp)).2] at hdrop
  exact ⟨by simpa using hdrop, hf⟩

theorem sign_notMem (value : Bytes) : 35 ∉ putLogs++queryEncodeValue value := by
  rw [queryEncodeValue_eq, List.mem_append]
  rintro (h | h)
  · exact absurd h (by decide)
  · exact separator_notMem 35 (by decide) (by decide) (by decide) value h

/-- What is appended to the endpoint begins with a slash and has no number
sign, so it ends the whole only if nothing or a fragment is in front. -/
theorem appended_cases (host tail fragment : Bytes) (hsign : 35 ∉ tail)
    (hhead : tail.head? = some 47) (h : rest++tail = (host++tail)++35::fragment) :
    ∃ f, rest = (host++tail)++35::f := by
  rcases List.append_eq_append_iff.mp h with ⟨c, -, hc⟩ | ⟨c, hrest, hc⟩
  · exact absurd (hc ▸ List.mem_append_right c List.mem_cons_self) hsign
  · cases c with
    | nil =>
      rw [List.nil_append] at hc
      rw [← hc] at hhead
      cases hhead
    | cons x c =>
      obtain ⟨rfl, -⟩ := List.cons.inj hc
      exact ⟨c, hrest⟩

theorem extractHost_append (endpoint host t : Bytes) (hh : ∀ c ∈ host, inAuthority c = true)
    (ht : ∀ c ∈ t.head?, c = 47) (h : afterScheme endpoint = host++t) :
    extractHost endpoint = host := by
  have hslash : ∀ c ∈ host, (c != 47) = true := by
    intro c hc
    have := hh c hc
    simp only [inAuthority, Bool.and_eq_true] at this
    exact this.1.1
  rw [extractHost, h]
  exact (Url.span_append (· != 47) host t hslash fun c hc => by simp [ht c hc]).1

theorem renderTail_putLogs (value : Bytes) (fragment : Option Bytes) :
    text "/PutLogs"++renderTail (some (text "TopicId="++value)) fragment =
      putLogs++value++fragment.elim [] (35::·) := by
  have hput : putLogs = text "/PutLogs"++63::text "TopicId=" := by decide
  rw [hput, renderTail]
  simp

/-- The URL agrees with what is signed exactly when the endpoint is a host. -/
theorem url_agrees_iff (endpoint topicId : Bytes) (he : isHttpUrl endpoint = true)
    (ht : topicId ≠ []) :
    (∃ u, parse (target endpoint topicId).url = some u ∧
        u.authority = (target endpoint topicId).host ∧ u.path = text "/PutLogs" ∧
        u.query = some (target endpoint topicId).query) ↔ HostOnly endpoint topicId := by
  obtain ⟨scheme, rest, hs, hend, hafter⟩ := isHttpUrl_spec endpoint he
  have hquery : (target endpoint topicId).query = text "TopicId="++queryEncodeValue topicId := by
    rw [target, buildTopicQuery, if_neg (queryEncodeValue_ne_nil topicId ht)]
  have hurl : (target endpoint topicId).url =
      scheme++58::47::47::(rest++(putLogs++queryEncodeValue topicId)) := by
    rw [target, buildPutLogsUrl, hend]
    simp
  have hhead : (putLogs++queryEncodeValue topicId).head? = some 47 := by
    have hput : putLogs = 47::text "PutLogs?TopicId=" := by decide
    rw [hput]
    rfl
  have hpath : ∀ c ∈ text "/PutLogs", inPath c = true := by decide +kernel
  have hroot : (text "/PutLogs").head?.all (· == 47) = true := by decide
  have hformed : ∀ q ∈ some (text "TopicId="++queryEncodeValue topicId), ∀ c ∈ q,
      inQuery c = true := by
    intro q hq c hc
    obtain rfl := Option.some.inj hq
    have hnot := sign_notMem topicId
    simp only [inQuery, bne_iff_ne]
    rintro rfl
    rw [List.mem_append] at hc hnot
    rcases hc with hc | hc
    · exact absurd hc (by decide)
    · exact hnot (.inr hc)
  rw [hquery, hurl, HostOnly, hafter]
  constructor
  · rintro ⟨u, hu, -, hp, hq⟩
    obtain ⟨hrest, hf⟩ := parse_after scheme _ hs u hu
    rw [hp, hq, renderTail_putLogs] at hrest
    cases hfrag : u.fragment with
    | none =>
      rw [hfrag, Option.elim_none, List.append_nil] at hrest
      left
      rw [List.append_cancel_right hrest]
      exact hf.authority
    | some f =>
      rw [hfrag, Option.elim_some] at hrest
      obtain ⟨f', hf'⟩ := appended_cases rest u.authority _ f (sign_notMem topicId) hhead
        (hrest.trans (List.append_assoc _ _ _).symm)
      exact .inr ⟨u.authority, f', hf.authority, hf'⟩
  · rintro (hclean | ⟨host, f, hclean, hrest⟩)
    · refine ⟨⟨scheme, rest, text "/PutLogs", some (text "TopicId="++queryEncodeValue topicId),
        none⟩, ?_, ?_, rfl, rfl⟩
      · refine (Url.parse_eq_some _ _).mpr ⟨?_, hs, hclean, hpath, hroot, hformed⟩
        rw [render, renderTail_putLogs]
        simp
      · exact (extractHost_append endpoint rest [] hclean (by simp) (by simp [hafter])).symm
    · refine ⟨⟨scheme, host, text "/PutLogs", some (text "TopicId="++queryEncodeValue topicId),
        some (f++(putLogs++queryEncodeValue topicId))⟩, ?_, ?_, rfl, rfl⟩
      · refine (Url.parse_eq_some _ _).mpr ⟨?_, hs, hclean, hpath, hroot, hformed⟩
        rw [render, renderTail_putLogs, hrest]
        simp
      · refine (extractHost_append endpoint host ((putLogs++queryEncodeValue topicId)++35::f) hclean
          ?_ (by rw [hafter, hrest, List.append_assoc])).symm
        intro c hc
        rw [List.head?_append, hhead] at hc
        exact (Option.some.inj hc).symm

end Endpoint

/-- For an endpoint and a topic that are accepted, what is requested is what
is signed exactly when the endpoint is a host and nothing in the topic is to
be encoded. -/
theorem target_agrees_iff (qsort : List KvPair → List KvPair) (endpoint topicId : Bytes)
    (he : isHttpUrl endpoint = true) (ht : topicId ≠ []) :
    Agrees qsort endpoint topicId ↔
      HostOnly endpoint topicId ∧ ∀ c ∈ topicId, shouldEscape c = false := by
  have hquery : (target endpoint topicId).query = text "TopicId="++queryEncodeValue topicId := by
    rw [target, buildTopicQuery, if_neg (queryEncodeValue_ne_nil topicId ht)]
  rw [Agrees, url_agrees_iff endpoint topicId he ht, hquery, canonical_iff]

theorem plain_target_agrees : Agrees id (text "https://example.com") (text "t-1") :=
  (target_agrees_iff id _ _ (by decide) (by decide)).mpr
    ⟨.inl (by decide +kernel), by decide +kernel⟩

/-- A topic with a blank is encoded twice in what is signed; a slash at the
end of the endpoint gives a path with two. -/
theorem target_disagrees :
    ¬ Agrees id (text "https://example.com") (text "topic a&b=%/") ∧
      ¬ Agrees id (text "https://example.com/") (text "t") := by
  constructor
  · intro h
    exact absurd h.2 (by decide)
  · rintro ⟨⟨u, hu, -, hpath, -⟩, -⟩
    have hparse : (parse (target (text "https://example.com/") (text "t")).url).map Parts.path =
        some (text "//PutLogs") := by decide
    rw [hu, Option.map_some, hpath] at hparse
    exact absurd hparse (by decide)

end VeTls.Sign
