import VeTls.Lib.Percent
import VeTls.Sign.Order

/-!
# The canonical query

The query is taken apart at its ampersands, each parameter is encoded, and
the parameters are sorted and put together again. A single parameter without
anything to encode is answered without any of this.
-/

set_option autoImplicit false

namespace VeTls.Sign

open VeTls.Wire (Bytes)
open VeTls.Percent (encode decode)

section Source

def hexCount (s : Bytes) : ℕ := s.countP shouldEscape

/-- The size of the buffer of an encoding, with the terminator. -/
def urlEncodeSize (s : Bytes) : ℕ := s.length+hexCount s*2+1

/-- The spans between ampersands. -/
def querySpans : ℕ → Bytes → List Bytes
  | 0, _ => []
  | n+1, p =>
    if p = [] then []
    else if 38 ∈ p then (cut 38 p).1::querySpans n (cut 38 p).2
    else [p]

def encodedPair (p : Bytes) : KvPair := (urlEncodeSpan (cut 61 p).1, urlEncodeSpan (cut 61 p).2)

def pairText (p : KvPair) : Bytes := p.1++[61]++p.2

def normQuerySlow (sort : List KvPair → List KvPair) (query : Bytes) : Bytes :=
  let pairs := (querySpans query.length query).map encodedPair
  joinWith [38] ((sort pairs).map pairText)

/-- Nothing of a single parameter is encoded. -/
def fastQuery (query : Bytes) : Bool :=
  decide (38 ∉ query) && !((cut 61 query).1.any shouldEscape || (cut 61 query).2.any shouldEscape)

def normQueryFast (query : Bytes) : Bytes := if 61 ∈ query then query else query++[61]

def normQueryBy (sort : List KvPair → List KvPair) (query : Bytes) : Bytes :=
  if query = [] then []
  else if fastQuery query then normQueryFast query
  else normQuerySlow sort query

end Source

section Encoding

theorem urlEncodeSpan_eq (s : Bytes) : urlEncodeSpan s = encode shouldEscape s := rfl

/-- An encoding fills its buffer. -/
theorem urlEncodeSpan_size (s : Bytes) : (urlEncodeSpan s).length+1 = urlEncodeSize s := by
  rw [urlEncodeSpan_eq, Percent.length_encode, urlEncodeSize, hexCount, mul_comm]

theorem percent_decode (s : Bytes) : decode (urlEncodeSpan s) = s :=
  Percent.decode_of_encode shouldEscape (by decide) s

/-- The separators are not in an encoding. -/
theorem separator_notMem (c : UInt8) (hesc : shouldEscape c = true) (hne : c ≠ 37)
    (hhex : Percent.isHexUpper c = false) (s : Bytes) : c ∉ urlEncodeSpan s := by
  intro hc
  rcases Percent.mem_encode shouldEscape s c hc with h | h | h
  · exact hne h
  · exact Bool.false_ne_true (hhex.symm.trans h)
  · exact Bool.false_ne_true (h.symm.trans hesc)

theorem amp_notMem (s : Bytes) : 38 ∉ urlEncodeSpan s :=
  separator_notMem 38 (by decide) (by decide) (by decide) s

theorem eq_notMem (s : Bytes) : 61 ∉ urlEncodeSpan s :=
  separator_notMem 61 (by decide) (by decide) (by decide) s

end Encoding

section Cutting

theorem cut_of_notMem (sep : UInt8) (s : Bytes) (h : sep ∉ s) : cut sep s = (s, []) := by
  have hall : ∀ c ∈ s, (c != sep) = true := fun c hc => by
    simp only [bne_iff_ne]
    exact fun he => h (he ▸ hc)
  rw [cut, List.takeWhile_eq_self_iff.mpr hall, List.dropWhile_eq_nil_iff.mpr hall]
  rfl

theorem cut_at (sep : UInt8) (k v : Bytes) (h : sep ∉ k) : cut sep (k++sep::v) = (k, v) := by
  have hall : ∀ c ∈ k, (c != sep) = true := fun c hc => by
    simp only [bne_iff_ne]
    exact fun he => h (he ▸ hc)
  rw [cut, List.takeWhile_append_of_pos hall, List.dropWhile_append_of_pos hall]
  simp

theorem joinWith_cons (sep p : Bytes) (q : Bytes) (parts : List Bytes) :
    joinWith sep (p::q::parts) = p++sep++joinWith sep (q::parts) := by
  simp [joinWith, List.intersperse, List.append_assoc]

theorem length_joinWith (sep : Bytes) (parts : List Bytes) (h : ∀ p ∈ parts, p ≠ []) :
    parts.length ≤ (joinWith sep parts).length := by
  induction parts with
  | nil => exact Nat.zero_le _
  | cons p parts ih =>
    have hp := List.length_pos_iff.mpr (h p List.mem_cons_self)
    have hrest := ih fun x hx => h x (List.mem_cons_of_mem p hx)
    cases parts with
    | nil =>
      simp only [joinWith, List.intersperse_singleton, List.flatten_singleton]
      exact hp
    | cons q parts =>
      rw [joinWith_cons, List.length_append, List.length_append]
      simp only [List.length_cons] at hrest ⊢
      omega

/-- The spans of segments put together are the segments. -/
theorem querySpans_joinWith (segs : List Bytes) (h : ∀ s ∈ segs, s ≠ [] ∧ 38 ∉ s) (n : ℕ)
    (hn : segs.length ≤ n) : querySpans n (joinWith [38] segs) = segs := by
  induction segs generalizing n with
  | nil => cases n <;> rfl
  | cons s segs ih =>
    obtain ⟨m, rfl⟩ : ∃ m, n = m+1 := ⟨n-1, by rw [List.length_cons] at hn; omega⟩
    obtain ⟨hne, hamp⟩ := h s List.mem_cons_self
    have hrest := ih (fun x hx => h x (List.mem_cons_of_mem s hx)) m
      (by rw [List.length_cons] at hn; omega)
    cases segs with
    | nil =>
      have hjoin : joinWith [38] [s] = s := by simp [joinWith]
      rw [hjoin, querySpans, if_neg hne, if_neg hamp]
    | cons t segs =>
      rw [joinWith_cons, List.append_assoc, List.singleton_append, querySpans, if_neg (by simp),
        if_pos (by simp), cut_at 38 s _ hamp, hrest]

theorem joinWith_ne_nil (segs : List Bytes) (hsegs : segs ≠ []) (h : ∀ s ∈ segs, s ≠ []) :
    joinWith [38] segs ≠ [] := by
  have hlen := length_joinWith [38] segs h
  have hpos := List.length_pos_iff.mpr hsegs
  exact List.length_pos_iff.mp (by omega)

end Cutting

section Canonical

/-- The pairs of a canonical query, with the encoding undone. -/
def decodePairs (query : Bytes) : List KvPair :=
  (querySpans query.length query).map fun p => (decode (cut 61 p).1, decode (cut 61 p).2)

theorem pairText_encodedPair (s : Bytes) :
    pairText (encodedPair s) = urlEncodeSpan (cut 61 s).1++61::urlEncodeSpan (cut 61 s).2 := by
  simp [pairText, encodedPair]

theorem pairText_span (s : Bytes) :
    pairText (encodedPair s) ≠ [] ∧ 38 ∉ pairText (encodedPair s) := by
  rw [pairText_encodedPair]
  refine ⟨by simp, ?_⟩
  rw [List.mem_append, List.mem_cons]
  rintro (h | h | h)
  · exact amp_notMem _ h
  · cases h
  · exact amp_notMem _ h

theorem decode_pairText (s : Bytes) : (decode (cut 61 (pairText (encodedPair s))).1,
    decode (cut 61 (pairText (encodedPair s))).2) = cut 61 s := by
  rw [pairText_encodedPair, cut_at 61 _ _ (eq_notMem _)]
  exact Prod.ext (percent_decode _) (percent_decode _)

theorem normQuerySlow_joinWith (sort : List KvPair → List KvPair) (segs : List Bytes)
    (h : ∀ s ∈ segs, s ≠ [] ∧ 38 ∉ s) : normQuerySlow sort (joinWith [38] segs) =
      joinWith [38] ((sort (segs.map encodedPair)).map pairText) := by
  rw [normQuerySlow, querySpans_joinWith segs h _
    (length_joinWith [38] segs fun s hs => (h s hs).1)]

/-- The fast path answers what the general path answers. -/
theorem fastQuery_slow (qsort : List KvPair → List KvPair) (query : Bytes) (hne : query ≠ [])
    (hfast : fastQuery query = true) :
    normQueryFast query = normQuerySlow (pairSortWith qsort) query := by
  simp only [fastQuery, Bool.and_eq_true, decide_eq_true_eq, Bool.not_eq_true',
    Bool.or_eq_false_iff, List.any_eq_false, Bool.not_eq_true] at hfast
  obtain ⟨hamp, hk, hv⟩ := hfast
  have hjoin : joinWith [38] [query] = query := by simp [joinWith]
  have hslow := normQuerySlow_joinWith (pairSortWith qsort) [query]
    (fun s hs => by rw [List.mem_singleton.mp hs]; exact ⟨hne, hamp⟩)
  rw [hjoin] at hslow
  have hone : pairSortWith qsort [encodedPair query] = [encodedPair query] := rfl
  rw [hslow, List.map_singleton, hone, List.map_singleton, pairText_encodedPair, urlEncodeSpan_eq,
    urlEncodeSpan_eq,
    Percent.encode_of_plain shouldEscape _ hk, Percent.encode_of_plain shouldEscape _ hv]
  unfold normQueryFast
  by_cases heq : 61 ∈ query
  · obtain ⟨k, v, rfl, hnot⟩ := List.eq_append_cons_of_mem heq
    rw [if_pos heq, cut_at 61 k v hnot]
    simp [joinWith]
  · rw [if_neg heq, cut_of_notMem 61 query heq]
    simp [joinWith]

theorem normQueryBy_slow (qsort : List KvPair → List KvPair) (query : Bytes) (hne : query ≠ []) :
    normQueryBy (pairSortWith qsort) query = normQuerySlow (pairSortWith qsort) query := by
  rw [normQueryBy, if_neg hne]
  split
  · rename_i hfast
    exact fastQuery_slow qsort query hne hfast
  · rfl

theorem pieces_append (sep : UInt8) (k v : Bytes) (h : sep ∉ k) :
    pieces sep (k++sep::v) = k::pieces sep v := by
  unfold pieces
  rw [List.splitOn_append_cons_self_of_not_mem h]
  cases hv : v.splitOn sep with
  | nil => exact absurd hv (List.splitOn_ne_nil sep v)
  | cons t parts =>
    simp only [List.getLast?_cons_cons, List.dropLast_cons_cons]
    split <;> rfl

theorem pieces_of_notMem (sep : UInt8) (s : Bytes) (hne : s ≠ []) (h : sep ∉ s) :
    pieces sep s = [s] := by
  unfold pieces
  rw [List.splitOn_eq_singleton h]
  simp [hne]

/-- The loop over the spans is the cut into pieces. -/
theorem querySpans_eq (n : ℕ) (p : Bytes) (hn : p.length ≤ n) : querySpans n p = pieces 38 p := by
  induction n generalizing p with
  | zero =>
    obtain rfl : p = [] := List.eq_nil_of_length_eq_zero (by omega)
    rfl
  | succ n ih =>
    rw [querySpans]
    split_ifs with hp hamp
    · rw [hp]
      rfl
    · obtain ⟨k, v, rfl, hk⟩ := List.eq_append_cons_of_mem hamp
      rw [cut_at 38 k v hk, pieces_append 38 k v hk, ih v]
      rw [List.length_append, List.length_cons] at hn
      omega
    · exact (pieces_of_notMem 38 p hp hamp).symm

/-- Signing uses this query, whichever way the pairs are sorted. -/
theorem normQueryBy_eq (qsort : List KvPair → List KvPair) (hq : Sorts qsort) (query : Bytes) :
    normQueryBy (pairSortWith qsort) query = normQuery query := by
  have hsort : pairSortWith qsort = pairSort := funext fun pairs =>
    (sorts_pairSortWith qsort hq).eq_of_perm sorts_pairSort pairs pairs (List.Perm.refl _)
  unfold normQueryBy normQuery normQuerySlow
  rw [querySpans_eq _ _ (le_refl _), hsort]
  simp only [fastQuery, List.any_append, Bool.and_eq_true, decide_eq_true_eq]
  rfl

end Canonical

/-- The canonical query of parameters is the join of their sorted encodings,
on both paths and in every order of the parameters, and decoding it gives
the parameters back. -/
theorem norm_query_canonical (qsort : List KvPair → List KvPair) (hq : Sorts qsort)
    (segs : List Bytes) (hsegs : segs ≠ []) (h : ∀ s ∈ segs, s ≠ [] ∧ 38 ∉ s) :
    normQueryBy (pairSortWith qsort) (joinWith [38] segs) =
        joinWith [38] ((pairSort (segs.map encodedPair)).map pairText) ∧
      (fastQuery (joinWith [38] segs) = true → normQueryFast (joinWith [38] segs) =
        normQuerySlow (pairSortWith qsort) (joinWith [38] segs)) ∧
      (∀ segs' : List Bytes, segs'.Perm segs →
        normQueryBy (pairSortWith qsort) (joinWith [38] segs') =
          normQueryBy (pairSortWith qsort) (joinWith [38] segs)) ∧
      (decodePairs (normQueryBy (pairSortWith qsort) (joinWith [38] segs))).Perm
        (segs.map (cut 61)) := by
  have hne := joinWith_ne_nil segs hsegs fun s hs => (h s hs).1
  have hcanon : ∀ segs' : List Bytes, segs'.Perm segs →
      normQueryBy (pairSortWith qsort) (joinWith [38] segs') =
        joinWith [38] ((pairSort (segs.map encodedPair)).map pairText) := by
    intro segs' hp
    have h' : ∀ s ∈ segs', s ≠ [] ∧ 38 ∉ s := fun s hs => h s (hp.mem_iff.mp hs)
    have hsegs' : segs' ≠ [] := fun he => hsegs (he ▸ hp).symm.eq_nil
    rw [normQueryBy_slow qsort _ (joinWith_ne_nil segs' hsegs' fun s hs => (h' s hs).1),
      normQuerySlow_joinWith _ segs' h', (sorts_pairSortWith qsort hq).eq_of_perm sorts_pairSort _ _
        (hp.map encodedPair)]
  refine ⟨hcanon segs (List.Perm.refl _), fastQuery_slow qsort _ hne, fun segs' hp => ?_, ?_⟩
  · rw [hcanon segs' hp, hcanon segs (List.Perm.refl _)]
  · have hperm := (sorts_pairSort (segs.map encodedPair)).1
    have htext : ∀ t ∈ (pairSort (segs.map encodedPair)).map pairText, t ≠ [] ∧ 38 ∉ t := by
      intro t ht
      obtain ⟨p, hp, rfl⟩ := List.mem_map.mp ht
      obtain ⟨s, -, rfl⟩ := List.mem_map.mp (hperm.mem_iff.mp hp)
      exact pairText_span s
    rw [hcanon segs (List.Perm.refl _), decodePairs, querySpans_joinWith _ htext _
      (length_joinWith [38] _ fun t ht => (htext t ht).1)]
    refine ((hperm.map pairText).map _).trans (List.Perm.of_eq ?_)
    rw [List.map_map, List.map_map]
    exact List.map_congr_left fun s _ => decode_pairText s

theorem norm_query_canonical_three :
    joinWith [38] ((pairSort ([text "b=1", text "a", text "a=%"].map encodedPair)).map pairText) =
      text "a=&a=%25&b=1" :=
  (norm_query_canonical pairSort sorts_pairSort [text "b=1", text "a", text "a=%"] (by decide)
    (by decide)).1.symm.trans (by decide +kernel)

end VeTls.Sign
