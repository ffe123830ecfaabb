import VeTls.Sign.Order

/-!
# The headers that are signed are sent

One scan of the headers of the caller collects the pairs for the signature,
another one copies lines to the output. Both leave out the same lines, and
the carriage returns that are not copied belong to no value.
-/

set_option autoImplicit false

namespace VeTls.Sign

open VeTls.Wire (Bytes)
open SignRequest (copiedLines)

section Blanks

/-- A line without the carriage returns at its end. -/
def bare (line : Bytes) : Bytes := (line.reverse.dropWhile (· == 13)).reverse

theorem bare_append (line : Bytes) : ∃ crs : Bytes, line = bare line++crs ∧ ∀ c ∈ crs, c = 13 := by
  refine ⟨(line.reverse.takeWhile (· == 13)).reverse, ?_, ?_⟩
  · rw [bare, ← List.reverse_append, List.takeWhile_append_dropWhile, List.reverse_reverse]
  · intro c hc
    have h := List.mem_takeWhile_imp (List.mem_reverse.mp hc)
    exact beq_iff_eq.mp h

theorem trim_append (s blanks : Bytes) (h : ∀ c ∈ blanks, isSpace c = true) :
    trim (s++blanks) = trim s := by
  have hback : ∀ l : Bytes, (blanks.reverse++l).dropWhile isSpace = l.dropWhile isSpace :=
    fun l => List.dropWhile_append_of_pos fun c hc => h c (List.mem_reverse.mp hc)
  rw [trim, trim, List.dropWhile_append]
  by_cases hs : s.dropWhile isSpace = []
  · have hblank : blanks.dropWhile isSpace = [] := List.dropWhile_eq_nil_iff.mpr h
    simp [hs, hblank]
  · rw [if_neg (by simpa using hs), List.reverse_append, hback]

theorem cut_append (sep : UInt8) (s t : Bytes) (h : sep ∈ s) :
    cut sep (s++t) = ((cut sep s).1, (cut sep s).2++t) := by
  have hdrop : (s.dropWhile (· != sep)) ≠ [] := by
    intro he
    have hall := List.dropWhile_eq_nil_iff.mp he sep h
    simp at hall
  have htake : (s++t).takeWhile (· != sep) = s.takeWhile (· != sep) := by
    rw [List.takeWhile_append]
    split
    · rename_i hlen
      exfalso
      apply hdrop
      have := congrArg List.length (List.takeWhile_append_dropWhile (p := (· != sep)) (l := s))
      rw [List.length_append] at this
      exact List.length_eq_zero_iff.mp (by omega)
    · rfl
  have hcons : 1 ≤ (s.dropWhile (· != sep)).length := List.length_pos_iff.mpr hdrop
  rw [cut, cut, htake, List.dropWhile_append, if_neg (by simpa using hdrop),
    List.drop_append_of_le_length hcons]

/-- The pairs of a line do not change. -/
theorem linePairs_bare (line : Bytes) : linePairs (bare line) = linePairs line := by
  obtain ⟨crs, hline, hcr⟩ := bare_append line
  have hspace : ∀ c ∈ crs, isSpace c = true := fun c hc => by
    rw [hcr c hc]
    rfl
  have hcolon : (58 : UInt8) ∉ crs := fun hc => absurd (hcr 58 hc) (by decide)
  have hmem : (58 : UInt8) ∈ line ↔ 58 ∈ bare line := by
    conv_lhs => rw [hline]
    rw [List.mem_append, or_iff_left hcolon]
  unfold linePairs
  by_cases h : (58 : UInt8) ∈ bare line
  · have hcut : cut 58 line = ((cut 58 (bare line)).1, (cut 58 (bare line)).2++crs) := by
      conv_lhs => rw [hline]
      exact cut_append 58 _ _ h
    rw [if_pos (List.contains_iff_mem.mpr h), if_pos (List.contains_iff_mem.mpr (hmem.mpr h)),
      lineKey, lineKey, hcut, trim_append _ _ hspace]
  · rw [if_neg (fun hc => h (List.contains_iff_mem.mp hc)),
      if_neg (fun hc => h (hmem.mp (List.contains_iff_mem.mp hc)))]

end Blanks

section Lines

/-- The pieces between separators have their bytes from the text, and no
separator. -/
theorem splitOn_parts (sep : UInt8) (s : Bytes) :
    ∀ l ∈ s.splitOn sep, sep ∉ l ∧ ∀ c ∈ l, c ∈ s := by
  induction s with
  | nil => simp
  | cons c s ih =>
    rw [List.splitOn_cons_eq_if_modifyHead]
    split
    · intro l hl
      obtain rfl | hl := List.mem_cons.mp hl
      · exact ⟨List.not_mem_nil, nofun⟩
      · exact (ih l hl).imp_right fun h x hx => List.mem_cons_of_mem c (h x hx)
    · rename_i hc
      have hne : c ≠ sep := fun he => hc (beq_iff_eq.mpr he)
      cases hs : s.splitOn sep with
      | nil => simp
      | cons x xs =>
        rw [hs] at ih
        intro l hl
        obtain rfl | hl := List.mem_cons.mp hl
        · obtain ⟨hx, hsub⟩ := ih x List.mem_cons_self
          rw [List.mem_cons, not_or]
          exact ⟨⟨Ne.symm hne, hx⟩, List.forall_mem_cons.mpr
            ⟨List.mem_cons_self, fun y hy => List.mem_cons_of_mem c (hsub y hy)⟩⟩
        · exact (ih l (List.mem_cons_of_mem x hl)).imp_right
            fun h y hy => List.mem_cons_of_mem c (h y hy)

theorem mem_pieces (sep : UInt8) (s : Bytes) (line : Bytes) (h : line ∈ pieces sep s) :
    sep ∉ line := by
  unfold pieces at h
  dsimp only at h
  split at h
  · exact (splitOn_parts sep s line (List.mem_of_mem_dropLast h)).1
  · exact (splitOn_parts sep s line h).1

/-- The copy of a line, if there is one. -/
def keptBare (line : Bytes) : Option Bytes :=
  if line.contains 58 ∧ isSdkManagedHeaderLower (lineKey line) then none
  else if bare line = [] then none
  else some (bare line)

/-- The names that signing sets fit the buffer of the second scan. -/
theorem managed_length (key : Bytes) (h : isSdkManagedHeaderLower key = true) :
    0 < key.length ∧ key.length < 32 := by
  have hall : ∀ k ∈ [text "host", text "x-date", text "x-content-sha256", text "x-security-token",
      text "authorization"], 0 < k.length ∧ k.length < 32 := by decide
  exact hall key (List.contains_iff_mem.mp h)

theorem keptLine_eq (line : Bytes) : keptLine line = (keptBare line).elim [] (·++[10]) := by
  unfold keptLine keptBare
  by_cases h : line.contains 58 = true ∧ isSdkManagedHeaderLower (lineKey line) = true
  · obtain ⟨hpos, hlt⟩ := managed_length _ h.2
    rw [if_pos h, if_pos ⟨h.1, hpos, hlt, h.2⟩]
    rfl
  · rw [if_neg h, if_neg fun hk => h ⟨hk.1, hk.2.2.2⟩]
    dsimp only
    rw [← bare]
    split <;> rfl

theorem copiedLines_eq (headers : Bytes) :
    copiedLines headers = headerText ((pieces 10 headers).filterMap keptBare) := by
  unfold copiedLines headerText
  induction pieces 10 headers with
  | nil => rfl
  | cons line lines ih =>
    rw [List.flatMap_cons, keptLine_eq, ih, List.filterMap_cons]
    cases keptBare line <;> rfl

theorem pieces_copiedLines (headers : Bytes) :
    pieces 10 (copiedLines headers) = (pieces 10 headers).filterMap keptBare := by
  rw [copiedLines_eq, pieces_headerText]
  intro l hl
  obtain ⟨line, hline, hkept⟩ := List.mem_filterMap.mp hl
  obtain ⟨crs, happend, -⟩ := bare_append line
  unfold keptBare at hkept
  split at hkept
  · cases hkept
  · split at hkept
    · cases hkept
    · obtain rfl := Option.some.inj hkept
      intro hmem
      apply mem_pieces 10 headers line hline
      rw [happend]
      exact List.mem_append_left crs hmem

theorem keptBare_pairs (line : Bytes) : (keptBare line).elim [] linePairs =
    (linePairs line).filter fun p => !isSdkManagedHeaderLower p.1 := by
  unfold keptBare
  by_cases h : line.contains 58 = true ∧ isSdkManagedHeaderLower (lineKey line) = true
  · rw [if_pos h, linePairs, if_pos h.1]
    simp [h.2]
  · have hfilter : (linePairs line).filter (fun p => !isSdkManagedHeaderLower p.1) =
        linePairs line := by
      rw [List.filter_eq_self]
      intro p hp
      unfold linePairs at hp
      split at hp
      · rename_i hcolon
        rw [List.mem_singleton.mp hp]
        exact Bool.not_eq_true' _ ▸ eq_false_of_ne_true fun hm => h ⟨hcolon, hm⟩
      · cases hp
    rw [if_neg h, hfilter, ← linePairs_bare]
    split
    · rename_i hempty
      rw [hempty]
      rfl
    · rfl

/-- Parsed again, the copied lines give the pairs that are signed. -/
theorem textPairs_copiedLines (headers : Bytes) :
    textPairs (copiedLines headers) = parseHeaders headers := by
  rw [parseHeaders_eq, textPairs, textPairs, pieces_copiedLines]
  induction pieces 10 headers with
  | nil => rfl
  | cons line lines ih =>
    rw [List.flatMap_cons, List.filter_append, ← keptBare_pairs, ← ih, List.filterMap_cons]
    cases keptBare line <;> rfl

end Lines

def signablePairs (pairs : List KvPair) : List KvPair := pairs.filter fun p => headerSignable p.1

/-- The pairs that signing adds. -/
def SignRequest.ownPairs (r : SignRequest) : List KvPair :=
  [(text "host", r.host), (text "x-date", r.xdate), (text "x-content-sha256", r.payloadHash)]++
    r.token.toList.map fun t => (text "x-security-token", t)

def canonicalText (signed : List KvPair) : Bytes := signed.flatMap fun p => p.1++[58]++p.2++[10]

/-- The canonical headers are those of the copied lines, parsed again, and
those that signing adds; no copied line has a name that signing sets. -/
theorem signed_headers_sent (r : SignRequest) :
    let headers := r.headersIn.getD []
    (∃ signed : List KvPair, (buildCanonicalHeaders r.pairs).1 = canonicalText signed ∧
      (signed : Multiset KvPair) =
        signablePairs (parseHeaders headers)+signablePairs r.ownPairs) ∧
      (signablePairs (parseHeaders headers) : Multiset KvPair) =
        signablePairs (textPairs (copiedLines headers)) ∧
      (∀ line ∈ pieces 10 (copiedLines headers), 58 ∈ line →
        isSdkManagedHeaderLower (lineKey line) = false) ∧
      ∀ signature, r.headersOut signature = copiedLines headers++
        r.ownHeaders ((buildCanonicalHeaders r.pairs).2, signature) := by
  intro headers
  refine ⟨⟨signablePairs (pairSort r.pairs), rfl, ?_⟩, ?_, ?_, r.headersOut_eq⟩
  · have hpairs : r.pairs = parseHeaders headers++r.ownPairs := by
      unfold SignRequest.pairs SignRequest.ownPairs
      rw [List.append_assoc]
    have hperm : (signablePairs (pairSort r.pairs)).Perm (signablePairs r.pairs) :=
      (sorts_pairSort r.pairs).1.filter _
    rw [Multiset.coe_add, Multiset.coe_eq_coe]
    rw [hpairs] at hperm ⊢
    unfold signablePairs at hperm ⊢
    rwa [List.filter_append] at hperm
  · rw [textPairs_copiedLines]
  · intro line hline hcolon
    have hmem : (lineKey line, trim (cut 58 line).2) ∈ textPairs (copiedLines headers) := by
      refine List.mem_flatMap.mpr ⟨line, hline, ?_⟩
      rw [linePairs, if_pos (List.contains_iff_mem.mpr hcolon)]
      exact List.mem_singleton_self _
    rw [textPairs_copiedLines, parseHeaders_eq] at hmem
    exact Bool.not_eq_true' _ ▸ (List.mem_filter.mp hmem).2

end VeTls.Sign
