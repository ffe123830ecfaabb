import VeTls.Sign.Request

/-!
# The order of the headers

The source sorts up to sixteen pairs by insertion and more of them with
`qsort`. Either way the pairs are in the one order of their keys and values,
so the lines of the caller may come in any order.
-/

set_option autoImplicit false

namespace VeTls.Sign

open VeTls.Wire (Bytes)

section Sorting

/-- The sorted front, last pair first: larger pairs move up by one. -/
def insertBack (cur : KvPair) : List KvPair → List KvPair
  | [] => [cur]
  | p::front => if pairLe p cur then cur::p::front else p::insertBack cur front

def insertionSort (pairs : List KvPair) : List KvPair :=
  (pairs.foldl (fun front cur => insertBack cur front) []).reverse

def pairSortWith (qsort : List KvPair → List KvPair) (pairs : List KvPair) : List KvPair :=
  if pairs.length ≤ 1 then pairs
  else if pairs.length ≤ 16 then insertionSort pairs
  else qsort pairs

/-- `qsort` with `ve_tls_pair_cmp`. -/
def Sorts (sort : List KvPair → List KvPair) : Prop :=
  ∀ pairs, (sort pairs).Perm pairs ∧ (sort pairs).Pairwise fun x y => pairLe x y = true

theorem pairLe_iff (x y : KvPair) :
    pairLe x y = true ↔ x.1 < y.1 ∨ x.1 = y.1 ∧ x.2 ≤ y.2 := by
  simp [pairLe]

theorem pairLe_total (x y : KvPair) : (pairLe x y || pairLe y x) = true := by
  rw [Bool.or_eq_true, pairLe_iff, pairLe_iff]
  obtain hk | hk := Std.le_total (a := x.1) (b := y.1) <;>
    obtain hv | hv := Std.le_total (a := x.2) (b := y.2) <;> grind

theorem pairLe_trans (x y z : KvPair) (hxy : pairLe x y = true) (hyz : pairLe y z = true) :
    pairLe x z = true := by
  rw [pairLe_iff] at hxy hyz ⊢
  grind

theorem pairLe_antisymm (x y : KvPair) (hxy : pairLe x y = true) (hyx : pairLe y x = true) :
    x = y := by
  rw [pairLe_iff] at hxy hyx
  apply Prod.ext <;> grind

theorem sorts_pairSort : Sorts pairSort := fun pairs =>
  ⟨List.mergeSort_perm pairs pairLe, List.pairwise_mergeSort pairLe_trans pairLe_total pairs⟩

/-- Pairs have only one order. -/
theorem Sorts.eq_of_perm {sort sort' : List KvPair → List KvPair} (h : Sorts sort)
    (h' : Sorts sort') (pairs pairs' : List KvPair) (hp : pairs.Perm pairs') :
    sort pairs = sort' pairs' := by
  apply List.Perm.eq_of_pairwise _ (h pairs).2 (h' pairs').2
  · exact ((h pairs).1.trans hp).trans (h' pairs').1.symm
  · exact fun x y _ _ => pairLe_antisymm x y

theorem insertBack_perm (cur : KvPair) (front : List KvPair) :
    (insertBack cur front).Perm (cur::front) := by
  induction front with
  | nil => exact List.Perm.refl _
  | cons p front ih =>
    rw [insertBack]
    split
    · exact List.Perm.refl _
    · exact (ih.cons p).trans (List.Perm.swap cur p front)

theorem insertBack_sorted (cur : KvPair) (front : List KvPair)
    (h : front.Pairwise fun x y => pairLe y x = true) :
    (insertBack cur front).Pairwise fun x y => pairLe y x = true := by
  induction front with
  | nil => exact List.pairwise_singleton _ _
  | cons p front ih =>
    obtain ⟨hp, hfront⟩ := List.pairwise_cons.mp h
    rw [insertBack]
    by_cases hle : pairLe p cur = true
    · rw [if_pos hle]
      refine List.pairwise_cons.mpr ⟨?_, h⟩
      intro y hy
      obtain rfl | hy := List.mem_cons.mp hy
      · exact hle
      · exact pairLe_trans y p cur (hp y hy) hle
    · rw [if_neg hle]
      have hcur : pairLe cur p = true :=
        (Bool.or_eq_true_iff.mp (pairLe_total p cur)).resolve_left hle
      refine List.pairwise_cons.mpr ⟨?_, ih hfront⟩
      intro y hy
      obtain rfl | hy := List.mem_cons.mp ((insertBack_perm cur front).mem_iff.mp hy)
      · exact hcur
      · exact hp y hy

theorem insertGo_sorts (pairs front : List KvPair)
    (h : front.Pairwise fun x y => pairLe y x = true) :
    (pairs.foldl (fun front cur => insertBack cur front) front).Perm (pairs++front) ∧
      (pairs.foldl (fun front cur => insertBack cur front) front).Pairwise
        fun x y => pairLe y x = true := by
  induction pairs generalizing front with
  | nil => exact ⟨List.Perm.refl _, h⟩
  | cons cur pairs ih =>
    obtain ⟨hperm, hsorted⟩ := ih (insertBack cur front) (insertBack_sorted cur front h)
    refine ⟨hperm.trans ?_, hsorted⟩
    exact ((insertBack_perm cur front).append_left pairs).trans List.perm_middle

theorem sorts_insertionSort : Sorts insertionSort := by
  intro pairs
  obtain ⟨hperm, hsorted⟩ := insertGo_sorts pairs [] List.Pairwise.nil
  rw [List.append_nil] at hperm
  exact ⟨(List.reverse_perm _).trans hperm, List.pairwise_reverse.mpr hsorted⟩

theorem sorts_pairSortWith (qsort : List KvPair → List KvPair) (h : Sorts qsort) :
    Sorts (pairSortWith qsort) := by
  intro pairs
  unfold pairSortWith
  split
  · refine ⟨List.Perm.refl _, ?_⟩
    match pairs with
    | [] => exact List.Pairwise.nil
    | [p] => exact List.pairwise_singleton _ p
    | p::q::l => simp at *
  · split
    · exact sorts_insertionSort pairs
    · exact h pairs

end Sorting

section Lines

/-- Header lines as the text of a request. -/
def headerText (lines : List Bytes) : Bytes := lines.flatMap (·++[10])

theorem pieces_headerText (lines : List Bytes) (h : ∀ l ∈ lines, 10 ∉ l) :
    pieces 10 (headerText lines) = lines := by
  have hsplit : (headerText lines).splitOn 10 = lines++[[]] := by
    induction lines with
    | nil => rfl
    | cons l lines ih =>
      have hl := ih fun x hx => h x (List.mem_cons_of_mem l hx)
      rw [headerText, List.flatMap_cons, List.append_assoc, List.singleton_append,
        List.splitOn_append_cons_self_of_not_mem (h l List.mem_cons_self), List.cons_append]
      exact congrArg _ hl
  rw [pieces, hsplit]
  simp

/-- The pairs of a line, none or one. -/
def linePairs (line : Bytes) : List KvPair :=
  if line.contains 58 then [(lineKey line, trim (cut 58 line).2)] else []

/-- All pairs of a text, also those that signing sets itself. -/
def textPairs (headers : Bytes) : List KvPair := (pieces 10 headers).flatMap linePairs

theorem parseHeaders_eq (headers : Bytes) : parseHeaders headers =
    (textPairs headers).filter fun p => !isSdkManagedHeaderLower p.1 := by
  unfold parseHeaders textPairs
  congr 1
  induction pieces 10 headers with
  | nil => rfl
  | cons line lines ih =>
    rw [List.flatMap_cons, linePairs, List.filter_cons]
    split
    · rw [List.map_cons, ih]
      rfl
    · exact ih

theorem parseHeaders_perm (lines lines' : List Bytes) (h : ∀ l ∈ lines, 10 ∉ l)
    (hp : lines.Perm lines') :
    (parseHeaders (headerText lines)).Perm (parseHeaders (headerText lines')) := by
  have h' : ∀ l ∈ lines', 10 ∉ l := fun l hl => h l (hp.mem_iff.mpr hl)
  rw [parseHeaders_eq, parseHeaders_eq, textPairs, textPairs, pieces_headerText lines h,
    pieces_headerText lines' h']
  exact (hp.flatMap_right linePairs).filter _

end Lines

section Parts

variable (sort : List KvPair → List KvPair)

def buildCanonicalHeadersBy (pairs : List KvPair) : Bytes × Bytes :=
  let signed := (sort pairs).filter fun p => headerSignable p.1
  (signed.flatMap fun p => p.1++[58]++p.2++[10], joinWith [59] (signed.map Prod.fst))

def SignRequest.stringToSignBy (r : SignRequest) (norm : Bytes × Bytes) : Bytes :=
  let h := buildCanonicalHeadersBy sort r.pairs
  let canonReq := joinWith [10] [r.method, norm.1, norm.2, h.1, h.2, r.payloadHash]
  joinWith [10] [text "HMAC-SHA256", r.xdate, r.scope, hexLower (sha256 canonReq)]

/-- The SignedHeaders and the Signature of a call that has headers, with the
sort it uses; `none` when it fails. -/
def signPartsBy {σ : Type*} (steps : Steps σ) (r : SignRequest) (s : σ) :
    Option (Bytes × Bytes) × σ :=
  let (norm, s) := steps.normPathQuery r.path (r.query.getD []) s
  if r.scope.length ≥ 256 then (none, s)
  else if (r.stringToSignBy sort norm).length ≥ 640 then (none, s)
  else
    let (key, s) := steps.signingKey r.accessKeySecret r.date8 r.region r.service s
    (some ((buildCanonicalHeadersBy sort r.pairs).2,
      hexLower (hmacSha256 key (r.stringToSignBy sort norm))), s)

end Parts

namespace SignRequest

/-- The lines of the caller that go out. -/
def copiedLines (headers : Bytes) : Bytes := (pieces 10 headers).flatMap keptLine

/-- The lines that signing adds, with the SignedHeaders and the Signature. -/
def ownHeaders (r : SignRequest) (parts : Bytes × Bytes) : Bytes :=
  text "Host: "++r.host++[10]++text "X-Date: "++r.xdate++[10]++
    text "X-Content-Sha256: "++r.payloadHash++[10]++
    text "Authorization: HMAC-SHA256 Credential="++r.accessKeyId++[47]++r.scope++
    text ", SignedHeaders="++parts.1++text ", Signature="++parts.2++[10]++
    (r.token.elim [] fun t => text "X-Security-Token: "++t++[10])

theorem headersOut_eq (r : SignRequest) (signature : Bytes) : r.headersOut signature =
    copiedLines (r.headersIn.getD [])++
      r.ownHeaders ((buildCanonicalHeaders r.pairs).2, signature) := by
  unfold headersOut copiedLines ownHeaders
  generalize text "Host: " = host
  simp only [List.append_assoc]

def withLines (r : SignRequest) (lines : List Bytes) : SignRequest :=
  { r with headersIn := some (headerText lines) }

/-- What a call returns, by its parts. -/
def outcome (r : SignRequest) : Option (Bytes × Bytes) → Signed
  | none => .fail
  | some parts => .ok (copiedLines (r.headersIn.getD [])++r.ownHeaders parts)

end SignRequest

/-- A call returns its parts, whichever sort it uses. -/
theorem signV4AppendAt_parts {σ : Type*} (qsort : List KvPair → List KvPair) (hq : Sorts qsort)
    (steps : Steps σ) (r : SignRequest) (s : σ) (hheaders : r.headersIn.getD [] ≠ []) :
    signV4AppendAt steps r s =
      (r.outcome (signPartsBy (pairSortWith qsort) steps r s).1,
        (signPartsBy (pairSortWith qsort) steps r s).2) := by
  have hbuild : buildCanonicalHeadersBy (pairSortWith qsort) r.pairs =
      buildCanonicalHeaders r.pairs := by
    unfold buildCanonicalHeadersBy buildCanonicalHeaders
    rw [(sorts_pairSortWith qsort hq).eq_of_perm sorts_pairSort r.pairs r.pairs (List.Perm.refl _)]
  have hsts : ∀ norm, r.stringToSignBy (pairSortWith qsort) norm = r.stringToSign norm := by
    intro norm
    unfold SignRequest.stringToSignBy SignRequest.stringToSign SignRequest.canonReq
    rw [hbuild]
  unfold signV4AppendAt signPartsBy
  rw [if_neg hheaders]
  simp only [hsts, hbuild, SignRequest.headersOut_eq]
  split
  · rfl
  · split <;> rfl

theorem withLines_pairs (r : SignRequest) (lines lines' : List Bytes) (h : ∀ l ∈ lines, 10 ∉ l)
    (hp : lines.Perm lines') : (r.withLines lines).pairs.Perm (r.withLines lines').pairs :=
  ((parseHeaders_perm lines lines' h hp).append_right _).append_right _

theorem withLines_headers (r : SignRequest) (lines : List Bytes) (h : ∃ l ∈ lines, l ≠ []) :
    (r.withLines lines).headersIn.getD [] ≠ [] := by
  obtain ⟨l, hl, -⟩ := h
  intro he
  have hmem : (10 : UInt8) ∈ headerText lines :=
    List.mem_flatMap.mpr ⟨l, hl, List.mem_append_right l List.mem_cons_self⟩
  exact absurd (he ▸ hmem : (10 : UInt8) ∈ ([] : Bytes)) List.not_mem_nil

/-- Header lines in another order give the same SignedHeaders and the same
Signature, or the same failure, with every `qsort` that sorts. -/
theorem sign_order_free {σ : Type*} (qsort : List KvPair → List KvPair) (hq : Sorts qsort)
    (steps : Steps σ) (r : SignRequest) (s : σ) (lines lines' : List Bytes)
    (hlines : ∀ l ∈ lines, 10 ∉ l) (hsome : ∃ l ∈ lines, l ≠ []) (hp : lines.Perm lines') :
    ∃ parts s', signPartsBy (pairSortWith qsort) steps (r.withLines lines) s = (parts, s') ∧
      signPartsBy (pairSortWith qsort) steps (r.withLines lines') s = (parts, s') ∧
      signV4AppendAt steps (r.withLines lines) s = ((r.withLines lines).outcome parts, s') ∧
      signV4AppendAt steps (r.withLines lines') s = ((r.withLines lines').outcome parts, s') := by
  have hsort := sorts_pairSortWith qsort hq
  have hbuild : buildCanonicalHeadersBy (pairSortWith qsort) (r.withLines lines').pairs =
      buildCanonicalHeadersBy (pairSortWith qsort) (r.withLines lines).pairs := by
    unfold buildCanonicalHeadersBy
    rw [hsort.eq_of_perm hsort _ _ (withLines_pairs r lines lines' hlines hp)]
  have hsame : signPartsBy (pairSortWith qsort) steps (r.withLines lines') s =
      signPartsBy (pairSortWith qsort) steps (r.withLines lines) s := by
    unfold signPartsBy SignRequest.stringToSignBy
    rw [hbuild]
    rfl
  obtain ⟨l, hl, hne⟩ := hsome
  refine ⟨(signPartsBy (pairSortWith qsort) steps (r.withLines lines) s).1,
    (signPartsBy (pairSortWith qsort) steps (r.withLines lines) s).2, rfl, hsame, ?_, ?_⟩
  · exact signV4AppendAt_parts qsort hq steps _ s (withLines_headers r lines ⟨l, hl, hne⟩)
  · rw [← hsame]
    exact signV4AppendAt_parts qsort hq steps _ s
      (withLines_headers r lines' ⟨l, hp.mem_iff.mp hl, hne⟩)

def oneRequest : SignRequest :=
  ⟨text "ak", text "sk", none, text "cn-a", text "TLS", text "POST", text "h", text "/PutLogs",
    some (text "TopicId=t"), none, some (text "20240101T000000Z"), none, []⟩

/-- More pairs than are sorted by insertion, a name of its own that is not
kept, and a line without a colon. -/
def manyLines : List Bytes :=
  List.replicate 15 (text "x-a: 1")++[text "Host: other", text "none", text "X-B : 2"]

theorem manyLines_order_free :
    ∃ parts s', signPartsBy (pairSortWith pairSort) plainSteps (oneRequest.withLines manyLines) () =
        (parts, s') ∧
      signPartsBy (pairSortWith pairSort) plainSteps (oneRequest.withLines manyLines.reverse) () =
        (parts, s') ∧
      signV4AppendAt plainSteps (oneRequest.withLines manyLines) () =
        ((oneRequest.withLines manyLines).outcome parts, s') ∧
      signV4AppendAt plainSteps (oneRequest.withLines manyLines.reverse) () =
        ((oneRequest.withLines manyLines.reverse).outcome parts, s') :=
  sign_order_free pairSort sorts_pairSort plainSteps oneRequest () manyLines manyLines.reverse
    (by decide) ⟨text "none", by decide, by decide⟩ (List.reverse_perm _).symm

end VeTls.Sign
