import VeTls.Sign.Query
import VeTls.Sign.Sent

/-!
# The headers of a request

The headers of a request are pasted together line by line, and signing takes
the lines apart again. A value goes in as it is: what follows a line break in
it is a line of its own.
-/

set_option autoImplicit false

namespace VeTls.Sign

open VeTls.Wire (Bytes)

section Source

def hexUpper (data : Bytes) : Bytes :=
  data.flatMap fun b : UInt8 => [hexDigitUpper (b >>> 4), hexDigitUpper (b &&& 15)]

/-- `%zu`. -/
def decimal (n : ℕ) : Bytes :=
  if n = 0 then [48] else (Nat.digits 10 n).reverse.map fun d => UInt8.ofNat (48+d)

/-- What the headers are made of; the first compress type is the one of the
payload. -/
structure PutLogs where
  apiVersion : Option Bytes
  actualCompressType : Option Bytes
  compressType : Option Bytes
  hashKey : Option Bytes
  defaultHashKey : Option Bytes
  body : Bytes
  rawBodySize : ℕ
  deriving DecidableEq, Repr

def fieldLine (k v : Bytes) : Bytes := k++text ": "++v

/-- `snprintf` cannot write a line of more bytes than an `int` can tell. -/
def headersAppend (headers : Bytes) (field : KvPair) : Option Bytes :=
  let line := fieldLine field.1 field.2++[10]
  if line.length > 2^31-1 then none else some (headers++line)

namespace PutLogs

variable (r : PutLogs)

def api : Bytes := r.apiVersion.getD (text "0.3.0")

def compress : Bytes := (r.actualCompressType.orElse fun _ => r.compressType).getD (text "none")

/-- An empty key gives way to the default. -/
def key : Bytes := ((r.hashKey.filter fun k => !k.isEmpty).orElse fun _ => r.defaultHashKey).getD []

def fields : List KvPair :=
  [(text "Content-Type", text "application/x-protobuf"),
    (text "Content-MD5", hexUpper (md5 r.body)), (text "x-tls-apiversion", r.api),
    (text "x-tls-bodyrawsize", decimal r.rawBodySize), (text "x-tls-compresstype", r.compress),
    (text "x-tls-hashkey", r.key)]

/-- The block that is signed. -/
def headers : Option Bytes :=
  if r.body = [] ∨ r.rawBodySize = 0 then none else r.fields.foldlM headersAppend []

/-- The pairs that are meant. -/
def intended : List KvPair := r.fields.map fun f => (f.1.map toLower, trim f.2)

end PutLogs

end Source

section Blanks

theorem countP_dropWhile (p : UInt8 → Bool) (s : Bytes) :
    (s.dropWhile p).countP (!p ·) = s.countP (!p ·) := by
  have hsplit := congrArg (List.countP (!p ·)) (List.takeWhile_append_dropWhile (p := p) (l := s))
  have hzero : (s.takeWhile p).countP (!p ·) = 0 :=
    List.countP_eq_zero.mpr fun c hc => by simp [List.mem_takeWhile_imp hc]
  rw [List.countP_append, hzero, zero_add] at hsplit
  exact hsplit

/-- Trimming keeps what is not blank. -/
theorem countP_trim (s : Bytes) : (trim s).countP (!isSpace ·) = s.countP (!isSpace ·) := by
  rw [trim, List.countP_reverse, countP_dropWhile, List.countP_reverse, countP_dropWhile]

theorem trim_eq_iff (s t : Bytes) :
    trim s = trim (s++t) ↔ ∀ c ∈ t, isSpace c = true := by
  constructor
  · intro h c hc
    have hcount := congrArg (List.countP (!isSpace ·)) h
    rw [countP_trim, countP_trim, List.countP_append] at hcount
    have hzero : t.countP (!isSpace ·) = 0 := by omega
    simpa using List.countP_eq_zero.mp hzero c hc
  · exact fun h => (trim_append s t h).symm

end Blanks

section Values

/-- The first line of a value, and what follows its end. -/
def breakOff (v : Bytes) : Bytes × Bytes := (v.takeWhile (· != 10), v.dropWhile (· != 10))

/-- What follows the first line of a value is blank. -/
def Unbroken (v : Bytes) : Prop := ∀ c ∈ (breakOff v).2, isSpace c = true

instance (v : Bytes) : Decidable (Unbroken v) :=
  inferInstanceAs (Decidable (∀ c ∈ (breakOff v).2, isSpace c = true))

theorem unbroken_of_notMem (v : Bytes) (h : 10 ∉ v) : Unbroken v := by
  have hall : ∀ c ∈ v, (c != 10) = true := fun c hc => by
    simp only [bne_iff_ne]
    exact fun he => h (he ▸ hc)
  rw [Unbroken, breakOff, List.dropWhile_eq_nil_iff.mpr hall]
  nofun

/-- The pairs of the lines after the first. -/
def extraPairs (v : Bytes) : List KvPair :=
  (((breakOff v).2.drop 1).splitOn 10).flatMap linePairs

/-- A name that the source writes in front of a value. -/
structure Named (k : Bytes) : Prop where
  line : 10 ∉ k
  colon : 58 ∉ k
  trimmed : trim k = k

theorem linePairs_field (k v : Bytes) (hk : Named k) :
    linePairs (fieldLine k v) = [(k.map toLower, trim v)] := by
  have hcolon : fieldLine k v = k++58::32::v := by
    have ht : text ": " = [58, 32] := by decide
    rw [fieldLine, ht, List.append_assoc]
    rfl
  have hblank : trim (32::v) = trim v := by
    rw [trim, trim, List.dropWhile_cons, if_pos (by decide)]
  rw [linePairs, lineKey, hcolon, if_pos (by simp), cut_at 58 k _ hk.colon, hk.trimmed, hblank]

theorem splitOn_field (k v : Bytes) (hk : Named k) :
    ((fieldLine k v).splitOn 10).flatMap linePairs =
      (k.map toLower, trim (breakOff v).1)::extraPairs v := by
  have hsplit := List.takeWhile_append_dropWhile (p := (· != 10)) (l := v)
  have hfirst : 10 ∉ fieldLine k (breakOff v).1 := by
    rw [fieldLine, List.mem_append, List.mem_append]
    rintro ((h | h) | h)
    · exact hk.line h
    · exact absurd h (by decide)
    · simpa using List.mem_takeWhile_imp h
  cases hb : v.dropWhile (· != 10) with
  | nil =>
    rw [hb, List.append_nil] at hsplit
    have hv : fieldLine k v = fieldLine k (breakOff v).1 := congrArg (fieldLine k) hsplit.symm
    have hextra : extraPairs v = [] := by
      rw [extraPairs, breakOff, hb]
      rfl
    rw [hv, List.splitOn_eq_singleton hfirst, List.flatMap_singleton, linePairs_field k _ hk,
      hextra]
  | cons c rest =>
    have hc : c = 10 := by
      have hhead := List.head_dropWhile_not (· != 10) (l := v) (by rw [hb]; simp)
      simpa [hb] using hhead
    subst hc
    have hv : fieldLine k v = fieldLine k (breakOff v).1++10::rest := by
      rw [fieldLine, fieldLine, List.append_assoc _ (breakOff v).1]
      exact congrArg _ ((congrArg _ hb).symm.trans hsplit).symm
    have hextra : extraPairs v = (rest.splitOn 10).flatMap linePairs := by
      rw [extraPairs, breakOff, hb]
      rfl
    rw [hv, List.splitOn_append_cons_self_of_not_mem hfirst, List.flatMap_cons,
      linePairs_field k _ hk, hextra]
    rfl

theorem extraPairs_unbroken (v : Bytes) (h : Unbroken v) : extraPairs v = [] := by
  rw [extraPairs, List.flatMap_eq_nil_iff]
  intro line hline
  have hno : 58 ∉ line := by
    intro hc
    have hin := (splitOn_parts 10 _ line hline).2 58 hc
    exact absurd (h 58 (List.mem_of_mem_drop hin)) (by decide)
  rw [linePairs, if_neg (by simpa using hno)]

/-- The pair of the first line is the one that is meant exactly when the
value ends with that line. -/
theorem first_trim_iff (v : Bytes) : trim (breakOff v).1 = trim v ↔ Unbroken v := by
  have hsplit := List.takeWhile_append_dropWhile (p := (· != 10)) (l := v)
  have h := trim_eq_iff (breakOff v).1 (breakOff v).2
  rw [show (breakOff v).1++(breakOff v).2 = v from hsplit] at h
  exact h

end Values

section Block

/-- Lists with at least one element for each of another are its image only
if they have no more. -/
theorem flatMap_eq_map {α β : Type} (l : List α) (f h : α → β) (g : α → List β) :
    (l.flatMap fun x => f x::g x) = l.map h ↔ ∀ x ∈ l, f x = h x ∧ g x = [] := by
  constructor
  · intro he
    have hlen := congrArg List.length he
    rw [List.length_flatMap, List.length_map] at hlen
    have hg : ∀ x ∈ l, g x = [] := by
      clear he
      induction l with
      | nil => nofun
      | cons x l ih =>
        have hle : l.length ≤ (l.map fun x => (f x::g x).length).sum := by
          clear hlen ih
          induction l with
          | nil => exact le_rfl
          | cons y l ih =>
            simp only [List.map_cons, List.sum_cons, List.length_cons] at ih ⊢
            omega
        simp only [List.map_cons, List.sum_cons, List.length_cons] at hlen hle
        have hx : (g x).length = 0 := by omega
        refine List.forall_mem_cons.mpr ⟨List.eq_nil_of_length_eq_zero hx, ih ?_⟩
        simp only [List.length_cons]
        omega
    have hflat : (l.flatMap fun x => f x::g x) = l.map f := by
      clear he hlen
      induction l with
      | nil => rfl
      | cons x l ih =>
        rw [List.flatMap_cons, hg x List.mem_cons_self, List.map_cons,
          ih fun y hy => hg y (List.mem_cons_of_mem x hy)]
        rfl
    rw [hflat, List.map_inj_left] at he
    exact fun x hx => ⟨he x hx, hg x hx⟩
  · intro hall
    induction l with
    | nil => rfl
    | cons x l ih =>
      obtain ⟨hf, hg⟩ := hall x List.mem_cons_self
      rw [List.flatMap_cons, List.map_cons, hf, hg,
        ih fun y hy => hall y (List.mem_cons_of_mem x hy)]
      rfl

theorem foldlM_headersAppend (fields : List KvPair) (headers block : Bytes)
    (h : fields.foldlM headersAppend headers = some block) :
    block = headers++headerText (fields.map fun f => fieldLine f.1 f.2) := by
  induction fields generalizing headers with
  | nil =>
    obtain rfl := Option.some.inj h
    simp [headerText]
  | cons f fields ih =>
    rw [List.foldlM_cons] at h
    obtain ⟨mid, hmid, hrest⟩ := Option.bind_eq_some_iff.mp h
    rw [headersAppend] at hmid
    split at hmid
    · cases hmid
    · obtain rfl := Option.some.inj hmid
      rw [ih _ hrest]
      simp [headerText, List.append_assoc]

/-- Lines that may have line breaks fall apart at these. -/
theorem pieces_headerText_splitOn (lines : List Bytes) :
    pieces 10 (headerText lines) = lines.flatMap (List.splitOn 10) := by
  have hsplit : (headerText lines).splitOn 10 = lines.flatMap (List.splitOn 10)++[[]] := by
    induction lines with
    | nil => rfl
    | cons l lines ih =>
      rw [headerText, List.flatMap_cons, List.append_assoc, List.singleton_append,
        List.splitOn_append_cons_self, List.flatMap_cons, List.append_assoc]
      exact congrArg _ ih
  rw [pieces, hsplit]
  simp

/-- All pairs of a block of fields. -/
theorem textPairs_fields (fields : List KvPair) (hk : ∀ f ∈ fields, Named f.1) :
    textPairs (headerText (fields.map fun f => fieldLine f.1 f.2)) =
      fields.flatMap fun f => (f.1.map toLower, trim (breakOff f.2).1)::extraPairs f.2 := by
  rw [textPairs, pieces_headerText_splitOn]
  induction fields with
  | nil => rfl
  | cons f fields ih =>
    rw [List.map_cons, List.flatMap_cons, List.flatMap_append,
      splitOn_field _ _ (hk f List.mem_cons_self), List.flatMap_cons,
      ih fun x hx => hk x (List.mem_cons_of_mem f hx)]

/-- The block of fields is read as the fields exactly when no value goes on
after its first line. -/
theorem parse_fields_iff (fields : List KvPair) (hk : ∀ f ∈ fields, Named f.1)
    (hm : ∀ f ∈ fields, isSdkManagedHeaderLower (f.1.map toLower) = false) :
    parseHeaders (headerText (fields.map fun f => fieldLine f.1 f.2)) =
        fields.map (fun f => (f.1.map toLower, trim f.2)) ↔
      ∀ f ∈ fields, trim (breakOff f.2).1 = trim f.2 ∧
        (extraPairs f.2).filter (fun p => !isSdkManagedHeaderLower p.1) = [] := by
  have hfilter : parseHeaders (headerText (fields.map fun f => fieldLine f.1 f.2)) =
      fields.flatMap fun f => (f.1.map toLower, trim (breakOff f.2).1)::
        (extraPairs f.2).filter fun p => !isSdkManagedHeaderLower p.1 := by
    rw [parseHeaders_eq, textPairs_fields fields hk, List.filter_flatMap]
    refine List.flatMap_congr fun f hf => ?_
    rw [List.filter_cons, hm f hf]
    rfl
  rw [hfilter, flatMap_eq_map]
  refine forall₂_congr fun f hf => and_congr_left fun _ => ?_
  rw [Prod.mk.injEq, eq_self_iff_true, true_and]

/-- The blank-trimmed values are read exactly when what follows the first line of each
is blank. -/
theorem parse_fields_unbroken (fields : List KvPair) (hk : ∀ f ∈ fields, Named f.1)
    (hm : ∀ f ∈ fields, isSdkManagedHeaderLower (f.1.map toLower) = false) :
    parseHeaders (headerText (fields.map fun f => fieldLine f.1 f.2)) =
        fields.map (fun f => (f.1.map toLower, trim f.2)) ↔ ∀ f ∈ fields, Unbroken f.2 := by
  rw [parse_fields_iff fields hk hm]
  refine forall₂_congr fun f _ => ?_
  rw [first_trim_iff]
  refine ⟨And.left, fun h => ⟨h, ?_⟩⟩
  rw [extraPairs_unbroken f.2 h]
  rfl

end Block

namespace PutLogs

variable (r : PutLogs)

theorem hexUpper_unbroken (data : Bytes) : Unbroken (hexUpper data) := by
  refine unbroken_of_notMem _ fun h => ?_
  obtain ⟨b, -, hb⟩ := List.mem_flatMap.mp h
  have hall : ∀ b : UInt8, (10 : UInt8) ∉ [hexDigitUpper (b >>> 4), hexDigitUpper (b &&& 15)] :=
    fun b => Percent.forall_byte
      (fun b => (10 : UInt8) ∉ [hexDigitUpper (b >>> 4), hexDigitUpper (b &&& 15)])
      (by decide +kernel) b
  exact hall b hb

theorem decimal_unbroken (n : ℕ) : Unbroken (decimal n) := by
  refine unbroken_of_notMem _ fun h => ?_
  rw [decimal] at h
  split at h
  · exact absurd h (by decide)
  · obtain ⟨d, hd, he⟩ := List.mem_map.mp h
    have hlt : d < 10 := Nat.digits_lt_base (by decide) (List.mem_reverse.mp hd)
    have hall : ∀ d : Fin 10, UInt8.ofNat (48+d) ≠ 10 := by decide
    exact hall ⟨d, hlt⟩ he

theorem fields_named : ∀ f ∈ r.fields, Named f.1 := by
  simp only [fields, List.forall_mem_cons]
  refine ⟨?_, ?_, ?_, ?_, ?_, ?_, nofun⟩ <;>
    exact ⟨by decide, by decide, by decide⟩

theorem fields_unmanaged :
    ∀ f ∈ r.fields, isSdkManagedHeaderLower (f.1.map toLower) = false := by
  simp only [fields, List.forall_mem_cons]
  refine ⟨?_, ?_, ?_, ?_, ?_, ?_, nofun⟩ <;> decide

/-- The type, the digest and the size are the SDK's own. -/
theorem fields_unbroken :
    (∀ f ∈ r.fields, Unbroken f.2) ↔ Unbroken r.api ∧ Unbroken r.compress ∧ Unbroken r.key := by
  simp only [fields, List.forall_mem_cons]
  constructor
  · rintro ⟨-, -, hapi, -, hcompress, hkey, -⟩
    exact ⟨hapi, hcompress, hkey⟩
  · rintro ⟨hapi, hcompress, hkey⟩
    exact ⟨unbroken_of_notMem _ (by decide), hexUpper_unbroken _, hapi, decimal_unbroken _, hcompress, hkey,
      nofun⟩

/-- The block that is signed holds the six pairs that are meant, and no other,
exactly when no value goes on after its first line with more than blanks. -/
theorem headers_parsed_iff (r : PutLogs) (block : Bytes) (h : r.headers = some block) :
    parseHeaders block = r.intended ↔
      Unbroken r.api ∧ Unbroken r.compress ∧ Unbroken r.key := by
  rw [headers] at h
  split at h
  · cases h
  · obtain rfl := foldlM_headersAppend _ _ _ h
    rw [List.nil_append, intended, parse_fields_unbroken r.fields r.fields_named
      r.fields_unmanaged, fields_unbroken]

/-- A key of two lines, the second of which reads as a header. -/
def twoLines (key : Bytes) : PutLogs :=
  ⟨none, none, none, some key, none, [0], 1⟩

theorem plain_key_parsed :
    ∃ block, (twoLines (text " key ")).headers = some block ∧
      parseHeaders block = (twoLines (text " key ")).intended :=
  ⟨((twoLines (text " key ")).headers).get (by decide), by simp,
    (headers_parsed_iff _ _ (by simp)).mpr (by decide +kernel)⟩

theorem broken_key_adds :
    ∃ block, (twoLines (text "key\nx-tls-evil: 1")).headers = some block ∧
      parseHeaders block =
        (twoLines (text "key")).intended++[(text "x-tls-evil", text "1")] ∧
      parseHeaders block ≠ (twoLines (text "key\nx-tls-evil: 1")).intended :=
  ⟨((twoLines (text "key\nx-tls-evil: 1")).headers).get (by decide), by simp,
    by decide +kernel, by decide +kernel⟩

end PutLogs

end VeTls.Sign
