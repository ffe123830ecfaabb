import VeTls.Sign.Hash

/-!
# Signing a request

The canonical request of the signature, the string to sign and the headers
that go out. Strings are the bytes before the terminator. Whether the
normalised path and the signing key come from a cache is left open: the two
are computed by functions with a state. Buffers fit into memory, so that
allocations and the overflow guards in front of them succeed.
-/

set_option autoImplicit false

namespace VeTls.Sign

open VeTls.Wire (Bytes)

section Strings

def shouldEscape (c : UInt8) : Bool :=
  !((65 ≤ c && c ≤ 90) || (97 ≤ c && c ≤ 122) || (48 ≤ c && c ≤ 57) || [45, 95, 46, 126].contains c)

def hexDigitUpper (n : UInt8) : UInt8 := if n < 10 then 48+n else 55+n

def escape (c : UInt8) : Bytes :=
  if shouldEscape c then [37, hexDigitUpper (c >>> 4), hexDigitUpper (c &&& 15)] else [c]

def urlEncodeSpan (s : Bytes) : Bytes := s.flatMap escape

def normUri (path : Bytes) : Bytes :=
  if path = [] then [47]
  else
    (if path.head? = some 47 then [] else [47])++
      path.flatMap fun c => if c = 47 then [47] else escape c

/-- The pieces between separators; a separator at the end begins no piece. -/
def pieces (sep : UInt8) (s : Bytes) : List Bytes :=
  let parts := s.splitOn sep
  if parts.getLast? = some [] then parts.dropLast else parts

abbrev KvPair := Bytes × Bytes

/-- `strcmp` of the keys, then of the values. -/
def pairLe (x y : KvPair) : Bool :=
  decide (x.1 < y.1) || (decide (x.1 = y.1) && decide (x.2 ≤ y.2))

def pairSort (pairs : List KvPair) : List KvPair := pairs.mergeSort pairLe

/-- What is in front of the first separator and behind it. -/
def cut (sep : UInt8) (s : Bytes) : Bytes × Bytes :=
  (s.takeWhile (· != sep), (s.dropWhile (· != sep)).drop 1)

def joinWith (sep : Bytes) (parts : List Bytes) : Bytes := (parts.intersperse sep).flatten

def normQuery (query : Bytes) : Bytes :=
  if query = [] then []
  else if 38 ∉ query ∧ !((cut 61 query).1++(cut 61 query).2).any shouldEscape then
    if 61 ∈ query then query else query++[61]
  else
    let pairs := (pieces 38 query).map fun p =>
      (urlEncodeSpan (cut 61 p).1, urlEncodeSpan (cut 61 p).2)
    joinWith [38] ((pairSort pairs).map fun p => p.1++[61]++p.2)

def isSpace (c : UInt8) : Bool := c == 32 || (9 ≤ c && c ≤ 13)

def toLower (c : UInt8) : UInt8 := if 65 ≤ c ∧ c ≤ 90 then c+32 else c

def trim (s : Bytes) : Bytes := ((s.dropWhile isSpace).reverse.dropWhile isSpace).reverse

end Strings

section Headers

def isSdkManagedHeaderLower (key : Bytes) : Bool :=
  [text "host", text "x-date", text "x-content-sha256", text "x-security-token",
    text "authorization"].contains key

def lineKey (line : Bytes) : Bytes := (trim (cut 58 line).1).map toLower

/-- The headers of the caller, without those that signing sets itself. -/
def parseHeaders (headers : Bytes) : List KvPair :=
  (((pieces 10 headers).filter fun line => line.contains 58).map fun line =>
    (lineKey line, trim (cut 58 line).2)).filter fun p => !isSdkManagedHeaderLower p.1

def headerSignable (key : Bytes) : Bool :=
  [text "content-type", text "content-md5", text "host", text "x-security-token"].contains key ||
    (text "x-").isPrefixOf key

/-- The canonical headers and the list of their names. -/
def buildCanonicalHeaders (pairs : List KvPair) : Bytes × Bytes :=
  let signed := (pairSort pairs).filter fun p => headerSignable p.1
  (signed.flatMap fun p => p.1++[58]++p.2++[10], joinWith [59] (signed.map Prod.fst))

/-- Lines of the caller that go out as they came. A name of 32 bytes or more
is none of those that signing sets. -/
def keptLine (line : Bytes) : Bytes :=
  let key := lineKey line
  if line.contains 58 ∧ 0 < key.length ∧ key.length < 32 ∧ isSdkManagedHeaderLower key then []
  else
    let l := (line.reverse.dropWhile (· == 13)).reverse
    if l = [] then [] else l++[10]

end Headers

/-- The arguments of a call that may not be null are given; `clock` is the
date of a call without one. -/
structure SignRequest where
  accessKeyId : Bytes
  accessKeySecret : Bytes
  securityToken : Option Bytes
  region : Bytes
  service : Bytes
  method : Bytes
  host : Bytes
  path : Bytes
  query : Option Bytes
  body : Option Bytes
  xdateOverride : Option Bytes
  headersIn : Option Bytes
  clock : Bytes
  deriving DecidableEq, Repr

/-- Without headers of the caller the null pointer of their list is
written to. -/
inductive Signed where
  | crash
  | fail
  | ok (headers : Bytes)
  deriving DecidableEq, Repr

namespace SignRequest

variable (r : SignRequest)

def xdate : Bytes :=
  match r.xdateOverride with
  | some d => if d.length = 16 then d else r.clock
  | none => r.clock

def date8 : Bytes := r.xdate.take 8

def payloadHash : Bytes := hexLower (sha256 (r.body.getD []))

/-- A token that is null or empty is not sent. -/
def token : Option Bytes := r.securityToken.filter fun t => decide (t ≠ [])

def pairs : List KvPair :=
  parseHeaders (r.headersIn.getD [])++[(text "host", r.host), (text "x-date", r.xdate),
    (text "x-content-sha256", r.payloadHash)]++
    (r.token.toList.map fun t => (text "x-security-token", t))

def canonReq (norm : Bytes × Bytes) : Bytes :=
  let h := buildCanonicalHeaders r.pairs
  joinWith [10] [r.method, norm.1, norm.2, h.1, h.2, r.payloadHash]

def scope : Bytes := joinWith [47] [r.date8, r.region, r.service, text "request"]

def stringToSign (norm : Bytes × Bytes) : Bytes :=
  joinWith [10] [text "HMAC-SHA256", r.xdate, r.scope, hexLower (sha256 (r.canonReq norm))]

def headersOut (signature : Bytes) : Bytes :=
  (pieces 10 (r.headersIn.getD [])).flatMap keptLine++
    text "Host: "++r.host++[10]++text "X-Date: "++r.xdate++[10]++
    text "X-Content-Sha256: "++r.payloadHash++[10]++
    text "Authorization: HMAC-SHA256 Credential="++r.accessKeyId++[47]++r.scope++
    text ", SignedHeaders="++(buildCanonicalHeaders r.pairs).2++
    text ", Signature="++signature++[10]++
    (r.token.elim [] fun t => text "X-Security-Token: "++t++[10])

end SignRequest

/-- The two steps of signing that may be answered from a cache. -/
structure Steps (σ : Type*) where
  normPathQuery : Bytes → Bytes → σ → (Bytes × Bytes) × σ
  signingKey : Bytes → Bytes → Bytes → Bytes → σ → Bytes × σ

/-- The stack buffers of the scope and of the string to sign have 256 and 640
bytes. -/
def signV4AppendAt {σ : Type*} (steps : Steps σ) (r : SignRequest) (s : σ) : Signed × σ :=
  if r.headersIn.getD [] = [] then (.crash, s)
  else
    let (norm, s) := steps.normPathQuery r.path (r.query.getD []) s
    if r.scope.length ≥ 256 then (.fail, s)
    else if (r.stringToSign norm).length ≥ 640 then (.fail, s)
    else
      let (key, s) := steps.signingKey r.accessKeySecret r.date8 r.region r.service s
      (.ok (r.headersOut (hexLower (hmacSha256 key (r.stringToSign norm)))), s)

def signingKey (sk date8 region service : Bytes) : Bytes :=
  hmacSha256 (hmacSha256 (hmacSha256 (hmacSha256 sk date8) region) service) (text "request")

/-- Without the caches, as where there are no thread-local variables. -/
def plainSteps : Steps Unit where
  normPathQuery := fun path query s => ((normUri path, normQuery query), s)
  signingKey := fun sk date8 region service s => (signingKey sk date8 region service, s)

end VeTls.Sign
