import VeTls.Sign.PutLogs
import VeTls.Sign.Target

/-!
# A server that verifies

What the other side does with a signed request: it takes the header lines
apart, reads the Authorization, and computes the signature anew from the
headers that are named there, the path, the query and the body. It knows the
secret of an access key, and nothing of how the request was made.
-/

set_option autoImplicit false

namespace VeTls.Sign

open VeTls.Wire (Bytes)
open SignRequest (copiedLines)

section Server

/-- A request as it comes in. -/
structure HttpRequest where
  method : Bytes
  path : Bytes
  query : Bytes
  headers : Bytes
  body : Bytes
  deriving DecidableEq, Repr

def HttpRequest.field (q : HttpRequest) (name : Bytes) : Option Bytes :=
  ((textPairs q.headers).find? fun p => p.1 == name).map Prod.snd

structure Authorization where
  accessKeyId : Bytes
  scope : Bytes
  signedHeaders : Bytes
  signature : Bytes
  deriving DecidableEq, Repr

def strip (front s : Bytes) : Option Bytes :=
  if front.isPrefixOf s then some (s.drop front.length) else none

def parseAuthorization (value : Bytes) : Option Authorization := do
  let value ← strip (text "HMAC-SHA256 Credential=") value
  let credential := cut 44 value
  let rest ← strip (text " SignedHeaders=") credential.2
  let signedHeaders := cut 44 rest
  let signature ← strip (text " Signature=") signedHeaders.2
  return ⟨(cut 47 credential.1).1, (cut 47 credential.1).2, signedHeaders.1, signature⟩

/-- The parameters are decoded, and encoded once. -/
def canonicalQuery (query : Bytes) : Bytes :=
  joinWith [38] ((pairSort ((pieces 38 query).map fun p =>
    (urlEncodeSpan (Percent.decode (cut 61 p).1), urlEncodeSpan (Percent.decode (cut 61 p).2)))).map
      pairText)

/-- The pairs of the named headers. -/
def HttpRequest.signed (q : HttpRequest) (names : List Bytes) : List KvPair :=
  pairSort ((textPairs q.headers).filter fun p => names.contains p.1)

def HttpRequest.canonReq (q : HttpRequest) (hash signedHeaders : Bytes) : Bytes :=
  joinWith [10] [q.method, normUri q.path, canonicalQuery q.query,
    canonicalText (q.signed (signedHeaders.splitOn 59)), signedHeaders, hash]

def HttpRequest.stringToSign (q : HttpRequest) (date hash : Bytes) (a : Authorization) : Bytes :=
  joinWith [10] [text "HMAC-SHA256", date, a.scope,
    hexLower (sha256 (q.canonReq hash a.signedHeaders))]

def HttpRequest.signature (q : HttpRequest) (secret date hash : Bytes) (a : Authorization) :
    Option Bytes :=
  match a.scope.splitOn 47 with
  | [date8, region, service, last] =>
    if date8 = date.take 8 ∧ last = text "request" then
      some (hexLower (hmacSha256 (signingKey secret date8 region service)
        (q.stringToSign date hash a)))
    else none
  | _ => none

/-- The headers without which a signature says nothing. -/
def mustSign : List Bytes := [text "host", text "x-date", text "x-content-sha256"]

/-- The access key of a request that verifies. -/
def HttpRequest.verify (q : HttpRequest) (secretOf : Bytes → Option Bytes) : Option Bytes := do
  let date ← q.field (text "x-date")
  let hash ← q.field (text "x-content-sha256")
  let a ← (q.field (text "authorization")).bind parseAuthorization
  let secret ← secretOf a.accessKeyId
  let expected ← q.signature secret date hash a
  if hash = hexLower (sha256 q.body) ∧ a.signature = expected ∧
      ∀ name ∈ mustSign, name ∈ a.signedHeaders.splitOn 59 then return a.accessKeyId
  else none

end Server

section Trim

theorem trim_eq_self (s : Bytes) (hhead : ∀ c ∈ s.head?, isSpace c = false)
    (hlast : ∀ c ∈ s.getLast?, isSpace c = false) : trim s = s := by
  have hfront : s.dropWhile isSpace = s := by
    cases s with
    | nil => rfl
    | cons c s => rw [List.dropWhile_cons, hhead c rfl, if_neg Bool.false_ne_true]
  have hback : s.reverse.dropWhile isSpace = s.reverse := by
    rw [← List.head?_reverse] at hlast
    cases h : s.reverse with
    | nil => rfl
    | cons c t =>
      rw [h] at hlast
      rw [List.dropWhile_cons, hlast c rfl, if_neg Bool.false_ne_true]
  rw [trim, hfront, hback, List.reverse_reverse]

theorem trim_of_solid (s : Bytes) (h : ∀ c ∈ s, isSpace c = false) : trim s = s :=
  trim_eq_self s (fun c hc => h c (List.mem_of_mem_head? hc))
    (fun c hc => h c (List.mem_of_mem_getLast? hc))

def isHexLower (c : UInt8) : Bool := (48 ≤ c && c ≤ 57) || (97 ≤ c && c ≤ 102)

theorem hexLower_digits (data : Bytes) : ∀ c ∈ hexLower data, isHexLower c = true := by
  intro c hc
  obtain ⟨b, -, hb⟩ := List.mem_flatMap.mp hc
  have hall := Percent.forall_byte
    (fun b => (isHexLower (hexDigit (b >>> 4)) && isHexLower (hexDigit (b &&& 15))) = true)
    (by decide +kernel) b
  rw [Bool.and_eq_true] at hall
  rw [List.mem_cons, List.mem_singleton] at hb
  rcases hb with rfl | rfl
  · exact hall.1
  · exact hall.2

theorem hexDigits_solid (c : UInt8) (h : isHexLower c = true) :
    isSpace c = false ∧ c ≠ 10 ∧ c ≠ 44 := by
  have hall := Percent.forall_byte
    (fun c => isHexLower c = true → isSpace c = false ∧ c ≠ 10 ∧ c ≠ 44) (by decide +kernel) c
  exact hall h

theorem toLower_eq_of_small (c d : UInt8) (hd : d < 65) (h : toLower c = d) : c = d := by
  have hall := Percent.forall_byte
    (fun c => toLower c < 65 → toLower c = c) (by decide +kernel) c
  rw [← hall (by rwa [h]), h]

end Trim

end VeTls.Sign
