import VeTls.Lib.Blocks
import VeTls.Wire

/-!
# Digests for signing

SHA-256, the keyed digest over it, MD5, and the string hash of the signing
cache. A context has the words of the state, the length so far and the bytes
that do not fill a block; both digests update and end it in the same way.
-/

set_option autoImplicit false

namespace VeTls.Sign

open VeTls.Blocks (feed)
open VeTls.Wire (Bytes)

/-- A literal of the source. -/
def text (s : String) : Bytes := s.toList.map fun c => UInt8.ofNat c.toNat

structure Words where
  a : UInt32
  b : UInt32
  c : UInt32
  d : UInt32
  e : UInt32
  f : UInt32
  g : UInt32
  h : UInt32
  deriving DecidableEq, Repr

structure DigestCtx (σ : Type) where
  h : σ
  len : ℕ
  buf : Bytes
  deriving DecidableEq, Repr

abbrev Sha256Ctx := DigestCtx Words

section Streams

variable {σ : Type} (transform : σ → Bytes → σ)

def digestUpdate (data : Bytes) (ctx : DigestCtx σ) : DigestCtx σ :=
  let r := feed 64 transform data ctx.h ctx.buf
  ⟨r.1, (ctx.len+data.length) % 2^64, r.2⟩

def digestFinal (storeLen : UInt64 → Bytes) (ctx : DigestCtx σ) : σ :=
  let padLen := if ctx.buf.length < 56 then 56-ctx.buf.length else 120-ctx.buf.length
  let pad := 0x80::List.replicate (padLen-1) 0
  (digestUpdate transform (storeLen (UInt64.ofNat (ctx.len*8)))
    (digestUpdate transform pad ctx)).h

end Streams

def rotr32 (x n : UInt32) : UInt32 := (x >>> n) ||| (x <<< (32-n))

def loadBe32 (p : Bytes) : UInt32 := p.foldl (fun v b => v <<< 8 ||| b.toUInt32) 0

def storeBe32 (v : UInt32) : Bytes :=
  [(v >>> 24).toUInt8, (v >>> 16).toUInt8, (v >>> 8).toUInt8, v.toUInt8]

def storeBe64 (v : UInt64) : Bytes :=
  [(v >>> 56).toUInt8, (v >>> 48).toUInt8, (v >>> 40).toUInt8, (v >>> 32).toUInt8,
    (v >>> 24).toUInt8, (v >>> 16).toUInt8, (v >>> 8).toUInt8, v.toUInt8]

def sha256Init : Sha256Ctx :=
  ⟨⟨0x6a09e667, 0xbb67ae85, 0x3c6ef372, 0xa54ff53a, 0x510e527f, 0x9b05688c, 0x1f83d9ab,
    0x5be0cd19⟩, 0, []⟩

def sha256K : List UInt32 :=
  [0x428a2f98, 0x71374491, 0xb5c0fbcf, 0xe9b5dba5, 0x3956c25b, 0x59f111f1, 0x923f82a4, 0xab1c5ed5,
    0xd807aa98, 0x12835b01, 0x243185be, 0x550c7dc3, 0x72be5d74, 0x80deb1fe, 0x9bdc06a7, 0xc19bf174,
    0xe49b69c1, 0xefbe4786, 0x0fc19dc6, 0x240ca1cc, 0x2de92c6f, 0x4a7484aa, 0x5cb0a9dc, 0x76f988da,
    0x983e5152, 0xa831c66d, 0xb00327c8, 0xbf597fc7, 0xc6e00bf3, 0xd5a79147, 0x06ca6351, 0x14292967,
    0x27b70a85, 0x2e1b2138, 0x4d2c6dfc, 0x53380d13, 0x650a7354, 0x766a0abb, 0x81c2c92e, 0x92722c85,
    0xa2bfe8a1, 0xa81a664b, 0xc24b8b70, 0xc76c51a3, 0xd192e819, 0xd6990624, 0xf40e3585, 0x106aa070,
    0x19a4c116, 0x1e376c08, 0x2748774c, 0x34b0bcb5, 0x391c0cb3, 0x4ed8aa4a, 0x5b9cca4f, 0x682e6ff3,
    0x748f82ee, 0x78a5636f, 0x84c87814, 0x8cc70208, 0x90befffa, 0xa4506ceb, 0xbef9a3f7, 0xc67178f2]

/-- The last words come first. -/
def scheduleGo : ℕ → List UInt32 → List UInt32
  | 0, w => w
  | n+1, w =>
    let w15 := w.getD 14 0
    let w2 := w.getD 1 0
    let s0 := rotr32 w15 7 ^^^ rotr32 w15 18 ^^^ (w15 >>> 3)
    let s1 := rotr32 w2 17 ^^^ rotr32 w2 19 ^^^ (w2 >>> 10)
    scheduleGo n ((w.getD 15 0+s0+w.getD 6 0+s1)::w)

def schedule (block : Bytes) : List UInt32 :=
  (scheduleGo 48 ((List.range 16).map fun i => loadBe32 ((block.drop (i*4)).take 4)).reverse).reverse

def sha256Round (s : Words) (kw : UInt32 × UInt32) : Words :=
  let s1 := rotr32 s.e 6 ^^^ rotr32 s.e 11 ^^^ rotr32 s.e 25
  let ch := (s.e &&& s.f) ^^^ (~~~ s.e &&& s.g)
  let t1 := s.h+s1+ch+kw.1+kw.2
  let s0 := rotr32 s.a 2 ^^^ rotr32 s.a 13 ^^^ rotr32 s.a 22
  let maj := (s.a &&& s.b) ^^^ (s.a &&& s.c) ^^^ (s.b &&& s.c)
  ⟨t1+(s0+maj), s.a, s.b, s.c, s.d+t1, s.e, s.f, s.g⟩

def sha256Transform (s : Words) (block : Bytes) : Words :=
  let r := (sha256K.zip (schedule block)).foldl sha256Round s
  ⟨s.a+r.a, s.b+r.b, s.c+r.c, s.d+r.d, s.e+r.e, s.f+r.f, s.g+r.g, s.h+r.h⟩

def sha256Update (data : Bytes) (ctx : Sha256Ctx) : Sha256Ctx :=
  digestUpdate sha256Transform data ctx

def sha256Final (ctx : Sha256Ctx) : Bytes :=
  let h := digestFinal sha256Transform storeBe64 ctx
  [h.a, h.b, h.c, h.d, h.e, h.f, h.g, h.h].flatMap storeBe32

def sha256 (data : Bytes) : Bytes := sha256Final (sha256Update data sha256Init)

def hmacSha256 (key data : Bytes) : Bytes :=
  let k := if key.length > 64 then sha256 key else key
  let k0 := k++List.replicate (64-k.length) 0
  let inner := sha256Final (sha256Update data (sha256Update (k0.map (· ^^^ 0x36)) sha256Init))
  sha256Final (sha256Update inner (sha256Update (k0.map (· ^^^ 0x5c)) sha256Init))

def hexDigit (n : UInt8) : UInt8 := if n < 10 then 48+n else 87+n

def hexLower (data : Bytes) : Bytes :=
  data.flatMap fun b : UInt8 => [hexDigit (b >>> 4), hexDigit (b &&& 15)]

example : hexLower (sha256 (text "abc")) =
    text "ba7816bf8f01cfea414140de5dae2223b00361a396177a9cb410ff61f20015ad" := by decide +kernel

structure Md5Words where
  a : UInt32
  b : UInt32
  c : UInt32
  d : UInt32
  deriving DecidableEq, Repr

abbrev Md5Ctx := DigestCtx Md5Words

def rotl32 (x n : UInt32) : UInt32 := (x <<< n) ||| (x >>> (32-n))

def loadLe32 (p : Bytes) : UInt32 := p.foldr (fun b v => b.toUInt32 ||| v <<< 8) 0

def storeLe32 (v : UInt32) : Bytes :=
  [v.toUInt8, (v >>> 8).toUInt8, (v >>> 16).toUInt8, (v >>> 24).toUInt8]

def storeLe64 (v : UInt64) : Bytes :=
  [v.toUInt8, (v >>> 8).toUInt8, (v >>> 16).toUInt8, (v >>> 24).toUInt8, (v >>> 32).toUInt8,
    (v >>> 40).toUInt8, (v >>> 48).toUInt8, (v >>> 56).toUInt8]

def md5Init : Md5Ctx := ⟨⟨0x67452301, 0xefcdab89, 0x98badcfe, 0x10325476⟩, 0, []⟩

def md5K : List UInt32 :=
  [0xd76aa478, 0xe8c7b756, 0x242070db, 0xc1bdceee, 0xf57c0faf, 0x4787c62a, 0xa8304613, 0xfd469501,
    0x698098d8, 0x8b44f7af, 0xffff5bb1, 0x895cd7be, 0x6b901122, 0xfd987193, 0xa679438e, 0x49b40821,
    0xf61e2562, 0xc040b340, 0x265e5a51, 0xe9b6c7aa, 0xd62f105d, 0x02441453, 0xd8a1e681, 0xe7d3fbc8,
    0x21e1cde6, 0xc33707d6, 0xf4d50d87, 0x455a14ed, 0xa9e3e905, 0xfcefa3f8, 0x676f02d9, 0x8d2a4c8a,
    0xfffa3942, 0x8771f681, 0x6d9d6122, 0xfde5380c, 0xa4beea44, 0x4bdecfa9, 0xf6bb4b60, 0xbebfbc70,
    0x289b7ec6, 0xeaa127fa, 0xd4ef3085, 0x04881d05, 0xd9d4d039, 0xe6db99e5, 0x1fa27cf8, 0xc4ac5665,
    0xf4292244, 0x432aff97, 0xab9423a7, 0xfc93a039, 0x655b59c3, 0x8f0ccc92, 0xffeff47d, 0x85845dd1,
    0x6fa87e4f, 0xfe2ce6e0, 0xa3014314, 0x4e0811a1, 0xf7537e82, 0xbd3af235, 0x2ad7d2bb, 0xeb86d391]

def md5S : List UInt32 :=
  [7, 12, 17, 22, 7, 12, 17, 22, 7, 12, 17, 22, 7, 12, 17, 22,
    5, 9, 14, 20, 5, 9, 14, 20, 5, 9, 14, 20, 5, 9, 14, 20,
    4, 11, 16, 23, 4, 11, 16, 23, 4, 11, 16, 23, 4, 11, 16, 23,
    6, 10, 15, 21, 6, 10, 15, 21, 6, 10, 15, 21, 6, 10, 15, 21]

/-- The function of a step and the number of its word. -/
def md5Mix (i : ℕ) (b c d : UInt32) : UInt32 × ℕ :=
  if i < 16 then ((b &&& c) ||| (~~~ b &&& d), i)
  else if i < 32 then ((d &&& b) ||| (~~~ d &&& c), (5*i+1) &&& 15)
  else if i < 48 then (b ^^^ c ^^^ d, (3*i+5) &&& 15)
  else (c ^^^ (b ||| ~~~ d), (7*i) &&& 15)

def md5Round (m : List UInt32) (w : Md5Words) (i : ℕ) : Md5Words :=
  let (f, g) := md5Mix i w.b w.c w.d
  ⟨w.d, w.b+rotl32 (w.a+f+md5K.getD i 0+m.getD g 0) (md5S.getD i 0), w.b, w.c⟩

def md5Transform (w : Md5Words) (block : Bytes) : Md5Words :=
  let m := (List.range 16).map fun i => loadLe32 ((block.drop (i*4)).take 4)
  let r := (List.range 64).foldl (md5Round m) w
  ⟨w.a+r.a, w.b+r.b, w.c+r.c, w.d+r.d⟩

def md5Update (data : Bytes) (ctx : Md5Ctx) : Md5Ctx := digestUpdate md5Transform data ctx

def md5Final (ctx : Md5Ctx) : Bytes :=
  let h := digestFinal md5Transform storeLe64 ctx
  [h.a, h.b, h.c, h.d].flatMap storeLe32

def md5 (data : Bytes) : Bytes := md5Final (md5Update data md5Init)

example : hexLower (md5 (text "abc")) = text "900150983cd24fb0d6963f7d28e17f72" := by decide +kernel

def fnv1a64 (s : Bytes) : UInt64 :=
  s.foldl (fun h b => (h ^^^ b.toUInt64)*1099511628211) 1469598103934665603

end VeTls.Sign
