import VeTls.Lib.Blocks
import VeTls.Lib.Bytes

/-!
# SHA-256, HMAC and MD5 as they are defined

The definitions of FIPS 180-4, RFC 2104 and RFC 1321. A message is padded as
a whole and then cut into blocks of 64 bytes. The constants of SHA-256 are
the first bits of the fractional parts of roots of primes; those of MD5 are
written down with the steps that use them.
-/

set_option autoImplicit false

namespace VeTls.Digests

open VeTls.Bytes (leBytes leValue)
open VeTls.Blocks (blocks)

abbrev Message := List UInt8

/-- The least number of bytes that leaves eight bytes to a full block. -/
def zeroBytes (len : ℕ) : ℕ := (119-len % 64) % 64

def padded (lengthBytes : ℕ → Message) (m : Message) : Message :=
  m++0x80::List.replicate (zeroBytes m.length) 0++lengthBytes (8*m.length)

def beBytes (k n : ℕ) : Message := (leBytes k n).reverse

theorem zeroBytes_least (len k : ℕ) :
    (len+1+zeroBytes len+8) % 64 = 0 ∧ ((len+1+k+8) % 64 = 0 → zeroBytes len ≤ k) := by
  unfold zeroBytes
  omega

/-- The padding as it is found from the bytes in the last block. -/
theorem zeroBytes_eq (len : ℕ) :
    (if len % 64 < 56 then 56-len % 64 else 120-len % 64)-1 = zeroBytes len := by
  unfold zeroBytes
  split <;> omega

theorem leBytes_mod (k n : ℕ) : leBytes k (n % 256^k) = leBytes k n := by
  induction k generalizing n with
  | zero => rfl
  | succ k ih =>
    have hlow : UInt8.ofNat (n % 256^(k+1)) = UInt8.ofNat n := by
      apply UInt8.toNat_inj.mp
      rw [UInt8.toNat_ofNat', UInt8.toNat_ofNat', pow_succ, Nat.mod_mul_left_mod]
    rw [leBytes, leBytes, hlow, pow_succ, Nat.mul_comm, Nat.mod_mul_right_div_self, ih]

namespace Sha256

def primes : List ℕ := (List.range 312).filter fun p => decide p.Prime

theorem primes_eq : primes =
    [2, 3, 5, 7, 11, 13, 17, 19, 23, 29, 31, 37, 41, 43, 47, 53, 59, 61, 67, 71, 73, 79, 83, 89, 97,
      101, 103, 107, 109, 113, 127, 131, 137, 139, 149, 151, 157, 163, 167, 173, 179, 181, 191, 193,
      197, 199, 211, 223, 227, 229, 233, 239, 241, 251, 257, 263, 269, 271, 277, 281, 283, 293, 307,
      311] := by
  have h : primes = (List.range 312).filter fun p =>
      decide (2 ≤ p ∧ ∀ m < Nat.sqrt p+1, 2 ≤ m → ¬ m ∣ p) := by
    apply List.filter_congr
    intro p _
    rw [decide_eq_decide, Nat.prime_def_le_sqrt]
    exact and_congr_right fun _ => ⟨fun h m hm h2 => h m h2 (by omega),
      fun h m h2 hm => h m (by omega) h2⟩
  rw [h]
  decide +kernel

def squareRootBits (p : ℕ) : UInt32 := UInt32.ofNat (Nat.sqrt (p*2^64))

def cubeRootBits (p : ℕ) : UInt32 := UInt32.ofNat (Nat.nthRoot 3 (p*2^96))

structure Vars where
  a : UInt32
  b : UInt32
  c : UInt32
  d : UInt32
  e : UInt32
  f : UInt32
  g : UInt32
  h : UInt32
  deriving DecidableEq, Repr

def initial : Vars :=
  let r := fun i => squareRootBits (primes.getD i 0)
  ⟨r 0, r 1, r 2, r 3, r 4, r 5, r 6, r 7⟩

def rotr (n x : UInt32) : UInt32 := (x >>> n) ||| (x <<< (32-n))

def ch (x y z : UInt32) : UInt32 := (x &&& y) ^^^ (~~~ x &&& z)

def maj (x y z : UInt32) : UInt32 := (x &&& y) ^^^ (x &&& z) ^^^ (y &&& z)

def bigSigma0 (x : UInt32) : UInt32 := rotr 2 x ^^^ rotr 13 x ^^^ rotr 22 x

def bigSigma1 (x : UInt32) : UInt32 := rotr 6 x ^^^ rotr 11 x ^^^ rotr 25 x

def smallSigma0 (x : UInt32) : UInt32 := rotr 7 x ^^^ rotr 18 x ^^^ (x >>> 3)

def smallSigma1 (x : UInt32) : UInt32 := rotr 17 x ^^^ rotr 19 x ^^^ (x >>> 10)

/-- The words of a block have their high byte first. -/
def word (block : Message) (t : ℕ) : UInt32 :=
  UInt32.ofNat (leValue ((block.drop (4*t)).take 4).reverse)

def schedule (block : Message) (t : ℕ) : UInt32 :=
  if t < 16 then word block t
  else smallSigma1 (schedule block (t-2))+schedule block (t-7)+
    smallSigma0 (schedule block (t-15))+schedule block (t-16)

def round (k w : UInt32) (v : Vars) : Vars :=
  let t1 := v.h+bigSigma1 v.e+ch v.e v.f v.g+k+w
  let t2 := bigSigma0 v.a+maj v.a v.b v.c
  ⟨t1+t2, v.a, v.b, v.c, v.d+t1, v.e, v.f, v.g⟩

def compress (v : Vars) (block : Message) : Vars :=
  let r := (List.range 64).foldl
    (fun v t => round (cubeRootBits (primes.getD t 0)) (schedule block t) v) v
  ⟨r.a+v.a, r.b+v.b, r.c+v.c, r.d+v.d, r.e+v.e, r.f+v.f, r.g+v.g, r.h+v.h⟩

def output (v : Vars) : Message :=
  [v.a, v.b, v.c, v.d, v.e, v.f, v.g, v.h].flatMap fun w => beBytes 4 w.toNat

end Sha256

def sha256 (m : Message) : Message :=
  Sha256.output ((blocks 64 (padded (beBytes 8) m)).foldl Sha256.compress Sha256.initial)

/-- The key is made 64 bytes long. -/
def hmac (hash : Message → Message) (key m : Message) : Message :=
  let key := if key.length > 64 then hash key else key
  let key := key++List.replicate (64-key.length) 0
  hash (key.map (· ^^^ 0x5c)++hash (key.map (· ^^^ 0x36)++m))

namespace Md5

structure Vars where
  a : UInt32
  b : UInt32
  c : UInt32
  d : UInt32
  deriving DecidableEq, Repr

def initial : Vars := ⟨0x67452301, 0xefcdab89, 0x98badcfe, 0x10325476⟩

def f (x y z : UInt32) : UInt32 := (x &&& y) ||| (~~~ x &&& z)

def g (x y z : UInt32) : UInt32 := (x &&& z) ||| (y &&& ~~~ z)

def h (x y z : UInt32) : UInt32 := x ^^^ y ^^^ z

def i (x y z : UInt32) : UInt32 := y ^^^ (x ||| ~~~ z)

def rotl (x n : UInt32) : UInt32 := (x <<< n) ||| (x >>> (32-n))

inductive Order where
  | abcd
  | dabc
  | cdab
  | bcda
  deriving DecidableEq, Repr

/-- `[abcd k s i]`, where the constant stands for its index. -/
structure Step where
  order : Order
  k : ℕ
  s : UInt32
  t : UInt32
  deriving DecidableEq, Repr

def word (block : Message) (k : ℕ) : UInt32 := UInt32.ofNat (leValue ((block.drop (4*k)).take 4))

def assign (op : UInt32 → UInt32 → UInt32 → UInt32) (x : UInt32) (st : Step)
    (a b c d : UInt32) : UInt32 :=
  b+rotl (a+op b c d+x+st.t) st.s

def step (op : UInt32 → UInt32 → UInt32 → UInt32) (block : Message) (v : Vars) (st : Step) :
    Vars :=
  let x := word block st.k
  match st.order with
  | .abcd => { v with a := assign op x st v.a v.b v.c v.d }
  | .dabc => { v with d := assign op x st v.d v.a v.b v.c }
  | .cdab => { v with c := assign op x st v.c v.d v.a v.b }
  | .bcda => { v with b := assign op x st v.b v.c v.d v.a }

def round1 : List Step :=
  [⟨.abcd, 0, 7, 0xd76aa478⟩, ⟨.dabc, 1, 12, 0xe8c7b756⟩, ⟨.cdab, 2, 17, 0x242070db⟩,
    ⟨.bcda, 3, 22, 0xc1bdceee⟩, ⟨.abcd, 4, 7, 0xf57c0faf⟩, ⟨.dabc, 5, 12, 0x4787c62a⟩,
    ⟨.cdab, 6, 17, 0xa8304613⟩, ⟨.bcda, 7, 22, 0xfd469501⟩, ⟨.abcd, 8, 7, 0x698098d8⟩,
    ⟨.dabc, 9, 12, 0x8b44f7af⟩, ⟨.cdab, 10, 17, 0xffff5bb1⟩, ⟨.bcda, 11, 22, 0x895cd7be⟩,
    ⟨.abcd, 12, 7, 0x6b901122⟩, ⟨.dabc, 13, 12, 0xfd987193⟩, ⟨.cdab, 14, 17, 0xa679438e⟩,
    ⟨.bcda, 15, 22, 0x49b40821⟩]

def round2 : List Step :=
  [⟨.abcd, 1, 5, 0xf61e2562⟩, ⟨.dabc, 6, 9, 0xc040b340⟩, ⟨.cdab, 11, 14, 0x265e5a51⟩,
    ⟨.bcda, 0, 20, 0xe9b6c7aa⟩, ⟨.abcd, 5, 5, 0xd62f105d⟩, ⟨.dabc, 10, 9, 0x02441453⟩,
    ⟨.cdab, 15, 14, 0xd8a1e681⟩, ⟨.bcda, 4, 20, 0xe7d3fbc8⟩, ⟨.abcd, 9, 5, 0x21e1cde6⟩,
    ⟨.dabc, 14, 9, 0xc33707d6⟩, ⟨.cdab, 3, 14, 0xf4d50d87⟩, ⟨.bcda, 8, 20, 0x455a14ed⟩,
    ⟨.abcd, 13, 5, 0xa9e3e905⟩, ⟨.dabc, 2, 9, 0xfcefa3f8⟩, ⟨.cdab, 7, 14, 0x676f02d9⟩,
    ⟨.bcda, 12, 20, 0x8d2a4c8a⟩]

def round3 : List Step :=
  [⟨.abcd, 5, 4, 0xfffa3942⟩, ⟨.dabc, 8, 11, 0x8771f681⟩, ⟨.cdab, 11, 16, 0x6d9d6122⟩,
    ⟨.bcda, 14, 23, 0xfde5380c⟩, ⟨.abcd, 1, 4, 0xa4beea44⟩, ⟨.dabc, 4, 11, 0x4bdecfa9⟩,
    ⟨.cdab, 7, 16, 0xf6bb4b60⟩, ⟨.bcda, 10, 23, 0xbebfbc70⟩, ⟨.abcd, 13, 4, 0x289b7ec6⟩,
    ⟨.dabc, 0, 11, 0xeaa127fa⟩, ⟨.cdab, 3, 16, 0xd4ef3085⟩, ⟨.bcda, 6, 23, 0x04881d05⟩,
    ⟨.abcd, 9, 4, 0xd9d4d039⟩, ⟨.dabc, 12, 11, 0xe6db99e5⟩, ⟨.cdab, 15, 16, 0x1fa27cf8⟩,
    ⟨.bcda, 2, 23, 0xc4ac5665⟩]

def round4 : List Step :=
  [⟨.abcd, 0, 6, 0xf4292244⟩, ⟨.dabc, 7, 10, 0x432aff97⟩, ⟨.cdab, 14, 15, 0xab9423a7⟩,
    ⟨.bcda, 5, 21, 0xfc93a039⟩, ⟨.abcd, 12, 6, 0x655b59c3⟩, ⟨.dabc, 3, 10, 0x8f0ccc92⟩,
    ⟨.cdab, 10, 15, 0xffeff47d⟩, ⟨.bcda, 1, 21, 0x85845dd1⟩, ⟨.abcd, 8, 6, 0x6fa87e4f⟩,
    ⟨.dabc, 15, 10, 0xfe2ce6e0⟩, ⟨.cdab, 6, 15, 0xa3014314⟩, ⟨.bcda, 13, 21, 0x4e0811a1⟩,
    ⟨.abcd, 4, 6, 0xf7537e82⟩, ⟨.dabc, 11, 10, 0xbd3af235⟩, ⟨.cdab, 2, 15, 0x2ad7d2bb⟩,
    ⟨.bcda, 9, 21, 0xeb86d391⟩]

def compress (v : Vars) (block : Message) : Vars :=
  let r := round1.foldl (step f block) v
  let r := round2.foldl (step g block) r
  let r := round3.foldl (step h block) r
  let r := round4.foldl (step i block) r
  ⟨r.a+v.a, r.b+v.b, r.c+v.c, r.d+v.d⟩

def output (v : Vars) : Message := [v.a, v.b, v.c, v.d].flatMap fun w => leBytes 4 w.toNat

end Md5

def md5 (m : Message) : Message :=
  Md5.output ((blocks 64 (padded (leBytes 8) m)).foldl Md5.compress Md5.initial)

section Steps

open Sha256

/-- The bits are checked by cubing. -/
theorem cubeRootBits_eq (p : ℕ) (k : UInt32)
    (h : ∃ c < 8, (c*2^32+k.toNat)^3 ≤ p*2^96 ∧ p*2^96 < (c*2^32+k.toNat+1)^3) :
    cubeRootBits p = k := by
  obtain ⟨c, -, hle, hlt⟩ := h
  have hroot : Nat.nthRoot 3 (p*2^96) = c*2^32+k.toNat := by
    apply le_antisymm
    · by_contra hgt
      have hpow := (Nat.le_nthRoot_iff (by decide)).mp (Nat.lt_of_not_le hgt)
      exact absurd (lt_of_lt_of_le hlt hpow) (lt_irrefl _)
    · exact (Nat.le_nthRoot_iff (by decide)).mpr hle
  have hk := k.toNat_lt
  rw [cubeRootBits, hroot]
  apply UInt32.toNat_inj.mp
  rw [UInt32.toNat_ofNat']
  omega

theorem schedule_lt (block : Message) (t : ℕ) (h : t < 16) : schedule block t = word block t := by
  rw [schedule, if_pos h]

theorem schedule_add (block : Message) (t : ℕ) : schedule block (t+16) =
    smallSigma1 (schedule block (t+14))+schedule block (t+9)+
      smallSigma0 (schedule block (t+1))+schedule block t := by
  rw [schedule, if_neg (by omega)]
  rfl

end Steps

end VeTls.Digests
