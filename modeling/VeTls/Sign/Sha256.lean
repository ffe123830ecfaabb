import VeTls.Lib.Digests
import VeTls.Sign.Hash

/-!
# The digest is SHA-256

The streaming digest of `ve_tls_hash.c` and the keyed digest over it are
those of the standards, however the message is cut into updates.
-/

set_option autoImplicit false

namespace VeTls.Sign

open VeTls.Blocks (blocks rest feed_append)
open VeTls.Bytes (leBytes leValue)
open VeTls.Digests (beBytes padded zeroBytes)
open VeTls.Wire (Bytes)

section Numbers

theorem loadBe32_eq (p : Bytes) : loadBe32 p = UInt32.ofNat (leValue p.reverse) := by
  induction p using List.reverseRecOn with
  | nil => rfl
  | append_singleton p b ih =>
    have hshift : ∀ x : ℕ, (UInt32.ofNat x <<< (8 : UInt32)).toNat = (x % 2^24) <<< 8 := by
      intro x
      rw [UInt32.toNat_shiftLeft, UInt32.toNat_ofNat']
      simp only [Nat.shiftLeft_eq, show (8 : UInt32).toNat % 32 = 8 from rfl]
      omega
    rw [loadBe32, List.foldl_append, List.reverse_append, ← loadBe32, ih]
    apply UInt32.toNat_inj.mp
    show ((UInt32.ofNat _ <<< 8) ||| b.toUInt32).toNat = (UInt32.ofNat (leValue (b::p.reverse))).toNat
    rw [UInt32.toNat_or, hshift, UInt8.toNat_toUInt32,
      ← Nat.shiftLeft_add_eq_or_of_lt (UInt8.toNat_lt b), Nat.shiftLeft_eq, leValue,
      UInt32.toNat_ofNat']
    have hlow := UInt8.toNat_lt b
    omega

theorem storeBe32_eq (v : UInt32) : storeBe32 v = beBytes 4 v.toNat := by
  have h := v.toNat_lt
  simp only [storeBe32, beBytes, leBytes, List.reverse_cons, List.reverse_nil, List.nil_append,
    List.cons_append, List.cons.injEq, ← UInt8.toNat_inj, UInt32.toNat_toUInt8,
    UInt32.toNat_shiftRight, UInt8.toNat_ofNat', Nat.shiftRight_eq_div_pow]
  simp
  omega

theorem storeBe64_eq (n : ℕ) : storeBe64 (UInt64.ofNat n) = beBytes 8 n := by
  simp only [storeBe64, beBytes, leBytes, List.reverse_cons, List.reverse_nil, List.nil_append,
    List.cons_append, List.cons.injEq, ← UInt8.toNat_inj, UInt64.toNat_toUInt8,
    UInt64.toNat_shiftRight, UInt8.toNat_ofNat', Nat.shiftRight_eq_div_pow, UInt64.toNat_ofNat']
  simp
  omega

end Numbers

section Compression

def Words.vars (s : Words) : Digests.Sha256.Vars := ⟨s.a, s.b, s.c, s.d, s.e, s.f, s.g, s.h⟩

theorem sha256Init_vars : sha256Init.h.vars = Digests.Sha256.initial := by
  rw [Digests.Sha256.initial, Digests.Sha256.primes_eq]
  decide +kernel

theorem sha256K_roots : List.Forall₂ (fun p k => ∃ c < 8, (c*2^32+UInt32.toNat k)^3 ≤ p*2^96 ∧
    p*2^96 < (c*2^32+UInt32.toNat k+1)^3) Digests.Sha256.primes sha256K := by
  rw [Digests.Sha256.primes_eq]
  decide +kernel

theorem sha256K_map : Digests.Sha256.primes.map Digests.Sha256.cubeRootBits = sha256K := by
  have h := List.Forall₂.imp Digests.cubeRootBits_eq sha256K_roots
  rwa [← List.forall₂_map_left_iff, List.forall₂_eq_eq_eq] at h

theorem map_getD_range {α β : Type*} (l : List α) (d : α) (f : α → β) :
    ((List.range l.length).map fun t => f (l.getD t d)) = l.map f := by
  apply List.ext_getElem
  · rw [List.length_map, List.length_map, List.length_range]
  · intro t _ ht
    rw [List.length_map] at ht
    rw [List.getElem_map, List.getElem_map, List.getElem_range, List.getD_eq_getElem _ _ ht]

theorem sha256K_eq :
    sha256K = (List.range 64).map fun t =>
      Digests.Sha256.cubeRootBits (Digests.Sha256.primes.getD t 0) := by
  have hlen : Digests.Sha256.primes.length = 64 := by
    rw [Digests.Sha256.primes_eq]
    rfl
  rw [← hlen, map_getD_range, sha256K_map]

/-- The words come in reverse order, and each one looks back sixteen. -/
theorem scheduleGo_eq (block : Bytes) (n m : ℕ) :
    scheduleGo n ((List.range (m+16)).map (Digests.Sha256.schedule block)).reverse =
      ((List.range (m+16+n)).map (Digests.Sha256.schedule block)).reverse := by
  induction n generalizing m with
  | zero => rfl
  | succ n ih =>
    have hget : ∀ j, j < 16 →
        ((List.range (m+16)).map (Digests.Sha256.schedule block)).reverse.getD j 0 =
          Digests.Sha256.schedule block (m+15-j) := by
      intro j hj
      rw [List.getD_eq_getElem _ _ (by simp; omega), List.getElem_reverse]
      simp
    have hnext : Digests.Sha256.schedule block m+
        Digests.Sha256.smallSigma0 (Digests.Sha256.schedule block (m+1))+
        Digests.Sha256.schedule block (m+9)+
        Digests.Sha256.smallSigma1 (Digests.Sha256.schedule block (m+14)) =
        Digests.Sha256.schedule block (m+16) := by
      rw [Digests.schedule_add]
      ac_rfl
    rw [scheduleGo, hget 14 (by decide), hget 1 (by decide), hget 15 (by decide),
      hget 6 (by decide)]
    show scheduleGo n ((Digests.Sha256.schedule block m+
      Digests.Sha256.smallSigma0 (Digests.Sha256.schedule block (m+1))+
      Digests.Sha256.schedule block (m+9)+
      Digests.Sha256.smallSigma1 (Digests.Sha256.schedule block (m+14)))::_) = _
    rw [hnext]
    have hsnoc := ih (m+1)
    rw [show m+1+16 = m+16+1 from by omega, List.range_succ, List.map_append,
      List.reverse_append] at hsnoc
    rw [show m+16+(n+1) = m+16+1+n from by omega]
    exact hsnoc

theorem schedule_eq (block : Bytes) :
    schedule block = (List.range 64).map (Digests.Sha256.schedule block) := by
  have hfirst : ((List.range 16).map fun i => loadBe32 ((block.drop (i*4)).take 4)) =
      (List.range 16).map (Digests.Sha256.schedule block) := by
    apply List.map_congr_left
    intro t ht
    rw [Digests.schedule_lt block t (List.mem_range.mp ht), loadBe32_eq, Digests.Sha256.word,
      Nat.mul_comm]
  rw [schedule, hfirst, scheduleGo_eq block 48 0, List.reverse_reverse]

theorem sha256Transform_vars (s : Words) (block : Bytes) :
    (sha256Transform s block).vars = Digests.Sha256.compress s.vars block := by
  have hloop : ((sha256K.zip (schedule block)).foldl sha256Round s).vars =
      (List.range 64).foldl (fun v t => Digests.Sha256.round
        (Digests.Sha256.cubeRootBits (Digests.Sha256.primes.getD t 0))
        (Digests.Sha256.schedule block t) v) s.vars := by
    rw [sha256K_eq, schedule_eq, List.zip_map', List.foldl_map]
    exact (List.foldl_hom Words.vars fun v t => rfl).symm
  unfold sha256Transform Digests.Sha256.compress
  rw [← hloop]
  simp only [Words.vars, UInt32.add_comm]

end Compression

section Streaming

variable {σ : Type} (transform : σ → Bytes → σ) (h : σ)

/-- What a context that began with `h` holds after a message. -/
def after (m : Bytes) : DigestCtx σ :=
  ⟨(blocks 64 m).foldl transform h, m.length % 2^64, rest 64 m⟩

theorem digestUpdate_after (m piece : Bytes) :
    digestUpdate transform piece (after transform h m) = after transform h (m++piece) := by
  have hlen : (m.length % 2^64+piece.length) % 2^64 = (m++piece).length % 2^64 := by
    rw [List.length_append]
    omega
  unfold digestUpdate after
  dsimp only
  rw [feed_append 64 transform (by decide), hlen]

theorem digestUpdate_pieces (pieces : List Bytes) (m : Bytes) :
    pieces.foldl (fun ctx piece => digestUpdate transform piece ctx) (after transform h m) =
      after transform h (m++pieces.flatten) := by
  induction pieces generalizing m with
  | nil => rw [List.foldl_nil, List.flatten_nil, List.append_nil]
  | cons piece pieces ih =>
    rw [List.foldl_cons, digestUpdate_after, ih, List.flatten_cons, List.append_assoc]

/-- The blocks of the padded message have been taken at the end. -/
theorem digestFinal_after (storeLen : UInt64 → Bytes) (lengthBytes : ℕ → Bytes)
    (hlen : ∀ n, storeLen (UInt64.ofNat n) = lengthBytes (n % 2^64))
    (hmod : ∀ n, lengthBytes (n % 2^64) = lengthBytes n) (m : Bytes) :
    digestFinal transform storeLen (after transform h m) =
      (blocks 64 (padded lengthBytes m)).foldl transform h := by
  have hbuf : (after transform h m).buf.length = m.length % 64 := Blocks.rest_length 64 m
  have hbits : storeLen (UInt64.ofNat ((after transform h m).len*8)) =
      lengthBytes (8*m.length) := by
    rw [hlen, ← hmod (8*m.length)]
    congr 1
    show m.length % 2^64*8 % 2^64 = _
    omega
  unfold digestFinal
  dsimp only
  rw [hbuf, Digests.zeroBytes_eq, hbits, digestUpdate_after, digestUpdate_after]
  rfl

end Streaming

theorem sha256Fold_vars (l : List Bytes) : (l.foldl sha256Transform sha256Init.h).vars =
    l.foldl Digests.Sha256.compress Digests.Sha256.initial := by
  rw [← sha256Init_vars]
  exact (List.foldl_hom Words.vars fun s block => (sha256Transform_vars s block).symm).symm

theorem sha256Final_after (m : Bytes) :
    sha256Final (after sha256Transform sha256Init.h m) = Digests.sha256 m := by
  have hstore : storeBe32 = fun w => beBytes 4 w.toNat := funext storeBe32_eq
  have hmod : ∀ n, beBytes 8 (n % 2^64) = beBytes 8 n := fun n =>
    congrArg List.reverse (Digests.leBytes_mod 8 n)
  unfold sha256Final
  rw [digestFinal_after sha256Transform sha256Init.h storeBe64 (beBytes 8)
    (fun n => (storeBe64_eq n).trans (hmod n).symm) hmod, hstore, Digests.sha256,
    ← sha256Fold_vars]
  rfl

theorem sha256_eq (m : Bytes) : sha256 m = Digests.sha256 m := by
  have hstart : sha256Init = after sha256Transform sha256Init.h [] := rfl
  rw [sha256, hstart, sha256Update, digestUpdate_after, sha256Final_after, List.nil_append]

/-- However a message is cut, also into pieces without bytes, the digest is
SHA-256 of the whole; and the keyed digest is HMAC with it. -/
theorem sha256_hmac_standard :
    (∀ pieces : List Bytes,
      sha256Final (pieces.foldl (fun ctx piece => sha256Update piece ctx) sha256Init) =
        Digests.sha256 pieces.flatten) ∧
      ∀ key m : Bytes, hmacSha256 key m = Digests.hmac Digests.sha256 key m := by
  have hstart : sha256Init = after sha256Transform sha256Init.h [] := rfl
  constructor
  · intro pieces
    rw [hstart]
    unfold sha256Update
    rw [digestUpdate_pieces, sha256Final_after, List.nil_append]
  · intro key m
    rw [hmacSha256, hstart]
    simp only [sha256Update, digestUpdate_after, sha256Final_after, sha256_eq, List.nil_append]
    rfl

end VeTls.Sign
