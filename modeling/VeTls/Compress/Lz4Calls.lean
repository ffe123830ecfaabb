import VeTls.Compress.Lz4Runs

/-!
# Calls of the block compressor

A destination as large as the bound makes the call succeed, with a block that
decodes to the source. In a smaller one the call may give up; what it returns
is still a block of the source, and no byte is written outside the destination
up to a source length of `safeLength`. From three bytes more on there are
sources whose block leaves a destination of 537 bytes.
-/

set_option autoImplicit false

namespace VeTls.Lz4

open VeTls.Checked
open VeTls.Lz4Block

section Calls

/-- The parameters of a call with a destination of its own size. -/
def callParams (src : List UInt8) (cap : ℕ) : Params :=
  if cap ≥ compressBound src.length then ⟨src, 0, false, src.length < limit64K, 1⟩
  else ⟨src, cap, true, src.length < limit64K, 1⟩

theorem compressDefault_eq (src dst : List UInt8) :
    compressDefault src dst dst.length = compressGeneric (callParams src dst.length) dst := by
  rw [compressDefault, compressFastExtState, callParams]
  rw [if_neg (lt_irrefl 1)]
  split <;> rfl

@[simp] theorem callParams_src (src : List UInt8) (cap : ℕ) : (callParams src cap).src = src := by
  rw [callParams]
  split <;> rfl

theorem callParams_limited (src : List UInt8) (cap : ℕ) :
    (callParams src cap).outputLimited = decide (cap < compressBound src.length) := by
  rw [callParams]
  split
  · next h => rw [decide_eq_false (not_lt.mpr h)]
  · next h => rw [decide_eq_true (not_le.mp h)]

theorem compressBound_eq {n : ℕ} (h : n ≤ maxInputSize) : compressBound n = n+n/255+16 :=
  if_neg (not_lt.mpr h)

theorem callParams_ready (src : List UInt8) (cap : ℕ) (h : src.length ≤ maxInputSize) :
    Ready (callParams src cap) cap := by
  have hbound := compressBound_eq h
  rw [callParams]
  split
  · next hge =>
    refine ⟨fun _ => ?_, fun hl => (by cases hl), of_decide_eq_true, one_pos⟩
    rw [hbound] at hge
    exact hge
  · exact ⟨fun hl => (by cases hl), fun _ => le_refl cap, of_decide_eq_true, one_pos⟩

theorem call_meets (src dst : List UInt8) (h : src.length ≤ maxInputSize) :
    Meets (MayOverflow (callParams src dst.length)) (compressDefault src dst dst.length)
      (fun r => Done (callParams src dst.length) dst.length r.1 r.2) := by
  rw [compressDefault_eq]
  exact compressGeneric_meets (callParams_ready src dst.length h) dst rfl
    (by rwa [callParams_src])

/-- A returned block decodes to the source. -/
theorem Done.decodes {c : Params} {cap rc : ℕ} {dst : List UInt8} (h : Done c cap rc dst)
    (hrc : 0 < rc) : decode (dst.take rc) = some c.src := by
  obtain ⟨b, hb, hv, hm⟩ := h.block hrc
  rw [hb.take, decode_block b hv.fits, hm]

/-- With room for the bound there is no fault and a block. -/
theorem call_bound (src dst : List UInt8) (hsrc : src.length ≤ maxInputSize)
    (hdst : compressBound src.length ≤ dst.length) :
    Meets (fun _ => False) (compressDefault src dst dst.length) (fun r =>
      0 < r.1 ∧ r.1 ≤ compressBound src.length ∧ r.2.length = dst.length ∧
        decode (r.2.take r.1) = some src) := by
  have hlimited : (callParams src dst.length).outputLimited = false := by
    rw [callParams_limited, decide_eq_false (not_lt.mpr hdst)]
  obtain ⟨⟨rc, dst'⟩, hrun, hdone⟩ := (call_meets src dst hsrc).result (by
    rintro e ⟨-, hl, -⟩
    rw [hlimited] at hl
    cases hl)
  have hrc : 0 < rc := by
    by_contra h0
    have := hdone.limited (Nat.eq_zero_of_not_pos h0)
    rw [hlimited] at this
    cases this
  have hsmall := hdone.small
  have hdec := hdone.decodes hrc
  rw [callParams_src] at hsmall hdec
  rw [hrun, compressBound_eq hsrc]
  dsimp only at hsmall
  exact ⟨hrc, by dsimp only; omega, hdone.size, hdec⟩

/-- In a destination of any size. -/
theorem call_limited (src dst : List UInt8) :
    Meets (fun e => e = .write ∧ safeLength < src.length) (compressDefault src dst dst.length)
      (fun r => r.2.length = dst.length ∧ (r.1 = 0 ∨ r.1 ≤ dst.length ∧ ∃ b : Block, b.Valid ∧
        r.2.take r.1 = b.encode ∧ b.meaning = src ∧ decode (r.2.take r.1) = some src)) := by
  by_cases hsrc : src.length ≤ maxInputSize
  · have hmeets := call_meets src dst hsrc
    cases hrun : compressDefault src dst dst.length with
    | error e =>
      rw [hrun] at hmeets
      obtain ⟨hw, -, hlong⟩ := hmeets
      rw [callParams_src] at hlong
      exact ⟨hw, hlong⟩
    | ok r =>
      have hdone := hmeets.of_ok hrun
      refine ⟨hdone.size, ?_⟩
      rcases Nat.eq_zero_or_pos r.1 with h0 | hrc
      · exact .inl h0
      · have hdec := hdone.decodes hrc
        obtain ⟨b, hb, hv, hm⟩ := hdone.block hrc
        rw [callParams_src] at hdec hm
        have hle := hb.le
        rw [hdone.size] at hle
        exact .inr ⟨hle, b, hv, hb.take, hm, hdec⟩
  · have hzero : compressDefault src dst dst.length = .ok (0, dst) := by
      rw [compressDefault_eq, compressGeneric]
      dsimp only
      rw [callParams_src, if_pos (not_le.mp hsrc)]
      rfl
    rw [hzero]
    exact ⟨rfl, .inl rfl⟩

/-- With room for the bound the compressor neither reads nor writes outside
its buffers, and leaves a block that decodes to the source. -/
theorem compress_default_bound (src dst : List UInt8) (hsrc : src.length ≤ maxInputSize)
    (hdst : compressBound src.length ≤ dst.length) :
    ∃ rc dst', compressDefault src dst dst.length = .ok (rc, dst') ∧ 0 < rc ∧
      rc ≤ compressBound src.length ∧ dst'.length = dst.length ∧
      decode (dst'.take rc) = some src := by
  obtain ⟨⟨rc, dst'⟩, hrun, hpost⟩ := (call_bound src dst hsrc hdst).result fun _ h => h
  exact ⟨rc, dst', hrun, hpost⟩

theorem compress_default_bound_three : ∃ rc dst',
    compressDefault [1, 2, 3] (List.replicate 19 0) 19 = .ok (rc, dst') ∧ 0 < rc ∧
      rc ≤ compressBound 3 ∧ dst'.length = 19 ∧ decode (dst'.take rc) = some [1, 2, 3] :=
  compress_default_bound [1, 2, 3] (List.replicate 19 0) (by decide) (by decide)

/-- Whatever the size of the destination, the call reads only its source and
takes no end of rounds; up to `safeLength` it writes only its destination; and
what it returns is zero or the size of a block that decodes to the source. -/
theorem compress_default_limited (src dst : List UInt8) :
    (src.length ≤ safeLength → ∃ r, compressDefault src dst dst.length = .ok r) ∧
      (∀ e, compressDefault src dst dst.length = .error e → e = .write) ∧
      ∀ rc dst', compressDefault src dst dst.length = .ok (rc, dst') →
        dst'.length = dst.length ∧
          (rc = 0 ∨ rc ≤ dst.length ∧ ∃ b : Block, b.Valid ∧ dst'.take rc = b.encode ∧
            b.meaning = src ∧ decode (dst'.take rc) = some src) := by
  have hmeets := call_limited src dst
  refine ⟨fun hsafe => ?_, fun e he => ?_, fun rc dst' hrun => hmeets.of_ok hrun⟩
  · obtain ⟨r, hr, -⟩ := hmeets.result fun e he => absurd he.2 (not_lt.mpr hsafe)
    exact ⟨r, hr⟩
  · rw [he] at hmeets
    exact hmeets.1

end Calls

section Overflow

/-- Three letters over and over, and from 134662 on two of them. -/
def letter (i : ℕ) : UInt8 :=
  if i < 134662 then UInt8.ofNat (97+i % 3) else if i % 2 = 0 then 99 else 97

def longMatch (n : ℕ) : List UInt8 := (List.range n).map letter

variable {n : ℕ}

@[simp] theorem longMatch_length (n : ℕ) : (longMatch n).length = n := by simp [longMatch]

theorem longMatch_get {i : ℕ} (h : i < n) : (longMatch n)[i]? = some (letter i) := by
  simp [longMatch, h]

theorem longMatch_same {p m k : ℕ} (hp : p+k ≤ n) (hm : m+k ≤ n) :
    Same (longMatch n) p m k ↔ ∀ j < k, letter (p+j) = letter (m+j) := by
  constructor
  · intro h j hj
    have := h j hj
    rw [longMatch_get (by omega), longMatch_get (by omega)] at this
    exact Option.some.inj this
  · intro h j hj
    rw [longMatch_get (by omega), longMatch_get (by omega), h j hj]

def longHash (p : ℕ) : ℕ :=
  hashSequence64 false (VeTls.Bytes.leValue ((List.range 8).map fun j => letter (p+j)))

theorem longMatch_hash {c : Params} (hsrc : c.src = longMatch n) (hu : c.byU16 = false) {p : ℕ}
    (h : p+8 ≤ n) : hashPosition c p = .ok (longHash p) := by
  have hwindow : ((longMatch n).drop p).take 8 = (List.range 8).map fun j => letter (p+j) := by
    apply List.ext_getElem?
    intro j
    by_cases hj : j < 8
    · rw [List.getElem?_take_of_lt hj, List.getElem?_drop, longMatch_get (by omega)]
      simp [hj]
    · rw [List.getElem?_eq_none (by simp; omega), List.getElem?_eq_none (by simp; omega)]
  rw [hashPosition, hsrc, read_eq (by simpa using h), hwindow, ok_bind, hu]
  rfl

theorem search_miss {c : Params} {k ip step nb h v m : ℕ} {t : Table} (htm : t h = m)
    (hend : ip+step+mfLimit ≤ c.src.length) (hv : hashPosition c (ip+step) = .ok v)
    (hm : m < ip) (hne : ¬ Same c.src ip m 4) :
    search c (k+1) ip step nb h t =
      search c k (ip+step) (nb >>> skipTrigger) (nb+1) v (putPositionOnHash c ip h t) := by
  rw [mfLimit] at hend
  have hget : getPositionOnHash h t = m := htm
  obtain ⟨b, hb, hiff⟩ := sameBytes_eq c.src m ip 4 (by omega) (by omega)
  obtain rfl : b = false := Bool.eq_false_iff.mpr fun hb => hne (hiff.mp hb)
  rw [search]
  simp only [mfLimit, if_neg (show ¬ ip+step > c.src.length-12 by omega), hv, ok_bind, hget, hb]
  split <;> rfl

theorem search_hit {c : Params} {k ip step nb h v m : ℕ} {t : Table} (htm : t h = m)
    (hend : ip+step+mfLimit ≤ c.src.length) (hv : hashPosition c (ip+step) = .ok v)
    (hm : m < ip) (hnear : ip ≤ m+maxDistance) (hs : Same c.src ip m 4) :
    search c (k+1) ip step nb h t = .ok (some (ip, m, putPositionOnHash c ip h t)) := by
  rw [mfLimit] at hend
  have hget : getPositionOnHash h t = m := htm
  obtain ⟨b, hb, hiff⟩ := sameBytes_eq c.src m ip 4 (by omega) (by omega)
  obtain rfl : b = true := hiff.mpr hs
  have hfar : ¬ (!c.byU16 && decide (m+maxDistance < ip)) = true := by
    rw [Bool.and_eq_true, decide_eq_true_eq]
    exact fun h => absurd h.2 (not_lt.mpr hnear)
  rw [search]
  simp only [mfLimit, if_neg (show ¬ ip+step > c.src.length-12 by omega), hv, ok_bind, hget,
    if_neg hfar, hb]
  rfl

def longParams (n : ℕ) : Params := ⟨longMatch n, 537, true, false, 1⟩

@[simp] theorem longParams_src (n : ℕ) : (longParams n).src = longMatch n := rfl

theorem long_hash {p : ℕ} (h : p+8 ≤ n) : hashPosition (longParams n) p = .ok (longHash p) :=
  longMatch_hash rfl rfl h

/-- The match is found at the fourth byte. -/
theorem long_search (hn : 134674 ≤ n) (t : Table) (ht : ∀ i, t i = 0) : ∃ t',
    search (longParams n) n 1 1 (1 <<< skipTrigger) (longHash 1) t = .ok (some (3, 0, t')) := by
  obtain ⟨k, rfl⟩ : ∃ k, n = k+3 := ⟨n-3, by omega⟩
  have hne (p : ℕ) (hp : letter p ≠ letter 0) (hlen : p+4 ≤ k+3) :
      ¬ Same (longMatch (k+3)) p 0 4 := by
    rw [longMatch_same hlen (by omega)]
    intro h
    exact hp (by simpa using h 0 (by decide))
  have h₂ : putPositionOnHash (longParams (k+3)) 1 (longHash 1) t (longHash 2) = 0 := by
    rw [putPositionOnHash, Function.update_of_ne (by decide), ht]
  have h₃ : putPositionOnHash (longParams (k+3)) 2 (longHash 2)
      (putPositionOnHash (longParams (k+3)) 1 (longHash 1) t) (longHash 3) = 0 := by
    rw [putPositionOnHash, Function.update_of_ne (by decide), putPositionOnHash,
      Function.update_of_ne (by decide), ht]
  have first : search (longParams (k+3)) (k+3) 1 1 64 (longHash 1) t =
      search (longParams (k+3)) (k+2) 2 1 65 (longHash 2)
        (putPositionOnHash (longParams (k+3)) 1 (longHash 1) t) :=
    search_miss (ht _) (by simp [mfLimit]; omega) (long_hash (by omega)) (by decide)
      (hne 1 (by decide) (by omega))
  have second : search (longParams (k+3)) (k+2) 2 1 65 (longHash 2)
      (putPositionOnHash (longParams (k+3)) 1 (longHash 1) t) =
      search (longParams (k+3)) (k+1) 3 1 66 (longHash 3) (putPositionOnHash (longParams (k+3)) 2
        (longHash 2) (putPositionOnHash (longParams (k+3)) 1 (longHash 1) t)) :=
    search_miss h₂ (by simp [mfLimit]; omega) (long_hash (by omega)) (by decide)
      (hne 2 (by decide) (by omega))
  have third : search (longParams (k+3)) (k+1) 3 1 66 (longHash 3) (putPositionOnHash
      (longParams (k+3)) 2 (longHash 2) (putPositionOnHash (longParams (k+3)) 1 (longHash 1) t)) =
      .ok (some (3, 0, putPositionOnHash (longParams (k+3)) 3 (longHash 3) (putPositionOnHash
        (longParams (k+3)) 2 (longHash 2)
        (putPositionOnHash (longParams (k+3)) 1 (longHash 1) t)))) :=
    search_hit h₃ (by simp [mfLimit]; omega) (long_hash (by omega)) (by decide) (by decide)
      ((longMatch_same (by omega) (by omega)).mpr (by decide))
  exact ⟨_, (first.trans second).trans third⟩

variable {allowed : Fault → Prop}

/-- The first sequence is put out up to its three literals. -/
theorem long_mainLoop (hn : 134674 ≤ n) (t : Table) (ht : ∀ i, t i = 0) (dst : List UInt8)
    (hdst : dst.length = 537) :
    Meets allowed (mainLoop (longParams n) 1 (longHash 1) ⟨0, 0, t, dst⟩) (fun next =>
      ∃ f, next = .goto (.nextMatch 3 0 0) f ∧ f.dst.length = 537 ∧ f.op = 4 ∧
        Holds f.dst f.op (token 3 0::(longMatch n).take 3)) := by
  obtain ⟨t', hsearch⟩ := long_search hn t ht
  rw [mainLoop, longParams_src, longMatch_length, show (longParams n).acceleration = 1 from rfl,
    hsearch, ok_bind]
  dsimp only
  rw [show catchUp (longMatch n) 0 3 0 = .ok (3, 0) from rfl, ok_bind]
  dsimp only
  rw [putLiterals]
  dsimp only
  split
  · next hcheck =>
    exact absurd hcheck (show ¬ (true && decide (0+1+(3-0)+(2+1+lastLiterals)+(3-0)/255 > 537)) =
      true by decide)
  apply Meets.bind (putLiteralLength_meets 3 (holds_zero dst) (fun hno => by omega))
  rintro ⟨dst₁, op₁⟩ ⟨hdst₁, hlen₁⟩
  obtain rfl : op₁ = 1 := hdst₁.1.symm
  dsimp only at hlen₁ hdst₁ ⊢
  apply Meets.bind (wildCopy_meets (longMatch n) 4 dst₁ _ 1 0 4 hdst₁ (by decide)
    (by rw [longMatch_length]; omega) (by decide) (fun hno => by omega))
  rintro dst₂ ⟨hdst₂, hlen₂⟩
  exact ⟨_, rfl, by rw [hlen₂, hlen₁, hdst], rfl, hdst₂⟩

/-- The match is 134659 bytes long. -/
theorem long_count (hn : 134674 ≤ n) :
    count (longMatch n) ((longMatch n).length-lastLiterals) (longMatch n).length (3+minMatch)
      (0+minMatch) = .ok 134655 := by
  obtain ⟨k, hk, hlong⟩ := count_eq (longMatch n)
    ((longMatch n).length-lastLiterals) (3+minMatch) (0+minMatch) (longMatch n).length (by decide) (Nat.sub_le _ _)
    (by rw [longMatch_length, lastLiterals, minMatch]; omega) (by rw [longMatch_length]; omega)
  rw [show 3+minMatch = 7 from rfl, show 0+minMatch = 4 from rfl] at *
  have hle := hlong.le
  rw [longMatch_length, lastLiterals] at hle
  have hperiod : Same (longMatch n) 7 4 134655 := by
    refine (longMatch_same (by omega) (by omega)).mpr fun j hj => ?_
    rw [letter, letter, if_pos (by omega), if_pos (by omega),
      show (7+j) % 3 = (4+j) % 3 by omega]
  have hge : 134655 ≤ k := hlong.ge hperiod (by rw [longMatch_length, lastLiterals]; omega)
  have hstop : k ≤ 134655 := by
    by_contra hlt
    have := (longMatch_same (by omega) (by omega)).mp hlong.same 134655 (by omega)
    exact absurd this (by decide)
  rw [hk, le_antisymm hstop hge]

/-- At the end of the match the two letters start a new one. -/
theorem long_testNext (hn : 134674 ≤ n) (f : Frame) (hop : f.op = 535) (hlen : f.dst.length = 537)
    {out : List UInt8} (hf : Holds f.dst f.op out) :
    Meets allowed (testNext (longParams n) 134662 f) (fun next =>
      ∃ f', next = .goto (.nextMatch 134662 134660 535) f' ∧ f'.dst.length = 537 ∧ f'.op = 536) := by
  have hhash : longHash 134660 = longHash 134662 := by decide
  have hsame : Same (longMatch n) 134662 134660 4 :=
    (longMatch_same (by omega) (by omega)).mpr (by decide)
  obtain ⟨b, hb, hiff⟩ := sameBytes_eq (longMatch n) 134660 134662 4
    (by rw [longMatch_length]; omega) (by rw [longMatch_length]; omega)
  obtain rfl : b = true := hiff.mpr hsame
  have hget : getPositionOnHash (longHash 134662)
      (putPositionOnHash (longParams n) 134660 (longHash 134660) f.table) = 134660 := by
    rw [getPositionOnHash, putPositionOnHash, hhash, Function.update_self]
    rfl
  rw [testNext, longParams_src, longMatch_length, if_neg (by rw [mfLimit]; omega), putPosition,
    long_hash (by omega), ok_bind, pure_bind, getPosition, long_hash (by omega), ok_bind, hget,
    pure_bind, putPosition, long_hash (by omega), ok_bind, pure_bind, if_pos (by decide), hb,
    ok_bind]
  dsimp only
  rw [if_pos rfl]
  apply Meets.bind (write_meets (b := [0]) hf (fun hno => by
    rw [List.length_singleton] at hno
    omega))
  rintro dst' ⟨-, hlen'⟩
  exact ⟨_, by rw [hop], by rw [← hlen, ← hlen'], rfl⟩

/-- The length of the match takes 529 bytes where the check counted 526, and
a match at its end takes the three bytes that were kept for its own token and
the last literals. -/
theorem long_nextMatch (hn : 134674 ≤ n) (f : Frame) (hlen : f.dst.length = 537) (hop : f.op = 4)
    (hf : Holds f.dst f.op (token 3 0::(longMatch n).take 3)) :
    Meets allowed (nextMatch (longParams n) 3 0 0 f) (fun next =>
      ∃ f', next = .goto (.nextMatch 134662 134660 535) f' ∧ f'.dst.length = 537 ∧ f'.op = 536) := by
  rw [nextMatch]
  apply Meets.bind (write_meets (b := VeTls.Bytes.leBytes 2 (3-0)) hf (fun hno => by
    rw [VeTls.Bytes.leBytes_length] at hno
    omega))
  rintro dst₁ ⟨hdst₁, hlen₁⟩
  rw [VeTls.Bytes.leBytes_length] at hdst₁
  rw [longParams_src, long_count hn, ok_bind]
  dsimp only
  rw [hop] at hdst₁ ⊢
  split
  · next hcheck =>
    exact absurd hcheck (show ¬ (true && decide (4+2+(1+lastLiterals)+134655 >>> 8 > 537)) = true
      by decide)
  have hshape : Holds dst₁ 6
      ([]++token 3 0::((longMatch n).take 3++VeTls.Bytes.leBytes 2 (3-0))) := hdst₁
  apply Meets.bind (putMatchLength_meets 3 134655 hshape (fun hno => by omega))
  rintro ⟨dst₂, op₂⟩ ⟨hdst₂, hlen₂⟩
  obtain rfl : op₂ = 535 := by
    have hlen₃ := hdst₂.1
    simp only [List.length_append, List.length_cons, List.nil_append, more_length,
      VeTls.Bytes.leBytes_length, List.length_take, longMatch_length] at hlen₃
    omega
  exact long_testNext hn _ rfl (by rw [hlen₂, hlen₁, hlen]) hdst₂

theorem long_params (hn : 134674 ≤ n) (hmax : n ≤ maxInputSize) :
    callParams (longMatch n) 537 = longParams n := by
  have hbound := compressBound_eq hmax
  rw [callParams, longMatch_length, if_neg (by omega),
    decide_eq_false (by rw [limit64K, mfLimit]; omega), longParams]

theorem long_run (hn : 134674 ≤ n) (k : ℕ) (t : Table) (ht : ∀ i, t i = 0) (dst : List UInt8)
    (hdst : dst.length = 537) :
    Meets (· = .write) (loop (longParams n) (k+3) (.mainLoop 1 (longHash 1)) ⟨0, 0, t, dst⟩)
      (fun _ => False) := by
  rw [loop]
  apply Meets.bind (long_mainLoop hn t ht dst hdst)
  rintro _ ⟨f, rfl, hlen, hop, hf⟩
  dsimp only
  rw [loop]
  apply Meets.bind (long_nextMatch hn f hlen hop hf)
  rintro _ ⟨f', rfl, hlen', hop'⟩
  dsimp only
  have hfault : write f'.dst f'.op (VeTls.Bytes.leBytes 2 (134662-134660)) = .error .write := by
    rw [write, if_neg (by rw [VeTls.Bytes.leBytes_length]; omega)]
  rw [loop, step, nextMatch, hfault]
  exact rfl

/-- For every length from 134674 on there is a source whose block is written
past the end of a destination of 537 bytes: a match of 134659 bytes with
another one at its end. -/
theorem compress_default_overflow (n : ℕ) (hn : 134674 ≤ n) (hmax : n ≤ maxInputSize)
    (dst : List UInt8) (hdst : dst.length = 537) :
    ∃ src : List UInt8, src.length = n ∧
      compressDefault src dst dst.length = .error .write := by
  refine ⟨longMatch n, longMatch_length n, ?_⟩
  obtain ⟨k, hk⟩ : ∃ k, 2*n+2 = k+3 := ⟨2*n-1, by omega⟩
  have hstart (i : ℕ) : putPositionOnHash (longParams n) 0 (longHash 0) (fun _ => 0) i = 0 :=
    Nat.le_zero.mp (putPositionOnHash_le (fun _ => le_refl 0) (le_refl 0) i)
  have hmeets := long_run hn k _ hstart dst hdst
  have hcall : compressDefault (longMatch n) dst dst.length =
      loop (longParams n) (k+3) (.mainLoop 1 (longHash 1))
        ⟨0, 0, putPositionOnHash (longParams n) 0 (longHash 0) (fun _ => 0), dst⟩ := by
    rw [compressDefault_eq, hdst, long_params hn hmax, compressGeneric, longParams_src,
      longMatch_length]
    dsimp only
    rw [if_neg (by omega), if_neg (by simp [longParams]), if_neg (by rw [minLength, mfLimit]; omega),
      putPosition, long_hash (by omega), ok_bind, pure_bind, long_hash (by omega), ok_bind, hk]
  rw [hcall]
  cases hrun : loop (longParams n) (k+3) (.mainLoop 1 (longHash 1))
      ⟨0, 0, putPositionOnHash (longParams n) 0 (longHash 0) (fun _ => 0), dst⟩ with
  | ok r =>
    rw [hrun] at hmeets
    exact hmeets.elim
  | error e =>
    rw [hrun] at hmeets
    exact congrArg _ hmeets

theorem compress_default_overflow_first : ∃ src : List UInt8, src.length = 134674 ∧
    compressDefault src (List.replicate 537 0) (List.replicate 537 (0 : UInt8)).length =
      .error .write :=
  compress_default_overflow 134674 (le_refl _) (by rw [maxInputSize]; omega)
    (List.replicate 537 0) List.length_replicate

end Overflow

end VeTls.Lz4
