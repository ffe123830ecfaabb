import VeTls.Compress.Lz4

/-!
# The parts of the block compressor

What counting, searching, catching up and writing lengths do, each said once.
A count is the longest run of equal bytes below its limit.
-/

set_option autoImplicit false

namespace VeTls.Lz4

open VeTls.Checked
open VeTls.Bytes (leValue leBytes)
open VeTls.Lz4Block (more token opening)

variable {allowed : Fault → Prop}

section Bits

theorem ctzll_shift (k y : ℕ) : ctzll (k+8) (256*y) = ctzll k y+8 := by
  have h (j : ℕ) (hj : 2 ∣ j) (i : ℕ) : ctzll (i+1) (j*y) = ctzll i (j/2*y)+1 := by
    obtain ⟨t, rfl⟩ := hj
    rw [ctzll, if_neg (by rw [Nat.mul_assoc]; omega), Nat.mul_assoc,
      Nat.mul_div_cancel_left _ (by decide), Nat.mul_div_cancel_left _ (by decide)]
  rw [h 256 (by decide), h 128 (by decide), h 64 (by decide), h 32 (by decide), h 16 (by decide),
    h 8 (by decide), h 4 (by decide), h 2 (by decide), show 2/2*y = y by omega]

theorem ctzll_lt (k j x : ℕ) (h : x % 2^j ≠ 0) (hk : j ≤ k) : ctzll k x < j := by
  induction j generalizing k x with
  | zero => exact absurd (Nat.mod_one x) h
  | succ j ih =>
    obtain ⟨k, rfl⟩ : ∃ i, k = i+1 := ⟨k-1, by omega⟩
    rw [ctzll]
    split
    · omega
    · next heven =>
      have hhalf : x/2 % 2^j ≠ 0 := by
        rw [pow_succ, Nat.mul_comm, Nat.mod_mul] at h
        omega
      have := ih k (x/2) hhalf (by omega)
      omega

/-- The first byte in which two words differ, from the low end. -/
theorem nbCommon_first (a b : List UInt8) (h : a.length = b.length)
    (hne : leValue a ^^^ leValue b ≠ 0) :
    let i := ctzll (8*a.length) (leValue a ^^^ leValue b)/8
    i < a.length ∧ a.take i = b.take i ∧ a[i]? ≠ b[i]? := by
  induction a generalizing b with
  | nil =>
    rw [List.length_eq_zero_iff.mp h.symm] at hne
    exact absurd (Nat.xor_self _) hne
  | cons c a ih =>
    obtain ⟨d, b, rfl⟩ := List.exists_cons_of_length_eq_add_one h.symm
    have hc := UInt8.toNat_lt c
    have hd := UInt8.toNat_lt d
    have hmod : (leValue (c::a) ^^^ leValue (d::b)) % 2^8 = c.toNat ^^^ d.toNat := by
      rw [Nat.xor_mod_two_pow, leValue, leValue]
      congr 1 <;> omega
    have hdiv : (leValue (c::a) ^^^ leValue (d::b))/2^8 = leValue a ^^^ leValue b := by
      rw [Nat.xor_div_two_pow, leValue, leValue]
      congr 1 <;> omega
    have hsize : 8*(c::a).length = 8*a.length+8 := by
      rw [List.length_cons]
      omega
    by_cases hcd : c = d
    · have hzero : c.toNat ^^^ d.toNat = 0 := by rw [hcd, Nat.xor_self]
      have hval : leValue (c::a) ^^^ leValue (d::b) = 256*(leValue a ^^^ leValue b) := by
        omega
      have hrest := ih b (by simpa using h) (by omega)
      rw [hsize, hval, ctzll_shift, Nat.add_div_right _ (by decide)]
      refine ⟨?_, ?_, ?_⟩
      · rw [List.length_cons]
        omega
      · rw [List.take_succ_cons, List.take_succ_cons, hcd, hrest.2.1]
      · rw [List.getElem?_cons_succ, List.getElem?_cons_succ]
        exact hrest.2.2
    · have hxor : c.toNat ^^^ d.toNat ≠ 0 := by
        intro hz
        exact hcd (UInt8.toNat_inj.mp (Nat.xor_eq_zero_iff.mp hz))
      have hlt := ctzll_lt (8*(c::a).length) 8 _ (by rwa [hmod]) (by omega)
      rw [Nat.div_eq_of_lt hlt]
      refine ⟨by simp, rfl, ?_⟩
      simpa using hcd

end Bits

section Count

variable {src : List UInt8} {limit p m : ℕ}

/-- `k` bytes are equal and the next is not, if there is one below the limit. -/
structure Longest (src : List UInt8) (limit p m k : ℕ) : Prop where
  le : p+k ≤ limit
  same : Same src p m k
  stop : p+k < limit → src[p+k]? ≠ src[m+k]?

theorem Longest.add {k k' : ℕ} (h : Same src p m k) (h' : Longest src limit (p+k) (m+k) k') :
    Longest src limit p m (k+k') where
  le := by have := h'.le; omega
  same := h.add h'.same
  stop := by
    rw [← Nat.add_assoc, ← Nat.add_assoc]
    exact h'.stop

/-- A run of equal bytes below the limit is part of the count. -/
theorem Longest.ge {k n : ℕ} (h : Longest src limit p m k) (hn : Same src p m n)
    (hle : p+n ≤ limit) : n ≤ k := by
  by_contra hlt
  exact h.stop (by omega) (hn k (by omega))

theorem sameBytes_eq (src : List UInt8) (p q n : ℕ) (hp : p+n ≤ src.length) (hq : q+n ≤ src.length) :
    ∃ b, sameBytes src p q n = .ok b ∧ (b = true ↔ Same src q p n) := by
  refine ⟨_, by rw [sameBytes, read_eq hp, read_eq hq]; rfl, ?_⟩
  rw [beq_iff_eq, eq_comm]
  exact read_same hq hp

theorem countPiece_eq {n k : ℕ} (hmp : m < p) (hlim : limit ≤ src.length) (hn : 0 < n)
    (hk : Same src p m k) :
    ∃ r, countPiece src limit p m n k = .ok r ∧
      (r = k ∧ (p+k+n ≤ limit → ¬ Same src (p+k) (m+k) n) ∨
        r = k+n ∧ p+k+n ≤ limit ∧ Same src p m (k+n)) := by
  unfold countPiece
  by_cases hin : p+k < limit-(n-1)
  · obtain ⟨b, hb, hiff⟩ := sameBytes_eq src (m+k) (p+k) n (by omega)
      (by omega)
    rw [if_pos hin, hb]
    cases b with
    | true => exact ⟨k+n, rfl, .inr ⟨rfl, by omega, hk.add (hiff.mp rfl)⟩⟩
    | false =>
      refine ⟨k, rfl, .inl ⟨rfl, fun _ hs => ?_⟩⟩
      exact Bool.false_ne_true (hiff.mpr hs)
  · rw [if_neg hin]
    exact ⟨k, rfl, .inl ⟨rfl, fun _ => by omega⟩⟩

theorem countTail_eq (hmp : m < p) (hlim : limit ≤ src.length) (hle : p ≤ limit)
    (hseven : limit ≤ p+7) :
    ∃ k, countTail src limit p m = .ok k ∧ Longest src limit p m k := by
  obtain ⟨a, ha, hacase⟩ := countPiece_eq (n := 4) hmp hlim (by decide) (same_zero src p m)
  have hsa : Same src p m a := by
    rcases hacase with ⟨rfl, -⟩ | ⟨rfl, -, hs⟩
    · exact same_zero src p m
    · exact hs
  obtain ⟨b, hb, hbcase⟩ := countPiece_eq (n := 2) hmp hlim (by decide) hsa
  have hsb : Same src p m b := by
    rcases hbcase with ⟨rfl, -⟩ | ⟨rfl, -, hs⟩
    · exact hsa
    · exact hs
  obtain ⟨k, hk, hkcase⟩ := countPiece_eq (n := 1) hmp hlim (by decide) hsb
  refine ⟨k, by rw [countTail, ha, ok_bind, hb, ok_bind, hk], ?_⟩
  have hone (j : ℕ) (h : src[p+j]? = src[m+j]?) : Same src (p+j) (m+j) 1 := by
    intro i hi
    obtain rfl : i = 0 := by omega
    exact h
  have hsk : Same src p m k := by
    rcases hkcase with ⟨rfl, -⟩ | ⟨rfl, -, hs⟩
    · exact hsb
    · exact hs
  refine ⟨by omega, hsk, fun hlt heq => ?_⟩
  rcases hkcase with ⟨rfl, hno⟩ | ⟨rfl, -, -⟩
  · exact hno (by omega) (hone k heq)
  · -- after one more byte: three were tried together, or two
    have hmore : Same src p m (b+1+1) := hsk.add (hone (b+1) heq)
    rcases hbcase with ⟨rfl, hno⟩ | ⟨rfl, -, -⟩
    · refine hno (by omega) fun j hj => ?_
      rw [Nat.add_assoc, Nat.add_assoc]
      exact hmore (b+j) (by omega)
    · rcases hacase with ⟨rfl, hno⟩ | ⟨rfl, -, -⟩
      · exact hno (by omega) fun j hj => hmore j (by omega)
      · omega

theorem count_eq (src : List UInt8) (limit p m k : ℕ) (hmp : m < p) (hlim : limit ≤ src.length) (hle : p ≤ limit)
    (hk : limit-p < 8*k) :
    ∃ r, count src limit k p m = .ok r ∧ Longest src limit p m r := by
  induction k generalizing p m with
  | zero => omega
  | succ k ih =>
    rw [count]
    by_cases hin : p < limit-7
    · rw [if_pos hin, read_eq (by omega), read_eq (by omega)]
      have hlen : ((src.drop m).take 8).length = 8 := by simp; omega
      have hlen' : ((src.drop p).take 8).length = 8 := by simp; omega
      by_cases hz : leValue ((src.drop m).take 8) ^^^ leValue ((src.drop p).take 8) = 0
      · have hsame : Same src p m 8 :=
          (read_same (by omega) (by omega)).mp (Nat.xor_eq_zero_iff.mp hz).symm
        obtain ⟨r, hr, hrest⟩ := ih (p+8) (m+8) (by omega) (by omega) (by omega)
        refine ⟨r+8, ?_, ?_⟩
        · simp only [ok_bind, if_pos hz, hr]
          rfl
        · rw [Nat.add_comm]
          exact Longest.add hsame hrest
      · obtain ⟨hlt, htake, hdiff⟩ := nbCommon_first _ _ (hlen.trans hlen'.symm) hz
        rw [hlen] at hlt htake hdiff
        refine ⟨nbCommonBytes _, by simp only [ok_bind, if_neg hz]; rfl, ?_⟩
        rw [nbCommonBytes, Nat.shiftRight_eq_div_pow, show 2^3 = 8 by rfl]
        rw [show 8*8 = 64 by rfl] at hlt htake hdiff
        generalize ctzll 64 _/8 = i at hlt htake hdiff
        rw [List.take_take, List.take_take, Nat.min_eq_left (by omega)] at htake
        rw [List.getElem?_take_of_lt hlt, List.getElem?_take_of_lt hlt, List.getElem?_drop,
          List.getElem?_drop] at hdiff
        exact ⟨by omega, window_eq_iff.mp htake.symm, fun _ heq => hdiff heq.symm⟩
    · rw [if_neg hin]
      exact countTail_eq hmp hlim hle (by omega)

end Count

section Search

variable {c : Params}

theorem hashPosition_eq {p : ℕ} (h : p+8 ≤ c.src.length) : ∃ v, hashPosition c p = .ok v :=
  ⟨_, by rw [hashPosition, read_eq h]; rfl⟩

theorem putPositionOnHash_le {p h q : ℕ} {t : Table} (ht : ∀ i, t i ≤ q) (hp : p ≤ q) (i : ℕ) :
    putPositionOnHash c p h t i ≤ q := by
  unfold putPositionOnHash
  by_cases hi : i = h
  · rw [hi, Function.update_self]
    exact (Nat.mod_le _ _).trans hp
  · rw [Function.update_of_ne hi]
    exact ht i

/-- A match: an earlier place with the same four bytes, near enough. -/
structure Matches (c : Params) (ip m k : ℕ) : Prop where
  before : m < ip
  near : ip-m < 2^16
  same : Same c.src ip m k

/-- The search ends with nothing, or with a match that starts twelve bytes
before the end, and the table knows no later place. -/
theorem search_eq (hu16 : c.byU16 = true → c.src.length < limit64K) (k ip step nb h : ℕ)
    (t : Table) (ht : ∀ i, t i < ip) (hstep : 0 < step) (hnb : 64 ≤ nb)
    (hip : ip ≤ c.src.length)
    (hk : c.src.length < ip+k) :
    ∃ r, search c k ip step nb h t = .ok r ∧
      ∀ q m t', r = some (q, m, t') →
        ip ≤ q ∧ q+mfLimit < c.src.length ∧ Matches c q m 4 ∧ ∀ i, t' i ≤ q := by
  induction k generalizing ip step nb h t with
  | zero => omega
  | succ k ih =>
    have hput (i : ℕ) : putPositionOnHash c ip h t i ≤ ip :=
      putPositionOnHash_le (fun j => (ht j).le) (le_refl ip) i
    have hnext : 0 < nb >>> skipTrigger := by
      rw [skipTrigger, Nat.shiftRight_eq_div_pow]
      omega
    have hrest (v : ℕ) (hle : ip+step ≤ c.src.length) : ∃ r, search c k (ip+step) (nb >>> skipTrigger) (nb+1) v
        (putPositionOnHash c ip h t) = .ok r ∧ ∀ q m t', r = some (q, m, t') →
          ip ≤ q ∧ q+mfLimit < c.src.length ∧ Matches c q m 4 ∧ ∀ i, t' i ≤ q := by
      obtain ⟨r, hr, hfound⟩ := ih (ip+step) (nb >>> skipTrigger) (nb+1) v
        (putPositionOnHash c ip h t) (fun i => (hput i).trans_lt (by omega)) hnext (by omega) hle
        (by omega)
      refine ⟨r, hr, fun q m t' he => ?_⟩
      obtain ⟨hle, hq⟩ := hfound q m t' he
      exact ⟨by omega, hq⟩
    rw [search]
    by_cases hend : ip+step > c.src.length-mfLimit
    · exact ⟨none, by rw [if_pos hend]; rfl, fun _ _ _ he => by cases he⟩
    · rw [mfLimit] at hend
      obtain ⟨v, hv⟩ := hashPosition_eq (c := c) (p := ip+step) (by omega)
      have hm : getPositionOnHash h t < ip := ht h
      obtain ⟨b, hb, hiff⟩ := sameBytes_eq c.src (getPositionOnHash h t) ip 4 (by omega)
        (by omega)
      simp only [mfLimit, if_neg hend, hv, ok_bind]
      by_cases hfar : (!c.byU16 && decide (getPositionOnHash h t+maxDistance < ip)) = true
      · rw [if_pos hfar]
        exact hrest v (by omega)
      · rw [if_neg hfar, hb, ok_bind]
        cases b with
        | false => exact hrest v (by omega)
        | true =>
          refine ⟨_, rfl, fun q m t' he => ?_⟩
          obtain ⟨rfl, rfl, rfl⟩ : ip = q ∧ getPositionOnHash h t = m ∧
              putPositionOnHash c ip h t = t' := by simpa using he
          refine ⟨le_refl _, by omega, ⟨hm, ?_, hiff.mp rfl⟩, hput⟩
          rw [Bool.and_eq_true, Bool.not_eq_true', decide_eq_true_eq, maxDistance] at hfar
          cases hu : c.byU16 with
          | true =>
            have := hu16 hu
            rw [limit64K, mfLimit] at this
            omega
          | false =>
            have : ¬ getPositionOnHash h t+65535 < ip := fun hlt => hfar ⟨hu, hlt⟩
            omega

theorem catchUp_eq (src : List UInt8) (anchor ip m k : ℕ) (ha : anchor ≤ ip) (hm : m < ip)
    (hip : ip ≤ src.length) (hs : Same src ip m k) :
    ∃ ip' m', catchUp src anchor ip m = .ok (ip', m') ∧ anchor ≤ ip' ∧ ip' ≤ ip ∧
      m+ip' = m'+ip ∧ m' < ip' ∧ Same src ip' m' (ip-ip'+k) := by
  induction m generalizing ip k with
  | zero => exact ⟨ip, 0, by rw [catchUp]; rfl, ha, le_refl _, rfl, hm, by simpa using hs⟩
  | succ m ih =>
    rw [catchUp]
    by_cases hmore : ip > anchor
    · obtain ⟨b, hb, hiff⟩ := sameBytes_eq src (ip-1) m 1 (by omega) (by omega)
      rw [if_pos hmore, hb, ok_bind]
      cases b with
      | false => exact ⟨ip, m+1, rfl, ha, le_refl _, rfl, hm, by simpa using hs⟩
      | true =>
        have hone : Same src (ip-1) m 1 := fun j hj => (hiff.mp rfl j hj).symm
        have hlonger : Same src (ip-1) m (1+k) := by
          apply hone.add
          rwa [Nat.sub_add_cancel (by omega)]
        obtain ⟨ip', m', hrun, h1, h2, h3, h4, h5⟩ := ih (ip-1) (1+k) (by omega)
          (by omega) (by omega) hlonger
        refine ⟨ip', m', hrun, h1, by omega, by omega, h4, ?_⟩
        rwa [show ip-ip'+k = ip-1-ip'+(1+k) by omega]
    · rw [if_neg hmore]
      exact ⟨ip, m+1, rfl, ha, le_refl _, rfl, hm, by simpa using hs⟩

end Search

section Emit

variable {dst out : List UInt8} {op : ℕ}

theorem putRun_meets (k len : ℕ) (h : Holds dst op out) (hk : len < 255*k)
    (hroom : ¬ op+(len/255+1) ≤ dst.length → allowed .write) :
    Meets allowed (putRun k dst op len) (fun r =>
      Holds r.1 r.2 (out++(List.replicate (len/255) 255++[UInt8.ofNat (len % 255)])) ∧
        r.1.length = dst.length) := by
  induction k generalizing dst out op len with
  | zero => omega
  | succ k ih =>
    rw [putRun]
    by_cases hmore : len ≥ 255
    · obtain ⟨len, rfl⟩ : ∃ i, len = i+255 := ⟨len-255, by omega⟩
      rw [Nat.add_div_right _ (by decide)] at hroom
      rw [if_pos hmore, Nat.add_div_right _ (by decide), Nat.add_mod_right, Nat.add_sub_cancel,
        List.replicate_succ]
      apply Meets.bind (write_meets (b := [255]) h fun hno => hroom (by
        rw [List.length_singleton] at hno
        omega))
      rintro dst' ⟨hdst, hlen⟩
      have hrest := ih len hdst (by omega) (fun hno => hroom (by
        rw [List.length_singleton] at hno
        omega))
      refine hrest.mono fun r hr => ⟨?_, hr.2.trans hlen⟩
      simpa using hr.1
    · rw [if_neg hmore]
      rw [Nat.div_eq_of_lt (by omega)] at hroom ⊢
      rw [Nat.mod_eq_of_lt (by omega)]
      apply Meets.bind (write_meets (b := [UInt8.ofNat len]) h hroom)
      intro dst' hdst
      exact hdst

theorem putMatchRun_meets (k len : ℕ) (h : Holds dst op out) (hk : len < 510*k)
    (hroom : ¬ op+(len/255+1) ≤ dst.length → allowed .write) :
    Meets allowed (putMatchRun k dst op len) (fun r =>
      Holds r.1 r.2 (out++(List.replicate (len/255) 255++[UInt8.ofNat (len % 255)])) ∧
        r.1.length = dst.length) := by
  induction k generalizing dst out op len with
  | zero => omega
  | succ k ih =>
    rw [putMatchRun]
    by_cases hmore : len ≥ 510
    · obtain ⟨len, rfl⟩ : ∃ i, len = i+510 := ⟨len-510, by omega⟩
      have hdiv : (len+510)/255 = len/255+1+1 := by omega
      have hmod : (len+510) % 255 = len % 255 := by omega
      rw [hdiv] at hroom
      rw [if_pos hmore, hdiv, hmod, Nat.add_sub_cancel, List.replicate_succ, List.replicate_succ]
      apply Meets.bind (write_meets (b := [255]) h fun hno => hroom (by
        rw [List.length_singleton] at hno
        omega))
      rintro dst₁ ⟨hdst₁, hlen₁⟩
      apply Meets.bind (write_meets (b := [255]) hdst₁ fun hno => hroom (by
        rw [List.length_singleton] at hno
        omega))
      rintro dst₂ ⟨hdst₂, hlen₂⟩
      have hrest := ih len hdst₂ (by omega) (fun hno => hroom (by
        rw [List.length_singleton] at hno
        omega))
      refine hrest.mono fun r hr => ⟨?_, hr.2.trans (hlen₂.trans hlen₁)⟩
      simpa using hr.1
    · rw [if_neg hmore]
      by_cases hone : len ≥ 255
      · have hdiv : len/255 = 1 := by omega
        have hmod : len % 255 = len-255 := by omega
        rw [hdiv] at hroom
        rw [if_pos hone, hdiv, hmod]
        apply Meets.bind (write_meets (b := [255]) h fun hno => hroom (by
          rw [List.length_singleton] at hno
          omega))
        rintro dst₁ ⟨hdst₁, hlen₁⟩
        apply Meets.bind (write_meets (b := [UInt8.ofNat (len-255)]) hdst₁ fun hno => hroom (by
          rw [List.length_singleton] at hno
          simp only [List.length_singleton] at hno
          omega))
        rintro dst₂ ⟨hdst₂, hlen₂⟩
        refine ⟨?_, hlen₂.trans hlen₁⟩
        simpa using hdst₂
      · rw [if_neg hone]
        rw [Nat.div_eq_of_lt (by omega)] at hroom ⊢
        rw [Nat.mod_eq_of_lt (by omega)]
        apply Meets.bind (write_meets (b := [UInt8.ofNat len]) h hroom)
        intro dst' hdst
        exact hdst

theorem token_zero (l : ℕ) : token l 0 = UInt8.ofNat (min l 15*16) := by
  rw [token, Nat.zero_min, Nat.add_zero, Nat.mul_comm]

/-- The token of a sequence and the rest of its literal length. -/
theorem putLiteralLength_meets (l : ℕ) (h : Holds dst op out)
    (hroom : ¬ op+1+(l+240)/255 ≤ dst.length → allowed .write) :
    Meets allowed (putLiteralLength dst op (op+1) l) (fun r =>
      Holds r.1 r.2 (out++token l 0::more l) ∧ r.1.length = dst.length) := by
  unfold putLiteralLength
  by_cases hl : l ≥ runMask
  · have h15 : 15 ≤ l := hl
    rw [if_pos hl, more, if_neg (by omega), token_zero, Nat.min_eq_right h15]
    apply Meets.bind (write_meets (b := [UInt8.ofNat (runMask*16)]) h fun hno => hroom (by
      rw [List.length_singleton] at hno
      omega))
    rintro dst' ⟨hdst, hlen⟩
    refine (putRun_meets (l+1) (l-runMask) hdst (by omega)
      (fun hno => hroom (by
        rw [List.length_singleton, runMask] at hno
        omega))).mono fun r hr => ⟨?_, hr.2.trans hlen⟩
    simpa [runMask] using hr.1
  · have h15 : l < 15 := not_le.mp hl
    rw [if_neg hl, more, if_pos h15, token_zero, Nat.min_eq_left h15.le]
    apply Meets.bind (write_meets (b := [UInt8.ofNat (l*16)]) h fun hno => hroom (by
      rw [List.length_singleton] at hno
      omega))
    intro dst' hdst
    exact hdst

theorem addToToken_meets (n : ℕ) {a r : List UInt8} {x : UInt8} (h : Holds dst op (a++x::r)) :
    Meets allowed (addToToken dst a.length n) (fun dst' =>
      Holds dst' op (a++UInt8.ofNat (x.toNat+n)::r) ∧ dst'.length = dst.length) := by
  rw [addToToken, read_inside h, ok_bind]
  exact write_inside x _ h

theorem token_add (l m : ℕ) : UInt8.ofNat ((token l 0).toNat+min m 15) = token l m := by
  rw [Lz4Block.token_toNat, token, Nat.zero_min, Nat.add_zero]

theorem putMatchLength_meets (l m : ℕ) {a r : List UInt8} (h : Holds dst op (a++token l 0::r))
    (hroom : ¬ op+(m+240)/255 ≤ dst.length → allowed .write) :
    Meets allowed (putMatchLength dst a.length op m) (fun r' =>
      Holds r'.1 r'.2 (a++token l m::(r++more m)) ∧ r'.1.length = dst.length) := by
  unfold putMatchLength
  by_cases hm : m ≥ mlMask
  · have h15 : 15 ≤ m := hm
    rw [if_pos hm, more, if_neg (by omega), ← token_add, Nat.min_eq_right h15]
    apply Meets.bind (addToToken_meets mlMask h)
    rintro dst' ⟨hdst, hlen⟩
    refine (putMatchRun_meets (m+1) (m-mlMask) hdst (by omega)
      (fun hno => hroom (by
        rw [mlMask] at hno
        omega))).mono fun r' hr => ⟨?_, hr.2.trans hlen⟩
    simpa [mlMask] using hr.1
  · have h15 : m < 15 := not_le.mp hm
    rw [if_neg hm, more, if_pos h15, ← token_add, Nat.min_eq_left h15.le]
    apply Meets.bind (addToToken_meets m h)
    rintro dst' ⟨hdst, hlen⟩
    refine ⟨?_, hlen⟩
    simpa using hdst

end Emit

end VeTls.Lz4
