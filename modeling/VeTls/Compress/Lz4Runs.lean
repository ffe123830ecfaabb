import VeTls.Compress.Lz4Parts

/-!
# Runs of the block compressor

What holds at each label, what one step between labels keeps, and what a whole
run leaves. The bytes in front of `op` are the sequences of a block that gives
the source up to `anchor`. A write may leave the destination only where the
output is limited and the source is longer than `safeLength`.
-/

set_option autoImplicit false

namespace VeTls.Lz4

open VeTls.Checked
open VeTls.Bytes (leBytes leBytes_length)
open VeTls.Lz4Block

/-- Up to this length the checks of the limited output are enough. -/
def safeLength : ℕ := 134671

def MayOverflow (c : Params) (e : Fault) : Prop :=
  e = .write ∧ c.outputLimited = true ∧ safeLength < c.src.length

structure Ready (c : Params) (cap : ℕ) : Prop where
  room : c.outputLimited = false → c.src.length+c.src.length/255+16 ≤ cap
  limit : c.outputLimited = true → c.maxOutputSize ≤ cap
  short : c.byU16 = true → c.src.length < limit64K
  accelerated : 0 < c.acceleration

/-- The sequences give the source up to `anchor`. -/
structure Emitted (c : Params) (l : List Sequence) (anchor : ℕ) : Prop where
  meaning : expand l = c.src.take anchor
  fits : FitsFrom [] l
  ends : EndsFrom c.src.length [] l
  le : anchor ≤ c.src.length
  ratio : 255*(encodeAll l).length ≤ 256*anchor

def between (c : Params) (p q : ℕ) : Octets := (c.src.drop p).take (q-p)

/-- `q` is the last place the table knows, and the match covers it. -/
structure Covers (c : Params) (ip m q : ℕ) (t : Table) : Prop where
  le : ip ≤ q
  lt : q+mfLimit ≤ c.src.length
  known : ∀ i, t i ≤ q
  compared : Matches c ip m (q-ip+4)

def Inv (c : Params) (cap : ℕ) : Label → Frame → Prop
  | .mainLoop ip _, f => ∃ l, Emitted c l f.anchor ∧ Holds f.dst f.op (encodeAll l) ∧
      f.dst.length = cap ∧ f.anchor ≤ ip ∧ ip+11 ≤ c.src.length ∧ ∀ i, f.table i < ip
  | .nextMatch ip m token, f => ∃ l, Emitted c l f.anchor ∧ token = (encodeAll l).length ∧
      Holds f.dst f.op (encodeAll l++opening (between c f.anchor ip) 0) ∧ f.dst.length = cap ∧
      f.anchor ≤ ip ∧ (∃ q, Covers c ip m q f.table) ∧
      (c.outputLimited = true → c.src.length ≤ safeLength → f.op+2 ≤ cap)
  | .lastLiterals, f => ∃ l, Emitted c l f.anchor ∧ Holds f.dst f.op (encodeAll l) ∧
      f.dst.length = cap

def rank (c : Params) : Label → Frame → ℕ
  | .mainLoop _ _, f => 2*(c.src.length-f.anchor)+1
  | .nextMatch _ _ _, f => 2*(c.src.length-f.anchor)
  | .lastLiterals, _ => 0

/-- What a call that returns `rc` leaves: nothing to say for zero, which
only a limited output gives, and else a block that means the source. -/
structure Done (c : Params) (cap rc : ℕ) (dst : List UInt8) : Prop where
  size : dst.length = cap
  limited : rc = 0 → c.outputLimited = true
  block : 0 < rc → ∃ b : Block, Holds dst rc b.encode ∧ b.Valid ∧ b.meaning = c.src
  small : 255*rc ≤ 256*c.src.length+495
  fits : c.outputLimited = true → rc ≤ c.maxOutputSize

/-- Where a step from a label of rank `r` may end. -/
def After (c : Params) (cap r : ℕ) : Next → Prop
  | .goto l f => Inv c cap l f ∧ rank c l f < r
  | .ret rc dst => Done c cap rc dst

section Text

variable {c : Params} {l : List Sequence} {anchor ip m k : ℕ}

theorem between_length (h : anchor ≤ ip) (hip : ip ≤ c.src.length) :
    (between c anchor ip).length = ip-anchor := by
  rw [between, List.length_take, List.length_drop]
  omega

theorem take_between (h : anchor ≤ ip) : c.src.take anchor++between c anchor ip = c.src.take ip := by
  rw [between, ← List.take_add, Nat.add_sub_cancel' h]

theorem emitted_nil (c : Params) : Emitted c [] 0 where
  meaning := rfl
  fits := trivial
  ends := trivial
  le := Nat.zero_le _
  ratio := by simp [encodeAll]

/-- Literals and a match that was compared give the source up to its end. -/
theorem Emitted.snoc (h : Emitted c l anchor) (ha : anchor ≤ ip) (hm : Matches c ip m (k+4))
    (hstart : ip+12 ≤ c.src.length) (hend : ip+(k+4)+5 ≤ c.src.length) :
    Emitted c (l++[⟨between c anchor ip, ip-m, k+4⟩]) (ip+(k+4)) := by
  have hbefore := hm.before
  have hlits := between_length (c := c) ha (by omega)
  have hlen : (expand l).length = anchor := by
    rw [h.meaning, List.length_take]
    omega
  have happly : Sequence.apply (expand l) ⟨between c anchor ip, ip-m, k+4⟩ =
      c.src.take (ip+(k+4)) := by
    rw [Sequence.apply, h.meaning, take_between ha]
    apply repeatFrom_take c.src (ip-m) (k+4) ip (by omega) (by omega) (by omega)
    intro j hj
    rw [Nat.sub_sub_self hm.before.le]
    exact hm.same j hj
  refine ⟨?_, ?_, ?_, by omega, ?_⟩
  · rw [expand_snoc, happly]
  · rw [fitsFrom_append]
    refine ⟨h.fits, ⟨?_, ?_, hm.near, by simp⟩, trivial⟩
    · exact Nat.sub_pos_of_lt hm.before
    · change ip-m ≤ (expand l).length+(between c anchor ip).length
      omega
  · rw [endsFrom_append]
    refine ⟨h.ends, ⟨?_, ?_⟩, trivial⟩
    · change (expand l).length+(between c anchor ip).length+12 ≤ _
      omega
    · change (Sequence.apply (expand l) _).length+5 ≤ _
      rw [happly, List.length_take]
      omega
  · have hone := encode_ratio ⟨between c anchor ip, ip-m, k+4⟩ (by simp)
    have hratio := h.ratio
    rw [encodeAll_snoc, List.length_append]
    simp only [hlits] at hone
    omega

end Text

section Step

variable {c : Params} {cap : ℕ} {f : Frame} {l : List Sequence} {ip m r : ℕ}

/-- The checks leave room for what is written, except in a long source. -/
theorem no_room {p : Prop} (h : c.outputLimited = true → c.src.length ≤ safeLength → p)
    (h' : c.outputLimited = false → p) (hno : ¬ p) : MayOverflow c .write := by
  cases hl : c.outputLimited with
  | false => exact absurd (h' hl) hno
  | true => exact ⟨rfl, hl, not_le.mp fun hlen => hno (h hl hlen)⟩

theorem putLiterals_meets (hr : Ready c cap) (he : Emitted c l f.anchor)
    (hf : Holds f.dst f.op (encodeAll l)) (hlen : f.dst.length = cap) (ha : f.anchor ≤ ip)
    (hcov : ∃ q, Covers c ip m q f.table) :
    Meets (MayOverflow c) (putLiterals c ip m f)
      (After c cap (2*(c.src.length-f.anchor)+1)) := by
  obtain ⟨q, hq⟩ := hcov
  have hip : ip+12 ≤ c.src.length := by
    have := hq.le
    have := hq.lt
    rw [mfLimit] at this
    omega
  have hop : f.op = (encodeAll l).length := hf.1.symm
  have hratio := he.ratio
  have hroom := hr.room
  have hmax := hr.limit
  unfold putLiterals
  dsimp only
  split
  · next hcheck =>
    rw [Bool.and_eq_true] at hcheck
    exact ⟨hlen, fun _ => hcheck.1, fun h0 => absurd h0 (lt_irrefl 0), by omega, fun _ => by omega⟩
  · next hcheck =>
    have hpass : c.outputLimited = true →
        f.op+1+(ip-f.anchor)+8+(ip-f.anchor)/255 ≤ c.maxOutputSize := by
      intro hl
      simpa [hl, lastLiterals] using hcheck
    have hfit : f.op+1+(ip-f.anchor+240)/255+(ip-f.anchor)+7 ≤ cap ∧
        f.op+1+(ip-f.anchor+240)/255+8 ≤ cap := by
      cases hl : c.outputLimited with
      | false =>
        have := hroom hl
        omega
      | true =>
        have := hpass hl
        have := hmax hl
        omega
    apply Meets.bind (putLiteralLength_meets (ip-f.anchor) hf (fun hno => by omega))
    rintro ⟨dst₁, op₁⟩ ⟨hdst₁, hlen₁⟩
    have hop₁ : op₁ = f.op+1+(ip-f.anchor+240)/255 := by
      have := hdst₁.1
      rw [List.length_append, List.length_cons, more_length] at this
      omega
    dsimp only at hlen₁ hdst₁ ⊢
    apply Meets.bind (wildCopy_meets c.src (ip-f.anchor+1) dst₁ _ op₁ f.anchor
      (op₁+(ip-f.anchor)) hdst₁ (by omega) (by omega) (by omega) (fun hno => by omega))
    rintro dst₂ ⟨hdst₂, hlen₂⟩
    refine ⟨⟨l, he, hop, ?_, by rw [hlen₂, hlen₁, hlen], ha, ⟨q, hq⟩, ?_⟩, by simp [rank]⟩
    · have hbytes : encodeAll l++opening (between c f.anchor ip) 0 =
          encodeAll l++token (ip-f.anchor) 0::more (ip-f.anchor)++
            (c.src.drop f.anchor).take (op₁+(ip-f.anchor)-op₁) := by
        rw [opening, between_length ha (by omega), between, Nat.add_sub_cancel_left]
        simp
      rw [hbytes]
      exact hdst₂
    · intro _ _
      dsimp only
      omega

theorem mainLoop_meets {h : ℕ} (hr : Ready c cap) (hinv : Inv c cap (.mainLoop ip h) f) :
    Meets (MayOverflow c) (mainLoop c ip h f) (After c cap (rank c (.mainLoop ip h) f)) := by
  obtain ⟨l, he, hf, hlen, ha, hip, ht⟩ := hinv
  have hnb : 64 ≤ c.acceleration <<< skipTrigger := by
    have := hr.accelerated
    rw [skipTrigger, Nat.shiftLeft_eq]
    omega
  have hpos : 0 < ip := (Nat.zero_le _).trans_lt (ht 0)
  obtain ⟨res, hres, hfound⟩ := search_eq hr.short c.src.length ip 1
    (c.acceleration <<< skipTrigger) h f.table ht one_pos hnb (by omega) (by omega)
  rw [mainLoop, hres, ok_bind]
  cases res with
  | none => exact ⟨⟨l, he, hf, hlen⟩, Nat.succ_pos _⟩
  | some found =>
    obtain ⟨q, m, t⟩ := found
    obtain ⟨hle, hlt, hmatch, hknown⟩ := hfound q m t rfl
    obtain ⟨ip', m', hcatch, h1, h2, h3, h4, h5⟩ := catchUp_eq c.src f.anchor q m 4
      (by omega) hmatch.before (by omega) hmatch.same
    have hnear := hmatch.near
    dsimp only
    rw [hcatch, ok_bind]
    exact putLiterals_meets (f := { f with table := t }) hr he hf hlen h1
      ⟨q, h2, by omega, hknown, h4, by omega, h5⟩

/-- From the end of a match to the next label. -/
theorem testNext_meets (hr : Ready c cap) (he : Emitted c l ip) (hanchor : f.anchor = ip)
    (hf : Holds f.dst f.op (encodeAll l)) (hlen : f.dst.length = cap) (hpos : 2 ≤ ip)
    (ht : ∀ i, f.table i < ip) (hrank : 2*(c.src.length-ip)+1 < r)
    (hroom : c.outputLimited = true → c.src.length ≤ safeLength → ip+12 ≤ c.src.length →
      f.op+3 ≤ cap) :
    Meets (MayOverflow c) (testNext c ip f) (After c cap r) := by
  have hop : f.op = (encodeAll l).length := hf.1.symm
  have hratio := he.ratio
  have hsize := hr.room
  unfold testNext
  split
  · exact ⟨⟨l, hanchor.symm ▸ he, hf, hlen⟩, by rw [rank]; omega⟩
  · next hmore =>
    rw [mfLimit] at hmore
    have hip : ip+12 ≤ c.src.length := by
      have := he.le
      omega
    obtain ⟨h₂, hh₂⟩ := hashPosition_eq (c := c) (p := ip-2) (by omega)
    obtain ⟨h, hh⟩ := hashPosition_eq (c := c) (p := ip) (by omega)
    obtain ⟨h₁, hh₁⟩ := hashPosition_eq (c := c) (p := ip+1) (by omega)
    have hfill (i : ℕ) : putPositionOnHash c (ip-2) h₂ f.table i ≤ ip-1 :=
      putPositionOnHash_le (fun j => by have := ht j; omega) (by omega) i
    have hknown (i : ℕ) : putPositionOnHash c ip h (putPositionOnHash c (ip-2) h₂ f.table) i ≤ ip :=
      putPositionOnHash_le (fun j => (hfill j).trans (Nat.sub_le _ _)) (le_refl ip) i
    generalize hm : getPositionOnHash h (putPositionOnHash c (ip-2) h₂ f.table) = m
    have hbefore : m < ip := by
      have := hfill h
      rw [getPositionOnHash] at hm
      omega
    obtain ⟨b, hb, hiff⟩ := sameBytes_eq c.src m ip 4 (by omega) (by omega)
    simp only [putPosition, getPosition, hh₂, hh, ok_bind, pure_bind, hm]
    have hloop : Meets (MayOverflow c) (hashPosition c (ip+1) >>= fun v =>
        pure (.goto (.mainLoop (ip+1) v) { f with
          table := putPositionOnHash c ip h (putPositionOnHash c (ip-2) h₂ f.table) }))
        (After c cap r) := by
      rw [hh₁, ok_bind]
      refine ⟨⟨l, hanchor.symm ▸ he, hf, hlen, ?_, by omega, fun i => ?_⟩, ?_⟩
      · dsimp only
        omega
      · exact (hknown i).trans_lt (Nat.lt_succ_self ip)
      · rw [rank]
        dsimp only
        omega
    by_cases hnear : m+maxDistance ≥ ip
    · rw [if_pos hnear, hb, ok_bind]
      cases b with
      | false => exact hloop
      | true =>
        rw [if_pos rfl]
        apply Meets.bind (write_meets (b := [0]) hf fun hno => no_room (p := f.op+3 ≤ cap)
          (fun hl hs => hroom hl hs hip) (fun hl => by have := hsize hl; omega)
          (fun hfit => hno (by rw [List.length_singleton]; omega)))
        rintro dst' ⟨hdst, hlen'⟩
        refine ⟨⟨l, hanchor.symm ▸ he, hop, ?_, by rw [hlen', hlen], hanchor.le, ⟨ip, ?_⟩, ?_⟩, ?_⟩
        · have hnone : between c f.anchor ip = [] := by
            rw [between, hanchor, Nat.sub_self, List.take_zero]
          rw [hnone]
          exact hdst
        · rw [maxDistance] at hnear
          exact ⟨le_refl _, hip, hknown, hbefore, by omega,
            by rw [Nat.sub_self, Nat.zero_add]; exact hiff.mp rfl⟩
        · intro hl hs
          exact hroom hl hs hip
        · rw [rank]
          dsimp only
          omega
    · rw [if_neg hnear]
      exact hloop

theorem nextMatch_meets {token : ℕ} (hr : Ready c cap)
    (hinv : Inv c cap (.nextMatch ip m token) f) :
    Meets (MayOverflow c) (nextMatch c ip m token f)
      (After c cap (rank c (.nextMatch ip m token) f)) := by
  obtain ⟨l, he, rfl, hf, hlen, ha, ⟨q, hq⟩, hroom⟩ := hinv
  have hle := hq.le
  have hlt := hq.lt
  rw [mfLimit] at hlt
  have hbefore := hq.compared.before
  have hop : f.op = (encodeAll l).length+(1+(ip-f.anchor+240)/255+(ip-f.anchor)) := by
    rw [← hf.1, List.length_append, opening_length, between_length ha (by omega)]
  have hratio := he.ratio
  have hsize := hr.room
  have hmax := hr.limit
  rw [nextMatch]
  apply Meets.bind (write_meets (b := leBytes 2 (ip-m)) hf fun hno => no_room (p := f.op+2 ≤ cap)
    hroom (fun hl => by have := hsize hl; omega)
    (fun hfit => hno (by rw [leBytes_length]; omega)))
  rintro dst₁ ⟨hdst₁, hlen₁⟩
  rw [leBytes_length] at hdst₁
  obtain ⟨k, hk, hlong⟩ := count_eq c.src (c.src.length-lastLiterals)
    (ip+minMatch) (m+minMatch) c.src.length (by omega) (Nat.sub_le _ _)
    (by rw [lastLiterals, minMatch]; omega) (by omega)
  have hend := hlong.le
  rw [minMatch, lastLiterals] at hend
  have hcover : q-ip ≤ k := by
    refine hlong.ge (fun j hj => ?_) (by rw [minMatch, lastLiterals]; omega)
    have := hq.compared.same (4+j) (by omega)
    rwa [← Nat.add_assoc, ← Nat.add_assoc] at this
  have hsame : Same c.src ip m (k+4) := by
    rw [Nat.add_comm]
    exact (hq.compared.same.mono (by omega)).add hlong.same
  have hnext := he.snoc (k := k) ha ⟨hbefore, hq.compared.near, hsame⟩ (by omega) (by omega)
  rw [hk, ok_bind]
  dsimp only
  split
  · next hcheck =>
    rw [Bool.and_eq_true] at hcheck
    exact ⟨by rw [hlen₁, hlen], fun _ => hcheck.1, fun h0 => absurd h0 (lt_irrefl 0), by omega,
      fun _ => Nat.zero_le _⟩
  · next hcheck =>
    have hpass : c.outputLimited = true → f.op+2+6+k/256 ≤ c.maxOutputSize := by
      intro hl
      simpa [hl, lastLiterals, Nat.shiftRight_eq_div_pow] using hcheck
    have hshape : encodeAll l++opening (between c f.anchor ip) 0++leBytes 2 (ip-m) =
        encodeAll l++Lz4Block.token (between c f.anchor ip).length 0::
          (more (between c f.anchor ip).length++between c f.anchor ip++leBytes 2 (ip-m)) := by
      rw [opening]
      simp
    rw [hshape] at hdst₁
    have hlits := between_length (c := c) ha (by omega)
    apply Meets.bind (putMatchLength_meets _ k hdst₁ fun hno =>
      no_room (p := f.op+2+(k+240)/255 ≤ cap)
      (fun hl hs => by
        have := hpass hl
        have := hmax hl
        rw [safeLength] at hs
        omega)
      (fun hl => by have := hsize hl; omega) (fun hfit => hno (by rw [hlen₁, hlen]; exact hfit)))
    rintro ⟨dst₂, op₂⟩ ⟨hdst₂, hlen₂⟩
    have hbytes : encodeAll l++Lz4Block.token (between c f.anchor ip).length k::
        (more (between c f.anchor ip).length++between c f.anchor ip++leBytes 2 (ip-m)++more k) =
        encodeAll (l++[⟨between c f.anchor ip, ip-m, k+4⟩]) := by
      rw [encodeAll_snoc, Sequence.encode, opening, Nat.add_sub_cancel]
      simp
    have hop₂ : op₂ = f.op+2+(k+240)/255 := by
      have hlen₃ := hdst₂.1
      simp only [List.length_append, List.length_cons, more_length, leBytes_length, hlits] at hlen₃
      omega
    rw [hbytes] at hdst₂
    rw [show ip+minMatch+k = ip+(k+4) by rw [minMatch]; omega]
    apply testNext_meets hr hnext rfl hdst₂ (by rw [hlen₂, hlen₁, hlen]) (by omega)
    · intro i
      have := hq.known i
      dsimp only
      omega
    · rw [rank]
      omega
    · intro hl hs hin
      have := hpass hl
      have := hmax hl
      rw [safeLength] at hs
      dsimp only
      omega

theorem lastLiterals_meets (hr : Ready c cap) (hinv : Inv c cap .lastLiterals f) (r : ℕ) :
    Meets (MayOverflow c) (lastLiteralsStep c f) (After c cap r) := by
  obtain ⟨l, he, hf, hlen⟩ := hinv
  have hop : f.op = (encodeAll l).length := hf.1.symm
  have hratio := he.ratio
  have hle := he.le
  have hsize := hr.room
  have hmax := hr.limit
  unfold lastLiteralsStep
  dsimp only
  split
  · next hcheck =>
    rw [Bool.and_eq_true] at hcheck
    exact ⟨hlen, fun _ => hcheck.1, fun h0 => absurd h0 (lt_irrefl 0), by omega, fun _ => by omega⟩
  · next hcheck =>
    have hpass : c.outputLimited = true →
        f.op+(c.src.length-f.anchor)+1+(c.src.length-f.anchor+240)/255 ≤ c.maxOutputSize := by
      intro hl
      simpa [hl, runMask] using hcheck
    have hfit : f.op+1+(c.src.length-f.anchor+240)/255+(c.src.length-f.anchor) ≤ cap := by
      cases hl : c.outputLimited with
      | false =>
        have := hsize hl
        omega
      | true =>
        have := hpass hl
        have := hmax hl
        omega
    have hrest : ((c.src.drop f.anchor).take (c.src.length-f.anchor)) = c.src.drop f.anchor := by
      rw [← List.length_drop, List.take_length]
    apply Meets.bind (putLiteralLength_meets (c.src.length-f.anchor) hf (fun hno => by omega))
    rintro ⟨dst₁, op₁⟩ ⟨hdst₁, hlen₁⟩
    have hop₁ : op₁ = f.op+1+(c.src.length-f.anchor+240)/255 := by
      have := hdst₁.1
      rw [List.length_append, List.length_cons, more_length] at this
      omega
    rw [load_eq (by omega), ok_bind, hrest]
    dsimp only at hlen₁ hdst₁ ⊢
    apply Meets.bind (write_meets (b := c.src.drop f.anchor) hdst₁ fun hno => absurd (by
      rw [List.length_drop]
      omega) hno)
    rintro dst₂ ⟨hdst₂, hlen₂⟩
    refine ⟨by rw [hlen₂, hlen₁, hlen], fun h0 => by omega, fun _ => ?_, by omega, fun hl => ?_⟩
    · refine ⟨⟨l, c.src.drop f.anchor⟩, ?_, ⟨he.fits, ?_⟩, ?_⟩
      · have hbytes : Block.encode ⟨l, c.src.drop f.anchor⟩ =
            encodeAll l++Lz4Block.token (c.src.length-f.anchor) 0::more (c.src.length-f.anchor)++
              c.src.drop f.anchor := by
          rw [Block.encode, opening, List.length_drop]
          simp
        rw [hbytes]
        rwa [List.length_drop] at hdst₂
      · rw [Block.meaning, he.meaning, List.take_append_drop]
        exact he.ends
      · rw [Block.meaning, he.meaning, List.take_append_drop]
    · have := hpass hl
      omega

/-- One step between labels keeps the invariant and comes nearer to the end. -/
theorem step_meets (hr : Ready c cap) (lab : Label) (hinv : Inv c cap lab f) :
    Meets (MayOverflow c) (step c lab f) (After c cap (rank c lab f)) := by
  cases lab with
  | mainLoop ip h => exact mainLoop_meets hr hinv
  | nextMatch ip m token => exact nextMatch_meets hr hinv
  | lastLiterals => exact lastLiterals_meets hr hinv _

end Step

section Run

variable {c : Params} {cap : ℕ}

theorem loop_meets (hr : Ready c cap) (k : ℕ) (lab : Label) (f : Frame) (hinv : Inv c cap lab f)
    (hk : rank c lab f < k) :
    Meets (MayOverflow c) (loop c k lab f) (fun r => Done c cap r.1 r.2) := by
  induction k generalizing lab f with
  | zero => omega
  | succ k ih =>
    rw [loop]
    apply Meets.bind (step_meets hr lab hinv)
    intro next hnext
    cases next with
    | goto lab' f' => exact ih lab' f' hnext.1 (by have := hnext.2; omega)
    | ret rc dst => exact hnext

theorem compressGeneric_meets (hr : Ready c cap) (dst : List UInt8) (hlen : dst.length = cap)
    (hsize : c.src.length ≤ maxInputSize) :
    Meets (MayOverflow c) (compressGeneric c dst) (fun r => Done c cap r.1 r.2) := by
  have hshort : ¬ (c.byU16 && decide (c.src.length ≥ limit64K)) = true := by
    rw [Bool.and_eq_true, decide_eq_true_eq]
    rintro ⟨h1, h2⟩
    have := hr.short h1
    omega
  rw [compressGeneric]
  dsimp only
  rw [if_neg (by omega), if_neg hshort]
  split
  · exact loop_meets hr 1 .lastLiterals _ ⟨[], emitted_nil c, holds_zero dst, hlen⟩ one_pos
  · next hmin =>
    rw [minLength, mfLimit] at hmin
    obtain ⟨h₀, hh₀⟩ := hashPosition_eq (c := c) (p := 0) (by omega)
    obtain ⟨h₁, hh₁⟩ := hashPosition_eq (c := c) (p := 1) (by omega)
    simp only [putPosition, hh₀, hh₁, ok_bind, pure_bind]
    refine loop_meets hr _ _ _ ⟨[], emitted_nil c, holds_zero dst, hlen, Nat.zero_le _, by omega,
      fun i => ?_⟩ (by rw [rank]; omega)
    exact Nat.lt_succ_of_le (putPositionOnHash_le (fun _ => le_refl 0) (le_refl 0) i)

end Run

end VeTls.Lz4
