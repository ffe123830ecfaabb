import VeTls.Lib.Doubling
import VeTls.Producer

/-!
# Buffers that grow

The growing buffers of the encoder, of the log builder and of the signer. A
reserve returns the buffer as it is, or enlarges its block by doubling. Two
of the reserves compare a sum with the capacity before they test that it has
not wrapped around.
-/

set_option autoImplicit false

namespace VeTls.Growth

open VeTls.Wire (Bytes wrap)
open VeTls.Doubling

def sizeMax : ℕ := 2^64-1

structure Buf where
  data : Bytes
  len : ℕ
  cap : ℕ
  deriving DecidableEq, Repr

/-- The block has `cap` bytes, of which `len` are in use. -/
structure Buf.Valid (b : Buf) : Prop where
  size : b.data.length = b.cap
  fits : b.len ≤ b.cap
  small : b.cap ≤ sizeMax

/-- What a call has returned and left behind, or that its loop still runs. -/
inductive Outcome (β : Type) where
  | running
  | ret (rc : ℤ) (b : β)
  deriving DecidableEq, Repr

/-- The doubling loop and the `realloc` after it. -/
def enlarge (mem : Realloc UInt8) (rounds init target : ℕ) (b : Buf) : Outcome Buf :=
  match grow sizeMax rounds target (if b.cap = 0 then init else b.cap) with
  | none => .running
  | some next =>
    match mem.call b.data next with
    | none => .ret (-1) b
    | some p => .ret 0 { b with data := p, cap := next }

/-- Room for `n` bytes behind those in use. -/
def reserveMore (init : ℕ) (mem : Realloc UInt8) (rounds : ℕ) (b : Buf) (n : ℕ) : Outcome Buf :=
  if wrap (b.len+n) ≤ b.cap then .ret 0 b
  else if b.len > sizeMax-n then .ret (-1) b
  else enlarge mem rounds init (wrap (b.len+n)) b

/-- Room for `need` bytes in all. -/
def reserveTotal (init : ℕ) (mem : Realloc UInt8) (rounds : ℕ) (b : Buf) (need : ℕ) :
    Outcome Buf :=
  if need ≤ b.cap then .ret 0 b else enlarge mem rounds init need b

def protoBufReserve (mem : Realloc UInt8) (rounds : ℕ) (b : Buf) (n : ℕ) : Outcome Buf :=
  reserveMore 128 mem rounds b n

def wireReserve (mem : Realloc UInt8) (rounds : ℕ) (b : Buf) (n : ℕ) : Outcome Buf :=
  reserveMore 128 mem rounds b n

def bytesReserve (mem : Realloc UInt8) (rounds : ℕ) (b : Buf) (need : ℕ) : Outcome Buf :=
  reserveTotal 256 mem rounds b need

def signBufReserve (mem : Realloc UInt8) (rounds : ℕ) (b : Buf) (required : ℕ) : Outcome Buf :=
  reserveTotal 256 mem rounds b required

/-- What `ve_tls_buf_append` does before it copies a string of length `n`. -/
def signBufAppendReserve (mem : Realloc UInt8) (rounds : ℕ) (b : Buf) (n : ℕ) : Outcome Buf :=
  if b.len > wrapSub (wrapSub sizeMax n) 1 then .ret (-1) b
  else reserveTotal 256 mem rounds b (wrap (wrap (b.len+n)+1))

/-- A `memcpy` behind the bytes in use. -/
def Buf.write (piece : Bytes) (b : Buf) : Buf :=
  { b with data := b.data.take b.len++piece++b.data.drop (b.len+piece.length) }

def Outcome.copy (piece : Bytes) (n : ℕ) : Outcome Buf → Outcome Buf
  | .ret 0 b => .ret 0 { b.write piece with len := wrap (b.len+n) }
  | r => r

def protoBufPut (mem : Realloc UInt8) (rounds : ℕ) (b : Buf) (piece : Bytes) : Outcome Buf :=
  (protoBufReserve mem rounds b piece.length).copy piece piece.length

def wirePutBytes (mem : Realloc UInt8) (rounds : ℕ) (b : Buf) (piece : Bytes) : Outcome Buf :=
  if piece.length = 0 then .ret 0 b
  else (wireReserve mem rounds b piece.length).copy piece piece.length

/-- The terminator is written behind the string and does not count. -/
def signBufAppend (mem : Realloc UInt8) (rounds : ℕ) (b : Buf) (s : Bytes) : Outcome Buf :=
  (signBufAppendReserve mem rounds b s.length).copy (s++[0]) s.length

/-- The loop ends. A reserve that reports success has `need` bytes in all,
and what was in the block is still there. -/
structure Reserves (f : ℕ → Outcome Buf) (b : Buf) (need : ℕ) : Prop where
  ends : ∀ rounds ≥ 64, f rounds = f 64 ∧ f rounds ≠ .running
  room : ∀ rounds b', f rounds = .ret 0 b' → need ≤ b'.cap
  kept : ∀ rounds b', f rounds = .ret 0 b' →
    b'.Valid ∧ b'.len = b.len ∧ b'.data.take b.cap = b.data

/-- The two answers of a reserve. -/
def Answers (b : Buf) (need : ℕ) (r : Outcome Buf) : Prop :=
  r = .ret (-1) b ∨ ∃ p cap, r = .ret 0 { b with data := p, cap := cap } ∧ p.length = cap ∧
    p.take b.cap = b.data ∧ need ≤ cap ∧ b.cap ≤ cap ∧ cap ≤ sizeMax

theorem Answers.stay {b : Buf} (hb : b.Valid) {need : ℕ} (h : need ≤ b.cap) :
    Answers b need (.ret 0 b) := by
  have hall : b.data.take b.cap = b.data := by rw [← hb.size, List.take_length]
  exact .inr ⟨b.data, b.cap, rfl, hb.size, hall, h, le_rfl, hb.small⟩

theorem Answers.done {b b' : Buf} (hb : b.Valid) {need : ℕ} (h : Answers b need (.ret 0 b')) :
    need ≤ b'.cap ∧ b'.Valid ∧ b'.len = b.len ∧ b'.data.take b.cap = b.data := by
  rcases h with h | ⟨p, cap, h, hsize, hkept, hneed, hcap, hsmall⟩
  · cases h
  · obtain ⟨-, rfl⟩ := Outcome.ret.inj h
    exact ⟨hneed, ⟨hsize, hb.fits.trans hcap, hsmall⟩, rfl, hkept⟩

/-- A capacity doubles at most 63 times. -/
theorem enlarge_answers (mem : Realloc UInt8) (init target : ℕ) (b : Buf) (hb : b.Valid)
    (hinit : 0 < init) (hmax : init ≤ sizeMax) (htarget : target ≤ sizeMax) :
    (∀ rounds ≥ 64, enlarge mem rounds init target b = enlarge mem 64 init target b) ∧
      ∀ rounds, enlarge mem rounds init target b = .running ∧ rounds < 64 ∨
        Answers b target (enlarge mem rounds init target b) := by
  have hfrom : ∃ next, next = (if b.cap = 0 then init else b.cap) ∧ 0 < next ∧ b.cap ≤ next ∧
      next ≤ sizeMax := by
    refine ⟨_, rfl, ?_, ?_, ?_⟩ <;> split <;> have hsmall := hb.small <;> omega
  obtain ⟨next, hnext, hpos, hle, hsmall⟩ := hfrom
  have hbound : sizeMax < next*2^64 := by
    unfold sizeMax
    omega
  obtain ⟨cap, hcap, hto, hge, hcapmax⟩ := grow_ends sizeMax 64 target next hsmall htarget hbound
  have hmore : ∀ rounds ≥ 64, grow sizeMax rounds target next = some cap := fun rounds hr =>
    grow_more sizeMax 64 rounds target next cap hr hcap
  constructor
  · intro rounds hr
    unfold enlarge
    rw [← hnext, hmore rounds hr, hcap]
  · intro rounds
    unfold enlarge
    rw [← hnext]
    cases hg : grow sizeMax rounds target next with
    | none =>
      refine .inl ⟨rfl, ?_⟩
      by_contra hr
      rw [hmore rounds (not_lt.mp hr)] at hg
      cases hg
    | some cap' =>
      obtain rfl : cap' = cap := by
        have hboth := grow_more sizeMax rounds (max rounds 64) target next cap' (by omega) hg
        rw [hmore (max rounds 64) (by omega)] at hboth
        exact (Option.some.inj hboth).symm
      right
      dsimp only
      cases hp : mem.call b.data cap' with
      | none => exact .inl rfl
      | some p =>
        have hcover : b.data.length ≤ cap' := by
          rw [hb.size]
          omega
        have hkept := mem.keeps_all b.data p cap' hp hcover
        rw [hb.size] at hkept
        exact .inr ⟨p, cap', rfl, mem.size _ _ _ hp, hkept, hto, by omega, hcapmax⟩

theorem Reserves.of_answers {f : ℕ → Outcome Buf} {b : Buf} (hb : b.Valid) {target need : ℕ}
    (hneed : need ≤ target) (hends : ∀ rounds ≥ 64, f rounds = f 64)
    (h : ∀ rounds, f rounds = .running ∧ rounds < 64 ∨ Answers b target (f rounds)) :
    Reserves f b need := by
  have hdone : ∀ rounds b', f rounds = .ret 0 b' → Answers b target (.ret 0 b') := by
    intro rounds b' hr
    rcases h rounds with ⟨hrun, -⟩ | ha
    · rw [hrun] at hr
      cases hr
    · rwa [hr] at ha
  refine ⟨fun rounds hr => ⟨hends rounds hr, fun hrun => ?_⟩, fun rounds b' hr => ?_,
    fun rounds b' hr => ((hdone rounds b' hr).done hb).2⟩
  · rcases h rounds with ⟨-, hlt⟩ | ha
    · omega
    · rw [hrun] at ha
      rcases ha with ha | ⟨_, _, ha, -⟩ <;> cases ha
  · exact hneed.trans ((hdone rounds b' hr).done hb).1

theorem reserveTotal_answers (init : ℕ) (mem : Realloc UInt8) (b : Buf) (hb : b.Valid)
    (hinit : 0 < init) (hmax : init ≤ sizeMax) (target : ℕ) (htarget : target ≤ sizeMax) :
    (∀ rounds ≥ 64, reserveTotal init mem rounds b target = reserveTotal init mem 64 b target) ∧
      ∀ rounds, reserveTotal init mem rounds b target = .running ∧ rounds < 64 ∨
        Answers b target (reserveTotal init mem rounds b target) := by
  by_cases hfast : target ≤ b.cap
  · have hr : ∀ rounds, reserveTotal init mem rounds b target = .ret 0 b := fun _ => if_pos hfast
    refine ⟨fun rounds _ => by rw [hr, hr], fun rounds => .inr ?_⟩
    rw [hr]
    exact .stay hb hfast
  · have hr : ∀ rounds, reserveTotal init mem rounds b target = enlarge mem rounds init target b :=
      fun _ => if_neg hfast
    simp only [hr]
    exact enlarge_answers mem init target b hb hinit hmax htarget

theorem reserveTotal_reserves (init : ℕ) (mem : Realloc UInt8) (b : Buf) (hb : b.Valid)
    (hinit : 0 < init) (hmax : init ≤ sizeMax) (target need : ℕ) (htarget : target ≤ sizeMax)
    (hneed : need ≤ target) :
    Reserves (fun rounds => reserveTotal init mem rounds b target) b need := by
  obtain ⟨hends, hanswers⟩ := reserveTotal_answers init mem b hb hinit hmax target htarget
  exact .of_answers hb hneed hends hanswers

theorem reserveTotal_ended (init : ℕ) (mem : Realloc UInt8) (b : Buf) (hb : b.Valid)
    (hinit : 0 < init) (hmax : init ≤ sizeMax) (target : ℕ) (htarget : target ≤ sizeMax)
    (rounds : ℕ) (hr : 64 ≤ rounds) : Answers b target (reserveTotal init mem rounds b target) := by
  obtain ⟨-, hanswers⟩ := reserveTotal_answers init mem b hb hinit hmax target htarget
  exact (hanswers rounds).resolve_left fun h => absurd h.2 (not_lt.mpr hr)

theorem reserveMore_eq (init : ℕ) (mem : Realloc UInt8) (rounds : ℕ) (b : Buf) (n : ℕ)
    (h : b.len+n ≤ sizeMax) :
    reserveMore init mem rounds b n = reserveTotal init mem rounds b (b.len+n) := by
  have hwrap : wrap (b.len+n) = b.len+n := Wire.wrap_eq _ (by unfold sizeMax at h; omega)
  have hlen : ¬b.len > sizeMax-n := by omega
  rw [reserveMore, hwrap, if_neg hlen, reserveTotal]

/-- A sum that wraps around is below the length, so the first test accepts it. -/
theorem reserveMore_wrapped (init : ℕ) (mem : Realloc UInt8) (rounds : ℕ) (b : Buf) (hb : b.Valid)
    (n : ℕ) (hn : n ≤ sizeMax) (h : ¬b.len+n ≤ sizeMax) :
    reserveMore init mem rounds b n = .ret 0 b := by
  have hfits := hb.fits
  have hsmall := hb.small
  have hwrap : wrap (b.len+n) ≤ b.cap := by
    unfold wrap
    unfold sizeMax at hn h hsmall
    omega
  exact if_pos hwrap

theorem reserveMore_iff (init : ℕ) (mem : Realloc UInt8) (b : Buf) (hb : b.Valid)
    (hinit : 0 < init) (hmax : init ≤ sizeMax) (n : ℕ) (hn : n ≤ sizeMax) :
    Reserves (fun rounds => reserveMore init mem rounds b n) b (b.len+n) ↔
      b.len+n ≤ sizeMax := by
  constructor
  · intro h
    by_contra hover
    have hroom := h.room 0 b (reserveMore_wrapped init mem 0 b hb n hn hover)
    exact hover (hroom.trans hb.small)
  · intro h
    have hsame : (fun rounds => reserveMore init mem rounds b n) =
        fun rounds => reserveTotal init mem rounds b (b.len+n) :=
      funext fun rounds => reserveMore_eq init mem rounds b n h
    rw [hsame]
    exact reserveTotal_reserves init mem b hb hinit hmax _ _ h le_rfl

theorem signBufAppendReserve_eq (mem : Realloc UInt8) (rounds : ℕ) (b : Buf) (n : ℕ)
    (hn : n < sizeMax) (h : b.len ≤ sizeMax-n-1) :
    signBufAppendReserve mem rounds b n = reserveTotal 256 mem rounds b (b.len+n+1) := by
  have hsub : wrapSub (wrapSub sizeMax n) 1 = sizeMax-n-1 := by
    unfold wrapSub
    rw [if_pos hn.le, if_pos (by omega)]
  have hwrap : wrap (wrap (b.len+n)+1) = b.len+n+1 := by
    unfold wrap
    unfold sizeMax at h hn
    omega
  rw [signBufAppendReserve, hsub, if_neg (not_lt.mpr h), hwrap]

/-- The test of `ve_tls_buf_append` wraps around only for the one length that
no string has. -/
theorem signBufAppendReserve_iff (mem : Realloc UInt8) (b : Buf) (hb : b.Valid) (n : ℕ)
    (hn : n ≤ sizeMax) :
    Reserves (fun rounds => signBufAppendReserve mem rounds b n) b (b.len+n) ↔
      n < sizeMax ∨ b.len+n ≤ b.cap := by
  have hfits := hb.fits
  have hsmall := hb.small
  by_cases hlast : n < sizeMax
  · refine iff_of_true ?_ (.inl hlast)
    by_cases hover : b.len ≤ sizeMax-n-1
    · have hsame : (fun rounds => signBufAppendReserve mem rounds b n) =
          fun rounds => reserveTotal 256 mem rounds b (b.len+n+1) :=
        funext fun rounds => signBufAppendReserve_eq mem rounds b n hlast hover
      rw [hsame]
      exact reserveTotal_reserves 256 mem b hb (by decide) (by decide) _ _ (by omega) (by omega)
    · have hr : ∀ rounds, signBufAppendReserve mem rounds b n = .ret (-1) b := by
        intro rounds
        have hsub : wrapSub (wrapSub sizeMax n) 1 = sizeMax-n-1 := by
          unfold wrapSub
          rw [if_pos hn, if_pos (by omega)]
        rw [signBufAppendReserve, hsub, if_pos (not_le.mp hover)]
      refine .of_answers hb (le_refl (b.len+n)) (fun rounds _ => ?_) fun rounds => ?_
      · rw [hr, hr]
      · rw [hr]
        exact .inr (.inl rfl)
  · obtain rfl : n = sizeMax := by omega
    have hsub : wrapSub (wrapSub sizeMax sizeMax) 1 = sizeMax := by decide
    have hwrap : wrap (wrap (b.len+sizeMax)+1) = b.len := by
      unfold wrap
      unfold sizeMax at hsmall ⊢
      omega
    have hr : ∀ rounds, signBufAppendReserve mem rounds b sizeMax = .ret 0 b := by
      intro rounds
      rw [signBufAppendReserve, hsub, if_neg (by omega), hwrap]
      exact if_pos hfits
    constructor
    · exact fun h => .inr (h.room 0 b (hr 0))
    · intro h
      have hroom := h.resolve_left hlast
      refine .of_answers hb le_rfl (fun rounds _ => by rw [hr, hr]) fun rounds => .inr ?_
      rw [hr]
      exact .stay hb hroom

/-- The two reserves that take a sum as its wrapped value are right just when
it does not wrap around; the others are right. -/
theorem reserves_iff (mem : Realloc UInt8) (b : Buf) (hb : b.Valid) (n : ℕ) (hn : n ≤ sizeMax) :
    (Reserves (fun rounds => protoBufReserve mem rounds b n) b (b.len+n) ↔ b.len+n ≤ sizeMax) ∧
    (Reserves (fun rounds => wireReserve mem rounds b n) b (b.len+n) ↔ b.len+n ≤ sizeMax) ∧
    Reserves (fun rounds => bytesReserve mem rounds b n) b n ∧
    Reserves (fun rounds => signBufReserve mem rounds b n) b n ∧
    (Reserves (fun rounds => signBufAppendReserve mem rounds b n) b (b.len+n) ↔
      n < sizeMax ∨ b.len+n ≤ b.cap) := by
  refine ⟨?_, ?_, ?_, ?_, signBufAppendReserve_iff mem b hb n hn⟩
  · exact reserveMore_iff 128 mem b hb (by decide) (by decide) n hn
  · exact reserveMore_iff 128 mem b hb (by decide) (by decide) n hn
  · exact reserveTotal_reserves 256 mem b hb (by decide) (by decide) n n hn le_rfl
  · exact reserveTotal_reserves 256 mem b hb (by decide) (by decide) n n hn le_rfl

/-- A small buffer, ten of whose sixteen bytes are in use. -/
def tenOfSixteen : Buf := ⟨List.replicate 16 7, 10, 16⟩

theorem tenOfSixteen_valid : tenOfSixteen.Valid := ⟨by decide, by decide, by decide⟩

theorem tenOfSixteen_reserves :
    Reserves (fun rounds => protoBufReserve (.always 0) rounds tenOfSixteen 300) tenOfSixteen 310 ∧
    Reserves (fun rounds => wireReserve (.always 0) rounds tenOfSixteen 300) tenOfSixteen 310 ∧
    Reserves (fun rounds => signBufAppendReserve (.always 0) rounds tenOfSixteen 300)
      tenOfSixteen 310 := by
  obtain ⟨hproto, hwire, -, -, hsign⟩ :=
    reserves_iff (.always 0) tenOfSixteen tenOfSixteen_valid 300 (by decide)
  exact ⟨hproto.mpr (by decide), hwire.mpr (by decide), hsign.mpr (.inl (by decide))⟩

/-- Room for `2^64-5` bytes is found in a buffer with sixteen. -/
theorem tenOfSixteen_wraps : ¬∀ (mem : Realloc UInt8) (b : Buf) (n : ℕ), b.Valid → n ≤ sizeMax →
    Reserves (fun rounds => protoBufReserve mem rounds b n) b (b.len+n) := by
  intro hall
  have hroom := (hall (.always 0) tenOfSixteen (2^64-5) tenOfSixteen_valid (by decide)).room 0
    tenOfSixteen (by decide)
  exact absurd hroom (by decide)

def Buf.contents (b : Buf) : Bytes := b.data.take b.len

/-- Either nothing happens, or the first `n` bytes of the piece are behind
the contents of a valid buffer. -/
def Appends (b : Buf) (piece : Bytes) (r : Outcome Buf) : Prop :=
  r = .ret (-1) b ∨ ∃ b', r = .ret 0 b' ∧ b'.Valid ∧ b'.contents = b.contents++piece

theorem Answers.copy {b : Buf} (hb : b.Valid) {need : ℕ} {r : Outcome Buf} (h : Answers b need r)
    (piece rest : Bytes) (hneed : b.len+(piece++rest).length ≤ need) :
    Appends b piece (r.copy (piece++rest) piece.length) := by
  rcases h with rfl | ⟨p, cap, rfl, hsize, hkept, hroom, hcap, hsmall⟩
  · exact .inl rfl
  · have hfits := hb.fits
    rw [List.length_append] at hneed
    have hwrap : wrap (b.len+piece.length) = b.len+piece.length :=
      Wire.wrap_eq _ (by unfold sizeMax at hsmall; omega)
    have htake : p.take b.len = b.contents := by
      rw [Buf.contents, ← hkept, List.take_take, min_eq_left hfits]
    have hlen : b.contents.length = b.len := by
      rw [Buf.contents, List.length_take, hb.size, min_eq_left hfits]
    refine .inr ⟨_, rfl, ⟨?_, ?_, hsmall⟩, ?_⟩
    · simp only [Buf.write, List.length_append, htake, hlen, List.length_drop, hsize]
      omega
    · show wrap (b.len+piece.length) ≤ cap
      rw [hwrap]
      omega
    · simp only [Buf.contents, Buf.write, hwrap]
      rw [htake, List.append_assoc, List.append_assoc, List.take_append, hlen,
        Nat.add_sub_cancel_left, List.take_left, List.take_of_length_le (by omega)]
      rfl

/-- A put that does not wrap around appends its piece or changes nothing. -/
theorem puts_append (mem : Realloc UInt8) (b : Buf) (hb : b.Valid) (piece : Bytes)
    (hn : b.len+piece.length < sizeMax) (rounds : ℕ) (hr : 64 ≤ rounds) :
    Appends b piece (protoBufPut mem rounds b piece) ∧
    Appends b piece (wirePutBytes mem rounds b piece) ∧
    Appends b piece (signBufAppend mem rounds b piece) := by
  have hmore : Appends b piece ((reserveMore 128 mem rounds b piece.length).copy piece
      piece.length) := by
    have hanswers := reserveTotal_ended 128 mem b hb (by decide) (by decide) _ hn.le rounds hr
    rw [reserveMore_eq 128 mem rounds b piece.length hn.le]
    have hcopy := hanswers.copy hb piece [] (by rw [List.append_nil])
    rwa [List.append_nil] at hcopy
  refine ⟨hmore, ?_, ?_⟩
  · unfold wirePutBytes
    split
    · rename_i hempty
      refine .inr ⟨b, rfl, hb, ?_⟩
      rw [List.length_eq_zero_iff.mp hempty, List.append_nil]
    · exact hmore
  · have hreserve : signBufAppendReserve mem rounds b piece.length =
        reserveTotal 256 mem rounds b (b.len+(piece++[0]).length) := by
      rw [signBufAppendReserve_eq mem rounds b _ (by omega) (by omega), List.length_append]
      rfl
    have hlen : b.len+(piece++[0]).length ≤ sizeMax := by
      rw [List.length_append]
      exact hn
    rw [signBufAppend, hreserve]
    exact (reserveTotal_ended 256 mem b hb (by decide) (by decide) _ hlen rounds hr).copy hb piece
      [0] le_rfl

end VeTls.Growth
