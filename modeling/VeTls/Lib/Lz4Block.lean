import VeTls.Lib.Bytes

/-!
# LZ4 blocks

A block is a list of sequences and a last run of literals. A sequence gives
literals and then repeats what was put out `offset` bytes before, byte by
byte, so that a repetition may run into its own output. `decode` reads the
bytes of a block and stops where the input stops after literals.
-/

set_option autoImplicit false

namespace VeTls.Lz4Block

open VeTls.Bytes (leBytes leValue readLe readLe_leBytes leBytes_length)

abbrev Octets := List UInt8

structure Sequence where
  literals : Octets
  offset : ℕ
  length : ℕ
  deriving DecidableEq, Repr

structure Block where
  sequences : List Sequence
  last : Octets
  deriving DecidableEq, Repr

/-- The bytes of a length that do not fit into its half of the token. -/
def more (n : ℕ) : Octets :=
  if n < 15 then [] else List.replicate ((n-15)/255) 255++[UInt8.ofNat ((n-15) % 255)]

def token (l m : ℕ) : UInt8 := UInt8.ofNat (16*min l 15+min m 15)

/-- A sequence in front of its offset. -/
def opening (literals : Octets) (m : ℕ) : Octets :=
  token literals.length m::(more literals.length++literals)

def Sequence.encode (s : Sequence) : Octets :=
  opening s.literals (s.length-4)++(leBytes 2 s.offset++more (s.length-4))

def encodeAll (l : List Sequence) : Octets := l.flatMap Sequence.encode

def Block.encode (b : Block) : Octets := encodeAll b.sequences++opening b.last 0

def repeatFrom (offset : ℕ) : ℕ → Octets → Octets
  | 0, out => out
  | n+1, out => repeatFrom offset n (out++[out.getD (out.length-offset) 0])

def Sequence.apply (out : Octets) (s : Sequence) : Octets :=
  repeatFrom s.offset s.length (out++s.literals)

def expand (l : List Sequence) : Octets := l.foldl Sequence.apply []

def Block.meaning (b : Block) : Octets := expand b.sequences++b.last

/-- The repetition lies in what was put out before. -/
def Sequence.Fits (out : Octets) (s : Sequence) : Prop :=
  0 < s.offset ∧ s.offset ≤ out.length+s.literals.length ∧ s.offset < 2^16 ∧ 4 ≤ s.length

def FitsFrom : Octets → List Sequence → Prop
  | _, [] => True
  | out, s::l => s.Fits out ∧ FitsFrom (s.apply out) l

/-- Every repetition starts twelve bytes and ends five bytes before `total`. -/
def EndsFrom (total : ℕ) : Octets → List Sequence → Prop
  | _, [] => True
  | out, s::l => (out.length+s.literals.length+12 ≤ total ∧ (s.apply out).length+5 ≤ total) ∧
      EndsFrom total (s.apply out) l

structure Block.Valid (b : Block) : Prop where
  fits : FitsFrom [] b.sequences
  ends : EndsFrom b.meaning.length [] b.sequences

def readMore (n : ℕ) : Octets → Option (ℕ × Octets)
  | [] => none
  | c::l => if c = 255 then readMore (n+255) l else some (n+c.toNat, l)

def readLength (n : ℕ) (l : Octets) : Option (ℕ × Octets) :=
  if n = 15 then readMore 15 l else some (n, l)

def decodeGo : ℕ → Octets → Octets → Option Octets
  | 0, _, _ => none
  | _+1, _, [] => none
  | k+1, out, c::l => do
    let (lits, l) ← readLength (c.toNat/16) l
    if l.length < lits then none
    else if l.length = lits then some (out++l)
    else
      let (offset, rest) ← readLe 2 (l.drop lits)
      let out := out++l.take lits
      let (m, rest) ← readLength (c.toNat % 16) rest
      if offset = 0 ∨ out.length < offset then none
      else decodeGo k (repeatFrom offset (m+4) out) rest

/-- A decoder for the format, on its own. -/
def decode (b : Octets) : Option Octets := decodeGo b.length [] b

section Repeat

@[simp] theorem repeatFrom_length (offset n : ℕ) (out : Octets) :
    (repeatFrom offset n out).length = out.length+n := by
  induction n generalizing out with
  | zero => rfl
  | succ n ih =>
    rw [repeatFrom, ih, List.length_append, List.length_singleton]
    omega

/-- A repetition that was compared with the text continues the text. -/
theorem repeatFrom_take (text : Octets) (offset n p : ℕ) (h0 : 0 < offset) (hoff : offset ≤ p)
    (hp : p+n ≤ text.length) (h : ∀ k < n, text[p+k]? = text[p-offset+k]?) :
    repeatFrom offset n (text.take p) = text.take (p+n) := by
  induction n generalizing p with
  | zero => rfl
  | succ n ih =>
    have hlen : (text.take p).length = p := by
      rw [List.length_take]
      omega
    have hfirst : text[p]? = text[p-offset]? := by simpa using h 0 (by omega)
    have hnext : text.take p++[(text.take p).getD (p-offset) 0] = text.take (p+1) := by
      rw [List.take_add_one, hfirst, List.getD_eq_getElem?_getD,
        List.getElem?_take_of_lt (by omega), List.getElem?_eq_getElem (by omega)]
      rfl
    rw [repeatFrom, hlen, hnext, ih (p+1) (by omega) (by omega)]
    · rw [Nat.add_assoc, Nat.add_comm 1]
    · intro k hk
      have hstep := h (k+1) (by omega)
      rw [show p+1+k = p+(k+1) by omega, show p+1-offset+k = p-offset+(k+1) by omega]
      exact hstep

end Repeat

section Snoc

theorem encodeAll_snoc (l : List Sequence) (s : Sequence) :
    encodeAll (l++[s]) = encodeAll l++s.encode := by
  simp [encodeAll]

theorem expand_snoc (l : List Sequence) (s : Sequence) : expand (l++[s]) = s.apply (expand l) := by
  simp [expand]

theorem fitsFrom_append (out : Octets) (l l' : List Sequence) :
    FitsFrom out (l++l') ↔ FitsFrom out l ∧ FitsFrom (l.foldl Sequence.apply out) l' := by
  induction l generalizing out with
  | nil => simp [FitsFrom]
  | cons s l ih => simp [FitsFrom, ih, and_assoc]

theorem endsFrom_append (total : ℕ) (out : Octets) (l l' : List Sequence) :
    EndsFrom total out (l++l') ↔
      EndsFrom total out l ∧ EndsFrom total (l.foldl Sequence.apply out) l' := by
  induction l generalizing out with
  | nil => simp [EndsFrom]
  | cons s l ih => simp [EndsFrom, ih, and_assoc]

end Snoc

section Decode

theorem token_toNat (l m : ℕ) : (token l m).toNat = 16*min l 15+min m 15 := by
  rw [token, UInt8.toNat_ofNat']
  omega

theorem readMore_replicate (n k : ℕ) (c : UInt8) (rest : Octets) (h : c ≠ 255) :
    readMore n (List.replicate k 255++c::rest) = some (n+255*k+c.toNat, rest) := by
  induction k generalizing n with
  | zero => simp [readMore, h]
  | succ k ih =>
    rw [List.replicate_succ, List.cons_append, readMore, if_pos rfl, ih]
    congr 2
    omega

theorem readLength_more (n : ℕ) (rest : Octets) :
    readLength (min n 15) (more n++rest) = some (n, rest) := by
  unfold readLength more
  by_cases h : n < 15
  · rw [if_neg (by omega), if_pos h, List.nil_append]
    congr 2
    omega
  · have hc : UInt8.ofNat ((n-15) % 255) ≠ 255 := by
      intro he
      have := congrArg UInt8.toNat he
      rw [UInt8.toNat_ofNat'] at this
      have : (255 : UInt8).toNat = 255 := rfl
      omega
    rw [if_pos (by omega), if_neg h, List.append_assoc, List.singleton_append,
      readMore_replicate _ _ _ _ hc, UInt8.toNat_ofNat']
    congr 2
    omega

/-- The token and the literals are read back. -/
theorem opening_read (lits : Octets) (m : ℕ) (rest : Octets) :
    readLength ((token lits.length m).toNat/16) (more lits.length++lits++rest) =
      some (lits.length, lits++rest) := by
  have h : (token lits.length m).toNat/16 = min lits.length 15 := by
    rw [token_toNat]
    omega
  rw [h, List.append_assoc, readLength_more]

theorem decodeGo_last (k : ℕ) (out lits : Octets) :
    decodeGo (k+1) out (opening lits 0) = some (out++lits) := by
  have hread := opening_read lits 0 []
  rw [List.append_nil, List.append_nil] at hread
  simp [opening, decodeGo, hread]

theorem decodeGo_sequence (k : ℕ) (out rest : Octets) (s : Sequence) (hs : s.Fits out) :
    decodeGo (k+1) out (s.encode++rest) = decodeGo k (s.apply out) rest := by
  obtain ⟨h0, hoff, h16, hlen⟩ := hs
  have htail := opening_read s.literals (s.length-4) (leBytes 2 s.offset++(more (s.length-4)++rest))
  have hm : (token s.literals.length (s.length-4)).toNat % 16 = min (s.length-4) 15 := by
    rw [token_toNat]
    omega
  have hoffset := readLe_leBytes 2 s.offset (more (s.length-4)++rest) (by omega)
  have hdrop : (s.literals++(leBytes 2 s.offset++(more (s.length-4)++rest))).drop
      s.literals.length = leBytes 2 s.offset++(more (s.length-4)++rest) := List.drop_left
  have htake : (s.literals++(leBytes 2 s.offset++(more (s.length-4)++rest))).take
      s.literals.length = s.literals := List.take_left
  rw [Sequence.encode, opening, List.append_assoc, List.cons_append, decodeGo,
    List.append_assoc (leBytes 2 s.offset), htail, Option.bind_eq_bind, Option.bind_some]
  dsimp only
  rw [if_neg (by simp), if_neg (by simp), hdrop, htake, hoffset, Option.bind_some]
  dsimp only
  rw [hm, readLength_more, Option.bind_some]
  dsimp only
  rw [if_neg (by rw [List.length_append]; omega), Nat.sub_add_cancel hlen, Sequence.apply]

/-- A sequence has a token and an offset. -/
theorem encodeAll_length_ge (l : List Sequence) : l.length ≤ (encodeAll l).length := by
  induction l with
  | nil => rfl
  | cons s l ih =>
    have h : 0 < s.encode.length := by simp [Sequence.encode, opening]
    rw [encodeAll, List.flatMap_cons, List.length_append, List.length_cons]
    rw [encodeAll] at ih
    omega

theorem decodeGo_encodeAll (l : List Sequence) (k : ℕ) (out rest : Octets) (h : FitsFrom out l)
    (hk : l.length ≤ k) :
    decodeGo k out (encodeAll l++rest) =
      decodeGo (k-l.length) (l.foldl Sequence.apply out) rest := by
  induction l generalizing k out with
  | nil => rfl
  | cons s l ih =>
    obtain ⟨k, rfl⟩ : ∃ j, k = j+1 := ⟨k-1, by rw [List.length_cons] at hk; omega⟩
    have hl : l.length ≤ k := by
      rw [List.length_cons] at hk
      omega
    have hrest : encodeAll (s::l)++rest = s.encode++(encodeAll l++rest) := by
      simp [encodeAll]
    rw [hrest, decodeGo_sequence k out _ s h.1, ih k (s.apply out) h.2 hl, List.length_cons,
      Nat.add_sub_add_right, List.foldl_cons]

/-- What a valid block says is what the decoder makes of its bytes. -/
theorem decode_block (b : Block) (h : FitsFrom [] b.sequences) :
    decode b.encode = some b.meaning := by
  have hseq := encodeAll_length_ge b.sequences
  have hlen : b.encode.length = (encodeAll b.sequences).length+(opening b.last 0).length := by
    rw [Block.encode, List.length_append]
  have hlast : 0 < (opening b.last 0).length := by simp [opening]
  obtain ⟨j, hj⟩ : ∃ j, b.encode.length-b.sequences.length = j+1 :=
    ⟨b.encode.length-b.sequences.length-1, by omega⟩
  have hgo := decodeGo_encodeAll b.sequences b.encode.length [] (opening b.last 0) h (by omega)
  rw [← Block.encode, hj, decodeGo_last] at hgo
  exact hgo

end Decode

section Size

theorem more_length (n : ℕ) : (more n).length = (n+240)/255 := by
  unfold more
  split
  · rw [List.length_nil]
    omega
  · rw [List.length_append, List.length_replicate, List.length_singleton]
    omega

theorem opening_length (lits : Octets) (m : ℕ) :
    (opening lits m).length = 1+(lits.length+240)/255+lits.length := by
  rw [opening, List.length_cons, List.length_append, more_length]
  omega

theorem encode_length (s : Sequence) : s.encode.length =
    3+(s.literals.length+240)/255+s.literals.length+(s.length-4+240)/255 := by
  rw [Sequence.encode, List.length_append, opening_length, List.length_append, leBytes_length,
    more_length]
  omega

/-- A sequence takes at most one byte in 255 more than what it stands for. -/
theorem encode_ratio (s : Sequence) (h : 4 ≤ s.length) :
    255*s.encode.length ≤ 256*(s.literals.length+s.length) := by
  rw [encode_length]
  omega

end Size

end VeTls.Lz4Block
