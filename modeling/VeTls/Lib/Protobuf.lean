import VeTls.Lib.Bytes

/-!
# The protobuf wire format

A message is a sequence of fields, each with a number and a value of one of
the four wire types in use. `decodeMessage` reads all of its input or fails;
it fails on a cut-off field, a length beyond the input, a varint of more than
ten bytes, a field number of zero and the wire types that are not in use.
-/

set_option autoImplicit false

namespace VeTls.Protobuf

open VeTls.Bytes (leBytes leValue readLe readLe_leBytes)

abbrev Octets := List UInt8

def varintGo : ℕ → ℕ → Octets
  | 0, v => [UInt8.ofNat v]
  | k+1, v => if v < 0x80 then [UInt8.ofNat v]
      else UInt8.ofNat (v % 128+0x80)::varintGo k (v/128)

/-- Seven bits a byte, low bits first; ten bytes hold 64 bits. -/
def varint (v : ℕ) : Octets := varintGo 9 v

def readVarintGo : ℕ → Octets → Option (ℕ × Octets)
  | 0, _ => none
  | _+1, [] => none
  | k+1, c::rest =>
    if c.toNat < 0x80 then some (c.toNat, rest)
    else (readVarintGo k rest).map fun r => (c.toNat-0x80+128*r.1, r.2)

def readVarint (b : Octets) : Option (ℕ × Octets) :=
  (readVarintGo 10 b).map fun r => (r.1 % 2^64, r.2)

inductive Value where
  | varint (n : ℕ)
  | fixed64 (n : ℕ)
  | bytes (b : Octets)
  | fixed32 (n : ℕ)
  deriving DecidableEq, Repr

structure Field where
  number : ℕ
  value : Value
  deriving DecidableEq, Repr

def Value.wireType : Value → ℕ
  | .varint _ => 0
  | .fixed64 _ => 1
  | .bytes _ => 2
  | .fixed32 _ => 5

def Value.encode : Value → Octets
  | .varint n => Protobuf.varint n
  | .fixed64 n => leBytes 8 n
  | .bytes b => Protobuf.varint b.length++b
  | .fixed32 n => leBytes 4 n

def Field.encode (f : Field) : Octets := varint (f.number*8+f.value.wireType)++f.value.encode

def encodeFields (fs : List Field) : Octets := fs.flatMap Field.encode

def readBytes (n : ℕ) (b : Octets) : Option (Octets × Octets) :=
  if b.length < n then none else some (b.take n, b.drop n)

def readValue (wireType : ℕ) (b : Octets) : Option (Value × Octets) :=
  match wireType with
  | 0 => (readVarint b).map fun r => (.varint r.1, r.2)
  | 1 => (readLe 8 b).map fun r => (.fixed64 r.1, r.2)
  | 2 => (readVarint b).bind fun r => (readBytes r.1 r.2).map fun x => (.bytes x.1, x.2)
  | 5 => (readLe 4 b).map fun r => (.fixed32 r.1, r.2)
  | _ => none

def readField (b : Octets) : Option (Field × Octets) :=
  (readVarint b).bind fun r =>
    if r.1/8 = 0 then none
    else (readValue (r.1 % 8) r.2).map fun x => (⟨r.1/8, x.1⟩, x.2)

def decodeGo : ℕ → Octets → Option (List Field)
  | _, [] => some []
  | 0, _::_ => none
  | k+1, b => (readField b).bind fun r => (decodeGo k r.2).map fun fs => r.1::fs

/-- A field takes at least one byte, so the length bounds their number. -/
def decodeMessage (b : Octets) : Option (List Field) := decodeGo b.length b

/-- The value can be written. -/
def Value.Fits : Value → Prop
  | .varint n => n < 2^64
  | .fixed64 n => n < 2^64
  | .bytes b => b.length < 2^64
  | .fixed32 n => n < 2^32

structure Field.Fits (f : Field) : Prop where
  pos : 0 < f.number
  number : f.number < 2^29
  value : f.value.Fits

theorem varintGo_ne_nil (k v : ℕ) : varintGo k v ≠ [] := by
  cases k with
  | zero => exact List.cons_ne_nil _ _
  | succ k =>
    rw [varintGo]
    split <;> exact List.cons_ne_nil _ _

theorem readVarintGo_varintGo (k v : ℕ) (rest : Octets) (h : v < 2^(7*(k+1))) :
    readVarintGo (k+1) (varintGo k v++rest) = some (v, rest) := by
  have hsmall : ∀ n v : ℕ, v < 128 →
      readVarintGo (n+1) ([UInt8.ofNat v]++rest) = some (v, rest) := by
    intro n v hv
    have hc : (UInt8.ofNat v).toNat = v := by
      rw [UInt8.toNat_ofNat']
      omega
    rw [List.singleton_append, readVarintGo, hc, if_pos hv]
  induction k generalizing v with
  | zero => exact hsmall 0 v (by simpa using h)
  | succ k ih =>
    rw [varintGo]
    split
    · rename_i hv
      exact hsmall (k+1) v hv
    · have hd : v/128 < 2^(7*(k+1)) := by
        rw [Nat.div_lt_iff_lt_mul (by decide)]
        calc v < 2^(7*(k+1+1)) := h
          _ = 2^(7*(k+1))*128 := by rw [show 7*(k+1+1) = 7*(k+1)+7 by ring, pow_add]; norm_num
      have hc : (UInt8.ofNat (v % 128+0x80)).toNat = v % 128+0x80 := by
        rw [UInt8.toNat_ofNat']
        omega
      rw [List.cons_append, readVarintGo, hc, if_neg (by omega), ih (v/128) hd]
      simp only [Option.map_some, Option.some.injEq, Prod.mk.injEq, and_true]
      omega

theorem readVarint_varint (v : ℕ) (rest : Octets) (h : v < 2^64) :
    readVarint (varint v++rest) = some (v, rest) := by
  have hv : v < 2^(7*(9+1)) := lt_trans h (by norm_num)
  rw [readVarint, varint, readVarintGo_varintGo 9 v rest hv]
  rw [Option.map_some, Nat.mod_eq_of_lt h]

theorem readBytes_append (b rest : Octets) : readBytes b.length (b++rest) = some (b, rest) := by
  rw [readBytes, if_neg (by rw [List.length_append]; omega), List.take_left, List.drop_left]

theorem readValue_encode (v : Value) (rest : Octets) (h : v.Fits) :
    readValue v.wireType (v.encode++rest) = some (v, rest) := by
  cases v with
  | varint n =>
    simp only [Value.wireType, Value.encode, readValue]
    rw [readVarint_varint n rest h]
    rfl
  | fixed64 n =>
    simp only [Value.wireType, Value.encode, readValue]
    rw [readLe_leBytes 8 n rest h]
    rfl
  | bytes b =>
    simp only [Value.wireType, Value.encode, readValue]
    rw [List.append_assoc, readVarint_varint b.length _ h, Option.bind_some, readBytes_append]
    rfl
  | fixed32 n =>
    simp only [Value.wireType, Value.encode, readValue]
    rw [readLe_leBytes 4 n rest h]
    rfl

theorem wireType_lt (v : Value) : v.wireType < 8 := by
  cases v <;> simp [Value.wireType]

theorem readField_encode (f : Field) (rest : Octets) (h : f.Fits) :
    readField (f.encode++rest) = some (f, rest) := by
  have hw := wireType_lt f.value
  have hpos := h.pos
  have hnum := h.number
  rw [Field.encode, List.append_assoc, readField, readVarint_varint _ _ (by omega),
    Option.bind_some]
  dsimp only
  rw [if_neg (by omega), show (f.number*8+f.value.wireType) % 8 = f.value.wireType by omega,
    show (f.number*8+f.value.wireType)/8 = f.number by omega, readValue_encode f.value rest h.value]
  rfl

theorem encode_ne_nil (f : Field) : f.encode ≠ [] := by
  intro h
  exact varintGo_ne_nil 9 _ (List.append_eq_nil_iff.mp h).1

theorem decodeGo_encode (fs : List Field) (k : ℕ) (hk : (encodeFields fs).length ≤ k)
    (h : ∀ f ∈ fs, f.Fits) : decodeGo k (encodeFields fs) = some fs := by
  induction fs generalizing k with
  | nil => cases k <;> rfl
  | cons f fs ih =>
    have hpos := List.length_pos_iff.mpr (encode_ne_nil f)
    have he : encodeFields (f::fs) = f.encode++encodeFields fs := rfl
    rw [he, List.length_append] at hk
    obtain ⟨k, rfl⟩ : ∃ n, k = n+1 := ⟨k-1, by omega⟩
    have hread := readField_encode f (encodeFields fs) (h f List.mem_cons_self)
    have hrest := ih k (by omega) fun x hx => h x (List.mem_cons_of_mem f hx)
    rw [he]
    cases hc : f.encode++encodeFields fs with
    | nil => exact absurd (List.append_eq_nil_iff.mp hc).1 (encode_ne_nil f)
    | cons c l =>
      rw [hc] at hread
      rw [decodeGo, hread, Option.bind_some, hrest]
      · rfl
      · exact nofun

/-- What was written field by field is read back, with nothing left over. -/
theorem decodeMessage_encode (fs : List Field) (h : ∀ f ∈ fs, f.Fits) :
    decodeMessage (encodeFields fs) = some fs := decodeGo_encode fs _ le_rfl h

/-- The value as bytes, if the field has the number. -/
def Field.asBytes (number : ℕ) (f : Field) : Option Octets :=
  match f.value with
  | .bytes b => if f.number = number then some b else none
  | _ => none

def Field.asVarint (number : ℕ) (f : Field) : Option ℕ :=
  match f.value with
  | .varint n => if f.number = number then some n else none
  | _ => none

def Field.asFixed32 (number : ℕ) (f : Field) : Option ℕ :=
  match f.value with
  | .fixed32 n => if f.number = number then some n else none
  | _ => none

/-- The values of a repeated field, in order. -/
def repeatedBytes (number : ℕ) (fs : List Field) : List Octets := fs.filterMap (Field.asBytes number)

def repeatedVarint (number : ℕ) (fs : List Field) : List ℕ := fs.filterMap (Field.asVarint number)

def repeatedFixed32 (number : ℕ) (fs : List Field) : List ℕ := fs.filterMap (Field.asFixed32 number)

/-- Of a field that is not repeated the last value counts. -/
def lastBytes (number : ℕ) (fs : List Field) : Option Octets := (repeatedBytes number fs).getLast?

def lastVarint (number : ℕ) (fs : List Field) : Option ℕ := (repeatedVarint number fs).getLast?

def lastFixed32 (number : ℕ) (fs : List Field) : Option ℕ := (repeatedFixed32 number fs).getLast?

/-- A varint as a signed number of 64 bits. -/
def toInt64 (n : ℕ) : ℤ := if n < 2^63 then n else n-2^64

@[simp] theorem asBytes_bytes (number other : ℕ) (b : Octets) :
    Field.asBytes number ⟨other, .bytes b⟩ = if other = number then some b else none := rfl

theorem repeatedBytes_append (number : ℕ) (fs gs : List Field) :
    repeatedBytes number (fs++gs) = repeatedBytes number fs++repeatedBytes number gs :=
  List.filterMap_append

theorem repeatedBytes_cons (number : ℕ) (f : Field) (fs : List Field) :
    repeatedBytes number (f::fs) = (f.asBytes number).toList++repeatedBytes number fs := by
  rw [repeatedBytes, List.filterMap_cons, repeatedBytes]
  cases f.asBytes number <;> rfl

/-- A list of byte fields with one number. -/
theorem repeatedBytes_map {α : Type*} (number other : ℕ) (g : α → Octets) (l : List α) :
    repeatedBytes number (l.map fun x => ⟨other, .bytes (g x)⟩) =
      if other = number then l.map g else [] := by
  induction l with
  | nil => split <;> rfl
  | cons x l ih =>
    rw [List.map_cons, repeatedBytes_cons, ih, asBytes_bytes]
    split <;> simp

theorem repeatedVarint_append (number : ℕ) (fs gs : List Field) :
    repeatedVarint number (fs++gs) = repeatedVarint number fs++repeatedVarint number gs :=
  List.filterMap_append

theorem repeatedVarint_map {α : Type*} (number other : ℕ) (g : α → Octets) (l : List α) :
    repeatedVarint number (l.map fun x => ⟨other, .bytes (g x)⟩) = [] := by
  simp [repeatedVarint, Field.asVarint]

theorem repeatedFixed32_append (number : ℕ) (fs gs : List Field) :
    repeatedFixed32 number (fs++gs) = repeatedFixed32 number fs++repeatedFixed32 number gs :=
  List.filterMap_append

theorem repeatedFixed32_map {α : Type*} (number other : ℕ) (g : α → Octets) (l : List α) :
    repeatedFixed32 number (l.map fun x => ⟨other, .bytes (g x)⟩) = [] := by
  simp [repeatedFixed32, Field.asFixed32]

theorem field_fits (number : ℕ) (v : Value) (hpos : 0 < number) (hlt : number < 2^29)
    (hv : v.Fits) : Field.Fits ⟨number, v⟩ := ⟨hpos, hlt, hv⟩

theorem length_le_encode (f : Field) (b : Octets) (h : f.value = .bytes b) :
    b.length ≤ f.encode.length := by
  rw [Field.encode, h, Value.encode, List.length_append, List.length_append]
  omega

theorem encode_length_le (fs : List Field) (f : Field) (hf : f ∈ fs) :
    f.encode.length ≤ (encodeFields fs).length := by
  rw [encodeFields, List.length_flatMap]
  exact List.le_sum_of_mem (List.mem_map_of_mem hf)

theorem bytes_length_le (fs : List Field) (number : ℕ) (b : Octets)
    (hf : (⟨number, .bytes b⟩ : Field) ∈ fs) : b.length ≤ (encodeFields fs).length :=
  (length_le_encode _ b rfl).trans (encode_length_le fs _ hf)

theorem mapM_some {α β γ : Type*} (f : α → β) (g : β → Option γ) (k : α → γ) (l : List α)
    (h : ∀ x ∈ l, g (f x) = some (k x)) : (l.map f).mapM g = some (l.map k) := by
  induction l with
  | nil => rfl
  | cons x l ih =>
    rw [List.map_cons, List.mapM_cons, h x List.mem_cons_self,
      ih fun y hy => h y (List.mem_cons_of_mem x hy)]
    rfl

theorem mapM_length {α β : Type*} (f : α → Option β) (l : List α) (r : List β)
    (h : l.mapM f = some r) : r.length = l.length := by
  induction l generalizing r with
  | nil =>
    obtain rfl := Option.some.inj h
    rfl
  | cons x l ih =>
    rw [List.mapM_cons] at h
    obtain ⟨y, _, h⟩ := Option.bind_eq_some_iff.mp h
    obtain ⟨ys, hys, h⟩ := Option.bind_eq_some_iff.mp h
    obtain rfl := Option.some.inj h
    rw [List.length_cons, List.length_cons, ih ys hys]

end VeTls.Protobuf
