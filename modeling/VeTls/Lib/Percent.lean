import Mathlib

/-!
# Percent encoding

A byte of a given set is written as a percent sign and two hexadecimal
digits in upper case, every other byte as itself.
-/

set_option autoImplicit false

namespace VeTls.Percent

def hexUpper (n : UInt8) : UInt8 := if n < 10 then 48+n else 55+n

def encodeByte (esc : UInt8 → Bool) (c : UInt8) : List UInt8 :=
  if esc c then [37, hexUpper (c >>> 4), hexUpper (c &&& 15)] else [c]

def encode (esc : UInt8 → Bool) (s : List UInt8) : List UInt8 := s.flatMap (encodeByte esc)

def hexValue (d : UInt8) : UInt8 := if d < 58 then d-48 else d-55

def decode : List UInt8 → List UInt8
  | c::a::b::s =>
    if c = 37 then (hexValue a <<< 4 ||| hexValue b)::decode s else c::decode (a::b::s)
  | s => s

variable (esc : UInt8 → Bool)

theorem forall_byte (P : UInt8 → Prop) (h : ∀ n : Fin 256, P (UInt8.ofNat n)) (c : UInt8) : P c := by
  have hc := h ⟨c.toNat, c.toNat_lt⟩
  rwa [UInt8.ofNat_toNat] at hc

/-- The two digits of a byte have its value. -/
theorem hexValue_hexUpper (c : UInt8) :
    hexValue (hexUpper (c >>> 4)) <<< 4 ||| hexValue (hexUpper (c &&& 15)) = c :=
  forall_byte (fun c => hexValue (hexUpper (c >>> 4)) <<< 4 ||| hexValue (hexUpper (c &&& 15)) = c)
    (by decide +kernel) c

/-- The bytes that are digits in upper case. -/
def isHexUpper (c : UInt8) : Bool := (48 ≤ c && c ≤ 57) || (65 ≤ c && c ≤ 70)

theorem hexUpper_isHexUpper (c : UInt8) :
    isHexUpper (hexUpper (c >>> 4)) = true ∧ isHexUpper (hexUpper (c &&& 15)) = true :=
  forall_byte (fun c => isHexUpper (hexUpper (c >>> 4)) = true ∧
    isHexUpper (hexUpper (c &&& 15)) = true) (by decide +kernel) c

theorem encode_of_plain (s : List UInt8) (h : ∀ c ∈ s, esc c = false) : encode esc s = s := by
  induction s with
  | nil => rfl
  | cons c s ih =>
    rw [encode, List.flatMap_cons, encodeByte, h c List.mem_cons_self, if_neg Bool.false_ne_true]
    exact congrArg (c::·) (ih fun x hx => h x (List.mem_cons_of_mem c hx))

/-- What an encoding consists of. -/
theorem mem_encode (s : List UInt8) (c : UInt8) (h : c ∈ encode esc s) :
    c = 37 ∨ isHexUpper c = true ∨ esc c = false := by
  obtain ⟨d, -, hd⟩ := List.mem_flatMap.mp h
  rw [encodeByte] at hd
  split at hd
  · obtain ⟨hhi, hlo⟩ := hexUpper_isHexUpper d
    rcases List.mem_cons.mp hd with rfl | hd
    · exact .inl rfl
    · rcases List.mem_cons.mp hd with rfl | hd
      · exact .inr (.inl hhi)
      · rw [List.mem_singleton.mp hd]
        exact .inr (.inl hlo)
  · rename_i hesc
    rw [List.mem_singleton.mp hd]
    exact .inr (.inr (Bool.eq_false_iff.mpr hesc))

theorem length_encode (s : List UInt8) :
    (encode esc s).length = s.length+2*s.countP esc := by
  induction s with
  | nil => rfl
  | cons c s ih =>
    rw [encode] at ih
    rw [encode, List.flatMap_cons, List.length_append, ih, encodeByte, List.countP_cons]
    cases hc : esc c <;> simp <;> omega

/-- A string is its own encoding exactly when it has nothing to escape. -/
theorem encode_eq_self (s : List UInt8) : encode esc s = s ↔ ∀ c ∈ s, esc c = false := by
  refine ⟨fun h => ?_, encode_of_plain esc s⟩
  have hlen := length_encode esc s
  rw [h] at hlen
  have hzero : s.countP esc = 0 := by omega
  intro c hc
  exact Bool.eq_false_iff.mpr (List.countP_eq_zero.mp hzero c hc)

/-- An encoding has nothing to escape exactly when the string has nothing. -/
theorem encode_plain_iff (hesc : esc 37 = true) (s : List UInt8) :
    (∀ c ∈ encode esc s, esc c = false) ↔ ∀ c ∈ s, esc c = false := by
  constructor
  · intro h c hc
    by_contra hne
    have hmem : 37 ∈ encode esc s :=
      List.mem_flatMap.mpr ⟨c, hc, by simp [encodeByte, Bool.eq_true_of_not_eq_false hne]⟩
    exact Bool.false_ne_true ((h 37 hmem).symm.trans hesc)
  · intro h
    rw [encode_of_plain esc s h]
    exact h

theorem decode_cons (c : UInt8) (s : List UInt8) (hc : c ≠ 37) : decode (c::s) = c::decode s := by
  match s with
  | [] => rfl
  | [_] => rfl
  | _::_::_ => rw [decode, if_neg hc]

theorem decode_of_encode (hesc : esc 37 = true) (s : List UInt8) : decode (encode esc s) = s := by
  induction s with
  | nil => rfl
  | cons c s ih =>
    rw [encode] at ih
    rw [encode, List.flatMap_cons, encodeByte]
    split
    · rw [List.cons_append, List.cons_append, List.cons_append, List.nil_append, decode, if_pos rfl,
        ih, hexValue_hexUpper]
    · rename_i hplain
      have hc : c ≠ 37 := fun he => hplain (he ▸ hesc)
      rw [List.singleton_append, decode_cons c _ hc, ih]

end VeTls.Percent
