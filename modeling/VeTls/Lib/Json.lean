import Mathlib

/-!
# JSON texts

The grammar of RFC 8259 as trees that carry all of the text, white space
included, so that a tree is a well-formed text and every such text has one.
Bytes from 128 on stand for themselves, whether or not they are UTF-8. A text
is a list of lexemes: strings, and single bytes outside of strings. Which
member of an object is where can be seen in the lexemes, because a string is
followed by a colon just when it is a name.
-/

set_option autoImplicit false

namespace VeTls.Json

section Grammar

inductive Blank where
  | space
  | tab
  | lf
  | cr
  deriving DecidableEq, Repr

def Blank.byte : Blank → UInt8
  | .space => 32
  | .tab => 9
  | .lf => 10
  | .cr => 13

def isPlain (b : UInt8) : Bool := b ≥ 32 && b ≠ 34 && b ≠ 92

/-- The letters that may stand behind a backslash. -/
def isEscape (b : UInt8) : Bool := b ∈ [34, 92, 47, 98, 102, 110, 114, 116]

def isHex (b : UInt8) : Bool :=
  (48 ≤ b && b ≤ 57) || (65 ≤ b && b ≤ 70) || (97 ≤ b && b ≤ 102)

inductive StrChar where
  | plain (b : UInt8) (h : isPlain b = true)
  | escape (b : UInt8) (h : isEscape b = true)
  | unicode (a b c d : UInt8) (h : [a, b, c, d].all isHex = true)
  deriving DecidableEq, Repr

def StrChar.raw : StrChar → List UInt8
  | .plain b _ => [b]
  | .escape b _ => [92, b]
  | .unicode a b c d _ => [92, 117, a, b, c, d]

def StrChar.escaped : StrChar → Bool
  | .plain _ _ => false
  | _ => true

abbrev Str := List StrChar

/-- The bytes between the quotes. -/
def raw (s : Str) : List UInt8 := s.flatMap StrChar.raw

def digit (d : Fin 10) : UInt8 := UInt8.ofNat (48+d)

/-- An integer without a leading zero. -/
inductive Whole where
  | zero
  | digits (first : Fin 9) (rest : List (Fin 10))
  deriving DecidableEq, Repr

def Whole.text : Whole → List UInt8
  | .zero => [48]
  | .digits first rest => UInt8.ofNat (49+first)::rest.map digit

structure Digits where
  first : Fin 10
  rest : List (Fin 10)
  deriving DecidableEq, Repr

def Digits.text (d : Digits) : List UInt8 := digit d.first::d.rest.map digit

structure Exponent where
  upper : Bool
  sign : Option Bool
  digits : Digits
  deriving DecidableEq, Repr

def Exponent.text (e : Exponent) : List UInt8 :=
  (if e.upper then 69 else 101)::(e.sign.elim [] fun minus => if minus then [45] else [43])++
    e.digits.text

structure Number where
  minus : Bool
  whole : Whole
  fraction : Option Digits
  exponent : Option Exponent
  deriving DecidableEq, Repr

def Number.text (n : Number) : List UInt8 :=
  (if n.minus then [45] else [])++n.whole.text++
    (n.fraction.elim [] fun d => 46::d.text)++n.exponent.elim [] Exponent.text

inductive Literal where
  | trueName
  | falseName
  | nullName
  deriving DecidableEq, Repr

def Literal.text : Literal → List UInt8
  | .trueName => [116, 114, 117, 101]
  | .falseName => [102, 97, 108, 115, 101]
  | .nullName => [110, 117, 108, 108]

mutual

inductive Value where
  | literal (l : Literal)
  | number (n : Number)
  | string (s : Str)
  | emptyArray (w : List Blank)
  | array (es : Elements)
  | emptyObject (w : List Blank)
  | object (ms : Members)

inductive Elements where
  | one (before : List Blank) (v : Value) (behind : List Blank)
  | more (before : List Blank) (v : Value) (behind : List Blank) (rest : Elements)

inductive Members where
  | one (before : List Blank) (name : Str) (named : List Blank) (opened : List Blank) (v : Value)
      (behind : List Blank)
  | more (before : List Blank) (name : Str) (named : List Blank) (opened : List Blank) (v : Value)
      (behind : List Blank) (rest : Members)

end

structure Text where
  before : List Blank
  value : Value
  behind : List Blank

end Grammar

inductive Lexeme where
  | byte (b : UInt8)
  | str (s : Str)
  deriving DecidableEq, Repr

def Lexeme.raw : Lexeme → List UInt8
  | .byte b => [b]
  | .str s => 34::Json.raw s++[34]

def blanks (w : List Blank) : List Lexeme := w.map fun b => .byte b.byte

mutual

def Value.lexemes : Value → List Lexeme
  | .literal l => l.text.map .byte
  | .number n => n.text.map .byte
  | .string s => [.str s]
  | .emptyArray w => .byte 91::blanks w++[.byte 93]
  | .array es => .byte 91::es.lexemes++[.byte 93]
  | .emptyObject w => .byte 123::blanks w++[.byte 125]
  | .object ms => .byte 123::ms.lexemes++[.byte 125]

def Elements.lexemes : Elements → List Lexeme
  | .one before v behind => blanks before++v.lexemes++blanks behind
  | .more before v behind rest =>
    blanks before++v.lexemes++blanks behind++.byte 44::rest.lexemes

def Members.lexemes : Members → List Lexeme
  | .one before name named opened v behind =>
    blanks before++.str name::blanks named++.byte 58::blanks opened++v.lexemes++blanks behind
  | .more before name named opened v behind rest =>
    blanks before++.str name::blanks named++.byte 58::blanks opened++v.lexemes++blanks behind++
      .byte 44::rest.lexemes

end

def Text.lexemes (t : Text) : List Lexeme := blanks t.before++t.value.lexemes++blanks t.behind

/-- The bytes of the text. -/
def Text.bytes (t : Text) : List UInt8 := t.lexemes.flatMap Lexeme.raw

mutual

/-- The members of all objects in a value, in the order of their names. -/
def Value.members : Value → List (Str × Value)
  | .literal _ | .number _ | .string _ | .emptyArray _ | .emptyObject _ => []
  | .array es => es.members
  | .object ms => ms.members

def Elements.members : Elements → List (Str × Value)
  | .one _ v _ => v.members
  | .more _ v _ rest => v.members++rest.members

def Members.members : Members → List (Str × Value)
  | .one _ name _ _ v _ => (name, v)::v.members
  | .more _ name _ _ v _ rest => (name, v)::v.members++rest.members

end

def Value.str? : Value → Option Str
  | .string s => some s
  | _ => none

/-- The raw string of a member whose name is the key. -/
def stringOf (key : List UInt8) (m : Str × Value) : Option (List UInt8) :=
  (if raw m.1 = key then m.2.str? else none).map raw

def Text.firstString (t : Text) (key : List UInt8) : Option (List UInt8) :=
  t.value.members.findSome? (stringOf key)

def Plain (ms : List (Str × Value)) : Prop := ∀ m ∈ ms, ∀ c ∈ m.1, c.escaped = false

/-- No name has an escape sequence. -/
def Text.PlainNames (t : Text) : Prop := Plain t.value.members

instance (t : Text) : Decidable t.PlainNames :=
  inferInstanceAs (Decidable (∀ m ∈ t.value.members, ∀ c ∈ m.1, c.escaped = false))

/-- The string of these bytes, all of which stand for themselves. -/
def plainStr (bs : List UInt8) : Str :=
  bs.filterMap fun b => if h : isPlain b = true then some (.plain b h) else none

section Lexemes

variable {key : List UInt8}

def isWs (b : UInt8) : Bool := b = 32 || b = 9 || b = 13 || b = 10

def Lexeme.isBlank : Lexeme → Bool
  | .byte b => isWs b
  | .str _ => false

/-- The string value behind a name. -/
def valueOf (l : List Lexeme) : Option Str :=
  match l.dropWhile Lexeme.isBlank with
  | .byte b::rest =>
    if b = 58 then
      match rest.dropWhile Lexeme.isBlank with
      | .str s::_ => some s
      | _ => none
    else none
  | _ => none

/-- The first string value behind a name that is the key. -/
def find (key : List UInt8) : List Lexeme → Option (List UInt8)
  | [] => none
  | .byte _::rest => find key rest
  | .str s::rest => ((if raw s = key then valueOf rest else none).map raw).or (find key rest)

/-- What may stand directly behind a string. -/
def separators : List UInt8 := [32, 9, 13, 10, 44, 58, 93, 125]

def Colon (l : List Lexeme) : Prop := ∃ rest, l.dropWhile Lexeme.isBlank = .byte 58::rest

/-- Quotes are those of strings, a string is not followed by a letter, and one
with an escape sequence not by a colon. -/
def Orderly : List Lexeme → Prop
  | [] => True
  | .byte b::rest => b ≠ 34 ∧ Orderly rest
  | .str s::rest => (∀ x ∈ rest.head?, ∃ b ∈ separators, x = .byte b) ∧
      (Colon rest → ∀ c ∈ s, c.escaped = false) ∧ Orderly rest

/-- What may stand behind a value. -/
def Ends (l : List Lexeme) : Prop :=
  ∀ x ∈ (l.dropWhile Lexeme.isBlank).head?, ∃ b ∈ [44, 93, 125], x = .byte b

theorem blank_byte (b : Blank) : (Lexeme.byte b.byte).isBlank = true ∧ b.byte ≠ 34 ∧
    b.byte ∈ separators := by
  cases b <;> decide

@[simp] theorem dropWhile_blanks (w : List Blank) (l : List Lexeme) :
    (blanks w++l).dropWhile Lexeme.isBlank = l.dropWhile Lexeme.isBlank := by
  induction w with
  | nil => rfl
  | cons b w ih => exact (List.dropWhile_cons_of_pos (blank_byte b).1).trans ih

@[simp] theorem orderly_blanks (w : List Blank) (l : List Lexeme) :
    Orderly (blanks w++l) ↔ Orderly l := by
  induction w with
  | nil => rfl
  | cons b w ih => exact (and_iff_right (blank_byte b).2.1).trans ih

@[simp] theorem find_blanks (w : List Blank) (l : List Lexeme) :
    find key (blanks w++l) = find key l := by
  induction w with
  | nil => rfl
  | cons b w ih => exact ih

theorem orderly_bytes (bs : List UInt8) (h : 34 ∉ bs) (l : List Lexeme) :
    Orderly (bs.map .byte++l) ↔ Orderly l := by
  induction bs with
  | nil => rfl
  | cons b bs ih =>
    obtain ⟨hb, hbs⟩ := not_or.mp (mt List.mem_cons.mpr h)
    exact (and_iff_right (Ne.symm hb)).trans (ih hbs)

theorem find_bytes (bs : List UInt8) (l : List Lexeme) :
    find key (bs.map .byte++l) = find key l := by
  induction bs with
  | nil => rfl
  | cons b bs ih => exact ih

theorem ends_blanks (w : List Blank) (l : List Lexeme) : Ends (blanks w++l) ↔ Ends l := by
  rw [Ends, dropWhile_blanks, Ends]

theorem ends_byte (b : UInt8) (hb : b ∈ [44, 93, 125]) (l : List Lexeme) :
    Ends (.byte b::l) := by
  have hblank : (Lexeme.byte b).isBlank = false := by
    simp only [List.mem_cons, List.not_mem_nil, or_false] at hb
    rcases hb with rfl | rfl | rfl <;> rfl
  intro x hx
  rw [List.dropWhile_cons_of_neg (by simp [hblank])] at hx
  exact ⟨b, hb, (Option.some.inj hx).symm⟩

/-- The end of a value does not look like the end of a name. -/
theorem Ends.not_colon {l : List Lexeme} (h : Ends l) : ¬Colon l := by
  rintro ⟨rest, hrest⟩
  obtain ⟨b, hb, hx⟩ := h (.byte 58) (by rw [hrest]; rfl)
  obtain rfl := Lexeme.byte.inj hx
  revert hb
  decide

theorem Ends.separated {l : List Lexeme} (h : Ends l) :
    ∀ x ∈ l.head?, ∃ b ∈ separators, x = .byte b := by
  intro x hx
  obtain ⟨t, rfl⟩ := List.head?_eq_some_iff.mp hx
  cases hblank : x.isBlank with
  | true =>
    cases x with
    | str s => cases hblank
    | byte b =>
      refine ⟨b, ?_, rfl⟩
      simp only [Lexeme.isBlank, isWs, Bool.or_eq_true, decide_eq_true_eq] at hblank
      rcases hblank with ((rfl | rfl) | rfl) | rfl <;> decide
  | false =>
    obtain ⟨b, hb, rfl⟩ := h x (by rw [List.dropWhile_cons_of_neg (by simp [hblank])]; rfl)
    refine ⟨b, ?_, rfl⟩
    simp only [List.mem_cons, List.not_mem_nil, or_false] at hb
    rcases hb with rfl | rfl | rfl <;> decide

theorem valueOf_none {l : List Lexeme} (h : ¬Colon l) : valueOf l = none := by
  unfold valueOf
  split
  · rename_i b rest hl
    split
    · rename_i hb
      exact absurd ⟨rest, by rw [hl, hb]⟩ h
    · rfl
  · rfl

end Lexemes

section Values

variable {key : List UInt8}

/-- Neither quotes nor blanks. -/
def Solid (bs : List UInt8) : Prop := ∀ b ∈ bs, isWs b = false ∧ b ≠ 34

theorem Solid.of_all {bs : List UInt8} (h : bs.all (fun b => !isWs b && decide (b ≠ 34)) = true) :
    Solid bs := by
  intro b hb
  simpa using List.all_eq_true.mp h b hb

theorem Solid.append {bs bs' : List UInt8} (h : Solid bs) (h' : Solid bs') : Solid (bs++bs') :=
  fun b hb => (List.mem_append.mp hb).elim (h b) (h' b)

theorem Solid.no_quote {bs : List UInt8} (h : Solid bs) : 34 ∉ bs := fun hc => (h 34 hc).2 rfl

theorem digits_solid (ds : List (Fin 10)) : Solid (ds.map digit) := by
  have hdigit : ∀ d : Fin 10, isWs (digit d) = false ∧ digit d ≠ 34 := by decide
  intro b hb
  obtain ⟨d, -, rfl⟩ := List.mem_map.mp hb
  exact hdigit d

theorem Digits.solid (d : Digits) : Solid d.text := digits_solid (d.first::d.rest)

theorem Whole.solid (w : Whole) : Solid w.text := by
  cases w with
  | zero => exact .of_all rfl
  | digits first rest =>
    have hfirst : ∀ d : Fin 9, [UInt8.ofNat (49+d)].all
        (fun b => !isWs b && decide (b ≠ 34)) = true := by decide
    exact (Solid.of_all (hfirst first)).append (digits_solid rest)

theorem Exponent.solid (e : Exponent) : Solid e.text := by
  obtain ⟨upper, sign, digits⟩ := e
  have hmark : Solid [if upper then 69 else 101] := by
    cases upper <;> exact .of_all rfl
  have hsign : Solid (sign.elim [] fun minus => if minus then [45] else [43]) := by
    rcases sign with _ | _ | _ <;> exact .of_all rfl
  exact hmark.append (hsign.append digits.solid)

theorem Number.solid (n : Number) : Solid n.text := by
  obtain ⟨minus, whole, fraction, exponent⟩ := n
  have hminus : Solid (if minus then [45] else []) := by
    cases minus <;> exact .of_all rfl
  have hfraction : Solid (fraction.elim [] fun d => 46::d.text) := by
    cases fraction with
    | none => exact .of_all rfl
    | some d => exact (@Solid.of_all [46] rfl).append d.solid
  have hexponent : Solid (exponent.elim [] Exponent.text) := by
    cases exponent with
    | none => exact .of_all rfl
    | some e => exact e.solid
  exact ((hminus.append whole.solid).append hfraction).append hexponent

theorem Number.ne_nil (n : Number) : n.text ≠ [] := by
  obtain ⟨minus, whole, fraction, exponent⟩ := n
  cases whole <;> simp [Number.text, Whole.text]

theorem Literal.solid (l : Literal) : Solid l.text := by
  cases l <;> exact .of_all rfl

/-- A value that is not a string begins with neither a quote nor a blank. -/
theorem Value.head (v : Value) : (∃ s, v = .string s) ∨
    v.str? = none ∧ ∃ b t, v.lexemes = .byte b::t ∧ isWs b = false := by
  have hbytes : ∀ bs : List UInt8, bs ≠ [] → Solid bs →
      ∃ b t, bs.map Lexeme.byte = .byte b::t ∧ isWs b = false := by
    intro bs hne h
    cases bs with
    | nil => exact absurd rfl hne
    | cons b bs => exact ⟨b, bs.map .byte, rfl, (h b List.mem_cons_self).1⟩
  cases v with
  | string s => exact .inl ⟨s, rfl⟩
  | literal l => exact .inr ⟨rfl, by cases l <;> exact ⟨_, _, rfl, rfl⟩⟩
  | number n => exact .inr ⟨rfl, hbytes n.text n.ne_nil n.solid⟩
  | emptyArray w => exact .inr ⟨rfl, 91, _, rfl, rfl⟩
  | array es => exact .inr ⟨rfl, 91, _, rfl, rfl⟩
  | emptyObject w => exact .inr ⟨rfl, 123, _, rfl, rfl⟩
  | object ms => exact .inr ⟨rfl, 123, _, rfl, rfl⟩

theorem valueOf_member (named opened : List Blank) (v : Value) (l : List Lexeme) :
    valueOf (blanks named++.byte 58::(blanks opened++(v.lexemes++l))) = v.str? := by
  have hcolon : (Lexeme.byte 58).isBlank = false := rfl
  rw [valueOf, dropWhile_blanks, List.dropWhile_cons_of_neg (by simp [hcolon])]
  dsimp only
  rw [if_pos rfl, dropWhile_blanks]
  rcases v.head with ⟨s, rfl⟩ | ⟨hnone, b, t, ht, hb⟩
  · rfl
  · have hblank : (Lexeme.byte b).isBlank = false := hb
    rw [ht, List.cons_append, List.dropWhile_cons_of_neg (by simp [hblank]), hnone]

/-- What stands behind a name is separated from it. -/
theorem named_separated (named : List Blank) (l : List Lexeme) :
    ∀ x ∈ (blanks named++.byte 58::l).head?, ∃ b ∈ separators, x = .byte b := by
  intro x hx
  cases named with
  | nil => exact ⟨58, by decide, (Option.some.inj hx).symm⟩
  | cons b named => exact ⟨b.byte, (blank_byte b).2.2, (Option.some.inj hx).symm⟩

theorem Plain.left {ms ms' : List (Str × Value)} (h : Plain (ms++ms')) : Plain ms :=
  fun m hm => h m (List.mem_append_left _ hm)

theorem Plain.right {ms ms' : List (Str × Value)} (h : Plain (ms++ms')) : Plain ms' :=
  fun m hm => h m (List.mem_append_right _ hm)

theorem Plain.tail {m : Str × Value} {ms : List (Str × Value)} (h : Plain (m::ms)) : Plain ms :=
  fun x hx => h x (List.mem_cons_of_mem m hx)

mutual

theorem Value.orderly (v : Value) (l : List Lexeme) (hp : Plain v.members) (he : Ends l)
    (ho : Orderly l) : Orderly (v.lexemes++l) := by
  match v with
  | .literal x => exact (orderly_bytes x.text x.solid.no_quote l).mpr ho
  | .number n => exact (orderly_bytes n.text n.solid.no_quote l).mpr ho
  | .string s => exact ⟨he.separated, fun hc => absurd hc he.not_colon, ho⟩
  | .emptyArray w =>
    rw [Value.lexemes, List.cons_append, List.cons_append, List.append_assoc]
    exact ⟨by decide, (orderly_blanks w _).mpr ⟨by decide, ho⟩⟩
  | .emptyObject w =>
    rw [Value.lexemes, List.cons_append, List.cons_append, List.append_assoc]
    exact ⟨by decide, (orderly_blanks w _).mpr ⟨by decide, ho⟩⟩
  | .array es =>
    rw [Value.lexemes, List.cons_append, List.cons_append, List.append_assoc]
    exact ⟨by decide, es.orderly _ hp (ends_byte 93 (by decide) l) ⟨by decide, ho⟩⟩
  | .object ms =>
    rw [Value.lexemes, List.cons_append, List.cons_append, List.append_assoc]
    exact ⟨by decide, ms.orderly _ hp (ends_byte 125 (by decide) l) ⟨by decide, ho⟩⟩

theorem Elements.orderly (es : Elements) (l : List Lexeme) (hp : Plain es.members) (he : Ends l)
    (ho : Orderly l) : Orderly (es.lexemes++l) := by
  match es with
  | .one before v behind =>
    rw [Elements.lexemes, List.append_assoc, List.append_assoc, orderly_blanks]
    exact v.orderly _ hp ((ends_blanks behind l).mpr he) ((orderly_blanks behind l).mpr ho)
  | .more before v behind rest =>
    simp only [Elements.lexemes, List.append_assoc, List.cons_append, orderly_blanks]
    rw [Elements.members] at hp
    refine v.orderly _ hp.left ((ends_blanks behind _).mpr (ends_byte 44 (by decide) _)) ?_
    exact (orderly_blanks behind _).mpr ⟨by decide, rest.orderly l hp.right he ho⟩

theorem Members.orderly (ms : Members) (l : List Lexeme) (hp : Plain ms.members) (he : Ends l)
    (ho : Orderly l) : Orderly (ms.lexemes++l) := by
  match ms with
  | .one before name named opened v behind =>
    rw [Members.members] at hp
    simp only [Members.lexemes, List.append_assoc, List.cons_append, orderly_blanks]
    refine ⟨named_separated named _, fun _ => hp (name, v) List.mem_cons_self, ?_⟩
    rw [orderly_blanks]
    refine ⟨by decide, (orderly_blanks opened _).mpr ?_⟩
    exact v.orderly _ hp.tail ((ends_blanks behind l).mpr he) ((orderly_blanks behind l).mpr ho)
  | .more before name named opened v behind rest =>
    rw [Members.members] at hp
    simp only [Members.lexemes, List.append_assoc, List.cons_append, orderly_blanks]
    refine ⟨named_separated named _, fun _ => hp (name, v) List.mem_cons_self, ?_⟩
    rw [orderly_blanks]
    refine ⟨by decide, (orderly_blanks opened _).mpr ?_⟩
    refine v.orderly _ hp.tail.left ((ends_blanks behind _).mpr (ends_byte 44 (by decide) _)) ?_
    exact (orderly_blanks behind _).mpr ⟨by decide, rest.orderly l hp.tail.right he ho⟩

end

theorem findSome?_member (m : Str × Value) (ms : List (Str × Value)) :
    (m::ms).findSome? (stringOf key) = (stringOf key m).or (ms.findSome? (stringOf key)) := by
  rw [List.findSome?_cons]
  cases stringOf key m <;> rfl

/-- The name of a member is the place where its string value is found. -/
theorem find_member (name : Str) (named opened : List Blank) (v : Value) (l : List Lexeme) :
    find key (.str name::(blanks named++.byte 58::(blanks opened++(v.lexemes++l)))) =
      (stringOf key (name, v)).or (find key (v.lexemes++l)) := by
  rw [find, valueOf_member, find_blanks, find, find_blanks]
  rfl

mutual

theorem Value.find_lexemes (v : Value) (l : List Lexeme) (he : Ends l) :
    find key (v.lexemes++l) = (v.members.findSome? (stringOf key)).or (find key l) := by
  match v with
  | .literal x => exact find_bytes x.text l
  | .number n => exact find_bytes n.text l
  | .string s =>
    show ((if raw s = key then valueOf l else none).map raw).or (find key l) = find key l
    rw [valueOf_none he.not_colon, ite_self]
    rfl
  | .emptyArray w =>
    rw [Value.lexemes, List.cons_append, List.cons_append, List.append_assoc, find, find_blanks]
    rfl
  | .emptyObject w =>
    rw [Value.lexemes, List.cons_append, List.cons_append, List.append_assoc, find, find_blanks]
    rfl
  | .array es =>
    rw [Value.lexemes, List.cons_append, List.cons_append, List.append_assoc, find]
    exact es.find_lexemes _ (ends_byte 93 (by decide) l)
  | .object ms =>
    rw [Value.lexemes, List.cons_append, List.cons_append, List.append_assoc, find]
    exact ms.find_lexemes _ (ends_byte 125 (by decide) l)

theorem Elements.find_lexemes (es : Elements) (l : List Lexeme) (he : Ends l) :
    find key (es.lexemes++l) = (es.members.findSome? (stringOf key)).or (find key l) := by
  match es with
  | .one before v behind =>
    rw [Elements.lexemes, List.append_assoc, List.append_assoc, find_blanks,
      v.find_lexemes _ ((ends_blanks behind l).mpr he), find_blanks]
    rfl
  | .more before v behind rest =>
    have hends : Ends (blanks behind++.byte 44::(rest.lexemes++l)) :=
      (ends_blanks behind _).mpr (ends_byte 44 (by decide) _)
    simp only [Elements.lexemes, List.append_assoc, List.cons_append, find_blanks]
    rw [v.find_lexemes _ hends, find_blanks, find, rest.find_lexemes l he, Elements.members,
      List.findSome?_append, Option.or_assoc]

theorem Members.find_lexemes (ms : Members) (l : List Lexeme) (he : Ends l) :
    find key (ms.lexemes++l) = (ms.members.findSome? (stringOf key)).or (find key l) := by
  match ms with
  | .one before name named opened v behind =>
    simp only [Members.lexemes, List.append_assoc, List.cons_append, find_blanks]
    rw [find_member, v.find_lexemes _ ((ends_blanks behind l).mpr he), find_blanks,
      Members.members, findSome?_member, Option.or_assoc]
  | .more before name named opened v behind rest =>
    have hends : Ends (blanks behind++.byte 44::(rest.lexemes++l)) :=
      (ends_blanks behind _).mpr (ends_byte 44 (by decide) _)
    simp only [Members.lexemes, List.append_assoc, List.cons_append, find_blanks]
    rw [find_member, v.find_lexemes _ hends, find_blanks, find, rest.find_lexemes l he,
      Members.members, List.cons_append, findSome?_member, List.findSome?_append,
      Option.or_assoc, Option.or_assoc]

end

theorem ends_behind (w : List Blank) : Ends (blanks w) := by
  rw [← List.append_nil (blanks w), ends_blanks]
  intro x hx
  cases hx

theorem Text.orderly (t : Text) (h : t.PlainNames) : Orderly t.lexemes := by
  have hblank : Orderly (blanks t.behind) := by
    rw [← List.append_nil (blanks t.behind), orderly_blanks]
    trivial
  rw [Text.lexemes, List.append_assoc, orderly_blanks]
  exact t.value.orderly _ h (ends_behind t.behind) hblank

/-- The members can be found without parsing. -/
theorem Text.find_lexemes (t : Text) : find key t.lexemes = t.firstString key := by
  have hnone : find key (blanks t.behind) = none := by
    rw [← List.append_nil (blanks t.behind), find_blanks]
    rfl
  rw [Text.lexemes, List.append_assoc, find_blanks,
    t.value.find_lexemes _ (ends_behind t.behind), hnone, Option.or_none]
  rfl

end Values

end VeTls.Json
