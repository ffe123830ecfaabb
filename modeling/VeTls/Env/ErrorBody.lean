import VeTls.Lib.Json
import VeTls.Env.SendLoops

/-!
# The error fields of a response

The body of a failed request is searched for a few names without being
parsed. A read at or beyond the length of the body has no value here, and
neither has a call that makes one. Positions are natural numbers; they
exceed the length by at most one. The copy of what is found succeeds.
-/

set_option autoImplicit false

namespace VeTls.ErrorBody

open VeTls.Wire (Bytes)
open VeTls.Sign (text)
open VeTls.SendLoops (SendError)
open VeTls.Json (isWs Str StrChar Lexeme raw)

section Source

def byteAt (json : Bytes) (i : ℕ) : Option UInt8 := json[i]?

/-- The bytes that a `memcmp` or a `memcpy` reads. -/
def slice (json : Bytes) (i n : ℕ) : Option Bytes :=
  if i+n ≤ json.length then some ((json.drop i).take n) else none

def skipBlanks (json : Bytes) (j : ℕ) : Option ℕ :=
  if j < json.length then
    (byteAt json j).bind fun c => if isWs c then skipBlanks json (j+1) else some j
  else some j
termination_by json.length-j

/-- The closing quote, or the end of the text. -/
def stringEnd (json : Bytes) (j : ℕ) : Option ℕ :=
  if j < json.length then
    (byteAt json j).bind fun c =>
      if c = 92 then stringEnd json (j+2)
      else if c = 34 then some j
      else stringEnd json (j+1)
  else some j
termination_by json.length-j

/-- What a turn of the search does: go on or return. -/
inductive Turn where
  | next
  | done (r : Option Bytes)
  deriving DecidableEq, Repr

/-- The turn behind a quoted key. -/
def member (json : Bytes) (j : ℕ) : Option Turn :=
  (skipBlanks json j).bind fun j =>
    if j ≥ json.length then some .next
    else
      (byteAt json j).bind fun c =>
        if c ≠ 58 then some .next
        else
          (skipBlanks json (j+1)).bind fun j =>
            if j ≥ json.length then some .next
            else
              (byteAt json j).bind fun c =>
                if c ≠ 34 then some .next
                else
                  (stringEnd json (j+1)).bind fun e =>
                    if e ≥ json.length then some (.done none)
                    else (slice json (j+1) (e-(j+1))).map fun s => .done (some s)

def turn (json key : Bytes) (i : ℕ) : Option Turn :=
  (byteAt json i).bind fun c =>
    if c ≠ 34 then some .next
    else
      (slice json (i+1) key.length).bind fun s =>
        if s ≠ key then some .next
        else
          (byteAt json (i+1+key.length)).bind fun c =>
            if c ≠ 34 then some .next else member json (i+1+key.length+1)

def search (json key : Bytes) (i : ℕ) : Option (Option Bytes) :=
  if i+key.length+2 < json.length then
    (turn json key i).bind fun t =>
      match t with
      | .next => search json key (i+1)
      | .done r => some r
  else some none
termination_by json.length-i

def jsonGetString (json : Option Bytes) (key : Bytes) : Option (Option Bytes) :=
  match json with
  | none => some none
  | some json => if json.length = 0 then some none else search json key 0

/-- A field that is not set yet is set from the first key that is there. -/
def fill (body : Option Bytes) : List Bytes → Option Bytes → Option (Option Bytes)
  | _, some field => some (some field)
  | [], none => some none
  | key::keys, none => (jsonGetString body key).bind (fill body keys)

def errorParseBodyFields (out : SendError) (body : Option Bytes) : Option SendError :=
  if body.getD [] = [] then some out
  else
    (fill body [text "errorCode"] out.errorCode).bind fun errorCode =>
      (fill body [text "errorMessage"] out.errorMessage).bind fun errorMessage =>
        (fill body [text "requestID", text "requestId", text "RequestId"] out.requestId).map
          fun requestId => { out with errorCode, errorMessage, requestId }

end Source

section Suffix

/-- A string up to its closing quote. -/
def rawString : Bytes → Option Bytes
  | [] => none
  | [c] => if c = 34 then some [] else none
  | c::d::l =>
    if c = 92 then (rawString l).map fun s => c::d::s
    else if c = 34 then some []
    else (rawString (d::l)).map fun s => c::s

def memberAt (l : Bytes) : Turn :=
  match l.dropWhile isWs with
  | [] => .next
  | c::l =>
    if c = 58 then
      match l.dropWhile isWs with
      | [] => .next
      | c::l => if c = 34 then .done (rawString l) else .next
    else .next

def turnAt (key l : Bytes) : Turn :=
  match l with
  | [] => .next
  | c::l => if c = 34 ∧ key++[34] <+: l then memberAt (l.drop (key.length+1)) else .next

def scan (key : Bytes) : Bytes → Option Bytes
  | [] => none
  | c::l =>
    match turnAt key (c::l) with
    | .next => scan key l
    | .done r => r

theorem drop_byteAt (json : Bytes) (j : ℕ) (h : j < json.length) :
    ∃ c, byteAt json j = some c ∧ json.drop j = c::json.drop (j+1) :=
  ⟨json[j], List.getElem?_eq_getElem h, List.drop_eq_getElem_cons h⟩

theorem skipBlanks_eq (json : Bytes) (j : ℕ) (hj : j ≤ json.length) :
    ∃ k, skipBlanks json j = some k ∧ k ≤ json.length ∧
      json.drop k = (json.drop j).dropWhile isWs := by
  fun_induction skipBlanks json j with
  | case1 j h ih =>
    obtain ⟨c, hc, hd⟩ := drop_byteAt json j h
    rw [hc, Option.bind_some, hd]
    cases hws : isWs c with
    | true =>
      rw [if_pos rfl, List.dropWhile_cons_of_pos hws]
      exact ih (by omega)
    | false =>
      rw [if_neg (by decide), List.dropWhile_cons_of_neg (by simp [hws]), ← hd]
      exact ⟨j, rfl, hj, rfl⟩
  | case2 j h =>
    refine ⟨j, rfl, hj, ?_⟩
    rw [List.drop_of_length_le (not_lt.mp h)]
    rfl

theorem rawString_quote (l : Bytes) : rawString (34::l) = some [] := by
  cases l <;> rfl

theorem rawString_other (c : UInt8) (l : Bytes) (h : c ≠ 92) (h' : c ≠ 34) :
    rawString (c::l) = (rawString l).map fun s => c::s := by
  cases l with
  | nil => exact if_neg h'
  | cons d l => rw [rawString, if_neg h, if_neg h']

theorem stringEnd_eq (json : Bytes) (j : ℕ) :
    ∃ k, stringEnd json j = some k ∧ j ≤ k ∧ rawString (json.drop j) =
      if json.length ≤ k then none else some ((json.drop j).take (k-j)) := by
  fun_induction stringEnd json j with
  | case1 j h ih₂ ih₁ =>
    obtain ⟨c, hc, hd⟩ := drop_byteAt json j h
    rw [hc, Option.bind_some]
    by_cases hesc : c = 92
    · obtain ⟨k, hk, hle, hraw⟩ := ih₂
      refine ⟨k, by rw [if_pos hesc]; exact hk, by omega, ?_⟩
      by_cases hlast : j+1 < json.length
      · obtain ⟨d, -, hd'⟩ := drop_byteAt json (j+1) hlast
        have hsub : k-j = k-(j+2)+1+1 := by omega
        rw [hd, hd', rawString, if_pos hesc, hraw, hsub, List.take_succ_cons, List.take_succ_cons]
        split <;> rfl
      · have hnil : json.drop (j+1) = [] := List.drop_of_length_le (not_lt.mp hlast)
        rw [hd, hnil, hesc, if_pos (by omega)]
        rfl
    · rw [if_neg hesc]
      by_cases hquote : c = 34
      · rw [if_pos hquote, hd, hquote, rawString_quote]
        refine ⟨j, rfl, le_rfl, ?_⟩
        rw [if_neg (not_le.mpr h), Nat.sub_self, List.take_zero]
      · obtain ⟨k, hk, hle, hraw⟩ := ih₁
        refine ⟨k, by rw [if_neg hquote]; exact hk, by omega, ?_⟩
        have hsub : k-j = k-(j+1)+1 := by omega
        rw [hd, rawString_other c _ hesc hquote, hraw, hsub, List.take_succ_cons]
        split <;> rfl
  | case2 j h =>
    have hnil : json.drop j = [] := List.drop_of_length_le (not_lt.mp h)
    refine ⟨j, rfl, le_rfl, ?_⟩
    rw [hnil, if_pos (not_lt.mp h)]
    rfl

theorem member_eq (json : Bytes) (j : ℕ) (hj : j ≤ json.length) :
    member json j = some (memberAt (json.drop j)) := by
  obtain ⟨k, hk, hle, hdrop⟩ := skipBlanks_eq json j hj
  rw [member, memberAt, hk, Option.bind_some, ← hdrop]
  by_cases hend : k < json.length
  · obtain ⟨c, hc, hd⟩ := drop_byteAt json k hend
    rw [if_neg (not_le.mpr hend), hc, hd, Option.bind_some]
    dsimp only
    by_cases hcolon : c = 58
    · obtain ⟨m, hm, hle', hdrop'⟩ := skipBlanks_eq json (k+1) hend
      rw [if_neg (not_not.mpr hcolon), if_pos hcolon, hm, Option.bind_some, ← hdrop']
      by_cases hend' : m < json.length
      · obtain ⟨d, hc', hd'⟩ := drop_byteAt json m hend'
        rw [if_neg (not_le.mpr hend'), hc', hd', Option.bind_some]
        dsimp only
        by_cases hquote : d = 34
        · obtain ⟨e, he, hstart, hraw⟩ := stringEnd_eq json (m+1)
          rw [if_neg (not_not.mpr hquote), if_pos hquote, he, hraw, Option.bind_some]
          by_cases hlast : json.length ≤ e
          · rw [if_pos hlast, if_pos hlast]
          · rw [if_neg hlast, if_neg hlast, slice, if_pos (by omega)]
            rfl
        · rw [if_pos hquote, if_neg hquote]
      · rw [if_pos (not_lt.mp hend'), List.drop_of_length_le (not_lt.mp hend')]
    · rw [if_pos hcolon, if_neg hcolon]
  · rw [if_pos (not_lt.mp hend), List.drop_of_length_le (not_lt.mp hend)]

theorem prefix_iff (key l : Bytes) :
    key++[34] <+: l ↔ l.take key.length = key ∧ l[key.length]? = some 34 := by
  constructor
  · rintro ⟨t, rfl⟩
    rw [List.append_assoc, List.take_left]
    exact ⟨rfl, by simp⟩
  · rintro ⟨htake, hget⟩
    refine ⟨l.drop (key.length+1), ?_⟩
    obtain ⟨hlt, hval⟩ := List.getElem?_eq_some_iff.mp hget
    conv_rhs => rw [← List.take_append_drop key.length l, List.drop_eq_getElem_cons hlt, hval, htake]
    rw [List.append_assoc]
    rfl

theorem turn_eq (json key : Bytes) (i : ℕ) (hi : i+key.length+2 < json.length) :
    turn json key i = some (turnAt key (json.drop i)) := by
  obtain ⟨c, hc, hd⟩ := drop_byteAt json i (by omega)
  rw [turn, hc, hd, Option.bind_some, turnAt]
  simp only [prefix_iff]
  by_cases hquote : c = 34
  · have hget : (json.drop (i+1))[key.length]? = byteAt json (i+1+key.length) :=
      List.getElem?_drop
    obtain ⟨d, hc', -⟩ := drop_byteAt json (i+1+key.length) (by omega)
    rw [if_neg (not_not.mpr hquote), slice, if_pos (by omega), Option.bind_some, hget, hc',
      Option.bind_some]
    by_cases hkey : (json.drop (i+1)).take key.length = key
    · rw [if_neg (not_not.mpr hkey)]
      by_cases hclose : d = 34
      · rw [if_neg (not_not.mpr hclose), if_pos ⟨hquote, hkey, congrArg some hclose⟩,
          member_eq json _ (by omega), List.drop_drop]
        rfl
      · rw [if_pos hclose, if_neg fun h => hclose (Option.some.inj h.2.2)]
    · rw [if_pos hkey, if_neg fun h => hkey h.2.1]
  · rw [if_pos hquote, if_neg fun h => hquote h.1]

/-- What is left is too short for a key with a value. -/
theorem scan_short (key l : Bytes) (h : l.length ≤ key.length+2) : scan key l = none := by
  induction l with
  | nil => rfl
  | cons c l ih =>
    rw [List.length_cons] at h
    have hnext : turnAt key (c::l) = .next := by
      unfold turnAt
      dsimp only
      split
      · rw [List.drop_of_length_le (by omega)]
        rfl
      · rfl
    rw [scan, hnext]
    exact ih (by omega)

theorem search_eq (json key : Bytes) (i : ℕ) :
    search json key i = some (scan key (json.drop i)) := by
  fun_induction search json key i with
  | case1 i h ih =>
    obtain ⟨c, -, hd⟩ := drop_byteAt json i (by omega)
    rw [turn_eq json key i h, Option.bind_some, hd, scan]
    cases turnAt key (c::json.drop (i+1)) with
    | next => exact ih
    | done r => rfl
  | case2 i h =>
    rw [scan_short]
    rw [List.length_drop]
    omega

end Suffix

/-- No call reads at or beyond the length. -/
theorem jsonGetString_eq (json : Option Bytes) (key : Bytes) :
    jsonGetString json key = some (scan key (json.getD [])) := by
  unfold jsonGetString
  cases json with
  | none => rfl
  | some json =>
    dsimp only [Option.getD_some]
    split
    · rename_i h
      rw [List.length_eq_zero_iff.mp h]
      rfl
    · exact search_eq json key 0

section Lexemes

variable {key : Bytes}

def textOf (l : List Lexeme) : Bytes := l.flatMap Lexeme.raw

def isLetter (c : UInt8) : Bool := (65 ≤ c && c ≤ 90) || (97 ≤ c && c ≤ 122)

theorem letter_ne {c b : UInt8} (h : isLetter c = true) (hb : isLetter b = false) : c ≠ b := by
  rintro rfl
  rw [h] at hb
  cases hb

theorem textOf_byte (b : UInt8) (l : List Lexeme) : textOf (.byte b::l) = b::textOf l := rfl

theorem textOf_str (s : Str) (l : List Lexeme) :
    textOf (.str s::l) = 34::(raw s++34::textOf l) := by
  simp [textOf, Lexeme.raw, List.append_assoc]

theorem dropWhile_textOf (l : List Lexeme) :
    (textOf l).dropWhile isWs = textOf (l.dropWhile Lexeme.isBlank) := by
  induction l with
  | nil => rfl
  | cons x l ih =>
    cases x with
    | byte b =>
      cases hws : isWs b with
      | true =>
        have hblank : (Lexeme.byte b).isBlank = true := hws
        rw [textOf_byte, List.dropWhile_cons_of_pos hws, List.dropWhile_cons_of_pos hblank, ih]
      | false =>
        have hblank : ¬(Lexeme.byte b).isBlank = true := by simp [Lexeme.isBlank, hws]
        rw [textOf_byte, List.dropWhile_cons_of_neg (by simp [hws]),
          List.dropWhile_cons_of_neg hblank, textOf_byte]
    | str s =>
      rw [textOf_str, List.dropWhile_cons_of_neg (by decide),
        List.dropWhile_cons_of_neg (by simp [Lexeme.isBlank]), textOf_str]

theorem hex_ne {c : UInt8} (h : Json.isHex c = true) : c ≠ 92 ∧ c ≠ 34 := by
  constructor
  · rintro rfl
    cases h
  · rintro rfl
    cases h

theorem plain_ne {c : UInt8} (h : Json.isPlain c = true) : c ≠ 92 ∧ c ≠ 34 := by
  constructor
  · rintro rfl
    cases h
  · rintro rfl
    cases h

theorem hexes {a b c d : UInt8} (h : [a, b, c, d].all Json.isHex = true) :
    Json.isHex a = true ∧ Json.isHex b = true ∧ Json.isHex c = true ∧ Json.isHex d = true := by
  simpa only [List.all_cons, List.all_nil, Bool.and_true, Bool.and_eq_true] using h

theorem rawString_raw (s : Str) (l : Bytes) : rawString (raw s++34::l) = some (raw s) := by
  induction s with
  | nil => exact rawString_quote l
  | cons x s ih =>
    have hraw : raw (x::s) = x.raw++raw s := rfl
    rw [hraw, List.append_assoc]
    cases x with
    | plain b h =>
      obtain ⟨hslash, hquote⟩ := plain_ne h
      show rawString (b::(raw s++34::l)) = some (b::raw s)
      rw [rawString_other b _ hslash hquote, ih]
      rfl
    | escape b h =>
      show rawString (92::b::(raw s++34::l)) = some (92::b::raw s)
      rw [rawString, if_pos rfl, ih]
      rfl
    | unicode a b c d h =>
      obtain ⟨ha, hb, hc, hd⟩ := hexes h
      show rawString (92::117::a::b::c::d::(raw s++34::l)) = some (92::117::a::b::c::d::raw s)
      rw [rawString, if_pos rfl, rawString_other a _ (hex_ne ha).1 (hex_ne ha).2,
        rawString_other b _ (hex_ne hb).1 (hex_ne hb).2,
        rawString_other c _ (hex_ne hc).1 (hex_ne hc).2,
        rawString_other d _ (hex_ne hd).1 (hex_ne hd).2, ih]
      rfl

/-- A key in front of a quote is the whole rest of the string. -/
theorem raw_eq_key (hkey : ∀ c ∈ key, isLetter c = true) (s : Str) (l : Bytes)
    (h : key++[34] <+: raw s++34::l) : raw s = key := by
  induction s generalizing key with
  | nil =>
    cases key with
    | nil => rfl
    | cons c key =>
      have hc : c = 34 := (List.cons_prefix_cons.mp h).1
      exact absurd hc (letter_ne (hkey c List.mem_cons_self) rfl)
  | cons x s ih =>
    have hraw : raw (x::s) = x.raw++raw s := rfl
    rw [hraw, List.append_assoc] at h
    cases x with
    | plain b hb =>
      cases key with
      | nil =>
        have hc : 34 = b := (List.cons_prefix_cons.mp h).1
        exact absurd hc.symm (plain_ne hb).2
      | cons c key =>
        obtain ⟨rfl, hrest⟩ := List.cons_prefix_cons.mp h
        have hs := ih (fun x hx => hkey x (List.mem_cons_of_mem c hx)) hrest
        rw [hraw, hs]
        rfl
    | escape b hb =>
      cases key with
      | nil => exact absurd (List.cons_prefix_cons.mp h).1 (by decide)
      | cons c key =>
        have hc : c = 92 := (List.cons_prefix_cons.mp h).1
        exact absurd hc (letter_ne (hkey c List.mem_cons_self) rfl)
    | unicode a b c d hb =>
      cases key with
      | nil => exact absurd (List.cons_prefix_cons.mp h).1 (by decide)
      | cons c key =>
        have hc : c = 92 := (List.cons_prefix_cons.mp h).1
        exact absurd hc (letter_ne (hkey c List.mem_cons_self) rfl)

theorem scan_other (c : UInt8) (l : Bytes) (h : c ≠ 34) : scan key (c::l) = scan key l := by
  have hnext : turnAt key (c::l) = .next := if_neg fun hc => h hc.1
  rw [scan, hnext]

/-- Behind a quote: the key and its closing quote, or the next turn. -/
theorem turnAt_quote (hkey : ∀ c ∈ key, isLetter c = true) (s : Str) (l : Bytes) :
    turnAt key (34::(raw s++34::l)) = if raw s = key then memberAt l else .next := by
  unfold turnAt
  dsimp only
  by_cases hs : raw s = key
  · have hprefix : key++[34] <+: raw s++34::l := ⟨l, by rw [hs, List.append_assoc]; rfl⟩
    rw [if_pos ⟨rfl, hprefix⟩, if_pos hs, hs, List.drop_append, List.drop_of_length_le (by omega),
      Nat.add_sub_cancel_left]
    rfl
  · rw [if_neg hs, if_neg fun h => hs (raw_eq_key hkey s l h.2)]

/-- Nothing is found inside a string: behind an escaped quote the key would
end at the end of the string, and no colon follows. -/
theorem scan_inside (hkey : ∀ c ∈ key, isLetter c = true) (s : Str) (l : Bytes)
    (hnext : (∃ c ∈ s, c.escaped = true) → memberAt l = .next) :
    scan key (raw s++34::l) = scan key (34::l) := by
  induction s with
  | nil => rfl
  | cons x s ih =>
    have hraw : raw (x::s) = x.raw++raw s := rfl
    have hrest := ih fun ⟨c, hc, he⟩ => hnext ⟨c, List.mem_cons_of_mem x hc, he⟩
    rw [hraw, List.append_assoc]
    cases x with
    | plain b h => exact (scan_other b _ (plain_ne h).2).trans hrest
    | escape b h =>
      refine (scan_other 92 _ (by decide)).trans ?_
      show scan key (b::(raw s++34::l)) = scan key (34::l)
      by_cases hb : b = 34
      · have hturn : turnAt key (34::(raw s++34::l)) = .next := by
          rw [turnAt_quote hkey, hnext ⟨.escape b h, List.mem_cons_self, rfl⟩, ite_self]
        rw [hb, scan, hturn]
        exact hrest
      · exact (scan_other b _ hb).trans hrest
    | unicode a b c d h =>
      obtain ⟨ha, hb, hc, hd⟩ := hexes h
      show scan key (92::117::a::b::c::d::(raw s++34::l)) = scan key (34::l)
      rw [scan_other 92 _ (by decide), scan_other 117 _ (by decide), scan_other a _ (hex_ne ha).2,
        scan_other b _ (hex_ne hb).2, scan_other c _ (hex_ne hc).2, scan_other d _ (hex_ne hd).2]
      exact hrest

theorem separator_not_letter {b : UInt8} (hb : b ∈ Json.separators) : ¬isLetter b = true := by
  simp only [Json.separators, List.mem_cons, List.not_mem_nil, or_false] at hb
  rcases hb with rfl | rfl | rfl | rfl | rfl | rfl | rfl | rfl <;> decide

theorem orderly_dropWhile (l : List Lexeme) (h : Json.Orderly l) :
    Json.Orderly (l.dropWhile Lexeme.isBlank) := by
  induction l with
  | nil => exact h
  | cons x l ih =>
    rw [List.dropWhile_cons]
    split
    · cases x with
      | byte b => exact ih h.2
      | str s => exact ih h.2.2
    · exact h

theorem memberAt_textOf (l : List Lexeme) (h : Json.Orderly l) :
    memberAt (textOf l) = (Json.valueOf l).elim .next fun s => .done (some (raw s)) := by
  unfold memberAt Json.valueOf
  rw [dropWhile_textOf]
  have hrest := orderly_dropWhile l h
  cases hl : l.dropWhile Lexeme.isBlank with
  | nil => rfl
  | cons x rest =>
    cases x with
    | str s =>
      rw [textOf_str]
      rfl
    | byte b =>
      rw [textOf_byte]
      dsimp only
      by_cases hb : b = 58
      · rw [hl] at hrest
        have hrest' := orderly_dropWhile rest hrest.2
        rw [if_pos hb, if_pos hb, dropWhile_textOf]
        cases hl' : rest.dropWhile Lexeme.isBlank with
        | nil => rfl
        | cons y tail =>
          cases y with
          | byte d =>
            rw [hl'] at hrest'
            exact if_neg hrest'.1
          | str s =>
            rw [textOf_str]
            dsimp only
            rw [if_pos rfl, rawString_raw]
            rfl
      · rw [if_neg hb, if_neg hb]
        rfl

/-- The search finds what is found in the lexemes. -/
theorem scan_textOf (hne : key ≠ []) (hkey : ∀ c ∈ key, isLetter c = true) (l : List Lexeme)
    (h : Json.Orderly l) : scan key (textOf l) = Json.find key l := by
  induction l with
  | nil => rfl
  | cons x l ih =>
    cases x with
    | byte b =>
      rw [textOf_byte, scan_other b _ h.1, ih h.2]
      rfl
    | str s =>
      obtain ⟨hsep, hcolon, hrest⟩ := h
      have hmember := memberAt_textOf l hrest
      have hnext : (∃ c ∈ s, c.escaped = true) → memberAt (textOf l) = .next := by
        rintro ⟨c, hc, he⟩
        have hnone : ¬Json.Colon l := by
          intro hl
          rw [hcolon hl c hc] at he
          cases he
        rw [hmember, Json.valueOf_none hnone]
        rfl
      have hclose : scan key (34::textOf l) = scan key (textOf l) := by
        have hturn : turnAt key (34::textOf l) = .next := by
          refine if_neg fun hprefix => ?_
          obtain ⟨c, key, rfl⟩ := List.exists_cons_of_ne_nil hne
          cases l with
          | nil => exact absurd hprefix.2 (by simp [textOf])
          | cons y l =>
            obtain ⟨b, hb, rfl⟩ := hsep y rfl
            rw [textOf_byte] at hprefix
            obtain rfl : c = b := (List.cons_prefix_cons.mp hprefix.2).1
            exact separator_not_letter hb (hkey c List.mem_cons_self)
        rw [scan, hturn]
      have hinside : scan key (raw s++34::textOf l) = Json.find key l := by
        rw [scan_inside hkey s _ hnext, hclose, ih hrest]
      rw [textOf_str, scan, turnAt_quote hkey, Json.find, hmember, hinside]
      by_cases hs : raw s = key
      · rw [if_pos hs, if_pos hs]
        cases Json.valueOf l <;> rfl
      · rw [if_neg hs, if_neg hs]
        rfl

end Lexemes

def errorKeys : List Bytes :=
  [text "errorCode", text "errorMessage", text "requestID", text "requestId", text "RequestId"]

theorem scan_bytes (t : Json.Text) (h : t.PlainNames) (key : Bytes) (hkey : key ∈ errorKeys) :
    scan key t.bytes = t.firstString key := by
  have hletters : ∀ key ∈ errorKeys, key ≠ [] ∧ ∀ c ∈ key, isLetter c = true := by
    have hall : errorKeys.all (fun key => !key.isEmpty && key.all isLetter) = true := by decide
    intro key hkey
    simpa using List.all_eq_true.mp hall key hkey
  obtain ⟨hne, hletter⟩ := hletters key hkey
  exact (scan_textOf hne hletter t.lexemes (t.orderly h)).trans t.find_lexemes

/-- In a well-formed text whose names have no escape sequences the search for
an error field returns the first string member of that name, and no search
in any bytes reads at or beyond their end. -/
theorem errorFields_found :
    (∀ t : Json.Text, t.PlainNames → ∀ key ∈ errorKeys,
      jsonGetString (some t.bytes) key = some (t.firstString key)) ∧
    ∀ (json : Option Bytes) (key : Bytes), (jsonGetString json key).isSome := by
  refine ⟨fun t h key hkey => ?_, fun json key => ?_⟩
  · rw [jsonGetString_eq]
    exact congrArg some (scan_bytes t h key hkey)
  · rw [jsonGetString_eq]
    rfl

/-- `{"m":"\"errorCode", "errorCode":null,"d":[{"errorCode" : "no\n"}]}` and a
line feed. -/
def errorText : Json.Text :=
  { before := []
    value := .object (.more [] (Json.plainStr (text "m")) [] []
      (.string (.escape 34 rfl::Json.plainStr (text "errorCode"))) []
      (.more [.space] (Json.plainStr (text "errorCode")) [] [] (.literal .nullName) []
        (.one [] (Json.plainStr (text "d")) [] []
          (.array (.one [] (.object (.one [] (Json.plainStr (text "errorCode")) [.space] [.space]
            (.string (Json.plainStr (text "no")++[.escape 110 rfl])) [])) [])) [])))
    behind := [.lf] }

theorem errorText_found : jsonGetString (some errorText.bytes) (text "errorCode") =
      some (some (text "no"++[92, 110])) ∧
    jsonGetString (some errorText.bytes) (text "requestId") = some none := by
  have hcode := errorFields_found.1 errorText (by decide) (text "errorCode") (by decide)
  have hid := errorFields_found.1 errorText (by decide) (text "requestId") (by decide)
  have hvalues : errorText.firstString (text "errorCode") = some (text "no"++[92, 110]) ∧
      errorText.firstString (text "requestId") = none := by decide
  rw [hcode, hid, hvalues.1, hvalues.2]
  exact ⟨rfl, rfl⟩

section Fields

theorem fill_eq (body : Option Bytes) (keys : List Bytes) (field : Option Bytes) :
    fill body keys field =
      some (field.or (keys.foldr (fun key r => (scan key (body.getD [])).or r) none)) := by
  induction keys generalizing field with
  | nil => cases field <;> rfl
  | cons key keys ih =>
    cases field with
    | some x => rfl
    | none =>
      rw [fill, jsonGetString_eq, Option.bind_some, ih]
      rfl

/-- A field that is set stays; the others are set from the body. -/
theorem errorParseBodyFields_bytes (t : Json.Text) (h : t.PlainNames) (out : SendError) :
    errorParseBodyFields out (some t.bytes) = some { out with
      errorCode := out.errorCode.or (t.firstString (text "errorCode"))
      errorMessage := out.errorMessage.or (t.firstString (text "errorMessage"))
      requestId := out.requestId.or ((t.firstString (text "requestID")).or
        ((t.firstString (text "requestId")).or (t.firstString (text "RequestId")))) } := by
  have hfirst : ∀ key ∈ errorKeys, t.firstString key = scan key t.bytes := fun key hkey =>
    (scan_bytes t h key hkey).symm
  rw [hfirst _ (by decide), hfirst _ (by decide), hfirst _ (by decide), hfirst _ (by decide),
    hfirst _ (by decide)]
  unfold errorParseBodyFields
  split
  · rename_i hnil
    have hempty : t.bytes = [] := hnil
    rw [hempty]
    simp [scan]
  · simp only [fill_eq, Option.bind_some, Option.map_some, Option.getD_some, List.foldr_cons,
      List.foldr_nil, Option.or_none]

end Fields

end VeTls.ErrorBody
