import Mathlib

/-!
# Growable ring buffers

A buffer of slots with a head, a tail and an element count, all indices
taken modulo the capacity. The first insertion allocates the buffer, a full
buffer is copied into one of twice the capacity. An allocation may fail; the
flag `ok` of an operation is the allocator's answer to it.
-/

set_option autoImplicit false

namespace VeTls.RingBuffer

structure Ring (α : Type*) where
  slot : ℕ → Option α
  hasBuf : Bool
  cap : ℕ
  head : ℕ
  tail : ℕ
  count : ℕ

variable {α : Type*}

def empty : Ring α := ⟨fun _ => none, false, 0, 0, 0, 0⟩

def grown (r : Ring α) : Ring α :=
  { slot := fun i => if i < r.count then r.slot ((r.head+i) % r.cap) else none
    hasBuf := true
    cap := r.cap*2
    head := 0
    tail := r.count
    count := r.count }

def ensure (init : ℕ) (ok : Bool) (r : Ring α) : Bool × Ring α :=
  if r.cap = 0 then (ok, { r with cap := init, slot := fun _ => none, hasBuf := ok })
  else if r.count < r.cap then (true, r)
  else if ok then (true, grown r)
  else (false, r)

def append (x : α) (r : Ring α) : Ring α :=
  { r with slot := Function.update r.slot r.tail (some x)
           tail := (r.tail+1) % r.cap
           count := r.count+1 }

def prepend (x : α) (r : Ring α) : Ring α :=
  { r with slot := Function.update r.slot ((r.head+r.cap-1) % r.cap) (some x)
           head := (r.head+r.cap-1) % r.cap
           count := r.count+1 }

def push (init : ℕ) (ok : Bool) (x : α) (r : Ring α) : Bool × Ring α :=
  if (ensure init ok r).1 then (true, append x (ensure init ok r).2)
  else (false, (ensure init ok r).2)

def pushFront (init : ℕ) (ok : Bool) (x : α) (r : Ring α) : Bool × Ring α :=
  if (ensure init ok r).1 then (true, prepend x (ensure init ok r).2)
  else (false, (ensure init ok r).2)

def pop (r : Ring α) : Option (Option α × Ring α) :=
  if r.count = 0 then none
  else some (r.slot r.head, { r with
    slot := Function.update r.slot r.head none
    head := (r.head+1) % r.cap
    count := r.count-1 })

/-- The ring holds exactly the elements of the list, from the head on. -/
structure Holds (r : Ring α) (l : List α) : Prop where
  count : r.count = l.length
  fits : l.length ≤ r.cap
  buf : 0 < r.cap → r.hasBuf = true
  head : r.head < max 1 r.cap
  tail : r.tail = (r.head+l.length) % r.cap
  slots : ∀ i, i < l.length → r.slot ((r.head+i) % r.cap) = l[i]?

theorem empty_holds : Holds (empty : Ring α) [] :=
  ⟨rfl, le_refl _, by simp [empty], by simp [empty], by simp [empty], by simp⟩

theorem index_ne (h i j c : ℕ) (hi : i < c) (hj : j < c) (hij : i ≠ j) :
    (h+i) % c ≠ (h+j) % c := by
  intro he
  have hm : i % c = j % c := Nat.ModEq.add_left_cancel' h he
  rw [Nat.mod_eq_of_lt hi, Nat.mod_eq_of_lt hj] at hm
  exact hij hm

theorem index_ne_head (h i c : ℕ) (hh : h < c) (hi : i+1 < c) : (h+(i+1)) % c ≠ h := by
  have hne := index_ne h (i+1) 0 c hi (by omega) (by omega)
  simpa only [add_zero, Nat.mod_eq_of_lt hh] using hne

theorem grown_holds (r : Ring α) (l : List α) (h : Holds r l) (hc : 0 < r.cap) :
    Holds (grown r) l := by
  have hcount := h.count
  have hfits := h.fits
  refine ⟨hcount, ?_, fun _ => rfl, ?_, ?_, ?_⟩
  · simp only [grown]; omega
  · simp only [grown]; omega
  · have hlt : l.length < r.cap*2 := by omega
    simp [grown, hcount, Nat.mod_eq_of_lt hlt]
  · intro i hi
    have hlt : i < r.cap*2 := by omega
    have hs := h.slots i hi
    simp [grown, hcount, Nat.mod_eq_of_lt hlt, hi, hs]

/-- With a successful allocation there is room for one more element and the
contents are kept. -/
theorem ensure_holds (init : ℕ) (hinit : 0 < init) (r : Ring α) (l : List α) (h : Holds r l) :
    (ensure init true r).1 = true ∧ Holds (ensure init true r).2 l ∧
      l.length < (ensure init true r).2.cap := by
  have hcount := h.count
  have hfits := h.fits
  have hhead := h.head
  have htail := h.tail
  simp only [ensure, if_true]
  split_ifs with h0 h1
  · have hl : l = [] := List.eq_nil_of_length_eq_zero (by omega)
    have hz : r.head = 0 := by omega
    subst hl
    refine ⟨rfl, ⟨hcount, by simp, fun _ => rfl, ?_, ?_, by simp⟩, by simpa using hinit⟩
    · simp only; omega
    · simpa [hz] using htail
  · exact ⟨rfl, h, by simpa only [← hcount] using h1⟩
  · refine ⟨rfl, grown_holds r l h (by omega), ?_⟩
    simp only [grown]; omega

theorem append_holds (x : α) (r : Ring α) (l : List α) (h : Holds r l) (hc : l.length < r.cap) :
    Holds (append x r) (l++[x]) := by
  have hcount := h.count
  have htail := h.tail
  refine ⟨by simp [append, hcount], by simpa [append] using hc, h.buf, h.head, ?_, ?_⟩
  · simp only [append, htail, List.length_append, List.length_singleton, Nat.mod_add_mod]
    rw [Nat.add_assoc]
  · intro i hi
    have hi' : i < l.length+1 := by simpa using hi
    by_cases he : i = l.length
    · subst he
      simp [append, htail]
    · have hlt : i < l.length := by omega
      have hne := index_ne r.head i l.length r.cap (by omega) hc he
      simp only [append, htail]
      rw [Function.update_of_ne hne, h.slots i hlt, List.getElem?_append_left hlt]

theorem prepend_holds (x : α) (r : Ring α) (l : List α) (h : Holds r l) (hc : l.length < r.cap) :
    Holds (prepend x r) (x::l) := by
  have hcount := h.count
  have hhead := h.head
  have hcap : 0 < r.cap := by omega
  have hlt := Nat.mod_lt (r.head+r.cap-1) hcap
  have hshift : ∀ i, ((r.head+r.cap-1) % r.cap+(i+1)) % r.cap = (r.head+i) % r.cap := by
    intro i
    rw [Nat.mod_add_mod, show r.head+r.cap-1+(i+1) = r.head+i+r.cap by omega, Nat.add_mod_right]
  refine ⟨by simp [prepend, hcount], by simpa [prepend] using hc, h.buf, ?_, ?_, ?_⟩
  · simp only [prepend]; omega
  · simp only [prepend, List.length_cons]
    rw [hshift, h.tail]
  · intro i hi
    cases i with
    | zero => simp [prepend, Nat.mod_eq_of_lt hlt]
    | succ i =>
      have hi' : i < l.length := by simpa using hi
      have hne := index_ne_head _ i r.cap hlt (by omega)
      simp only [prepend]
      rw [Function.update_of_ne hne, hshift, h.slots i hi']
      rfl

theorem push_holds (init : ℕ) (hinit : 0 < init) (x : α) (r : Ring α) (l : List α)
    (h : Holds r l) :
    (push init true x r).1 = true ∧ Holds (push init true x r).2 (l++[x]) := by
  obtain ⟨hok, he, hc⟩ := ensure_holds init hinit r l h
  simp only [push, hok, if_true]
  exact ⟨trivial, append_holds x _ l he hc⟩

theorem pushFront_holds (init : ℕ) (hinit : 0 < init) (x : α) (r : Ring α) (l : List α)
    (h : Holds r l) :
    (pushFront init true x r).1 = true ∧ Holds (pushFront init true x r).2 (x::l) := by
  obtain ⟨hok, he, hc⟩ := ensure_holds init hinit r l h
  simp only [pushFront, hok, if_true]
  exact ⟨trivial, prepend_holds x _ l he hc⟩

theorem pop_nil (r : Ring α) (h : Holds r []) : pop r = none := by
  have hcount := h.count
  simp [pop, hcount]

theorem pop_holds (x : α) (r : Ring α) (l : List α) (h : Holds r (x::l)) :
    ∃ r', pop r = some (some x, r') ∧ Holds r' l := by
  have hcount := h.count
  have hfits := h.fits
  have hhead := h.head
  simp only [List.length_cons] at hcount hfits
  have hcap : 0 < r.cap := by omega
  have hlt : r.head < r.cap := by omega
  have hx := h.slots 0 (by simp)
  rw [Nat.add_zero, Nat.mod_eq_of_lt hlt] at hx
  have hnz : r.count ≠ 0 := by omega
  have hnext : ∀ i, ((r.head+1) % r.cap+i) % r.cap = (r.head+(i+1)) % r.cap := by
    intro i
    rw [Nat.mod_add_mod, Nat.add_assoc, Nat.add_comm 1 i]
  refine ⟨_, by simp only [pop, if_neg hnz, hx]; rfl, ?_⟩
  refine ⟨?_, ?_, h.buf, ?_, ?_, ?_⟩
  · simp only; omega
  · simp only; omega
  · have := Nat.mod_lt (r.head+1) hcap
    simp only; omega
  · simp only
    rw [hnext, h.tail, List.length_cons]
  · intro i hi
    have hne := index_ne_head r.head i r.cap hlt (by omega)
    simp only
    rw [hnext, Function.update_of_ne hne, h.slots (i+1) (by simpa using hi)]
    rfl

section Checked

def hasSlot (i : ℕ) (r : Ring α) : Bool := r.hasBuf && decide (i < r.cap)

/-- The copy into a larger buffer reads the old one. -/
def canCopy (ok : Bool) (r : Ring α) : Bool :=
  decide (r.cap = 0) || decide (r.count < r.cap) || !ok || r.hasBuf

/-- The insertions and the removal as the machine does them, `none` when a
slot that does not exist is read or written. -/
def appendChecked (x : α) (r : Ring α) : Option (Ring α) :=
  if hasSlot r.tail r then some (append x r) else none

def pushChecked (init : ℕ) (ok : Bool) (x : α) (r : Ring α) : Option (Bool × Ring α) :=
  if !canCopy ok r then none
  else if (ensure init ok r).1 then (appendChecked x (ensure init ok r).2).map fun r => (true, r)
  else some (false, (ensure init ok r).2)

def pushFrontChecked (init : ℕ) (ok : Bool) (x : α) (r : Ring α) : Option (Bool × Ring α) :=
  let e := ensure init ok r
  if !canCopy ok r then none
  else if e.1 then
    if hasSlot ((e.2.head+e.2.cap-1) % e.2.cap) e.2 then some (true, prepend x e.2) else none
  else some (false, e.2)

def popChecked (r : Ring α) : Option (Option (Option α × Ring α)) :=
  if r.count = 0 then some none
  else if hasSlot r.head r then some (pop r)
  else none

/-- A ring with a capacity has a buffer of that capacity. -/
def Backed (r : Ring α) : Prop := 0 < r.cap → r.hasBuf = true

instance (r : Ring α) : Decidable (Backed r) :=
  inferInstanceAs (Decidable (0 < r.cap → r.hasBuf = true))

def fresh (cap : ℕ) : Ring α := ⟨fun _ => none, true, cap, 0, 0, 0⟩

theorem fresh_holds (cap : ℕ) (hcap : 0 < cap) : Holds (fresh cap : Ring α) [] :=
  ⟨rfl, Nat.zero_le _, fun _ => rfl, lt_max_of_lt_right hcap, by simp [fresh], by simp⟩

theorem Holds.head_lt (r : Ring α) (l : List α) (h : Holds r l) (hc : 0 < r.cap) :
    r.head < r.cap := by
  have := h.head
  omega

theorem Holds.tail_lt (r : Ring α) (l : List α) (h : Holds r l) (hc : 0 < r.cap) :
    r.tail < r.cap := by
  rw [h.tail]
  exact Nat.mod_lt _ hc

theorem canCopy_of_holds (ok : Bool) (r : Ring α) (l : List α) (h : Holds r l) :
    canCopy ok r = true := by
  by_cases h0 : r.cap = 0
  · simp [canCopy, h0]
  · simp [canCopy, h.buf (Nat.pos_of_ne_zero h0)]

theorem ensure_true (init : ℕ) (r : Ring α) : (ensure init true r).1 = true := by
  unfold ensure
  rw [if_pos rfl]
  split_ifs <;> rfl

/-- A ring that has a buffer stands a failing allocation. -/
theorem ensure_keeps (init : ℕ) (hinit : 0 < init) (ok : Bool) (r : Ring α) (l : List α)
    (h : Holds r l) (hok : ok = true ∨ r.cap ≠ 0) :
    Holds (ensure init ok r).2 l ∧
      ((ensure init ok r).1 = true → l.length < (ensure init ok r).2.cap) := by
  cases ok with
  | true => exact (ensure_holds init hinit r l h).2.imp_right fun hl _ => hl
  | false =>
    have h0 : r.cap ≠ 0 := hok.resolve_left Bool.false_ne_true
    have hcount := h.count
    unfold ensure
    rw [if_neg h0, if_neg Bool.false_ne_true]
    split_ifs with hlt
    · exact ⟨h, fun _ => by simpa only [← hcount] using hlt⟩
    · exact ⟨h, False.elim⟩

theorem appendChecked_holds (x : α) (r : Ring α) (l : List α) (h : Holds r l)
    (hc : l.length < r.cap) :
    appendChecked x r = some (append x r) ∧ Holds (append x r) (l++[x]) := by
  have hcap : 0 < r.cap := by omega
  refine ⟨?_, append_holds x r l h hc⟩
  simp [appendChecked, hasSlot, h.buf hcap, h.tail_lt r l hcap]

theorem pushChecked_holds (init : ℕ) (hinit : 0 < init) (ok : Bool) (x : α) (r : Ring α)
    (l : List α) (h : Holds r l) (hok : ok = true ∨ r.cap ≠ 0) :
    ∃ r', pushChecked init ok x r = some ((ensure init ok r).1, r') ∧
      Holds r' (if (ensure init ok r).1 then l++[x] else l) := by
  obtain ⟨he, hroom⟩ := ensure_keeps init hinit ok r l h hok
  rw [pushChecked, canCopy_of_holds ok r l h]
  cases hd : (ensure init ok r).1 with
  | true =>
    obtain ⟨happ, hh⟩ := appendChecked_holds x _ l he (hroom hd)
    exact ⟨_, by simp [happ], hh⟩
  | false => exact ⟨_, by simp, he⟩

theorem pushFrontChecked_holds (init : ℕ) (hinit : 0 < init) (ok : Bool) (x : α) (r : Ring α)
    (l : List α) (h : Holds r l) (hok : ok = true ∨ r.cap ≠ 0) :
    ∃ r', pushFrontChecked init ok x r = some ((ensure init ok r).1, r') ∧
      Holds r' (if (ensure init ok r).1 then x::l else l) := by
  obtain ⟨he, hroom⟩ := ensure_keeps init hinit ok r l h hok
  rw [pushFrontChecked, canCopy_of_holds ok r l h]
  cases hd : (ensure init ok r).1 with
  | true =>
    have hcap : 0 < (ensure init ok r).2.cap := by have := hroom hd; omega
    refine ⟨_, ?_, prepend_holds x _ l he (hroom hd)⟩
    simp [hasSlot, he.buf hcap, Nat.mod_lt _ hcap]
  | false => exact ⟨_, by simp, he⟩

theorem popChecked_holds (r : Ring α) (l : List α) (h : Holds r l) : popChecked r = some (pop r) := by
  unfold popChecked
  split_ifs with h0 hs
  · simp [pop, h0]
  · rfl
  · have hcount := h.count
    have hfits := h.fits
    have hcap : 0 < r.cap := by omega
    simp [hasSlot, h.buf hcap, h.head_lt r l hcap] at hs

theorem pop_cap (x : Option α) (r r' : Ring α) (h : pop r = some (x, r')) : r'.cap = r.cap := by
  unfold pop at h
  split_ifs at h
  exact (congrArg (fun z => z.2.cap) (Option.some.inj h)).symm

def contents (r : Ring α) : List (Option α) :=
  (List.range r.count).map fun i => r.slot ((r.head+i) % r.cap)

theorem Holds.contents_eq (r : Ring α) (l : List α) (h : Holds r l) :
    contents r = l.map some := by
  apply List.ext_getElem
  · simp [contents, h.count]
  · intro i hi hi'
    have hl : i < l.length := by simpa using hi'
    simp [contents, h.slots i hl, hl]

/-- A first allocation that fails leaves a capacity without a buffer. -/
theorem ensure_first_fails (init : ℕ) (hinit : 0 < init) (r : Ring α) (h0 : r.cap = 0) :
    (ensure init false r).1 = false ∧ ¬ Backed (ensure init false r).2 := by
  simp only [ensure, if_pos h0, Backed]
  exact ⟨trivial, fun hb => Bool.false_ne_true (hb hinit)⟩

theorem pushChecked_first_fails (init : ℕ) (hinit : 0 < init) (x : α) (r : Ring α)
    (h0 : r.cap = 0) : ∃ r', pushChecked init false x r = some (false, r') ∧ ¬ Backed r' := by
  obtain ⟨hfail, hb⟩ := ensure_first_fails init hinit r h0
  exact ⟨_, by simp [pushChecked, canCopy, hfail], hb⟩

theorem pushFrontChecked_first_fails (init : ℕ) (hinit : 0 < init) (x : α) (r : Ring α)
    (h0 : r.cap = 0) : ∃ r', pushFrontChecked init false x r = some (false, r') ∧ ¬ Backed r' := by
  obtain ⟨hfail, hb⟩ := ensure_first_fails init hinit r h0
  exact ⟨_, by simp [pushFrontChecked, canCopy, hfail], hb⟩

end Checked

end VeTls.RingBuffer
