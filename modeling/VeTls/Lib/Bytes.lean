import Mathlib

/-!
# Byte buffers and little-endian numbers

A buffer grows by appending and refuses what would not fit below `cap`
elements. `Puts` says that a step of a writer appends a fixed piece or fails
for lack of room; it composes, so a writer of many steps appends the pieces
of its steps. Numbers are written with their low byte first.
-/

set_option autoImplicit false

namespace VeTls.Bytes

variable {α : Type*} {cap : ℕ}

def put (cap : ℕ) (piece buf : List α) : Option (List α) :=
  if buf.length+piece.length < cap then some (buf++piece) else none

/-- The step appends `piece` or has no room for it. -/
def Puts (cap : ℕ) (f : List α → Option (List α)) (piece : List α) : Prop :=
  ∀ buf, buf.length < cap → f buf = put cap piece buf

theorem puts_put (piece : List α) : Puts cap (put cap piece) piece := fun _ _ => rfl

theorem puts_nil : Puts cap (some : List α → Option (List α)) [] := by
  intro buf h
  simp [put, h]

theorem Puts.bind {f g : List α → Option (List α)} {a b : List α} (hf : Puts cap f a)
    (hg : Puts cap g b) : Puts cap (fun buf => (f buf).bind g) (a++b) := by
  intro buf h
  simp only [hf buf h, put, List.length_append]
  by_cases hroom : buf.length+a.length < cap
  · rw [if_pos hroom, Option.bind_some, hg _ (by simpa using hroom), put]
    simp [Nat.add_assoc]
  · rw [if_neg hroom, if_neg (by omega), Option.bind_none]

theorem Puts.ite {f g : List α → Option (List α)} {a b : List α} {c : Prop} [Decidable c]
    (hf : c → Puts cap f a) (hg : ¬ c → Puts cap g b) :
    Puts cap (fun buf => if c then f buf else g buf) (if c then a else b) := by
  intro buf h
  by_cases hc : c
  · simp only [if_pos hc]
    exact hf hc buf h
  · simp only [if_neg hc]
    exact hg hc buf h

/-- A loop over a list appends the pieces of its elements. -/
theorem Puts.loop {β : Type*} (f : β → List α → Option (List α)) (piece : β → List α)
    (l : List β) (hf : ∀ x ∈ l, Puts cap (f x) (piece x)) :
    Puts cap (fun buf => l.foldlM (fun b x => f x b) buf) (l.flatMap piece) := by
  induction l with
  | nil =>
    intro buf h
    simp [put, h]
  | cons x l ih =>
    rw [List.flatMap_cons]
    exact (hf x List.mem_cons_self).bind (ih fun y hy => hf y (List.mem_cons_of_mem x hy))

/-- What a writer makes of an empty buffer. -/
theorem Puts.start {f : List α → Option (List α)} {a : List α} (h : Puts cap f a) (hc : 0 < cap) :
    f [] = if a.length < cap then some a else none := by
  rw [h [] hc, put]
  simp

/-- A piece is first made in a buffer of its own. -/
theorem Puts.nested {m : List α} {tmp : Option (List α)}
    (g : List α → List α → Option (List α)) (frame : List α → List α)
    (htmp : tmp = if m.length < cap then some m else none)
    (hg : Puts cap (g m) (frame m)) (hlen : m.length ≤ (frame m).length) :
    Puts cap (fun buf => tmp.bind fun t => g t buf) (frame m) := by
  intro buf h
  rw [htmp]
  by_cases hm : m.length < cap
  · rw [if_pos hm]
    exact hg buf h
  · rw [if_neg hm, put, if_neg (by omega)]
    rfl

def leBytes : ℕ → ℕ → List UInt8
  | 0, _ => []
  | k+1, n => UInt8.ofNat n::leBytes k (n/256)

def leValue : List UInt8 → ℕ
  | [] => 0
  | c::l => c.toNat+256*leValue l

@[simp] theorem leBytes_length (k n : ℕ) : (leBytes k n).length = k := by
  induction k generalizing n with
  | zero => rfl
  | succ k ih => rw [leBytes, List.length_cons, ih]

theorem leValue_leBytes (k n : ℕ) (h : n < 256^k) : leValue (leBytes k n) = n := by
  induction k generalizing n with
  | zero =>
    have hn : n = 0 := by simpa using h
    rw [hn]
    rfl
  | succ k ih =>
    have hd : n/256 < 256^k := by
      rw [Nat.div_lt_iff_lt_mul (by decide), ← pow_succ]
      exact h
    rw [leBytes, leValue, ih (n/256) hd, UInt8.toNat_ofNat']
    omega

/-- The first `k` bytes as a number, and the rest. -/
def readLe (k : ℕ) (l : List UInt8) : Option (ℕ × List UInt8) :=
  if l.length < k then none else some (leValue (l.take k), l.drop k)

theorem readLe_leBytes (k n : ℕ) (rest : List UInt8) (h : n < 256^k) :
    readLe k (leBytes k n++rest) = some (n, rest) := by
  have hlen := leBytes_length k n
  rw [readLe, if_neg (by rw [List.length_append]; omega)]
  rw [List.take_append_of_le_length (by omega), List.take_of_length_le (by omega),
    List.drop_append_of_le_length (by omega), List.drop_of_length_le (by omega),
    leValue_leBytes k n h]
  rfl

end VeTls.Bytes
