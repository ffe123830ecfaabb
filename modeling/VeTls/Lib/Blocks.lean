import Mathlib

/-!
# Streams that are taken in blocks

A fold over the full blocks of a stream, fed with the stream in pieces. What
does not fill a block waits in a buffer in front of the next piece. However
the stream is cut, the fold and the buffer are those of the whole stream.
-/

set_option autoImplicit false

namespace VeTls.Blocks

variable {σ β : Type*}

/-- The full blocks of `n` elements. -/
def blocks (n : ℕ) (l : List β) : List (List β) :=
  (List.range (l.length/n)).map fun i => (l.drop (n*i)).take n

/-- What is left after the full blocks. -/
def rest (n : ℕ) (l : List β) : List β := l.drop (n*(l.length/n))

def drain (n : ℕ) (f : σ → List β → σ) : ℕ → σ → List β → σ × List β
  | 0, s, l => (s, l)
  | k+1, s, l => if l.length ≥ n then drain n f k (f s (l.take n)) (l.drop n) else (s, l)

/-- The buffer is filled up from the front of the piece. -/
def fill (n : ℕ) (f : σ → List β → σ) (piece : List β) (s : σ) (buf : List β) :
    σ × List β × List β :=
  let k := min (n-buf.length) piece.length
  let buf := buf++piece.take k
  if buf.length = n then (f s buf, [], piece.drop k) else (s, buf, piece.drop k)

def feed (n : ℕ) (f : σ → List β → σ) (piece : List β) (s : σ) (buf : List β) : σ × List β :=
  let (s, buf, piece) := if buf.length > 0 then fill n f piece s buf else (s, buf, piece)
  let (s, left) := drain n f (piece.length/n) s piece
  (s, if left.length > 0 then left else buf)

section Cut

variable (n : ℕ)

theorem blocks_of_lt (l : List β) (h : l.length < n) : blocks n l = [] := by
  rw [blocks, Nat.div_eq_of_lt h]
  rfl

theorem length_div (hn : 0 < n) (l : List β) (h : n ≤ l.length) :
    l.length/n = (l.drop n).length/n+1 := by
  rw [List.length_drop, ← Nat.add_div_right _ hn, Nat.sub_add_cancel h]

theorem blocks_cons (hn : 0 < n) (l : List β) (h : n ≤ l.length) :
    blocks n l = l.take n::blocks n (l.drop n) := by
  rw [blocks, length_div n hn l h, List.range_succ_eq_map, List.map_cons, List.map_map, Nat.mul_zero,
    List.drop_zero, blocks]
  congr 1
  apply List.map_congr_left
  intro i _
  rw [Function.comp_apply, List.drop_drop, Nat.mul_succ, Nat.add_comm n]

theorem rest_of_lt (l : List β) (h : l.length < n) : rest n l = l := by
  rw [rest, Nat.div_eq_of_lt h, Nat.mul_zero, List.drop_zero]

theorem rest_drop (hn : 0 < n) (l : List β) (h : n ≤ l.length) : rest n (l.drop n) = rest n l := by
  rw [rest, rest, length_div n hn l h, List.drop_drop, Nat.mul_succ, Nat.add_comm n]

theorem rest_length (l : List β) : (rest n l).length = l.length % n := by
  rw [rest, List.length_drop, Nat.mod_def]

theorem rest_append_eq (hn : 0 < n) (l m : List β) (h : n ∣ l.length) :
    blocks n (l++m) = blocks n l++blocks n m ∧ rest n (l++m) = rest n m := by
  obtain ⟨k, hk⟩ := h
  induction k generalizing l with
  | zero =>
    obtain rfl := List.length_eq_zero_iff.mp hk
    exact ⟨by rw [blocks_of_lt n [] hn]; rfl, rfl⟩
  | succ k ih =>
    have hle : n ≤ l.length := by
      rw [hk]
      exact Nat.le_mul_of_pos_right n k.succ_pos
    have hlen : (l.drop n).length = n*k := by
      rw [List.length_drop, hk, Nat.mul_succ, Nat.add_sub_cancel]
    obtain ⟨hb, hr⟩ := ih (l.drop n) hlen
    have hle' : n ≤ (l++m).length := by
      rw [List.length_append]
      omega
    constructor
    · rw [blocks_cons n hn (l++m) hle', blocks_cons n hn l hle,
        List.take_append_of_le_length hle, List.drop_append_of_le_length hle, hb, List.cons_append]
    · rw [← rest_drop n hn (l++m) hle', List.drop_append_of_le_length hle, hr]

theorem blocks_self (hn : 0 < n) (l : List β) (h : l.length = n) : blocks n l = [l] := by
  rw [blocks_cons n hn l h.ge, List.take_of_length_le h.le, List.drop_of_length_le h.le,
    blocks_of_lt n [] hn]

end Cut

section Feed

variable (n : ℕ) (f : σ → List β → σ)

theorem drain_eq (hn : 0 < n) (k : ℕ) (s : σ) (l : List β) (hk : l.length/n ≤ k) :
    drain n f k s l = ((blocks n l).foldl f s, rest n l) := by
  induction k generalizing s l with
  | zero =>
    have hlt : l.length < n := by
      by_contra hge
      exact absurd (Nat.div_pos (Nat.le_of_not_lt hge) hn) (by omega)
    rw [drain, blocks_of_lt n l hlt, rest_of_lt n l hlt]
    rfl
  | succ k ih =>
    rw [drain]
    by_cases hge : l.length ≥ n
    · have hdiv := length_div n hn l hge
      rw [if_pos hge, ih _ _ (by omega), blocks_cons n hn l hge, List.foldl_cons,
        rest_drop n hn l hge]
    · have hlt : l.length < n := Nat.lt_of_not_ge hge
      rw [if_neg hge, blocks_of_lt n l hlt, rest_of_lt n l hlt]
      rfl

/-- A buffer is treated as the front of the piece. -/
theorem feed_front (hn : 0 < n) (piece : List β) (s : σ) (buf : List β) (hbuf : buf.length < n) :
    feed n f piece s buf = ((blocks n (buf++piece)).foldl f s, rest n (buf++piece)) := by
  have hkeep : ∀ l : List β, (if l.length > 0 then l else []) = l := by
    intro l
    cases l <;> rfl
  rw [feed]
  by_cases hempty : buf = []
  · subst hempty
    simp only [List.length_nil, gt_iff_lt, lt_irrefl, if_false, drain_eq n f hn _ s piece le_rfl,
      List.nil_append, hkeep]
  · have hpos : buf.length > 0 := List.length_pos_iff.mpr hempty
    simp only [if_pos hpos, fill]
    by_cases hfull : n-buf.length ≤ piece.length
    · have hlen : (buf++piece.take (n-buf.length)).length = n := by
        rw [List.length_append, List.length_take]
        omega
      have hsplit : buf++piece =
          (buf++piece.take (n-buf.length))++piece.drop (n-buf.length) := by
        rw [List.append_assoc, List.take_append_drop]
      obtain ⟨hb, hr⟩ := rest_append_eq n hn _ (piece.drop (n-buf.length)) (Dvd.intro 1 (by omega :
        n*1 = (buf++piece.take (n-buf.length)).length))
      rw [min_eq_left hfull, if_pos hlen]
      simp only [drain_eq n f hn _ _ _ le_rfl, hkeep]
      rw [hsplit, hb, hr, blocks_self n hn _ hlen]
      rfl
    · have hlt : (buf++piece).length < n := by
        rw [List.length_append]
        omega
      rw [min_eq_right (by omega), List.take_length, List.drop_length, if_neg hlt.ne]
      simp only [List.length_nil, Nat.zero_div, drain, gt_iff_lt, lt_irrefl, if_false]
      rw [blocks_of_lt n _ hlt, rest_of_lt n _ hlt]
      rfl

/-- The pieces of a stream may be cut in any way. -/
theorem feed_append (hn : 0 < n) (stream piece : List β) (s : σ) :
    feed n f piece ((blocks n stream).foldl f s) (rest n stream) =
      ((blocks n (stream++piece)).foldl f s, rest n (stream++piece)) := by
  have hshort : (rest n stream).length < n := by
    rw [rest_length]
    exact Nat.mod_lt _ hn
  have hwhole : n ∣ (stream.take (n*(stream.length/n))).length := by
    rw [List.length_take, min_eq_left (Nat.mul_div_le _ _)]
    exact Nat.dvd_mul_right n _
  have hsplit : stream = stream.take (n*(stream.length/n))++rest n stream :=
    (List.take_append_drop _ stream).symm
  obtain ⟨hb, -⟩ := rest_append_eq n hn _ (rest n stream) hwhole
  obtain ⟨hb', hr'⟩ := rest_append_eq n hn _ (rest n stream++piece) hwhole
  have hstream : blocks n stream = blocks n (stream.take (n*(stream.length/n))) := by
    conv_lhs => rw [hsplit]
    rw [hb, blocks_of_lt n _ hshort, List.append_nil]
  have happend : stream++piece = stream.take (n*(stream.length/n))++(rest n stream++piece) := by
    rw [← List.append_assoc, ← hsplit]
  rw [feed_front n f hn piece _ _ hshort, happend, hb', hr', List.foldl_append, ← hstream]

end Feed

end VeTls.Blocks
