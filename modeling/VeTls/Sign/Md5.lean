import VeTls.Sign.Sha256

/-!
# The body digest is MD5

The loop of 64 rounds that rotates its words is the four rounds of the
standard, where a step names the word it assigns.
-/

set_option autoImplicit false

namespace VeTls.Sign

open VeTls.Blocks (blocks)
open VeTls.Bytes (leBytes leValue)
open VeTls.Digests.Md5 (Order Step Vars assign step round1 round2 round3 round4)
open VeTls.Wire (Bytes)

section Rounds

/-- The words as the loop has them before a step of this order. -/
def viewOf (v : Vars) : Order → Md5Words
  | .abcd => ⟨v.a, v.b, v.c, v.d⟩
  | .dabc => ⟨v.d, v.a, v.b, v.c⟩
  | .cdab => ⟨v.c, v.d, v.a, v.b⟩
  | .bcda => ⟨v.b, v.c, v.d, v.a⟩

def orderAt (i : ℕ) : Order :=
  match i % 4 with
  | 0 => .abcd
  | 1 => .dabc
  | 2 => .cdab
  | _ => .bcda

/-- The step that the standard has for round `i` of the loop. -/
def stepAt (i : ℕ) : Step :=
  ⟨orderAt i, (md5Mix i 0 0 0).2, md5S.getD i 0, md5K.getD i 0⟩

def mixAt (i : ℕ) (b c d : UInt32) : UInt32 := (md5Mix i b c d).1

def nextOrder : Order → Order
  | .abcd => .dabc
  | .dabc => .cdab
  | .cdab => .bcda
  | .bcda => .abcd

theorem orderAt_succ (i : ℕ) : orderAt (i+1) = nextOrder (orderAt i) := by
  have hlt : i % 4 < 4 := Nat.mod_lt i (by decide)
  unfold orderAt
  rw [Nat.add_mod]
  generalize i % 4 = r at hlt
  interval_cases r <;> rfl

theorem loadLe32_eq (p : Bytes) : loadLe32 p = UInt32.ofNat (leValue p) := by
  have hrev : loadLe32 p = loadBe32 p.reverse := by
    rw [loadLe32, loadBe32, List.foldl_reverse]
    simp only [UInt32.or_comm]
  rw [hrev, loadBe32_eq, List.reverse_reverse]

theorem storeLe32_eq (v : UInt32) : storeLe32 v = leBytes 4 v.toNat :=
  List.reverse_injective (storeBe32_eq v)

theorem storeLe64_eq (n : ℕ) : storeLe64 (UInt64.ofNat n) = leBytes 8 n :=
  List.reverse_injective (storeBe64_eq n)

theorem md5Mix_eq (i : ℕ) (b c d : UInt32) : md5Mix i b c d = (mixAt i b c d, (stepAt i).k) := by
  have hk : (md5Mix i b c d).2 = (md5Mix i 0 0 0).2 := by
    unfold md5Mix
    split
    · rfl
    · split
      · rfl
      · split <;> rfl
  exact Prod.ext rfl hk

theorem stepAt_k_lt : ∀ i < 64, (stepAt i).k < 16 := by decide

/-- One round of the loop is the step of the standard, seen with the words
of the next order. -/
theorem md5Round_view (block : Bytes) (m : List UInt32)
    (hm : ∀ k < 16, m.getD k 0 = Digests.Md5.word block k) (v : Vars) (i : ℕ) (hi : i < 64) :
    md5Round m (viewOf v (orderAt i)) i =
      viewOf (step (mixAt i) block v (stepAt i)) (orderAt (i+1)) := by
  have hround : ∀ w : Md5Words, md5Round m w i =
      ⟨w.d, assign (mixAt i) (Digests.Md5.word block (stepAt i).k) (stepAt i) w.a w.b w.c w.d,
        w.b, w.c⟩ := by
    intro w
    unfold md5Round assign
    rw [md5Mix_eq, ← hm _ (stepAt_k_lt i hi)]
    dsimp only
    rw [add_right_comm (w.a+_)]
    rfl
  have horder : (stepAt i).order = orderAt i := rfl
  rw [hround, orderAt_succ, step, horder]
  cases orderAt i <;> rfl

theorem md5Rounds_view (block : Bytes) (m : List UInt32)
    (hm : ∀ k < 16, m.getD k 0 = Digests.Md5.word block k) (v : Vars) (n : ℕ) (hn : n ≤ 64) :
    (List.range n).foldl (md5Round m) (viewOf v .abcd) =
      viewOf ((List.range n).foldl (fun v i => step (mixAt i) block v (stepAt i)) v)
        (orderAt n) := by
  induction n with
  | zero => rfl
  | succ n ih =>
    rw [List.range_succ, List.foldl_append, List.foldl_append, ih (by omega)]
    exact md5Round_view block m hm _ n (by omega)

/-- Sixteen rounds that mix with one function are a round of the standard. -/
theorem round_eq (op : UInt32 → UInt32 → UInt32 → UInt32) (block : Bytes) (v : Vars)
    (l : List ℕ) (hop : ∀ i ∈ l, ∀ b c d, mixAt i b c d = op b c d) :
    l.foldl (fun v i => step (mixAt i) block v (stepAt i)) v =
      (l.map stepAt).foldl (step op block) v := by
  rw [List.foldl_map]
  apply List.foldl_ext
  intro v i hi
  have hmix : mixAt i = op := by
    funext b c d
    exact hop i hi b c d
  rw [hmix]

theorem mixAt_eq (i : ℕ) (b c d : UInt32) :
    mixAt i b c d = if i < 16 then Digests.Md5.f b c d
      else if i < 32 then Digests.Md5.g b c d
      else if i < 48 then Digests.Md5.h b c d
      else Digests.Md5.i b c d := by
  unfold mixAt md5Mix
  split
  · rfl
  · split
    · rw [Digests.Md5.g, UInt32.and_comm d b, UInt32.and_comm c]
    · split <;> rfl

end Rounds

section Compression

def Md5Words.vars (w : Md5Words) : Vars := ⟨w.a, w.b, w.c, w.d⟩

theorem rounds_eq (block : Bytes) (v : Vars) :
    (List.range 64).foldl (fun v i => step (mixAt i) block v (stepAt i)) v =
      round4.foldl (step Digests.Md5.i block) (round3.foldl (step Digests.Md5.h block)
        (round2.foldl (step Digests.Md5.g block) (round1.foldl (step Digests.Md5.f block) v))) := by
  have hsplit : List.range 64 =
      List.range' 0 16++(List.range' 16 16++(List.range' 32 16++List.range' 48 16)) := by decide
  have h1 : round1 = (List.range' 0 16).map stepAt := by decide
  have h2 : round2 = (List.range' 16 16).map stepAt := by decide
  have h3 : round3 = (List.range' 32 16).map stepAt := by decide
  have h4 : round4 = (List.range' 48 16).map stepAt := by decide
  have hmem : ∀ s i, i ∈ List.range' s 16 → s ≤ i ∧ i < s+16 := by
    intro s i hi
    simpa using hi
  rw [hsplit, List.foldl_append, List.foldl_append, List.foldl_append, h1, h2, h3, h4,
    ← round_eq, ← round_eq, ← round_eq, ← round_eq]
  · intro i hi b c d
    have := hmem _ i hi
    rw [mixAt_eq, if_pos (by omega)]
  · intro i hi b c d
    have := hmem _ i hi
    rw [mixAt_eq, if_neg (by omega), if_pos (by omega)]
  · intro i hi b c d
    have := hmem _ i hi
    rw [mixAt_eq, if_neg (by omega), if_neg (by omega), if_pos (by omega)]
  · intro i hi b c d
    have := hmem _ i hi
    rw [mixAt_eq, if_neg (by omega), if_neg (by omega), if_neg (by omega)]

theorem md5Transform_vars (w : Md5Words) (block : Bytes) :
    (md5Transform w block).vars = Digests.Md5.compress w.vars block := by
  have hm : ∀ k < 16, ((List.range 16).map fun i => loadLe32 ((block.drop (i*4)).take 4)).getD k 0 =
      Digests.Md5.word block k := by
    intro k hk
    rw [List.getD_eq_getElem _ _ (by simpa using hk), List.getElem_map, List.getElem_range,
      loadLe32_eq, Digests.Md5.word, Nat.mul_comm]
  have hloop := md5Rounds_view block _ hm w.vars 64 le_rfl
  rw [rounds_eq] at hloop
  have hview : viewOf w.vars .abcd = w := rfl
  rw [hview] at hloop
  unfold md5Transform Digests.Md5.compress
  dsimp only
  rw [hloop]
  simp only [Md5Words.vars, viewOf, orderAt, UInt32.add_comm]

theorem md5Fold_vars (l : List Bytes) : (l.foldl md5Transform md5Init.h).vars =
    l.foldl Digests.Md5.compress Digests.Md5.initial :=
  (List.foldl_hom Md5Words.vars fun w block => (md5Transform_vars w block).symm).symm

end Compression

/-- However a message is cut, also into pieces without bytes, the digest is
MD5 of the whole. -/
theorem md5_standard (pieces : List Bytes) :
    md5Final (pieces.foldl (fun ctx piece => md5Update piece ctx) md5Init) =
      Digests.md5 pieces.flatten := by
  have hstart : md5Init = after md5Transform md5Init.h [] := rfl
  have hstore : storeLe32 = fun w => leBytes 4 w.toNat := funext storeLe32_eq
  have hmod := Digests.leBytes_mod 8
  rw [hstart]
  unfold md5Update md5Final
  rw [digestUpdate_pieces, digestFinal_after md5Transform md5Init.h storeLe64 (leBytes 8)
    (fun n => (storeLe64_eq n).trans (hmod n).symm) hmod, hstore, Digests.md5, ← md5Fold_vars,
    List.nil_append]
  rfl

end VeTls.Sign
