import Mathlib

/-!
# A ledger of allocated blocks

What an allocator has handed out. It answers with any address that is not in
use, or has no memory; a free of a block that is not there is remembered. A
piece of code owns some of the blocks next to those of everybody else, and
the rules follow what it owns through its allocations and frees.
-/

set_option autoImplicit false

namespace VeTls.Allocator

structure Ledger where
  answers : List (Option ℕ)
  blocks : List ℕ
  sound : Bool
  deriving DecidableEq, Repr

/-- Null and an address in use count as no memory. -/
def calloc (h : Ledger) : Option ℕ × Ledger :=
  match h.answers with
  | [] => (none, h)
  | none::answers => (none, { h with answers := answers })
  | some a::answers =>
    if a = 0 ∨ a ∈ h.blocks then (none, { h with answers := answers })
    else (some a, { h with answers := answers, blocks := a::h.blocks })

def free (a : ℕ) (h : Ledger) : Ledger :=
  if a = 0 then h
  else { h with blocks := h.blocks.erase a, sound := h.sound && decide (a ∈ h.blocks) }

def freeAll : List ℕ → Ledger → Ledger
  | [], h => h
  | a::l, h => freeAll l (free a h)

/-- Of the blocks, `own` are this piece of code's and `base` are others'. -/
structure Owns (h : Ledger) (own base : List ℕ) : Prop where
  blocks : h.blocks.Perm (own++base)
  sound : h.sound = true
  real : ∀ a ∈ own, a ≠ 0

variable {h : Ledger} {own base : List ℕ}

theorem owns_nil (hs : h.sound = true) : Owns h [] h.blocks :=
  ⟨.refl _, hs, fun _ ha => absurd ha List.not_mem_nil⟩

theorem Owns.perm {own' : List ℕ} (ho : Owns h own base) (hp : own.Perm own') :
    Owns h own' base :=
  ⟨ho.blocks.trans (hp.append_right base), ho.sound, fun a ha => ho.real a (hp.mem_iff.mpr ha)⟩

theorem Owns.calloc (ho : Owns h own base) :
    Owns (calloc h).2 ((calloc h).1.toList++own) base := by
  unfold Allocator.calloc
  split
  · exact ho
  · exact ⟨ho.blocks, ho.sound, ho.real⟩
  · rename_i a answers hanswers
    split
    · exact ⟨ho.blocks, ho.sound, ho.real⟩
    · rename_i hfree
      refine ⟨ho.blocks.cons a, ho.sound, fun b hb => ?_⟩
      rcases List.mem_cons.mp hb with rfl | hb
      · exact fun hzero => hfree (.inl hzero)
      · exact ho.real b hb

theorem Owns.calloc_none {h' : Ledger} (ho : Owns h own base)
    (he : Allocator.calloc h = (none, h')) : Owns h' own base := by
  have hc := ho.calloc
  rw [he] at hc
  exact hc

theorem Owns.calloc_some {h' : Ledger} {a : ℕ} (ho : Owns h own base)
    (he : Allocator.calloc h = (some a, h')) : Owns h' (a::own) base := by
  have hc := ho.calloc
  rw [he] at hc
  exact hc

theorem Owns.free {a : ℕ} (ho : Owns h (a::own) base) : Owns (free a h) own base := by
  have hmem : a ∈ h.blocks := ho.blocks.mem_iff.mpr List.mem_cons_self
  rw [Allocator.free, if_neg (ho.real a List.mem_cons_self)]
  refine ⟨?_, ?_, fun b hb => ho.real b (List.mem_cons_of_mem a hb)⟩
  · have herase := ho.blocks.erase a
    rwa [List.cons_append, List.erase_cons_head] at herase
  · show (h.sound && decide (a ∈ h.blocks)) = true
    rw [ho.sound, decide_eq_true hmem]
    rfl

theorem Owns.freeAll (l : List ℕ) (h : Ledger) (ho : Owns h (l++own) base) :
    Owns (freeAll l h) own base := by
  induction l generalizing h with
  | nil => exact ho
  | cons a l ih => exact ih (Allocator.free a h) ho.free

end VeTls.Allocator
