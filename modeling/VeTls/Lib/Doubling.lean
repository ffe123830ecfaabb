import Mathlib

/-!
# Capacities that grow by doubling

A block of memory is given anew with a larger capacity. The capacity is
doubled until it reaches a target; one that cannot be doubled becomes the
target itself. Numbers are at most `max`, and a product is taken modulo
`max+1`. The loop ends within as many rounds as it takes to double one up to
`max`, and its result is between the target and `max`.
-/

set_option autoImplicit false

namespace VeTls.Doubling

/-- `none` when the loop has not ended after the given number of rounds. -/
def grow (max : ℕ) : ℕ → ℕ → ℕ → Option ℕ
  | 0, _, _ => none
  | rounds+1, target, next =>
    if next < target then
      if next > max/2 then some target else grow max rounds target (next*2 % (max+1))
    else some next

theorem grow_more (max rounds more target next cap : ℕ) (hle : rounds ≤ more)
    (h : grow max rounds target next = some cap) : grow max more target next = some cap := by
  induction rounds generalizing more next with
  | zero => cases h
  | succ rounds ih =>
    obtain ⟨more, rfl⟩ : ∃ k, more = k+1 := ⟨more-1, by omega⟩
    rw [grow] at h ⊢
    split at h
    · rename_i hlt
      rw [if_pos hlt]
      split at h
      · rename_i hhalf
        rw [if_pos hhalf]
        exact h
      · rename_i hhalf
        rw [if_neg hhalf]
        exact ih more _ (by omega) h
    · rename_i hge
      rw [if_neg hge]
      exact h

/-- A capacity of which `rounds` doublings go past `max` needs no more rounds. -/
theorem grow_ends (max rounds target next : ℕ) (hnext : next ≤ max) (htarget : target ≤ max)
    (h : max < next*2^rounds) :
    ∃ cap, grow max rounds target next = some cap ∧ target ≤ cap ∧ next ≤ cap ∧ cap ≤ max := by
  induction rounds generalizing next with
  | zero => omega
  | succ rounds ih =>
    rw [grow]
    split
    · rename_i hlt
      split
      · exact ⟨target, rfl, le_rfl, hlt.le, htarget⟩
      · rename_i hhalf
        have hwhole : next*2 % (max+1) = next*2 := Nat.mod_eq_of_lt (by omega)
        have hbound : max < next*2*2^rounds := by
          rw [pow_succ] at h
          linarith
        obtain ⟨cap, hcap, hto, hfrom, hle⟩ := ih (next*2) (by omega) hbound
        exact ⟨cap, by rw [hwhole]; exact hcap, hto, by omega, hle⟩
    · exact ⟨next, rfl, by omega, le_rfl, hnext⟩

/-- What is promised of an allocator: a block of the size asked for, which
begins with as much of the old one as there is room for. -/
structure Realloc (β : Type*) where
  call : List β → ℕ → Option (List β)
  size : ∀ block n p, call block n = some p → p.length = n
  keeps : ∀ block n p, call block n = some p →
    p.take (min block.length n) = block.take (min block.length n)

/-- The allocator that never fails and fills up with one value. -/
def Realloc.always {β : Type*} (x : β) : Realloc β where
  call block n := some (block.take n++List.replicate (n-block.length) x)
  size := by
    rintro block n p h
    obtain rfl := Option.some.inj h
    rw [List.length_append, List.length_take, List.length_replicate]
    omega
  keeps := by
    rintro block n p h
    obtain rfl := Option.some.inj h
    have hlen : min block.length n ≤ (block.take n).length := by
      rw [List.length_take]
      omega
    rw [List.take_append_of_le_length hlen, List.take_take, min_eq_left (Nat.min_le_right _ _)]

theorem Realloc.keeps_all {β : Type*} (mem : Realloc β) (block p : List β) (n : ℕ)
    (h : mem.call block n = some p) (hn : block.length ≤ n) : p.take block.length = block := by
  have hkeeps := mem.keeps block n p h
  rwa [min_eq_left hn, List.take_length] at hkeeps

end VeTls.Doubling
