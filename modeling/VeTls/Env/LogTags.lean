import VeTls.Lib.Allocator
import VeTls.Env.Lengths

/-!
# The tags of a producer

A new producer copies the tags of its logs, each key and each value into a
block of its own. Where there is no memory for one of them, those copied
before are freed and the producer is not created.
-/

set_option autoImplicit false

namespace VeTls.LogTags

open VeTls.Keys (CStr)
open VeTls.Lengths (Memory Kv textAt)
open VeTls.Allocator (Ledger Owns calloc freeAll)

/-- A tag that was copied; a null pointer is none. -/
structure Tag where
  key : Option (ℕ × CStr)
  value : Option (ℕ × CStr)
  deriving DecidableEq, Repr

def Tag.blocks (t : Tag) : List ℕ := (t.key.map Prod.fst).toList++(t.value.map Prod.fst).toList

structure Tags where
  array : Option ℕ
  tags : List Tag
  deriving DecidableEq, Repr

def Tags.blocks (t : Tags) : List ℕ := t.tags.flatMap Tag.blocks++t.array.toList

def dupCstr (mem : Memory) (s : ℕ) (h : Ledger) : Option (ℕ × CStr) × Ledger :=
  if s = 0 then (none, h) else ((calloc h).1.map fun a => (a, textAt mem s), (calloc h).2)

/-- The loop over the tags; `done` are those copied before. -/
def copyTags (mem : Memory) : List Kv → List Tag → Ledger → Option (List Tag) × Ledger
  | [], done, h => (some done, h)
  | t::rest, done, h =>
    let key := dupCstr mem t.key h
    let value := dupCstr mem t.value key.2
    let done := done++[⟨key.1, value.1⟩]
    if t.key ≠ 0 ∧ key.1 = none ∨ t.value ≠ 0 ∧ value.1 = none then
      (none, freeAll (done.flatMap Tag.blocks) value.2)
    else copyTags mem rest done value.2

def copyLogTags (mem : Memory) (tags : List Kv) (h : Ledger) : Option Tags × Ledger :=
  if tags = [] then (some ⟨none, []⟩, h)
  else if tags.length > (2^64-1)/16 then (none, h)
  else
    match calloc h with
    | (none, h) => (none, h)
    | (some array, h) =>
      match copyTags mem tags [] h with
      | (none, h) => (none, freeAll [array] h)
      | (some copy, h) => (some ⟨some array, copy⟩, h)

/-- The part of `ve_tls_producer_destroy` about the tags. -/
def freeLogTags (t : Tags) (h : Ledger) : Ledger := freeAll t.blocks h

def textOf (mem : Memory) (s : ℕ) : Option CStr := if s = 0 then none else some (textAt mem s)

def Tag.text (t : Tag) : Option CStr × Option CStr := (t.key.map Prod.snd, t.value.map Prod.snd)

def kvText (mem : Memory) (t : Kv) : Option CStr × Option CStr :=
  (textOf mem t.key, textOf mem t.value)

variable {h h' : Ledger} {own base : List ℕ}

theorem dupCstr_owns (mem : Memory) (s : ℕ) (ho : Owns h own base) :
    Owns (dupCstr mem s h).2 (((dupCstr mem s h).1.map Prod.fst).toList++own) base := by
  unfold dupCstr
  split
  · exact ho
  · have hc := ho.calloc
    cases he : (calloc h).1 with
    | none =>
      rw [he] at hc
      exact hc
    | some a =>
      rw [he] at hc
      exact hc

/-- A string that was copied, or was null, is the one in memory. -/
theorem dupCstr_text (mem : Memory) (s : ℕ) (hc : ¬(s ≠ 0 ∧ (dupCstr mem s h).1 = none)) :
    (dupCstr mem s h).1.map Prod.snd = textOf mem s := by
  unfold dupCstr textOf at *
  by_cases hs : s = 0
  · rw [if_pos hs, if_pos hs]
    rfl
  · rw [if_neg hs] at hc ⊢
    rw [if_neg hs]
    cases he : (calloc h).1 with
    | none => exact absurd ⟨hs, by rw [he]; rfl⟩ hc
    | some a => rfl

theorem copyTags_owns (mem : Memory) (l : List Kv) (done : List Tag) (h : Ledger)
    (ho : Owns h (done.flatMap Tag.blocks++own) base) :
    Owns (copyTags mem l done h).2
      (((copyTags mem l done h).1.getD []).flatMap Tag.blocks++own) base := by
  induction l generalizing done h with
  | nil => exact ho
  | cons t rest ih =>
    have hkey := dupCstr_owns mem t.key ho
    have hvalue := dupCstr_owns mem t.value hkey
    have hdone : Owns (dupCstr mem t.value (dupCstr mem t.key h).2).2
        ((done++[Tag.mk (dupCstr mem t.key h).1
          (dupCstr mem t.value (dupCstr mem t.key h).2).1]).flatMap Tag.blocks++own) base := by
      refine hvalue.perm ((List.perm_append_comm_assoc _ _ _).trans ?_)
      rw [List.flatMap_append, List.flatMap_singleton, Tag.blocks, List.append_assoc,
        ← List.append_assoc]
      exact List.perm_append_comm_assoc _ _ _
    rw [copyTags]
    split
    · exact Owns.freeAll _ _ hdone
    · exact ih _ _ hdone

theorem copyTags_text (mem : Memory) (l : List Kv) (done copy : List Tag) (h : Ledger)
    (he : copyTags mem l done h = (some copy, h')) :
    copy.map Tag.text = done.map Tag.text++l.map (kvText mem) := by
  induction l generalizing done h with
  | nil =>
    obtain rfl := Option.some.inj (Prod.mk.inj he).1
    exact (List.append_nil _).symm
  | cons t rest ih =>
    rw [copyTags] at he
    split at he
    · cases he
    · rename_i hc
      obtain ⟨hkey, hvalue⟩ := not_or.mp hc
      rw [ih _ _ he, List.map_append, List.append_assoc]
      show _++((_, _)::_) = _++((_, _)::_)
      rw [← dupCstr_text mem t.key hkey, ← dupCstr_text mem t.value hvalue]
      rfl

theorem copyLogTags_owns (mem : Memory) (tags : List Kv) (ho : Owns h [] base) :
    Owns (copyLogTags mem tags h).2
      (((copyLogTags mem tags h).1.map Tags.blocks).getD []) base := by
  unfold copyLogTags
  split
  · exact ho
  · split
    · exact ho
    · split
      · rename_i h₁ he
        exact ho.calloc_none he
      · rename_i array h₁ he
        have hown : Owns h₁ (([] : List Tag).flatMap Tag.blocks++[array]) base :=
          ho.calloc_some he
        have hcopy := copyTags_owns mem tags [] h₁ hown
        split
        · rename_i h₂ hx
          rw [hx] at hcopy
          exact Owns.freeAll _ _ hcopy
        · rename_i copy h₂ hx
          rw [hx] at hcopy
          exact hcopy

/-- Whatever the allocator answers, tags that cannot be copied leave no block
behind, and those that are copied read as in memory, a null pointer as null,
until the producer is destroyed and frees each of their blocks once. -/
theorem logTags_copied (mem : Memory) (tags : List Kv) (h h' : Ledger) (r : Option Tags)
    (hs : h.sound = true) (he : copyLogTags mem tags h = (r, h')) :
    (r = none → h'.blocks.Perm h.blocks ∧ h'.sound = true) ∧
    ∀ t, r = some t → t.tags.map Tag.text = tags.map (kvText mem) ∧
      (freeLogTags t h').blocks.Perm h.blocks ∧ (freeLogTags t h').sound = true := by
  have howns := copyLogTags_owns mem tags (Allocator.owns_nil hs)
  rw [he] at howns
  refine ⟨fun hr => ?_, fun t hr => ?_⟩
  · rw [hr] at howns
    exact ⟨howns.blocks, howns.sound⟩
  · rw [hr] at howns he
    have hfree := Owns.freeAll t.blocks h' (howns.perm (.of_eq (List.append_nil _).symm))
    refine ⟨?_, hfree.blocks, hfree.sound⟩
    unfold copyLogTags at he
    split at he
    · rename_i hnil
      obtain rfl := Option.some.inj (Prod.mk.inj he).1
      rw [hnil]
      rfl
    · split at he
      · cases he
      · split at he
        · cases he
        · split at he
          · cases he
          · rename_i copy h₂ hx
            obtain rfl := Option.some.inj (Prod.mk.inj he).1
            exact copyTags_text mem tags [] copy _ hx

/-- Two tags, the second without a value, and four blocks for them. -/
def twoTags : List Kv := [⟨8, 16⟩, ⟨24, 0⟩]

theorem logTags_copied_two : ∃ t h', copyLogTags (fun _ => [97, 0]) twoTags
      ⟨[some 1, some 2, some 3, some 4], [7], true⟩ = (some t, h') ∧
    t.tags.map Tag.text = [(some [97], some [97]), (some [97], none)] ∧
    (freeLogTags t h').blocks.Perm [7] ∧ (freeLogTags t h').sound = true :=
  ⟨_, _, rfl, (logTags_copied (fun _ => [97, 0]) twoTags
    ⟨[some 1, some 2, some 3, some 4], [7], true⟩ _ _ rfl rfl).2 _ rfl⟩

end VeTls.LogTags
