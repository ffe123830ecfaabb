import Mathlib

/-!
# The parts of a URL

A URL with an authority has a scheme, an authority, a path and perhaps a query
and a fragment. The authority ends at the first slash, question mark or number
sign, the path at the first of the last two, the query at a number sign.
-/

set_option autoImplicit false

namespace VeTls.Url

abbrev Bytes := List UInt8

structure Parts where
  scheme : Bytes
  authority : Bytes
  path : Bytes
  query : Option Bytes
  fragment : Option Bytes
  deriving DecidableEq, Repr

/-- Everything but a slash, a question mark or a number sign. -/
def inAuthority (c : UInt8) : Bool := c != 47 && c != 63 && c != 35

def inPath (c : UInt8) : Bool := c != 63 && c != 35

def inQuery (c : UInt8) : Bool := c != 35

/-- What follows the sign, if the text begins with it. -/
def after (sign : UInt8) : Bytes → Option Bytes
  | [] => none
  | c::s => if c = sign then some s else none

/-- The query and the fragment. -/
def parseTail (s : Bytes) : Option Bytes × Option Bytes :=
  match after 63 s with
  | some q => (some (q.takeWhile inQuery), after 35 (q.dropWhile inQuery))
  | none => (none, after 35 s)

def parse (s : Bytes) : Option Parts :=
  match s.dropWhile (· != 58) with
  | 58::47::47::rest =>
    let tail := (rest.dropWhile inAuthority).dropWhile inPath
    some ⟨s.takeWhile (· != 58), rest.takeWhile inAuthority,
      (rest.dropWhile inAuthority).takeWhile inPath, (parseTail tail).1, (parseTail tail).2⟩
  | _ => none

def renderTail (query fragment : Option Bytes) : Bytes :=
  (query.elim [] (63::·))++fragment.elim [] (35::·)

def render (u : Parts) : Bytes :=
  u.scheme++58::47::47::(u.authority++(u.path++renderTail u.query u.fragment))

/-- The parts hold no sign that would end them. -/
structure Formed (u : Parts) : Prop where
  scheme : ∀ c ∈ u.scheme, (c != 58) = true
  authority : ∀ c ∈ u.authority, inAuthority c = true
  path : ∀ c ∈ u.path, inPath c = true
  rooted : u.path.head?.all (· == 47) = true
  query : ∀ q ∈ u.query, ∀ c ∈ q, inQuery c = true

/-- A text splits at the first byte that is not of the kind. -/
theorem span_append (p : UInt8 → Bool) (a r : Bytes) (ha : ∀ c ∈ a, p c = true)
    (hr : ∀ c ∈ r.head?, p c = false) :
    (a++r).takeWhile p = a ∧ (a++r).dropWhile p = r := by
  rw [List.takeWhile_append_of_pos ha, List.dropWhile_append_of_pos ha]
  cases r with
  | nil => simp
  | cons c r =>
    have hc := hr c rfl
    simp [hc]

theorem mem_takeWhile_all (p : UInt8 → Bool) (s : Bytes) : ∀ c ∈ s.takeWhile p, p c = true :=
  fun _ hc => List.mem_takeWhile_imp hc

theorem head_dropWhile (p : UInt8 → Bool) (s : Bytes) :
    ∀ c ∈ (s.dropWhile p).head?, p c = false := by
  intro c hc
  have hne : s.dropWhile p ≠ [] := fun h => by rw [h] at hc; cases hc
  have hhead := List.head_dropWhile_not p hne
  rw [List.head?_eq_some_head hne] at hc
  rw [← Option.some.inj hc]
  simpa using hhead

theorem renderTail_head (query fragment : Option Bytes) :
    ∀ c ∈ (renderTail query fragment).head?, inPath c = false := by
  intro c hc
  cases query with
  | some q =>
    have hc : (63 : UInt8) = c := by simpa [renderTail] using hc
    rw [← hc]
    rfl
  | none =>
    cases fragment with
    | some f =>
      have hc : (35 : UInt8) = c := by simpa [renderTail] using hc
      rw [← hc]
      rfl
    | none => cases hc

theorem parseTail_renderTail (query fragment : Option Bytes)
    (h : ∀ q ∈ query, ∀ c ∈ q, inQuery c = true) :
    parseTail (renderTail query fragment) = (query, fragment) := by
  have hfrag : after 35 (fragment.elim [] (35::·)) = fragment := by cases fragment <;> rfl
  cases query with
  | none =>
    have hnone : after 63 (renderTail none fragment) = none := by cases fragment <;> rfl
    rw [parseTail, hnone]
    exact Prod.ext rfl hfrag
  | some q =>
    have hspan := span_append inQuery q (fragment.elim [] (35::·)) (h q rfl)
      (by intro c hc; cases fragment <;> simp_all [inQuery])
    have hsome : after 63 (renderTail (some q) fragment) =
        some (q++fragment.elim [] (35::·)) := rfl
    rw [parseTail, hsome]
    simp only [hspan.1, hspan.2, hfrag]

theorem renderTail_parseTail (s : Bytes) (h : ∀ c ∈ s.head?, inPath c = false) :
    renderTail (parseTail s).1 (parseTail s).2 = s ∧
      ∀ q ∈ (parseTail s).1, ∀ c ∈ q, inQuery c = true := by
  have hfrag : ∀ t : Bytes, (∀ c ∈ t.head?, inQuery c = false) →
      (after 35 t).elim [] (35::·) = t := by
    intro t ht
    cases t with
    | nil => rfl
    | cons c t =>
      have hc : c = 35 := by simpa [inQuery] using ht c rfl
      rw [hc]
      rfl
  cases s with
  | nil => exact ⟨rfl, nofun⟩
  | cons c s =>
    by_cases hc : c = 63
    · subst hc
      have hp : parseTail (63::s) = (some (s.takeWhile inQuery), after 35 (s.dropWhile inQuery)) :=
        rfl
      rw [hp]
      refine ⟨?_, ?_⟩
      · show 63::(s.takeWhile inQuery++(after 35 (s.dropWhile inQuery)).elim [] (35::·)) = 63::s
        rw [hfrag _ (head_dropWhile inQuery s), List.takeWhile_append_dropWhile]
      · intro q hq x hx
        obtain rfl := Option.some.inj hq
        exact mem_takeWhile_all inQuery s x hx
    · have hc35 : c = 35 := by simpa [inPath, hc] using h c rfl
      subst hc35
      exact ⟨rfl, nofun⟩

/-- The parts of a URL are the only ones that it is put together from. -/
theorem parse_eq_some (s : Bytes) (u : Parts) : parse s = some u ↔ s = render u ∧ Formed u := by
  constructor
  · intro h
    unfold parse at h
    split at h
    · rename_i rest hrest
      obtain rfl := Option.some.inj h
      have hs := List.takeWhile_append_dropWhile (p := (· != 58)) (l := s)
      have ha := List.takeWhile_append_dropWhile (p := inAuthority) (l := rest)
      have hp := List.takeWhile_append_dropWhile (p := inPath) (l := rest.dropWhile inAuthority)
      obtain ⟨htail, hquery⟩ := renderTail_parseTail
        ((rest.dropWhile inAuthority).dropWhile inPath) (head_dropWhile inPath _)
      refine ⟨?_, mem_takeWhile_all (· != 58) s, mem_takeWhile_all inAuthority rest,
        mem_takeWhile_all inPath (rest.dropWhile inAuthority), ?_, hquery⟩
      · rw [render]
        dsimp only
        rw [htail, hp, ha, ← hrest, hs]
      · have hhead := head_dropWhile inAuthority rest
        cases hd : rest.dropWhile inAuthority with
        | nil => rfl
        | cons c t =>
          rw [hd] at hhead
          have hc := hhead c rfl
          by_cases hpath : inPath c = true
          · have hsplit : inAuthority c = (c != 47 && inPath c) := Bool.and_assoc _ _ _
            rw [hsplit, hpath, Bool.and_true] at hc
            have h47 : c = 47 := by simpa using hc
            rw [List.takeWhile_cons, if_pos hpath, h47]
            rfl
          · rw [List.takeWhile_cons, if_neg hpath]
            rfl
    · cases h
  · rintro ⟨rfl, hf⟩
    obtain ⟨hs, hd⟩ := span_append (· != 58) u.scheme
      (58::47::47::(u.authority++(u.path++renderTail u.query u.fragment))) hf.scheme (by simp)
    have hslash : ∀ c ∈ (u.path++renderTail u.query u.fragment).head?, inAuthority c = false := by
      intro c hc
      cases hpath : u.path with
      | nil =>
        rw [hpath] at hc
        have := renderTail_head u.query u.fragment c hc
        simp_all [inAuthority, inPath]
      | cons x p =>
        have hr := hf.rooted
        rw [hpath] at hr hc
        simp_all [inAuthority]
    obtain ⟨ha, har⟩ := span_append inAuthority u.authority _ hf.authority hslash
    obtain ⟨hp, hpr⟩ := span_append inPath u.path _ hf.path (renderTail_head u.query u.fragment)
    rw [parse, render, hd]
    simp only [hs, ha, har, hp, hpr, parseTail_renderTail u.query u.fragment hf.query]

end VeTls.Url
