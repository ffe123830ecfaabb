import VeTls.Lib.Memo
import VeTls.Proto.Export

/-!
# Remembered string lengths

The entry point of a log of keys and values that are given as pointers. The
lengths of long strings are remembered by address in 64 slots of the thread,
while the memory at an address may hold another string at the next call. A
memory gives the bytes that can be read from an address on; the null pointer
is 0.
-/

set_option autoImplicit false

namespace VeTls.Lengths

open VeTls.Keys (CStr)
open VeTls.Wire (Bytes KvLog)
open VeTls.Memo (Policy)

abbrev Memory := ℕ → Bytes

def strlen (text : Bytes) : ℕ := (cstr text).length

structure CstrLenCacheEntry where
  p : ℕ
  n : ℕ
  deriving DecidableEq, Repr

abbrev CstrLenCache := ℕ → CstrLenCacheEntry

def cstrLenStart : CstrLenCache := fun _ => ⟨0, 0⟩

def cstrLenIdx (s : ℕ) : ℕ := s/8 % 64

def cstrLenCached (mem : Memory) (s : ℕ) (c : CstrLenCache) : ℕ × CstrLenCache :=
  if s = 0 ∨ (mem s).headD 0 = 0 then (0, c)
  else if (c (cstrLenIdx s)).p = s then ((c (cstrLenIdx s)).n, c)
  else
    let n := strlen (mem s)
    (n, if n ≥ 32 then Function.update c (cstrLenIdx s) ⟨s, n⟩ else c)

/-- A pair of pointers. -/
structure Kv where
  key : ℕ
  value : ℕ
  deriving DecidableEq, Repr

/-- The arguments of a call, the memory and the clock it sees, and whether
the two arrays of more than 16 lengths were allocated. -/
structure AddLogKv where
  mem : Memory
  timeMs : ℤ
  now : ℤ
  nowNs : Option ℤ
  kvs : List Kv
  allocated : Bool

/-- Without a time the clock is read, to the nanosecond if it can be. -/
def addTime (enableTimeNs : Bool) (x : AddLogKv) : ℤ × ℕ × Bool :=
  if x.timeMs > 0 then (x.timeMs, 0, false)
  else
    match if enableTimeNs then x.nowNs else none with
    | some ns => if ns/1000000 > 0 then (ns/1000000, (ns % 1000000).toNat, true)
        else (x.now, 0, false)
    | none => (x.now, 0, false)

/-- What `memcpy` takes of a string; a null pointer stands for an empty
one. -/
def copied (mem : Memory) (s n : ℕ) : Bytes := if s = 0 then [] else (mem s).take n

def keyValLens (mem : Memory) : List Kv → CstrLenCache → List (ℕ × ℕ) × CstrLenCache
  | [], c => ([], c)
  | kv::kvs, c =>
    let k := cstrLenCached mem kv.key c
    let v := cstrLenCached mem kv.value k.2
    let rest := keyValLens mem kvs v.2
    ((k.1, v.1)::rest.1, rest.2)

/-- The lengths and the log that go on to be added, or the result of a call
that adds none. -/
def addLogKvHashkeyWithId (enableTimeNs : Bool) (x : AddLogKv) (c : CstrLenCache) :
    Except Result (List (ℕ × ℕ) × KvLog) × CstrLenCache :=
  if x.kvs = [] then (.error .invalid, c)
  else if x.kvs.length > 16 ∧ (x.kvs.length > (2^64-1)/8 ∨ x.allocated = false) then
    (.error .dropError, c)
  else
    let lens := keyValLens x.mem x.kvs c
    let t := addTime enableTimeNs x
    (.ok (lens.1, ⟨t.1, t.2.1, t.2.2, (x.kvs.zip lens.1).map fun e =>
      (copied x.mem e.1.key e.2.1, copied x.mem e.1.value e.2.2)⟩), lens.2)

/-- The string at an address. -/
def textAt (mem : Memory) (s : ℕ) : CStr := if s = 0 then [] else cstr (mem s)

/-- A call uses the lengths of the strings it sees, and the log it hands on
has these strings. -/
def Exact (x : AddLogKv) (r : Except Result (List (ℕ × ℕ) × KvLog)) : Prop :=
  ∀ lens log, r = .ok (lens, log) →
    lens = x.kvs.map (fun kv => ((textAt x.mem kv.key).length, (textAt x.mem kv.value).length)) ∧
      log.kvs = x.kvs.map fun kv => (textAt x.mem kv.key, textAt x.mem kv.value)

/-- All calls of a thread, one after the other. -/
def Exacts (enableTimeNs : Bool) : List AddLogKv → CstrLenCache → Prop
  | [], _ => True
  | x::xs, c =>
    Exact x (addLogKvHashkeyWithId enableTimeNs x c).1 ∧
      Exacts enableTimeNs xs (addLogKvHashkeyWithId enableTimeNs x c).2

/-- A string that is not empty is looked for, a length from 32 on is
remembered. -/
def policy : Policy ℕ ℕ ℕ := ⟨cstrLenIdx, fun q => decide (q.2 ≠ 0), fun q => decide (q.2 ≥ 32)⟩

def question (mem : Memory) (s : ℕ) : ℕ × ℕ := (s, (textAt mem s).length)

/-- The strings a call measures, in order. -/
def questions (x : AddLogKv) : List (ℕ × ℕ) :=
  if x.kvs = [] ∨ x.kvs.length > 16 ∧ (x.kvs.length > (2^64-1)/8 ∨ x.allocated = false) then []
  else x.kvs.flatMap fun kv => [question x.mem kv.key, question x.mem kv.value]

section Table

def table (c : CstrLenCache) (i : ℕ) : Option (ℕ × ℕ) :=
  if (c i).p = 0 then none else some ((c i).p, (c i).n)

theorem table_start : table cstrLenStart = policy.recent [] := rfl

theorem textAt_empty (mem : Memory) (s : ℕ) :
    (textAt mem s).length = 0 ↔ s = 0 ∨ (mem s).headD 0 = 0 := by
  unfold textAt
  split
  case isTrue hs => simp [hs]
  case isFalse hs =>
    cases mem s with
    | nil => simp [cstr]
    | cons b rest => by_cases hb : b = 0 <;> simp [cstr, hb, hs]

theorem textAt_strlen (mem : Memory) (s : ℕ) (h : s ≠ 0) :
    (textAt mem s).length = strlen (mem s) := by
  rw [textAt, if_neg h]
  rfl

theorem table_update (c : CstrLenCache) (i s n : ℕ) (h : s ≠ 0) :
    table (Function.update c i ⟨s, n⟩) = Function.update (table c) i (some (s, n)) := by
  funext j
  by_cases hj : j = i
  · subst hj
    simp [table, h]
  · simp [table, hj]

theorem hit_table (c : CstrLenCache) (s : ℕ) (h : s ≠ 0) : policy.hit (table c) s =
    if (c (cstrLenIdx s)).p = s then some (c (cstrLenIdx s)).n else none := by
  rw [Policy.hit, show policy.slot s = cstrLenIdx s from rfl, table]
  by_cases hp : (c (cstrLenIdx s)).p = 0
  · rw [if_pos hp, if_neg fun hs => h (hs.symm.trans hp)]
  · rw [if_neg hp]

/-- A lookup is a question to the table of the slots. -/
theorem cstrLenCached_table (mem : Memory) (s : ℕ) (c : CstrLenCache) :
    (cstrLenCached mem s c).1 = policy.ask (table c) (question mem s) ∧
      table (cstrLenCached mem s c).2 = policy.learn (table c) (question mem s) := by
  have hasked : policy.asked (question mem s) = decide ((textAt mem s).length ≠ 0) := rfl
  by_cases h0 : s = 0 ∨ (mem s).headD 0 = 0
  · have hlen := (textAt_empty mem s).mpr h0
    rw [cstrLenCached, if_pos h0, Policy.ask, Policy.learn, hasked, hlen]
    exact ⟨hlen.symm, rfl⟩
  · have hlen : (textAt mem s).length ≠ 0 := fun h => h0 ((textAt_empty mem s).mp h)
    have hs : s ≠ 0 := fun h => h0 (Or.inl h)
    rw [cstrLenCached, if_neg h0, Policy.ask, Policy.learn, hasked, decide_eq_true hlen,
      show (question mem s).1 = s from rfl, hit_table c s hs]
    by_cases hp : (c (cstrLenIdx s)).p = s
    · rw [if_pos hp, if_pos hp]
      exact ⟨rfl, rfl⟩
    · rw [if_neg hp, if_neg hp]
      have hq : question mem s = (s, strlen (mem s)) :=
        Prod.ext rfl (textAt_strlen mem s hs)
      rw [hq]
      refine ⟨rfl, ?_⟩
      show table (if strlen (mem s) ≥ 32 then _ else c) =
        if decide (strlen (mem s) ≥ 32) = true then _ else table c
      by_cases hn : strlen (mem s) ≥ 32
      · rw [if_pos hn, if_pos (decide_eq_true hn), table_update c _ s _ hs]
        rfl
      · rw [if_neg hn, if_neg (by simpa using hn)]

def flat (lens : List (ℕ × ℕ)) : List ℕ := lens.flatMap fun l => [l.1, l.2]

theorem flat_inj (as bs : List (ℕ × ℕ)) (h : flat as = flat bs) : as = bs := by
  induction as generalizing bs with
  | nil =>
    cases bs with
    | nil => rfl
    | cons b bs => cases h
  | cons a as ih =>
    cases bs with
    | nil => cases h
    | cons b bs =>
      simp only [flat, List.flatMap_cons, List.cons_append, List.nil_append, List.cons.injEq] at h
      rw [ih bs h.2.2, Prod.ext h.1 h.2.1]

/-- The lengths of a call are the answers to its questions. -/
theorem keyValLens_table (mem : Memory) (kvs : List Kv) (c : CstrLenCache) :
    flat (keyValLens mem kvs c).1 =
        policy.answers (kvs.flatMap fun kv => [question mem kv.key, question mem kv.value])
          (table c) ∧
      table (keyValLens mem kvs c).2 =
        policy.learns (kvs.flatMap fun kv => [question mem kv.key, question mem kv.value])
          (table c) := by
  induction kvs generalizing c with
  | nil => exact ⟨rfl, rfl⟩
  | cons kv kvs ih =>
    obtain ⟨hk, hkc⟩ := cstrLenCached_table mem kv.key c
    obtain ⟨hv, hvc⟩ := cstrLenCached_table mem kv.value (cstrLenCached mem kv.key c).2
    obtain ⟨hrest, hrestc⟩ :=
      ih (cstrLenCached mem kv.value (cstrLenCached mem kv.key c).2).2
    rw [hkc] at hv hvc
    rw [hvc] at hrest hrestc
    constructor
    · show (cstrLenCached mem kv.key c).1::(cstrLenCached mem kv.value _).1::flat _ = _
      rw [hk, hv, hrest]
      rfl
    · exact hrestc

end Table

section Calls

theorem copied_textAt (mem : Memory) (s : ℕ) : copied mem s (textAt mem s).length = textAt mem s := by
  unfold copied textAt
  split
  · rfl
  · exact (List.prefix_iff_eq_take.mp (List.takeWhile_prefix _)).symm

theorem zip_map_self {α β γ : Type*} (l : List α) (f : α → β) (g : α × β → γ) :
    (l.zip (l.map f)).map g = l.map fun a => g (a, f a) := by
  induction l with
  | nil => rfl
  | cons a l ih => exact congrArg _ ih

/-- With the right lengths the strings are right as well. -/
theorem exact_iff (enableTimeNs : Bool) (x : AddLogKv) (c : CstrLenCache) :
    Exact x (addLogKvHashkeyWithId enableTimeNs x c).1 ↔
      policy.answers (questions x) (table c) = (questions x).map Prod.snd := by
  unfold addLogKvHashkeyWithId questions
  by_cases hnil : x.kvs = []
  · rw [if_pos hnil, if_pos (Or.inl hnil)]
    refine iff_of_true ?_ rfl
    intro lens log h
    cases h
  by_cases hfull : x.kvs.length > 16 ∧ (x.kvs.length > (2^64-1)/8 ∨ x.allocated = false)
  · rw [if_neg hnil, if_pos hfull, if_pos (Or.inr hfull)]
    refine iff_of_true ?_ rfl
    intro lens log h
    cases h
  rw [if_neg hnil, if_neg hfull, if_neg (not_or.mpr ⟨hnil, hfull⟩),
    ← (keyValLens_table x.mem x.kvs c).1]
  have hwant : (x.kvs.flatMap fun kv => [question x.mem kv.key, question x.mem kv.value]).map
      Prod.snd = flat (x.kvs.map fun kv =>
        ((textAt x.mem kv.key).length, (textAt x.mem kv.value).length)) := by
    rw [flat, List.flatMap_map, List.map_flatMap]
    rfl
  rw [hwant]
  constructor
  · intro h
    exact congrArg flat (h _ _ rfl).1
  · intro h lens log hr
    have hlens := flat_inj _ _ h
    obtain ⟨rfl, rfl⟩ := Prod.mk.inj (Except.ok.inj hr)
    refine ⟨hlens, ?_⟩
    dsimp only
    rw [hlens, zip_map_self]
    simp only [copied_textAt]

theorem table_add (enableTimeNs : Bool) (x : AddLogKv) (c : CstrLenCache) :
    table (addLogKvHashkeyWithId enableTimeNs x c).2 =
      policy.learns (questions x) (table c) := by
  unfold addLogKvHashkeyWithId questions
  by_cases hnil : x.kvs = []
  · rw [if_pos hnil, if_pos (Or.inl hnil)]
    rfl
  by_cases hfull : x.kvs.length > 16 ∧ (x.kvs.length > (2^64-1)/8 ∨ x.allocated = false)
  · rw [if_neg hnil, if_pos hfull, if_pos (Or.inr hfull)]
    rfl
  rw [if_neg hnil, if_neg hfull, if_neg (not_or.mpr ⟨hnil, hfull⟩)]
  exact (keyValLens_table x.mem x.kvs c).2

theorem exacts_past (enableTimeNs : Bool) (xs : List AddLogKv) (c : CstrLenCache)
    (past : List (ℕ × ℕ)) (hc : table c = policy.recent past) :
    Exacts enableTimeNs xs c ↔ policy.Steady past (xs.flatMap questions) := by
  induction xs generalizing c past with
  | nil => exact Iff.rfl
  | cons x xs ih =>
    rw [Exacts, List.flatMap_cons, policy.steady_append, exact_iff,
      policy.answers_eq_iff (table c) past (questions x) hc]
    refine and_congr_right fun h => ih _ _ ?_
    rw [table_add]
    exact policy.learns_eq _ past _ hc ((policy.answers_eq_iff _ past _ hc).mpr h)

end Calls

/-- The calls of a thread store the strings they were given exactly when a
string that is not empty has the length of the last one of 32 bytes or more
that was passed in its slot, whenever that one was at the same address. -/
theorem exacts_iff (enableTimeNs : Bool) (xs : List AddLogKv) :
    Exacts enableTimeNs xs cstrLenStart ↔ policy.Steady [] (xs.flatMap questions) :=
  exacts_past enableTimeNs xs cstrLenStart [] table_start

/-- One buffer at address 8 for a message of 32 bytes and one of 33. -/
def reused : List AddLogKv :=
  [⟨fun _ => List.replicate 32 97++[0], 1, 1, none, [⟨8, 0⟩], true⟩,
    ⟨fun _ => List.replicate 33 98++[0], 2, 2, none, [⟨8, 0⟩], true⟩]

theorem reused_not_exact : ¬ ∀ enableTimeNs xs, Exacts enableTimeNs xs cstrLenStart := by
  intro h
  have hsteady := (exacts_past false reused cstrLenStart [] table_start).mp (h false reused)
  have hlast := hsteady.2.2.1 rfl 32 rfl
  revert hlast
  decide

end VeTls.Lengths
