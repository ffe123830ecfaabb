import Mathlib

/-!
# Tables of remembered answers

A question is a key with the answer that is right when it is asked. A table
has slots that hold one question each; a key that is found there is answered
as it was answered then, another answer is stored when it is worth it. Right
answers may change between two questions with one key.
-/

set_option autoImplicit false

namespace VeTls.Memo

variable {ι κ β : Type*}

/-- Where a key is kept, which questions go to the table at all, and which
answers are worth a slot. -/
structure Policy (ι κ β : Type*) where
  slot : κ → ι
  asked : κ × β → Bool
  worth : κ × β → Bool

/-- What the table holds was asked in this history. -/
def Holds (m : ι → Option (κ × β)) (S : κ × β → Prop) : Prop := ∀ i e, m i = some e → S e

namespace Policy

variable [DecidableEq κ] (P : Policy ι κ β)

def hit (m : ι → Option (κ × β)) (k : κ) : Option β :=
  match m (P.slot k) with
  | some e => if e.1 = k then some e.2 else none
  | none => none

theorem hit_some (m : ι → Option (κ × β)) (k : κ) (v : β) :
    P.hit m k = some v ↔ m (P.slot k) = some (k, v) := by
  unfold hit
  cases hm : m (P.slot k) with
  | none => simp
  | some e =>
    dsimp only
    constructor
    · intro h
      split at h
      · next hk => rw [← hk, ← Option.some.inj h]
      · cases h
    · intro h
      obtain rfl := Option.some.inj h
      rw [if_pos rfl]

def ask (m : ι → Option (κ × β)) (q : κ × β) : β :=
  if P.asked q then (P.hit m q.1).getD q.2 else q.2

/-- A history in which a key has one answer is answered right. -/
theorem ask_eq_of_holds (m : ι → Option (κ × β)) (S : κ × β → Prop) (q : κ × β) (h : Holds m S)
    (hq : S q) (hone : ∀ a b, S a → S b → a.1 = b.1 → a.2 = b.2) : P.ask m q = q.2 := by
  unfold ask
  split
  · cases hh : P.hit m q.1 with
    | none => rfl
    | some v =>
      have hv := (P.hit_some _ _ _).mp hh
      exact hone (q.1, v) q (h _ _ hv) hq rfl
  · rfl

variable [DecidableEq ι]

def learn (m : ι → Option (κ × β)) (q : κ × β) : ι → Option (κ × β) :=
  if P.asked q && (P.hit m q.1).isNone && P.worth q then
    Function.update m (P.slot q.1) (some q)
  else m

def answers : List (κ × β) → (ι → Option (κ × β)) → List β
  | [], _ => []
  | q::qs, m => P.ask m q::answers qs (P.learn m q)

def learns (qs : List (κ × β)) (m : ι → Option (κ × β)) : ι → Option (κ × β) :=
  qs.foldl P.learn m

/-- The last question of the past, newest first, that was worth the slot. -/
def recent (past : List (κ × β)) (i : ι) : Option (κ × β) :=
  past.find? fun q => P.asked q && P.worth q && decide (P.slot q.1 = i)

/-- Every question has the answer of the last one that was worth its slot,
if the two have one key. -/
def Steady : List (κ × β) → List (κ × β) → Prop
  | _, [] => True
  | past, q::qs =>
    (P.asked q = true → ∀ v, P.recent past (P.slot q.1) = some (q.1, v) → v = q.2) ∧
      Steady (q::past) qs

omit [DecidableEq κ] in
theorem steady_append (past qs qs' : List (κ × β)) :
    P.Steady past (qs++qs') ↔ P.Steady past qs ∧ P.Steady (qs.reverse++past) qs' := by
  induction qs generalizing past with
  | nil => simp [Steady]
  | cons q qs ih =>
    rw [List.cons_append, Steady, ih, Steady, List.reverse_cons, List.append_assoc, and_assoc]
    rfl

theorem ask_eq_iff (m : ι → Option (κ × β)) (past : List (κ × β)) (q : κ × β)
    (hm : m = P.recent past) : P.ask m q = q.2 ↔
      (P.asked q = true → ∀ v, P.recent past (P.slot q.1) = some (q.1, v) → v = q.2) := by
  subst hm
  unfold ask
  cases ha : P.asked q with
  | false => simp
  | true =>
    cases hh : P.hit (P.recent past) q.1 with
    | none =>
      have hno : ∀ v, P.recent past (P.slot q.1) ≠ some (q.1, v) := by
        intro v hv
        rw [(P.hit_some _ _ _).mpr hv] at hh
        cases hh
      simp [hno]
    | some v =>
      have hv := (P.hit_some _ _ _).mp hh
      simp [hv]

/-- A question that was answered right leaves the table as its history
says. -/
theorem learn_eq (m : ι → Option (κ × β)) (past : List (κ × β)) (q : κ × β)
    (hm : m = P.recent past) (h : P.ask m q = q.2) : P.learn m q = P.recent (q::past) := by
  subst hm
  funext i
  unfold learn
  have hcons : P.recent (q::past) i =
      if P.asked q && P.worth q && decide (P.slot q.1 = i) then some q else P.recent past i := by
    rw [recent, List.find?_cons]
    cases P.asked q && P.worth q && decide (P.slot q.1 = i) <;> rfl
  rw [hcons]
  cases ha : P.asked q with
  | false => simp
  | true =>
    cases hw : P.worth q with
    | false => simp
    | true =>
      cases hh : P.hit (P.recent past) q.1 with
      | none =>
        by_cases hi : P.slot q.1 = i
        · simp [hi, Function.update]
        · simp [hi, Function.update, Ne.symm hi]
      | some v =>
        have hv := (P.hit_some _ _ _).mp hh
        have hq : v = q.2 := by simpa [ask, ha, hh] using h
        by_cases hi : P.slot q.1 = i
        · subst hi hq
          simp [hv]
        · simp [hi]

theorem learns_eq (m : ι → Option (κ × β)) (past qs : List (κ × β)) (hm : m = P.recent past)
    (h : P.answers qs m = qs.map Prod.snd) : P.learns qs m = P.recent (qs.reverse++past) := by
  induction qs generalizing m past with
  | nil => exact hm
  | cons q qs ih =>
    rw [answers, List.map_cons, List.cons.injEq] at h
    rw [List.reverse_cons, List.append_assoc]
    exact ih (P.learn m q) (q::past) (P.learn_eq m past q hm h.1) h.2

/-- All answers are right exactly when the questions are steady. -/
theorem answers_eq_iff (m : ι → Option (κ × β)) (past qs : List (κ × β))
    (hm : m = P.recent past) : P.answers qs m = qs.map Prod.snd ↔ P.Steady past qs := by
  induction qs generalizing m past with
  | nil => exact iff_of_true rfl trivial
  | cons q qs ih =>
    rw [answers, List.map_cons, List.cons.injEq, Steady, ← P.ask_eq_iff m past q hm]
    exact and_congr_right fun h => ih _ _ (P.learn_eq m past q hm h)

theorem holds_learn (m : ι → Option (κ × β)) (S : κ × β → Prop) (q : κ × β) (h : Holds m S)
    (hq : S q) : Holds (P.learn m q) S := by
  intro i e he
  unfold learn at he
  split at he
  · rw [Function.update_apply] at he
    split at he
    · cases he
      exact hq
    · exact h i e he
  · exact h i e he

end Policy

end VeTls.Memo
