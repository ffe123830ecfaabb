import VeTls.Lib.Threads

/-!
# Machines and crews of threads

A machine is a step function that may have no next state. `run` follows a
list of actions, and `Along` says that a condition holds at each state where
an action is taken. A crew is a family of `n` threads of one program around a
shared state; an action names the thread that moves and its input.
-/

set_option autoImplicit false

namespace VeTls.Machine

variable {σ α : Type*}

def run (step : σ → α → Option σ) : List α → σ → Option σ
  | [], s => some s
  | a::as, s => (step s a).bind (run step as)

def Along (step : σ → α → Option σ) (C : σ → α → Prop) : List α → σ → Prop
  | [], _ => True
  | a::as, s => C s a ∧ (step s a).elim True (Along step C as)

instance decidableOptionElim (o : Option σ) (P : σ → Prop) [DecidablePred P] :
    Decidable (o.elim True P) :=
  match o with
  | none => isTrue trivial
  | some s => inferInstanceAs (Decidable (P s))

instance decidableAlong (step : σ → α → Option σ) (C : σ → α → Prop) [∀ s a, Decidable (C s a)]
    (as : List α) (s : σ) : Decidable (Along step C as s) :=
  match as with
  | [] => isTrue trivial
  | a::as =>
    haveI : DecidablePred (Along step C as) := decidableAlong step C as
    inferInstanceAs (Decidable (C s a ∧ (step s a).elim True (Along step C as)))

theorem run_append (step : σ → α → Option σ) (as bs : List α) (s : σ) :
    run step (as++bs) s = (run step as s).bind (run step bs) := by
  induction as generalizing s with
  | nil => rfl
  | cons a as ih =>
    show (step s a).bind (run step (as++bs)) = ((step s a).bind (run step as)).bind (run step bs)
    rw [Option.bind_assoc]
    exact congrArg _ (funext ih)

/-- What every step keeps at the states that meet the condition holds at the
end of a run that meets it all along. -/
theorem run_invariant (step : σ → α → Option σ) (I : σ → Prop) (C : σ → α → Prop)
    (hstep : ∀ s a s', I s → C s a → step s a = some s' → I s')
    (as : List α) (s s' : σ) (hi : I s) (hc : Along step C as s) (h : run step as s = some s') :
    I s' := by
  induction as generalizing s with
  | nil =>
    cases h
    exact hi
  | cons a as ih =>
    obtain ⟨m, hm, hrest⟩ := Option.bind_eq_some_iff.mp h
    obtain ⟨hca, hcs⟩ := hc
    rw [hm] at hcs
    exact ih m (hstep s a m hi hca hm) hcs hrest

/-- The condition holds at the last step of a run that meets it all along. -/
theorem along_last (step : σ → α → Option σ) (C : σ → α → Prop) (as : List α) (a : α) (s m : σ)
    (hc : Along step C (as++[a]) s) (h : run step as s = some m) : C m a := by
  induction as generalizing s with
  | nil =>
    cases h
    exact hc.1
  | cons b as ih =>
    obtain ⟨m', hm, hrest⟩ := Option.bind_eq_some_iff.mp h
    have hcs := hc.2
    rw [hm] at hcs
    exact ih m' hcs hrest

/-- What follows from an invariant at each step of a run. -/
theorem along_of_invariant (step : σ → α → Option σ) (I : σ → Prop) (C D : σ → α → Prop)
    (hstep : ∀ s a s', I s → C s a → step s a = some s' → I s')
    (hd : ∀ s a, I s → C s a → D s a) (as : List α) (s : σ) (hi : I s) (hc : Along step C as s) :
    Along step D as s := by
  induction as generalizing s with
  | nil => trivial
  | cons a as ih =>
    obtain ⟨hca, hcs⟩ := hc
    refine ⟨hd s a hi hca, ?_⟩
    cases hm : step s a with
    | none => trivial
    | some m =>
      rw [hm] at hcs
      exact ih m (hstep s a m hi hca hm) hcs

theorem along_of_forall (step : σ → α → Option σ) (P : α → Prop) (as : List α) (s : σ)
    (h : ∀ a ∈ as, P a) : Along step (fun _ a => P a) as s := by
  induction as generalizing s with
  | nil => trivial
  | cons a as ih =>
    refine ⟨h a List.mem_cons_self, ?_⟩
    cases step s a with
    | none => trivial
    | some m => exact ih m fun b hb => h b (List.mem_cons_of_mem _ hb)

theorem along_iff_of_invariant (step : σ → α → Option σ) (I : σ → Prop) (C D : σ → α → Prop)
    (hiff : ∀ s a, I s → (C s a ↔ D s a))
    (hstep : ∀ s a s', I s → C s a → step s a = some s' → I s') (as : List α) (s : σ) (hi : I s) :
    Along step C as s ↔ Along step D as s :=
  ⟨along_of_invariant step I C D hstep (fun s a hi hc => (hiff s a hi).mp hc) as s hi,
    along_of_invariant step I D C (fun s a s' hi hd => hstep s a s' hi ((hiff s a hi).mpr hd))
      (fun s a hi hd => (hiff s a hi).mpr hd) as s hi⟩

section Replies

variable {ρ τ : Type*}

/-- A run together with what its steps return. -/
def trace (step : σ → α → Option (ρ × σ)) : List α → σ → Option (List ρ × σ)
  | [], s => some ([], s)
  | a::as, s => (step s a).bind fun r => (trace step as r.2).map fun t => (r.1::t.1, t.2)

def replies (spec : τ → α → ρ × τ) : List α → τ → List ρ × τ
  | [], t => ([], t)
  | a::as, t => ((spec t a).1::(replies spec as (spec t a).2).1, (replies spec as (spec t a).2).2)

/-- Steps that return what the specification returns, and keep the relation
to its state, do so along every run. -/
theorem trace_simulates (step : σ → α → Option (ρ × σ)) (spec : τ → α → ρ × τ) (R : σ → τ → Prop)
    (hstep : ∀ s t a, R s t → ∃ s', step s a = some ((spec t a).1, s') ∧ R s' (spec t a).2)
    (as : List α) (s : σ) (t : τ) (hr : R s t) :
    ∃ s', trace step as s = some ((replies spec as t).1, s') ∧ R s' (replies spec as t).2 := by
  induction as generalizing s t with
  | nil => exact ⟨s, rfl, hr⟩
  | cons a as ih =>
    obtain ⟨m, hm, hrm⟩ := hstep s t a hr
    obtain ⟨s', hs, hrs⟩ := ih m (spec t a).2 hrm
    refine ⟨s', ?_, hrs⟩
    rw [trace, hm, Option.bind_some, hs]
    rfl

end Replies

structure Crew (π σ : Type*) where
  shared : σ
  pc : ℕ → π

namespace Crew

variable {π ι : Type*} (n : ℕ) (move : ι → π → σ → Option (π × σ))

/-- The thread `a.1` moves with the input `a.2`. -/
def step (w : Crew π σ) (a : ℕ × ι) : Option (Crew π σ) :=
  if a.1 < n then
    (move a.2 (w.pc a.1) w.shared).map fun r => ⟨r.2, Function.update w.pc a.1 r.1⟩
  else none

theorem step_cases (w w' : Crew π σ) (a : ℕ × ι) (h : step n move w a = some w') :
    a.1 < n ∧ ∃ pc s, move a.2 (w.pc a.1) w.shared = some (pc, s) ∧
      w' = ⟨s, Function.update w.pc a.1 pc⟩ := by
  unfold step at h
  split at h
  case isTrue hn =>
    obtain ⟨r, hr, rfl⟩ := Option.map_eq_some_iff.mp h
    exact ⟨hn, r.1, r.2, hr, rfl⟩
  case isFalse => cases h

/-- An invariant of the crew that the moves of each of its threads keep. -/
theorem run_rule (I : (ℕ → π) → σ → Prop) (C : Crew π σ → ℕ × ι → Prop)
    (hmove : ∀ w i a pc s, i < n → I w.pc w.shared → C w (i, a) →
      move a (w.pc i) w.shared = some (pc, s) → I (Function.update w.pc i pc) s)
    (as : List (ℕ × ι)) (w w' : Crew π σ) (hi : I w.pc w.shared)
    (hc : Along (step n move) C as w) (h : run (step n move) as w = some w') :
    I w'.pc w'.shared := by
  refine run_invariant (step n move) (fun w => I w.pc w.shared) C ?_ as w w' hi hc h
  intro v a v' hv hca hstep
  obtain ⟨hn, pc, s, hm, rfl⟩ := step_cases n move v v' a hstep
  exact hmove v a.1 a.2 pc s hn hv hca hm

end Crew

end VeTls.Machine
