import VeTls.Sender

/-!
# A producer and its threads

Any number of writer threads, the configured workers and senders, and the
producer they share. A step is one step of one thread; a run is a list of
steps, so every interleaving of the threads is a run. `me` names this
producer among those a thread may have its batch for.
-/

set_option autoImplicit false

namespace VeTls

structure Sys where
  prod : Producer
  writers : ℕ → Writer
  workers : ℕ → Worker
  senders : ℕ → Sender.Pc

inductive Act where
  | call (i : ℕ) (c : Call)
  | writer (i : ℕ) (input : Input)
  | worker (i : ℕ) (input : Worker.Input)
  | sender (i : ℕ) (input : Sender.Input)
  deriving DecidableEq, Repr

/-- The threads of a producer: configuration, number of writers, own name. -/
structure Setup where
  cfg : Config
  writerCount : ℕ
  me : ℕ

namespace Sys

def start (st : Setup) : Sys :=
  ⟨producerCreate, fun _ => Writer.start, fun _ => Worker.start, fun _ => Sender.start st.cfg⟩

def joined (st : Setup) (s : Sys) : Bool :=
  (List.range st.cfg.workerCount).all (fun i => decide ((s.workers i).pc = .exited)) &&
    (List.range st.cfg.senderCount).all fun i => decide (s.senders i = .exited)

def setWriter (s : Sys) (i : ℕ) (r : Writer × Producer) : Sys :=
  { s with prod := r.2, writers := Function.update s.writers i r.1 }

def setWorker (s : Sys) (i : ℕ) (r : Worker × Producer) : Sys :=
  { s with prod := r.2, workers := Function.update s.workers i r.1 }

def setSender (s : Sys) (i : ℕ) (r : Sender.Pc × Producer) : Sys :=
  { s with prod := r.2, senders := Function.update s.senders i r.1 }

def step (st : Setup) (s : Sys) : Act → Option Sys
  | .call i c =>
    if i < st.writerCount ∧ (s.writers i).pc = .idle then
      (Writer.call st.cfg st.me (s.writers i) s.prod c).map (s.setWriter i)
    else none
  | .writer i input =>
    if i < st.writerCount then
      (Writer.go st.cfg st.me (s.joined st) input (s.writers i) s.prod).map (s.setWriter i)
    else none
  | .worker i input =>
    if i < st.cfg.workerCount then
      (Worker.step st.cfg input (s.workers i) s.prod).map (s.setWorker i)
    else none
  | .sender i input =>
    if i < st.cfg.senderCount then
      (Sender.step st.cfg input (s.senders i) s.prod).map (s.setSender i)
    else none

def run (st : Setup) : List Act → Sys → Option Sys
  | [], s => some s
  | a::acts, s => do run st acts (← step st s a)

theorem run_append (st : Setup) (acts rest : List Act) (s : Sys) :
    run st (acts++rest) s = (run st acts s).bind (run st rest) := by
  induction acts generalizing s with
  | nil => rfl
  | cons a acts ih =>
    simp only [List.cons_append, run]
    cases step st s a with
    | none => rfl
    | some s' => exact ih s'

end Sys

end VeTls
