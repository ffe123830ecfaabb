import VeTls.Pipeline.Runs

/-!
# Reclaiming key queues

A key queue serves both ends of the pipeline: it has the tasks to be sent
and the builder that fills. It is freed when its tasks are done, at once or
after an idle time, and the builder goes with it.
-/

set_option autoImplicit false

namespace VeTls

open VeTls.Keys (Addr CStr KeyMap Info)
open VeTls.Keys.KeyMap (Keeps Effect Sound Held ring)

/-- The builder is missing or holds no log. -/
def NoLogs : Option Builder → Prop
  | none => True
  | some b => b.logs = []

instance decidableNoLogs (b : Option Builder) : Decidable (NoLogs b) :=
  match b with
  | none => isTrue trivial
  | some b => inferInstanceAs (Decidable (b.logs = []))

/-- No queue that may be freed has logs, and none that was freed had. -/
structure Clean (m : KeyMap SendTask Builder) : Prop where
  idle : ∀ a, (m.info a).idle = true → NoLogs (m.info a).builder
  freed : ∀ i ∈ m.freed, NoLogs i.builder

theorem Clean.keep {m m' : KeyMap SendTask Builder} (h : Clean m) (hf : m'.freed = m.freed)
    (hi : ∀ a, (m'.info a).idle = true → (m.info a).idle = true ∧
      ((m'.info a).builder = (m.info a).builder ∨ (m'.info a).builder = none)) : Clean m' := by
  constructor
  · intro a ha
    obtain ⟨hidle, hb | hb⟩ := hi a ha
    · rw [hb]
      exact h.idle a hidle
    · rw [hb]
      trivial
  · rw [hf]
    exact h.freed

/-- An operation of a sender: what it frees, and what it makes idle by
letting go of it, must be without logs. -/
theorem Clean.effect {cfg : Keys.KeyConfig} {m m' : KeyMap SendTask Builder} {taken : Addr → Prop}
    {waiting : CStr → List SendTask} {gone : List (Info Builder)} (h : Clean m)
    (he : Effect cfg m m' taken waiting gone) (hg : ∀ i ∈ gone, NoLogs i.builder)
    (hlet : ∀ a, Held cfg m a → ¬ taken a → waiting (m.info a).key = [] →
      NoLogs (m.info a).builder) : Clean m' := by
  constructor
  · intro a ha
    obtain ⟨hb, hi⟩ := he.idle a ha
    rw [hb]
    rcases hi with hi | ⟨hd, hn, hw⟩
    · exact h.idle a hi
    · exact hlet a hd hn hw
  · intro i hi
    rw [he.freed] at hi
    rcases List.mem_append.mp hi with hi | hi
    · exact h.freed i hi
    · exact hg i hi

namespace Sys

variable {st : Setup}

def finishing : Sender.Pc → Option Addr
  | .finish q => some q
  | _ => none

/-- A sender that finishes with a queue without tasks leaves no log behind. -/
def FinishClean (s : Sys) (a : Act) : Prop :=
  ∀ i ∈ asSender a, ∀ q ∈ finishing (s.senders i),
    s.prod.keys.tasks q = [] → NoLogs (s.prod.keys.info q).builder

instance decidableFinishClean (s : Sys) (a : Act) : Decidable (FinishClean s a) :=
  inferInstanceAs (Decidable (∀ i ∈ asSender a, ∀ q ∈ finishing (s.senders i),
    s.prod.keys.tasks q = [] → NoLogs (s.prod.keys.info q).builder))

theorem clean_send {s : Sys} (h : Clean s.prod.keys) (hc : Core st s) (i : ℕ)
    (hi : i < st.cfg.senderCount)
    (hclean : ∀ q, s.senders i = .finish q → s.prod.keys.tasks q = [] →
      NoLogs (s.prod.keys.info q).builder) (pc : Sender.Pc) (p : Producer)
    (r : Sender.Pc × Producer) (hpc : s.senders i = pc) (hp : s.prod = p)
    (hm : Sender.Move st.cfg (pc, p) r) : Clean r.2.keys := by
  subst hp
  cases hm with
  | idle _ pc' _ p' ha hsame =>
    obtain ⟨_, _, _, _, rfl⟩ := ha
    exact h
  | keyed _ pc' _ m hk hsame =>
    exact h.effect hk (by simp) (fun a hd hn _ => absurd hd hn)
  | take _ q t rest now m hfree hring he =>
    exact h.effect he (by simp) (fun a hd hn _ => absurd (Or.inr hd) hn)
  | pop _ _ t rest hpop hq => exact h
  | move _ t => exact h
  | put _ t m he => exact h.effect he (by simp) (fun a hd hn _ => absurd hd hn)
  | count _ t now => exact h
  | drop _ t => exact h
  | release _ pc' _ t hsame => exact h
  | requeue _ q t next m he =>
    refine h.effect he (by simp) fun a hd hn hw => ?_
    -- The only queue let go of is `q`, and the task is back in it.
    have ha : a = q := by
      by_contra hne
      exact hn ⟨hne, hd⟩
    simp [ha] at hw
  | attempt pc' _ q x hsame => exact h
  | report _ q x sent => exact h
  | finish _ q m gone he hg =>
    have hq : Held st.cfg.toKeyConfig s.prod.keys q := (hc.held q).mpr ⟨i, hi, by rw [hpc]; rfl⟩
    refine h.effect he (fun x hx => ?_) fun a hd hn hw => ?_
    · obtain ⟨hb, ht⟩ := hg x hx
      rw [hb]
      exact hclean q hpc ht
    · have ha : a = q := by
        by_contra hne
        exact hn ⟨hne, hd⟩
      subst ha
      rw [KeyMap.ring_self hc.sound.hashed a hq.1] at hw
      exact hclean a hpc hw
  | uncount _ => exact h
  | cleanup _ pc' _ next m gone hsame he hg =>
    refine h.effect he (fun x hx => ?_) (fun a hd hn _ => absurd hd hn)
    obtain ⟨q, hidle, hb⟩ := hg x hx
    rw [hb]
    exact h.idle q hidle
  | commit _ => exact h
  | exitFast _ block hf => exact h

theorem clean_step (s s' : Sys) (a : Act) (hgood : Good st s) (hi : Clean s.prod.keys)
    (ha : FinishClean s a) (h : step st s a = some s') : Clean s'.prod.keys := by
  refine step_rule (fun s => Clean s.prod.keys) s s' a hgood hi ?_ ?_ ?_ ?_ ?_ h
  · intro t i r _ hc hI hm
    have hf := hm.frame hc.sound
    exact hI.keep hf.freed hf.idle
  · intro i r _ _ hl
    have hf := hl.frame hgood.sound
    exact hi.keep hf.freed hf.idle
  · intro t i r _ hc hI hm
    have hf := hm.frame hc.sound
    exact hI.keep hf.freed hf.idle
  · intro i r _ _ hp
    have hf := hp.frame hgood.sound
    exact hi.keep hf.freed hf.idle
  · rintro i r hlt ⟨input, rfl⟩ hm
    refine clean_send hi hgood.toCore i hlt (fun q hq => ?_) _ _ r rfl rfl hm
    exact ha i rfl q (by rw [hq]; rfl)

def keyLog : Wire.KvLog := ⟨5, 0, false, [([65], [66])]⟩

def oneKey : Setup := ⟨{ keyQueueBucketCount := 1, orderedSend := true }, 1, 0⟩

/-- A log of a key is added, packed and sent, up to the end of the send. -/
def sendOne : List Act :=
  [.call 0 (.addKv keyLog [75] true), .writer 0 ⟨1, 1, 9⟩]++
    List.replicate 8 (.worker 0 ⟨1, 1, [8], none, none⟩)++
    List.replicate 13 (.sender 0 ⟨1, 1, 8, none, .sent⟩)

/-- A second log of the key comes before the sender is done with the queue. -/
def addsMeanwhile : List Act :=
  sendOne++[.call 0 (.addKv keyLog [75] false), .writer 0 ⟨1, 1, 7⟩,
    .sender 0 ⟨1, 1, 8, none, .sent⟩]

end Sys

end VeTls
