import VeTls.Pipeline.Intake
import VeTls.Pipeline.Oversize
import VeTls.Proto.Merged

/-!
# The states an export begins in

What the export relies on holds in every state of every run: the key map is
sound, batches have the default key, and what a builder or a batch says of
its logs is true.
-/

set_option autoImplicit false

namespace VeTls.Export

open VeTls.Keys (Addr CStr KeyMap)
open VeTls.Keys.KeyMap (Sound)

variable {cfg : Config}

/-- Batches are handed over under the default key. -/
def KeyedIngress (cfg : Config) (p : Producer) : Prop :=
  ∀ t ∈ p.ingressQueue, t.normKey = cfg.hashKey

/-- What an export relies on, of a producer and of the batch of a thread. -/
structure Upright (cfg : Config) (me : ℕ) (w : Writer) (p : Producer) : Prop where
  sound : Sound cfg.toKeyConfig p.keys
  keyed : KeyedIngress cfg p
  ownSized : Writer.Own cfg me Sized w
  ownWeighed : Writer.Own cfg me Weighed w
  sized : Upstream cfg Sized p
  weighed : Upstream cfg Weighed p

section Keyed

theorem KeyedIngress.congr {p p' : Producer} (h : KeyedIngress cfg p)
    (hi : p'.ingressQueue = p.ingressQueue) : KeyedIngress cfg p' := by
  unfold KeyedIngress
  rw [hi]
  exact h

theorem KeyedIngress.fill {p p' : Producer} {old : Option Builder} {b : Builder}
    (h : KeyedIngress cfg p) (hf : Fill cfg p p' old b) : KeyedIngress cfg p' := by
  obtain ⟨d, m, l, n, f, rfl⟩ := hf.frame
  exact h

theorem writerMove_keyed {me : ℕ} {src : Writer.Pc} {a b : Writer × Producer}
    (hm : Writer.Move cfg me src a b) (h : KeyedIngress cfg a.2) : KeyedIngress cfg b.2 := by
  cases hm with
  | quiet w w' p p' hq =>
    obtain ⟨f, n, k, l, _, _, rfl⟩ := hq
    exact h
  | append w w' p kv flush b =>
    dsimp only
    rw [Writer.settleTls_eq]
    exact h
  | publish w w' p t hown ht hb hr hr' hkey =>
    intro x hx
    rcases List.mem_append.mp hx with hx | hx
    · exact h x hx
    · rw [List.mem_singleton.mp hx]
      exact hkey
  | store w w' p p' kv old b hkv hb hr hr' hsp hf =>
    exact (h.fill hf).congr rfl
  | openSlot w p p' old b hr hf => exact h.fill hf
  | _ => exact h

theorem writerLoss_keyed {me : ℕ} {a b : Writer × Producer} (hl : Writer.Loss cfg me a b)
    (h : KeyedIngress cfg a.2) : KeyedIngress cfg b.2 := h.congr hl.keyless.2

theorem workerMove_keyed {a b : Worker × Producer} (hm : Worker.Move cfg a b)
    (h : KeyedIngress cfg a.2) : KeyedIngress cfg b.2 := by
  have drop : ∀ (p : Producer) (t : IngressTask) (rest : List IngressTask),
      p.ingressQueue = t::rest → KeyedIngress cfg p → ∀ x ∈ rest, x.normKey = cfg.hashKey := by
    intro p t rest hi hp x hx
    exact hp x (by rw [hi]; exact List.mem_cons_of_mem t hx)
  cases hm with
  | idle w w' p p' hq =>
    obtain ⟨f, n, k, l, _, _, rfl⟩ := hq
    exact h
  | skip w p t rest hi => exact drop p t rest hi h
  | refuse w p t rest hi => exact drop p t rest hi h
  | merge w p p' t rest old b hi => exact drop p t rest hi h
  | sealUp w p p' b hf => exact h.fill hf
  | _ => exact h

theorem senderMove_keyed {a b : Sender.Pc × Producer} (hm : Sender.Move cfg a b)
    (h : KeyedIngress cfg a.2) : KeyedIngress cfg b.2 := by
  cases hm with
  | idle pc pc' p p' ha =>
    obtain ⟨_, _, _, _, rfl⟩ := ha
    exact h
  | _ => exact h

end Keyed

section Runs

variable {st : Setup}

theorem keyedIngress_step (s s' : Sys) (a : Act) (hgood : Sys.Good st s)
    (hi : KeyedIngress st.cfg s.prod) (h : Sys.step st s a = some s') :
    KeyedIngress st.cfg s'.prod := by
  refine Sys.step_rule (fun s => KeyedIngress st.cfg s.prod) s s' a hgood hi ?_ ?_ ?_ ?_ ?_ h
  · exact fun t i r _ _ hI hm => writerMove_keyed hm hI
  · exact fun i r _ _ hl => writerLoss_keyed hl hi
  · exact fun t i r _ _ hI hm => workerMove_keyed hm hI
  · rintro i r _ _ ⟨j, start, _, rfl⟩
    exact hi
  · exact fun i r _ _ hm => senderMove_keyed hm hi

/-- Every thread of a run can begin an export at any time. -/
theorem upright_run (st : Setup) (acts : List Act) (s : Sys)
    (h : Sys.run st acts (Sys.start st) = some s) (i : ℕ) :
    Upright st.cfg st.me (s.writers i) s.prod := by
  obtain ⟨hgood, hkeyed, hsized, hweighed⟩ := Sys.run_rule
    (fun s => KeyedIngress st.cfg s.prod ∧ Sys.Every st Sized s ∧ Sys.Every st Weighed s)
    (fun _ _ => True) (fun s a s' hgood hi _ hs => ⟨keyedIngress_step s s' a hgood hi.1 hs,
      Sys.sized_step s s' a hgood hi.2.1 hs,
      (Sys.every_step weighed_additive s s' a hgood (fun id _ => weighed_stores id) hi.2.2 hs).2⟩)
    acts (Sys.start st) s (Sys.good_start st)
    ⟨nofun, Sys.every_start sized_additive st, Sys.every_start weighed_additive st⟩
    (Sys.along_forall acts _ fun _ _ => trivial) h
  exact ⟨hgood.sound, hkeyed, hsized.own i, hweighed.own i, hsized.upstream, hweighed.upstream⟩

end Runs

end VeTls.Export
