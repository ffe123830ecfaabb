import VeTls.Pipeline.Books
import VeTls.Pipeline.Calls

/-!
# A producer without keys

With the fast builder and without hash keys all logs go through the default
builder. No builder is ever under a key, so freeing a key queue frees no
log, and the accounts of the write side have nothing left over.
-/

set_option autoImplicit false

namespace VeTls

open VeTls.Keys (Addr CStr KeyMap)
open VeTls.Keys.KeyMap (Effect)
open VeTls.Threads (total le_total)

variable {cfg : Config}

structure Keyless (cfg : Config) (p : Producer) : Prop where
  ingress : ∀ t ∈ p.ingressQueue, t.normKey = cfg.hashKey
  builders : KeyMap.builders cfg.toKeyConfig p.keys = []
  freed : freedBytes p = 0

theorem Keyless.congr {p p' : Producer} (h : Keyless cfg p) (hk : p'.keys = p.keys)
    (hi : ∀ t ∈ p'.ingressQueue, t ∈ p.ingressQueue ∨ t.normKey = cfg.hashKey) :
    Keyless cfg p' := by
  apply Keyless.mk
  · intro t ht
    rcases hi t ht with ht | ht
    · exact h.ingress t ht
    · exact ht
  · rw [hk]
    exact h.builders
  · rw [freedBytes, hk]
    exact h.freed

theorem Keyless.effect {p : Producer} {m : KeyMap SendTask Builder} {taken : Addr → Prop}
    {waiting : CStr → List SendTask} {gone : List (Keys.Info Builder)} (h : Keyless cfg p)
    (he : Effect cfg.toKeyConfig p.keys m taken waiting gone) (p' : Producer)
    (hp : p'.keys = m ∧ p'.ingressQueue = p.ingressQueue) : Keyless cfg p' := by
  have hnil := he.builders
  rw [h.builders, List.nil_perm, List.append_eq_nil_iff] at hnil
  have hfreed := h.freed
  apply Keyless.mk
  · rw [hp.2]
    exact h.ingress
  · rw [hp.1]
    exact hnil.2
  · simp only [freedBytes, hp.1, he.freed, List.filterMap_append, hnil.1, List.append_nil]
      at hfreed ⊢
    exact hfreed

/-- A call that is not keyed leaves the key map alone and hands over batches
under the default key. -/
theorem Writer.Move.keyless {me : ℕ} {src : Writer.Pc} {a b : Writer × Producer}
    (hm : Writer.Move cfg me src a b) (hsrc : Writer.keyedAdd src = false) :
    b.2.keys = a.2.keys ∧
      ∀ t ∈ b.2.ingressQueue, t ∈ a.2.ingressQueue ∨ t.normKey = cfg.hashKey := by
  have stay : ∀ {p : Producer}, ∀ t ∈ p.ingressQueue, t ∈ p.ingressQueue ∨ t.normKey = cfg.hashKey :=
    fun t ht => Or.inl ht
  cases hm with
  | quiet w w' p p' hq hb hr hr' =>
    obtain ⟨f, n, k, l, _, _, rfl⟩ := hq
    exact ⟨rfl, stay⟩
  | append w w' p kv flush b hkv hown hpc hadd hb hr' =>
    dsimp only
    rw [Writer.settleTls_eq]
    exact ⟨rfl, stay⟩
  | publish w w' p t hown ht hb hr hr' hkey =>
    refine ⟨rfl, fun x hx => ?_⟩
    rcases List.mem_append.mp hx with hx | hx
    · exact Or.inl hx
    · rw [List.mem_singleton.mp hx]
      exact Or.inr hkey
  | keyed w p m hr hk hkey => simp [hsrc] at hkey
  | store w w' p p' kv old b hkv hb hr hr' hsp hf he hkey => simp [hsrc] at hkey
  | openSlot w p p' old b hr hf he hkey => simp [hsrc] at hkey
  | _ => exact ⟨rfl, stay⟩

theorem Writer.Loss.keyless {me : ℕ} {a b : Writer × Producer} (hl : Writer.Loss cfg me a b) :
    b.2.keys = a.2.keys ∧ b.2.ingressQueue = a.2.ingressQueue := by
  cases hl with
  | leave w w' p hp hr hr' =>
    dsimp only
    rw [Writer.leaveBatch_eq]
    exact ⟨rfl, rfl⟩
  | overflow w w' p kv flush hown hpc hadd hb hr' => exact ⟨rfl, rfl⟩
  | discard w w' p rc hown hpc hb hr' => exact ⟨rfl, rfl⟩

theorem Worker.Move.keyless {a b : Worker × Producer} (hm : Worker.Move cfg a b)
    (hfast : cfg.fastBuilder = true) (h : Keyless cfg a.2) : Keyless cfg b.2 := by
  have drop : ∀ {p : Producer} {t : IngressTask} {rest : List IngressTask},
      p.ingressQueue = t::rest → ∀ x ∈ rest, x ∈ p.ingressQueue ∨ x.normKey = cfg.hashKey := by
    intro p t rest hi x hx
    rw [hi]
    exact Or.inl (List.mem_cons_of_mem t hx)
  cases hm with
  | idle w w' p p' hq hsame =>
    obtain ⟨f, n, k, l, _, _, rfl⟩ := hq
    exact h.congr rfl fun t ht => Or.inl ht
  | keyed w p m hk => exact h.effect hk _ ⟨rfl, rfl⟩
  | skip w p t rest hi he => exact h.congr rfl (drop hi)
  | refuse w p t rest hi => exact h.congr rfl (drop hi)
  | merge w p p' t rest old b hi hf he hd =>
    have hkey : t.normKey = cfg.hashKey := h.ingress t (by rw [hi]; exact List.mem_cons_self)
    have hkeys := hd (by simp [mergeDefault, hfast, hkey])
    obtain ⟨d, m, l, n, f, rfl⟩ := hf.frame
    exact h.congr hkeys (drop hi)
  | sealUp w p p' b hf hk =>
    have hb := hk h.builders
    have hfreed := hf.keys.freed
    obtain ⟨d, m, l, n, f, rfl⟩ := hf.frame
    refine ⟨h.ingress, hb, ?_⟩
    rw [freedBytes, hfreed]
    exact h.freed
  | _ => exact h.congr rfl fun t ht => Or.inl ht

theorem Sender.Move.keyless {a b : Sender.Pc × Producer} (hm : Sender.Move cfg a b)
    (h : Keyless cfg a.2) : Keyless cfg b.2 := by
  cases hm with
  | idle pc pc' p p' ha hsame =>
    obtain ⟨_, _, _, _, rfl⟩ := ha
    exact h.congr rfl fun t ht => Or.inl ht
  | keyed pc pc' p m hk hsame => exact h.effect hk _ ⟨rfl, rfl⟩
  | take p q t rest now m hfree hring he => exact h.effect he _ ⟨rfl, rfl⟩
  | put p t m he => exact h.effect he _ ⟨rfl, rfl⟩
  | requeue p q t next m he => exact h.effect he _ ⟨rfl, rfl⟩
  | finish p q m gone he hg => exact h.effect he _ ⟨rfl, rfl⟩
  | cleanup pc pc' p next m gone hsame he hg => exact h.effect he _ ⟨rfl, rfl⟩
  | _ => exact h.congr rfl fun t ht => Or.inl ht

namespace Sys

variable {st : Setup}

/-- No running call adds under a key. -/
def Plain (s : Sys) : Prop := ∀ i, Writer.keyedAdd (s.writers i).pc = false

/-- A kv add has no hash key. -/
def PlainCall (a : Act) : Prop :=
  match a with
  | .call _ (.addKv _ hashKey _) => hashKey = []
  | _ => True

theorem plain_step (hfast : st.cfg.fastBuilder = true) (s s' : Sys) (a : Act) (hp : Plain s)
    (ha : PlainCall a) (h : step st s a = some s') : Plain s' := by
  have hordered : st.cfg.orderedSend = false := by
    simp only [Config.fastBuilder, Bool.and_eq_true, Bool.not_eq_true'] at hfast
    exact hfast.1.1.1.1.1.2
  cases a with
  | call i c =>
    simp only [step] at h
    split at h
    · rename_i hlt
      obtain ⟨r, hr, rfl⟩ := Option.map_eq_some_iff.mp h
      refine forall_update (fun w : Writer => Writer.keyedAdd w.pc = false) s.writers i r.1 hp ?_
      refine Writer.call_keyedAdd _ _ c r hlt.2 hr fun kv hashKey flush hc => ?_
      subst hc
      have hkey : hashKey = [] := ha
      simp [Writer.tlsPath, hkey, hordered]
    · simp at h
  | writer i input =>
    simp only [step] at h
    split at h
    · obtain ⟨r, hr, rfl⟩ := Option.map_eq_some_iff.mp h
      exact forall_update (fun w : Writer => Writer.keyedAdd w.pc = false) s.writers i r.1 hp
        (Writer.go_keyedAdd _ input _ _ r hr (hp i))
    · simp at h
  | worker i input =>
    simp only [step] at h
    split at h
    · obtain ⟨r, hr, rfl⟩ := Option.map_eq_some_iff.mp h
      exact hp
    · simp at h
  | sender i input =>
    simp only [step] at h
    split at h
    · obtain ⟨r, hr, rfl⟩ := Option.map_eq_some_iff.mp h
      exact hp
    · simp at h

theorem keyless_step (hfast : st.cfg.fastBuilder = true) (s s' : Sys) (a : Act)
    (hgood : Good st s) (hp : Plain s) (hi : Keyless st.cfg s.prod)
    (h : step st s a = some s') : Keyless st.cfg s'.prod := by
  refine step_rule (fun s => Keyless st.cfg s.prod) s s' a hgood hi ?_ ?_ ?_ ?_ ?_ h
  · intro t i r _ _ hI hm
    obtain ⟨hk, hin⟩ := hm.keyless (hp i)
    exact hI.congr hk hin
  · intro i r _ _ hl
    obtain ⟨hk, hin⟩ := hl.keyless
    exact hi.congr hk fun t ht => Or.inl (hin ▸ ht)
  · exact fun t i r _ _ hI hm => hm.keyless hfast hI
  · rintro i r _ _ ⟨j, start, _, rfl⟩
    exact hi.congr rfl fun t ht => Or.inl ht
  · exact fun i r _ _ hm => hm.keyless hi

/-- Each counter of the write side is the sum of what it stands for, and
covers whatever a step may take off it. -/
structure IntakeExact (st : Setup) (s : Sys) : Prop where
  ingress : s.prod.ingressQueueBytes = (s.prod.ingressQueue.map fun t => t.batch.logsLen).sum
  tls : s.prod.tlsBytes = total st.writerCount s.writers (Writer.tlsCharge st.me)
  queue : s.prod.queueBytes = (s.prod.queue.map RawItem.size).sum+
    (s.prod.defaultBuilder.map Builder.logsLen).getD 0+
    (s.prod.sealedList.map fun b => b.builder.logsLen).sum+
    total st.cfg.workerCount s.workers Worker.queueCharge+
    total st.writerCount s.writers Writer.rawCharge
  ingressCovers : ∀ t ∈ s.prod.ingressQueue, t.batch.logsLen ≤ s.prod.ingressQueueBytes
  tlsCovers : ∀ i < st.writerCount, Writer.tlsCharge st.me (s.writers i) ≤ s.prod.tlsBytes
  rawCovers : ∀ i < st.writerCount, Writer.rawCharge (s.writers i) ≤ s.prod.queueBytes
  itemCovers : ∀ item ∈ s.prod.queue, item.size ≤ s.prod.queueBytes
  workerCovers : ∀ i < st.cfg.workerCount, Worker.queueCharge (s.workers i) ≤ s.prod.queueBytes

theorem Books.intake {s : Sys} (h : Books st s) (hk : Keyless st.cfg s.prod) :
    IntakeExact st s := by
  have hq := h.queue
  simp only [keptBytes, kept, hk.builders, hk.freed, rawBytes, List.append_nil, List.map_append,
    List.sum_append, List.map_map, Function.comp_def] at hq
  have hd : (s.prod.defaultBuilder.toList.map Builder.logsLen).sum =
      (s.prod.defaultBuilder.map Builder.logsLen).getD 0 := by
    cases s.prod.defaultBuilder <;> simp
  refine ⟨h.ingress, h.tls, by omega, ?_, ?_, ?_, ?_, ?_⟩
  · intro t ht
    rw [h.ingress]
    exact List.le_sum_of_mem (List.mem_map_of_mem ht)
  · intro i hi
    rw [h.tls]
    exact le_total _ i hi _ _
  · intro i hi
    have := le_total st.writerCount i hi s.writers Writer.rawCharge
    omega
  · intro item hitem
    have : item.size ≤ (s.prod.queue.map RawItem.size).sum :=
      List.le_sum_of_mem (List.mem_map_of_mem hitem)
    omega
  · intro i hi
    have := le_total st.cfg.workerCount i hi s.workers Worker.queueCharge
    omega

/-- In every state a run without hash keys reaches, the counters of the write
side are exact, and no subtraction in the next step can wrap or stop at
zero. -/
theorem run_intake_exact (st : Setup) (hfast : st.cfg.fastBuilder = true) (acts : List Act)
    (hplain : ∀ a ∈ acts, PlainCall a) (s : Sys) (h : run st acts (start st) = some s) :
    IntakeExact st s := by
  have hlive : KeyMap.live st.cfg.toKeyConfig (KeyMap.empty : KeyMap SendTask Builder) = [] := by
    simp [KeyMap.live, KeyMap.empty]
  have hstart : Keyless st.cfg (start st).prod :=
    ⟨by simp [start, producerCreate], by simp [start, producerCreate, KeyMap.builders, hlive], rfl⟩
  obtain ⟨_, _, hkey, hbooks⟩ := run_rule
    (fun s => Plain s ∧ Keyless st.cfg s.prod ∧ Books st s) (fun _ a => PlainCall a)
    (fun s a s' hgood hi ha hs => ⟨plain_step hfast s s' a hi.1 ha hs,
      keyless_step hfast s s' a hgood hi.1 hi.2.1 hs, books_step s s' a hgood hi.2.2 hs⟩)
    acts (start st) s (good_start st) ⟨fun _ => rfl, hstart, books_start st⟩
    (along_forall acts _ hplain) h
  exact hbooks.intake hkey

def twoWriters : Setup := ⟨{ keyQueueBucketCount := 1 }, 2, 0⟩

/-- One thread has a log in its batch, another reserves for a raw log. -/
def addBoth : List Act :=
  [.call 0 (.addKv ⟨5, 0, false, [([65], [66])]⟩ [] false), .writer 0 ⟨1, 1, 9⟩,
    .writer 0 ⟨1, 1, 9⟩, .call 1 (.addRaw ⟨5, 0, false, [1, 2, 3], true⟩), .writer 1 ⟨1, 1, 9⟩]

theorem addBoth_intake_exact : ∃ s, run twoWriters addBoth (start twoWriters) = some s ∧
    s.prod.tlsBytes = 12 ∧ s.prod.queueBytes = 3 ∧ IntakeExact twoWriters s := by
  have hplain : ∀ a ∈ addBoth, PlainCall a := by
    intro a ha
    simp only [addBoth, List.mem_cons, List.not_mem_nil, or_false] at ha
    rcases ha with rfl | rfl | rfl | rfl | rfl
    · rfl
    · trivial
    · trivial
    · trivial
    · trivial
  exact ⟨_, rfl, by decide, by decide, run_intake_exact twoWriters (by decide) addBoth hplain _ rfl⟩

end Sys

end VeTls
