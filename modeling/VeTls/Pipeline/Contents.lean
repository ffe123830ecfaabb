import VeTls.Pipeline.Runs

/-!
# What builders hold

A property of logs, their bytes and their number that holds of nothing and
of what is put together from parts that have it. If new logs have it, every
batch, ingress task and builder of the producer has it in every state.
-/

set_option autoImplicit false

namespace VeTls

open VeTls.Keys (Addr CStr KeyMap)
open VeTls.Keys.KeyMap (Effect)

variable {cfg : Config} {Q : List Log → ℕ → ℕ → Prop}

structure Additive (Q : List Log → ℕ → ℕ → Prop) : Prop where
  nil : Q [] 0 0
  append : ∀ l l' n n' c c', Q l n c → Q l' n' c' → Q (l++l') (n+n') (c+c')

def Builder.Has (Q : List Log → ℕ → ℕ → Prop) (b : Builder) : Prop := Q b.logs b.logsLen b.logCount

/-- What a log about to be stored under `id` is, on its own. -/
def Stores (Q : List Log → ℕ → ℕ → Prop) (id : ℤ) : Prop :=
  ∀ kv, Q [storedLog id kv] (storedLog id kv).size 1

theorem Extends.has {old : Option Builder} {new : List Log} {len count : ℕ} {b : Builder}
    (he : Extends old new len count b) (hQ : Additive Q) (hold : ∀ x, old = some x → x.Has Q)
    (hnew : Q new len count) : b.Has Q := by
  rw [Builder.Has, he.logs, he.logsLen, he.logCount]
  cases old with
  | none => exact hQ.append [] new 0 len 0 count hQ.nil hnew
  | some x => exact hQ.append x.logs new x.logsLen len x.logCount count (hold x rfl) hnew

theorem mem_kept (p : Producer) (b : Builder) : b ∈ kept cfg p ↔
    p.defaultBuilder = some b ∨ b ∈ KeyMap.builders cfg.toKeyConfig p.keys ∨
      ∃ s ∈ p.sealedList, s.builder = b := by
  simp [kept]

theorem kept_congr {p p' : Producer} (hd : p'.defaultBuilder = p.defaultBuilder)
    (hk : p'.keys = p.keys) (hl : p'.sealedList = p.sealedList) : kept cfg p' = kept cfg p := by
  rw [kept, kept, hd, hk, hl]

/-- The key map may lose builders, and gets none. -/
theorem kept_effect {p p' : Producer} {m : KeyMap SendTask Builder} {taken : Addr → Prop}
    {waiting : CStr → List SendTask} {gone : List (Keys.Info Builder)}
    (he : Effect cfg.toKeyConfig p.keys m taken waiting gone)
    (hd : p'.defaultBuilder = p.defaultBuilder) (hk : p'.keys = m)
    (hl : p'.sealedList = p.sealedList) (b : Builder) (hb : b ∈ kept cfg p') : b ∈ kept cfg p := by
  rw [mem_kept, hd, hk, hl] at hb
  rw [mem_kept]
  obtain hb | hb | hb := hb
  · exact .inl hb
  · exact .inr (.inl (he.builders.mem_iff.mpr (List.mem_append_right _ hb)))
  · exact .inr (.inr hb)

theorem Fill.old_mem {p p' : Producer} {old : Option Builder} {b : Builder}
    (hf : Fill cfg p p' old b) (x : Builder) (hx : old = some x) : x ∈ VeTls.kept cfg p := by
  obtain ⟨rest, hp, _⟩ := hf.kept
  subst hx
  exact hp.mem_iff.mpr List.mem_cons_self

theorem Fill.kept_cases {p p' : Producer} {old : Option Builder} {b : Builder}
    (hf : Fill cfg p p' old b) (x : Builder) (hx : x ∈ VeTls.kept cfg p') :
    x = b ∨ x ∈ VeTls.kept cfg p := by
  obtain ⟨rest, hp, hp'⟩ := hf.kept
  obtain rfl | hx := List.mem_cons.mp (hp'.mem_iff.mp hx)
  · exact .inl rfl
  · exact .inr (hp.mem_iff.mpr (List.mem_append_right _ hx))

/-- What waits before the send queue has the property. -/
structure Upstream (cfg : Config) (Q : List Log → ℕ → ℕ → Prop) (p : Producer) : Prop where
  ingress : ∀ t ∈ p.ingressQueue, t.batch.Has Q
  kept : ∀ b ∈ kept cfg p, b.Has Q

theorem Upstream.mono {p p' : Producer} (h : Upstream cfg Q p)
    (hi : ∀ t ∈ p'.ingressQueue, t ∈ p.ingressQueue)
    (hk : ∀ b ∈ VeTls.kept cfg p', b ∈ VeTls.kept cfg p) : Upstream cfg Q p' :=
  ⟨fun t ht => h.ingress t (hi t ht), fun b hb => h.kept b (hk b hb)⟩

theorem Upstream.congr {p p' : Producer} (h : Upstream cfg Q p)
    (hi : p'.ingressQueue = p.ingressQueue) (hd : p'.defaultBuilder = p.defaultBuilder)
    (hk : p'.keys = p.keys) (hl : p'.sealedList = p.sealedList) : Upstream cfg Q p' := by
  refine h.mono ?_ ?_
  · rw [hi]
    exact fun t ht => ht
  · rw [kept_congr hd hk hl]
    exact fun b hb => hb

theorem Upstream.fill {p p' : Producer} {old : Option Builder} {b : Builder} {new : List Log}
    {len count : ℕ} (h : Upstream cfg Q p) (hQ : Additive Q) (hf : Fill cfg p p' old b)
    (he : Extends old new len count b) (hnew : Q new len count) : Upstream cfg Q p' := by
  have hb : b.Has Q := he.has hQ (fun x hx => h.kept x (hf.old_mem x hx)) hnew
  constructor
  · obtain ⟨d, m, l, n, f, rfl⟩ := hf.frame
    exact h.ingress
  · intro x hx
    obtain rfl | hx := hf.kept_cases x hx
    · exact hb
    · exact h.kept x hx

namespace Writer

/-- A batch for this producer has the property. -/
def Own (cfg : Config) (me : ℕ) (Q : List Log → ℕ → ℕ → Prop) (w : Writer) : Prop :=
  w.batch.producer = some me → (tlsBuilder cfg w).Has Q

theorem Own.congr {me : ℕ} {w w' : Writer} (h : Own cfg me Q w) (hb : w'.batch = w.batch) :
    Own cfg me Q w' := by
  unfold Own tlsBuilder
  rw [hb]
  exact h

theorem own_of_reset {me : ℕ} {w w' : Writer} (hQ : Additive Q)
    (hb : w'.batch = { w.batch with builder := some (tlsBatchReset (tlsBuilder cfg w)) }) :
    Own cfg me Q w' := by
  intro _
  rw [tlsBuilder, hb]
  exact hQ.nil

theorem Move.contents {me : ℕ} {src : Pc} {a b : Writer × Producer} (h : Move cfg me src a b)
    (hQ : Additive Q) (hnew : Stores Q a.2.nextId) (hw : Own cfg me Q a.1)
    (hp : Upstream cfg Q a.2) : Own cfg me Q b.1 ∧ Upstream cfg Q b.2 := by
  cases h with
  | quiet w w' p p' hq hb =>
    obtain ⟨_, _, _, _, _, _, rfl⟩ := hq
    exact ⟨hw.congr hb, hp.congr rfl rfl rfl rfl⟩
  | switch w w' p hprod hb =>
    refine ⟨fun _ => ?_, hp⟩
    rw [tlsBuilder, hb]
    exact hQ.nil
  | append w w' p kv flush b hkv hown hpc hadd hb =>
    have hext := addKv_extends w.batch.builder (logBuilderCreate cfg.hashKey) b p.nextId kv
      ⟨rfl, rfl, rfl⟩ hadd
    refine ⟨fun _ => ?_, ?_⟩
    · rw [tlsBuilder, hb]
      refine hext.has hQ (fun x hx => ?_) (hnew kv)
      have hx' := hw hown
      rwa [tlsBuilder, hx] at hx'
    · dsimp only
      rw [settleTls_eq]
      exact hp.congr rfl rfl rfl rfl
  | publish w w' p t hown ht hb =>
    refine ⟨own_of_reset hQ hb, ?_, hp.kept⟩
    intro x hx
    obtain hx | hx := List.mem_append.mp hx
    · exact hp.ingress x hx
    · rw [List.mem_singleton.mp hx, ht]
      exact hw hown
  | rawPush w w' p log hpc hb => exact ⟨hw.congr hb, hp.congr rfl rfl rfl rfl⟩
  | rawRelease w w' p log hpc hb => exact ⟨hw.congr hb, hp.congr rfl rfl rfl rfl⟩
  | keyed w p m hr hk =>
    exact ⟨hw, hp.mono (fun t ht => ht) (kept_effect hk rfl rfl rfl)⟩
  | store w w' p p' kv old b hkv hb hr hr' hs hf he =>
    exact ⟨hw.congr hb, (hp.fill hQ hf he (hnew kv)).congr rfl rfl rfl rfl⟩
  | openSlot w p p' old b hr hf he => exact ⟨hw, hp.fill hQ hf he hQ.nil⟩
  | stop w w' p hd hb => exact ⟨hw.congr hb, hp.congr rfl rfl rfl rfl⟩
  | stopSendQueue w w' p hb => exact ⟨hw.congr hb, hp.congr rfl rfl rfl rfl⟩
  | _ => exact ⟨hw, hp.congr rfl rfl rfl rfl⟩

theorem Loss.contents {me : ℕ} {a b : Writer × Producer} (h : Loss cfg me a b) (hQ : Additive Q)
    (hp : Upstream cfg Q a.2) : Own cfg me Q b.1 ∧ Upstream cfg Q b.2 := by
  cases h with
  | leave w w' p hprod =>
    refine ⟨fun h => absurd h hprod, ?_⟩
    dsimp only
    rw [leaveBatch_eq]
    exact hp.congr rfl rfl rfl rfl
  | overflow w w' p kv flush hown hpc hadd hb =>
    exact ⟨own_of_reset hQ hb, hp.congr rfl rfl rfl rfl⟩
  | discard w w' p rc hown hpc hb => exact ⟨own_of_reset hQ hb, hp.congr rfl rfl rfl rfl⟩

end Writer

theorem Worker.Move.contents {a b : Worker × Producer} (h : Worker.Move cfg a b) (hQ : Additive Q)
    (hp : Upstream cfg Q a.2) : Upstream cfg Q b.2 := by
  cases h with
  | idle w w' p p' hq =>
    obtain ⟨_, _, _, _, _, _, rfl⟩ := hq
    exact hp.congr rfl rfl rfl rfl
  | keyed w p m hk => exact hp.mono (fun t ht => ht) (kept_effect hk rfl rfl rfl)
  | skip w p t rest hi =>
    refine hp.mono (fun x hx => ?_) (fun b hb => hb)
    rw [hi]
    exact List.mem_cons_of_mem t hx
  | refuse w p t rest hi =>
    refine hp.mono (fun x hx => ?_) (fun b hb => hb)
    rw [hi]
    exact List.mem_cons_of_mem t hx
  | merge w p p' t rest old b hi hf he =>
    have ht : t.batch.Has Q := hp.ingress t (by rw [hi]; exact List.mem_cons_self)
    have hfill := hp.fill hQ hf he ht
    refine hfill.mono (fun x hx => ?_) (fun b hb => hb)
    obtain ⟨d, m, l, n, f, rfl⟩ := hf.frame
    rw [hi]
    exact List.mem_cons_of_mem t hx
  | sealUp w p p' b hf =>
    have he : Extends (some b) [] 0 0 b := ⟨(List.append_nil _).symm, rfl, rfl⟩
    exact hp.fill hQ hf he hQ.nil
  | take p =>
    refine hp.mono (fun t ht => ht) (fun b hb => ?_)
    rw [mem_kept] at hb ⊢
    obtain hb | hb | ⟨s, hs, _⟩ := hb
    · exact .inl hb
    · exact .inr (.inl hb)
    · cases hs
  | _ => exact hp.congr rfl rfl rfl rfl

theorem Sender.Move.contents {a b : Sender.Pc × Producer} (h : Sender.Move cfg a b)
    (hp : Upstream cfg Q a.2) : Upstream cfg Q b.2 := by
  cases h with
  | idle pc pc' p p' ha =>
    obtain ⟨_, _, _, _, rfl⟩ := ha
    exact hp.congr rfl rfl rfl rfl
  | keyed pc pc' p m hk => exact hp.mono (fun t ht => ht) (kept_effect hk rfl rfl rfl)
  | take p q t rest now m hfree hring he =>
    exact hp.mono (fun t ht => ht) (kept_effect he rfl rfl rfl)
  | put p t m he => exact hp.mono (fun t ht => ht) (kept_effect he rfl rfl rfl)
  | requeue p q t next m he => exact hp.mono (fun t ht => ht) (kept_effect he rfl rfl rfl)
  | finish p q m gone he => exact hp.mono (fun t ht => ht) (kept_effect he rfl rfl rfl)
  | cleanup pc pc' p next m gone hs he =>
    exact hp.mono (fun t ht => ht) (kept_effect he rfl rfl rfl)
  | _ => exact hp.congr rfl rfl rfl rfl

/-- Ids are given out in increasing order. -/
theorem Writer.Move.nextId {me : ℕ} {src : Writer.Pc} {a b : Writer × Producer}
    (h : Writer.Move cfg me src a b) : a.2.nextId ≤ b.2.nextId := by
  cases h with
  | quiet w w' p p' hq =>
    obtain ⟨_, _, _, _, hle, _, rfl⟩ := hq
    exact hle
  | append w w' p kv flush b =>
    dsimp only
    rw [Writer.settleTls_eq]
    show p.nextId ≤ p.nextId+1
    omega
  | rawPush w w' p log =>
    show p.nextId ≤ p.nextId+1
    omega
  | store w w' p p' kv old b =>
    show p.nextId ≤ p.nextId+1
    omega
  | openSlot w p p' old b hr hf =>
    obtain ⟨d, m, l, n, f, rfl⟩ := hf.frame
    exact le_rfl
  | _ => exact le_rfl

theorem Writer.Loss.nextId {me : ℕ} {a b : Writer × Producer} (h : Writer.Loss cfg me a b) :
    a.2.nextId ≤ b.2.nextId := by
  cases h with
  | leave w w' p =>
    dsimp only
    rw [Writer.leaveBatch_eq]
  | overflow w w' p kv flush =>
    show p.nextId ≤ p.nextId+1
    omega
  | discard w w' p rc => exact le_rfl

theorem Worker.Move.nextId {a b : Worker × Producer} (h : Worker.Move cfg a b) :
    a.2.nextId ≤ b.2.nextId := by
  cases h with
  | idle w w' p p' hq =>
    obtain ⟨_, _, _, _, hle, _, rfl⟩ := hq
    exact hle
  | merge w p p' t rest old b hi hf =>
    obtain ⟨d, m, l, n, f, rfl⟩ := hf.frame
    exact le_rfl
  | sealUp w p p' b hf =>
    obtain ⟨d, m, l, n, f, rfl⟩ := hf.frame
    exact le_rfl
  | _ => exact le_rfl

theorem Sender.Move.nextId {a b : Sender.Pc × Producer} (h : Sender.Move cfg a b) :
    b.2.nextId = a.2.nextId := by
  cases h with
  | idle pc pc' p p' ha =>
    obtain ⟨_, _, _, _, rfl⟩ := ha
    rfl
  | _ => rfl

namespace Sys

variable {st : Setup}

structure Every (st : Setup) (Q : List Log → ℕ → ℕ → Prop) (s : Sys) : Prop where
  own : ∀ i, Writer.Own st.cfg st.me Q (s.writers i)
  upstream : Upstream st.cfg Q s.prod

theorem every_start (hQ : Additive Q) (st : Setup) : Every st Q (start st) := by
  refine ⟨fun i _ => hQ.nil, nofun, ?_⟩
  intro b hb
  rw [mem_kept] at hb
  obtain hb | hb | ⟨s, hs, _⟩ := hb
  · cases hb
  · simp [start, producerCreate, KeyMap.builders, KeyMap.live, KeyMap.empty] at hb
  · cases hs

theorem every_writer {s : Sys} (h : Every st Q s) (i : ℕ) (r : Writer × Producer)
    (hw : Writer.Own st.cfg st.me Q r.1) (hp : Upstream st.cfg Q r.2) :
    Every st Q (s.setWriter i r) :=
  ⟨forall_update (Writer.Own st.cfg st.me Q) s.writers i r.1 h.own hw, hp⟩

/-- A step keeps the property of what is upstream if the logs it stores have
it. -/
theorem every_step (hQ : Additive Q) (s s' : Sys) (a : Act) (hgood : Good st s)
    (hnew : ∀ id, s.prod.nextId ≤ id → Stores Q id) (hi : Every st Q s)
    (h : step st s a = some s') : s.prod.nextId ≤ s'.prod.nextId ∧ Every st Q s' := by
  refine step_rule (fun t => s.prod.nextId ≤ t.prod.nextId ∧ Every st Q t) s s' a hgood
    ⟨le_rfl, hi⟩ ?_ ?_ ?_ ?_ ?_ h
  · intro t i r _ _ hI hm
    obtain ⟨hw, hp⟩ := hm.contents hQ (hnew _ hI.1) (hI.2.own i) hI.2.upstream
    exact ⟨hI.1.trans hm.nextId, every_writer hI.2 i r hw hp⟩
  · intro i r _ _ hl
    obtain ⟨hw, hp⟩ := hl.contents hQ hi.upstream
    exact ⟨hl.nextId, every_writer hi i r hw hp⟩
  · intro t i r _ _ hI hm
    exact ⟨hI.1.trans hm.nextId, hI.2.own, hm.contents hQ hI.2.upstream⟩
  · rintro i r _ _ ⟨j, start, _, rfl⟩
    exact ⟨le_rfl, hi.own, hi.upstream.congr rfl rfl rfl rfl⟩
  · intro i r _ _ hm
    exact ⟨hm.nextId.ge, hi.own, hm.contents hi.upstream⟩

end Sys

/-- A builder counts its logs, and each has at least one byte. -/
def Sized (logs : List Log) (logsLen logCount : ℕ) : Prop :=
  logCount = logs.length ∧ logs.length ≤ logsLen

theorem sized_additive : Additive Sized := by
  constructor
  · exact ⟨rfl, le_rfl⟩
  · intro l l' n n' c c' h h'
    obtain ⟨hc, hn⟩ := h
    obtain ⟨hc', hn'⟩ := h'
    constructor
    · rw [List.length_append]
      omega
    · rw [List.length_append]
      omega

theorem sized_stores (id : ℤ) : Stores Sized id := by
  intro kv
  refine ⟨rfl, ?_⟩
  show 1 ≤ (Wire.entryBytes kv).length
  rw [Wire.entryBytes, List.cons_append, List.length_cons]
  omega

theorem Builder.Has.empty {b : Builder} (h : b.Has Sized) (hb : b.logCount = 0 ∨ b.logsLen = 0) :
    b.logs = [] := by
  obtain ⟨hc, hn⟩ := h
  rw [← List.length_eq_zero_iff]
  omega

theorem Sys.sized_step {st : Setup} (s s' : Sys) (a : Act) (hgood : Sys.Good st s)
    (hi : Sys.Every st Sized s) (h : Sys.step st s a = some s') : Sys.Every st Sized s' :=
  (Sys.every_step sized_additive s s' a hgood (fun id _ => sized_stores id) hi h).2

end VeTls
