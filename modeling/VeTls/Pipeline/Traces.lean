import VeTls.Pipeline.Switching

/-!
# Where an accepted log is

A log whose add returned `ok` is in the batch of a thread, in the producer up
to its batch, or in a batch that a worker has taken. It is in none of these
only after a thread threw its batch away, or a key queue was freed with the
log in its builder.
-/

set_option autoImplicit false

namespace VeTls

open VeTls.Keys (Addr CStr KeyMap Info)
open VeTls.Keys.KeyMap (Effect Keeps)

variable {cfg : Config} {id : ℤ}

/-- The log is placed, or a worker has taken it. -/
def Found (cfg : Config) (p : Producer) (id : ℤ) : Prop :=
  Placed cfg p id ∨ ∃ b ∈ p.taken, id ∈ b.ids

theorem Found.queue {p : Producer} (h : ∃ x ∈ p.queue, x.id = id) : Found cfg p id := .inl (.inl h)

theorem Found.ingress {p : Producer} (h : ∃ t ∈ p.ingressQueue, id ∈ t.batch.ids) :
    Found cfg p id := .inl (.inr (.inl h))

theorem Found.kept {p : Producer} (h : ∃ b ∈ kept cfg p, id ∈ b.ids) : Found cfg p id :=
  .inl (.inr (.inr (.inl h)))

theorem Found.done {p : Producer} (h : ∃ r ∈ p.done, id ∈ r.ids) : Found cfg p id :=
  .inl (.inr (.inr (.inr h)))

theorem Found.taken {p : Producer} (h : ∃ b ∈ p.taken, id ∈ b.ids) : Found cfg p id := .inr h

/-- Reports and batches taken stay; the other places may hand the log on. -/
theorem Found.handOn {p p' : Producer} (h : Found cfg p id)
    (hq : (∃ x ∈ p.queue, x.id = id) → Found cfg p' id)
    (hi : (∃ t ∈ p.ingressQueue, id ∈ t.batch.ids) → Found cfg p' id)
    (hk : (∃ b ∈ VeTls.kept cfg p, id ∈ b.ids) → Found cfg p' id)
    (hd : ∃ l, p'.done = p.done++l) (ht : ∃ l, p'.taken = p.taken++l) : Found cfg p' id := by
  obtain ⟨l, hl⟩ := hd
  obtain ⟨l', hl'⟩ := ht
  rcases h with (hx | hx | hx | ⟨r, hr, hid⟩) | ⟨b, hb, hid⟩
  · exact hq hx
  · exact hi hx
  · exact hk hx
  · exact .done ⟨r, by rw [hl]; exact List.mem_append_left l hr, hid⟩
  · exact .taken ⟨b, by rw [hl']; exact List.mem_append_left l' hb, hid⟩

/-- Only the builders change. -/
theorem Found.shelve {p p' : Producer} (h : Found cfg p id)
    (hk : (∃ b ∈ VeTls.kept cfg p, id ∈ b.ids) → ∃ b ∈ VeTls.kept cfg p', id ∈ b.ids)
    (hq : p'.queue = p.queue) (hi : p'.ingressQueue = p.ingressQueue) (hd : p'.done = p.done)
    (ht : p'.taken = p.taken) : Found cfg p' id := by
  refine h.handOn ?_ ?_ (fun hx => .kept (hk hx)) ⟨[], by simp [hd]⟩ ⟨[], by simp [ht]⟩
  · rw [← hq]
    exact .queue
  · rw [← hi]
    exact .ingress

/-- Nothing moves; there may be new reports. -/
theorem Found.stay {p p' : Producer} (h : Found cfg p id) (hq : p'.queue = p.queue)
    (hi : p'.ingressQueue = p.ingressQueue) (hb : p'.defaultBuilder = p.defaultBuilder)
    (hk : p'.keys = p.keys) (hl : p'.sealedList = p.sealedList) (hd : ∃ l, p'.done = p.done++l)
    (ht : p'.taken = p.taken) : Found cfg p' id := by
  refine h.handOn ?_ ?_ ?_ hd ⟨[], by simp [ht]⟩
  · rw [← hq]
    exact .queue
  · rw [← hi]
    exact .ingress
  · rw [← kept_congr hb hk hl]
    exact .kept

theorem Extends.ids {old : Option Builder} {new : List Log} {len count : ℕ} {b : Builder}
    (he : Extends old new len count b) : b.ids = (old.elim [] Builder.ids)++new.map Log.id := by
  rw [Builder.ids, he.logs, List.map_append]
  cases old <;> rfl

/-- A filled builder has the logs of the one it replaces. -/
theorem Fill.ids {p p' : Producer} {old : Option Builder} {b : Builder} {new : List Log}
    {len count : ℕ} (hf : Fill cfg p p' old b) (he : Extends old new len count b)
    (h : ∃ x ∈ VeTls.kept cfg p, id ∈ x.ids) : ∃ x ∈ VeTls.kept cfg p', id ∈ x.ids := by
  obtain ⟨rest, hp, hp'⟩ := hf.kept
  obtain ⟨x, hx, hid⟩ := h
  rcases List.mem_append.mp (hp.mem_iff.mp hx) with hold | hrest
  · refine ⟨b, hf.mem, ?_⟩
    obtain rfl := Option.mem_toList.mp hold
    rw [he.ids]
    exact List.mem_append_left _ hid
  · exact ⟨x, hp'.mem_iff.mpr (List.mem_cons_of_mem b hrest), hid⟩

theorem Found.fill {p p' : Producer} {old : Option Builder} {b : Builder} {new : List Log}
    {len count : ℕ} (h : Found cfg p id) (hf : Fill cfg p p' old b)
    (he : Extends old new len count b) : Found cfg p' id := by
  have hk := @Fill.ids cfg id p p' old b new len count hf he
  obtain ⟨d, m, l, n, f, rfl⟩ := hf.frame
  exact h.shelve hk rfl rfl rfl rfl

/-- A change of the key map loses what the queues it frees have. -/
theorem Found.effect {p p' : Producer} {m : KeyMap SendTask Builder} {taken : Addr → Prop}
    {waiting : CStr → List SendTask} {gone : List (Info Builder)} (h : Found cfg p id)
    (he : Effect cfg.toKeyConfig p.keys m taken waiting gone)
    (hg : ∀ x ∈ gone, ∀ b ∈ x.builder, id ∉ b.ids) (hk : p'.keys = m) (hq : p'.queue = p.queue)
    (hi : p'.ingressQueue = p.ingressQueue) (hb : p'.defaultBuilder = p.defaultBuilder)
    (hl : p'.sealedList = p.sealedList) (hd : p'.done = p.done) (ht : p'.taken = p.taken) :
    Found cfg p' id := by
  refine h.shelve ?_ hq hi hd ht
  rintro ⟨b, hin, hid⟩
  refine ⟨b, ?_, hid⟩
  rw [mem_kept] at hin ⊢
  rw [hb, hl, hk]
  refine hin.imp_right fun hx => hx.imp_left fun hold => ?_
  rcases List.mem_append.mp (he.builders.mem_iff.mp hold) with hgone | hnew
  · obtain ⟨x, hx, hxb⟩ := List.mem_filterMap.mp hgone
    exact absurd hid (hg x hx b hxb)
  · exact hnew

theorem Found.keeps {p : Producer} {m : KeyMap SendTask Builder} (h : Found cfg p id)
    (hk : Keeps cfg.toKeyConfig p.keys m) : Found cfg { p with keys := m } id := by
  have hg : ∀ x ∈ ([] : List (Info Builder)), ∀ b ∈ x.builder, id ∉ b.ids := by simp
  exact h.effect hk hg rfl rfl rfl rfl rfl rfl rfl

namespace Writer

variable {me : ℕ} {src : Pc}

/-- The log is in the thread's batch, or the producer has it. -/
def Has (cfg : Config) (me : ℕ) (a : Writer × Producer) (id : ℤ) : Prop :=
  id ∈ ownIds me a.1 ∨ Found cfg a.2 id

theorem Has.keep {a b : Writer × Producer} (h : Has cfg me a id) (hb : b.1.batch = a.1.batch)
    (hf : Found cfg a.2 id → Found cfg b.2 id) : Has cfg me b id := by
  refine h.imp ?_ hf
  rw [ownIds_congr hb]
  exact fun hid => hid

theorem Move.has {a b : Writer × Producer} (hm : Move cfg me src a b) (h : Has cfg me a id) :
    Has cfg me b id := by
  cases hm with
  | quiet w w' p p' hq hb =>
    obtain ⟨f, n, k, l, _, _, rfl⟩ := hq
    exact h.keep hb fun hf => hf.stay rfl rfl rfl rfl rfl ⟨l, rfl⟩ rfl
  | switch w w' p hp =>
    refine .inr (h.resolve_left ?_)
    rw [ownIds_other hp]
    exact List.not_mem_nil
  | append w w' p kv flush b hkv hown hpc hadd hb =>
    refine h.imp (fun hid => ?_) fun hf => ?_
    · dsimp only at hid ⊢
      rw [ownIds_own hown] at hid
      have hown' : w'.batch.producer = some me := by rw [hb]; exact hown
      have hbuilder : tlsBuilder cfg w' = b := by rw [tlsBuilder, hb]; rfl
      rw [ownIds_own hown', hbuilder, ids_addKv _ _ _ _ hadd]
      exact List.mem_append_left _ hid
    · dsimp only
      rw [settleTls_eq]
      exact hf.stay rfl rfl rfl rfl rfl ⟨[], by simp⟩ rfl
  | publish w w' p t hown ht =>
    refine .inr ?_
    rcases h with hid | hf
    · dsimp only at hid
      rw [ownIds_own hown, ← ht] at hid
      exact .ingress ⟨t, List.mem_append_right _ (List.mem_singleton.mpr rfl), hid⟩
    · refine hf.handOn (fun hx => .queue hx) ?_ (fun hx => .kept hx) ⟨[], by simp⟩ ⟨[], by simp⟩
      rintro ⟨x, hx, hid⟩
      exact .ingress ⟨x, List.mem_append_left _ hx, hid⟩
  | rawPush w w' p log hpc hb =>
    refine h.keep hb fun hf => hf.handOn ?_ (fun hx => .ingress hx) (fun hx => .kept hx)
      ⟨[], by simp⟩ ⟨[], by simp⟩
    rintro ⟨x, hx, hid⟩
    exact .queue ⟨x, List.mem_append_left _ hx, hid⟩
  | rawRelease w w' p log hpc hb =>
    exact h.keep hb fun hf =>
      hf.stay rfl rfl rfl rfl rfl ⟨[], by simp [releaseQueueReservationLocked]⟩ rfl
  | keyed w p m hr hk =>
    exact h.keep rfl fun hf => hf.keeps hk
  | store w w' p p' kv old b hkv hb hr hr' hs hf he =>
    exact h.keep hb fun hx => (hx.fill hf he).stay rfl rfl rfl rfl rfl ⟨[], by simp⟩ rfl
  | openSlot w p p' old b hr hf he => exact h.keep rfl fun hx => hx.fill hf he
  | stop w w' p hd hb =>
    exact h.keep hb fun hf => hf.stay rfl rfl rfl rfl rfl ⟨[], by simp⟩ rfl
  | stopSendQueue w w' p hb =>
    exact h.keep hb fun hf => hf.stay rfl rfl rfl rfl rfl ⟨[], by simp⟩ rfl
  | reserve w p kv flush =>
    exact h.keep rfl fun hf => hf.stay rfl rfl rfl rfl rfl ⟨[], by simp [tlsReserve]⟩ rfl
  | accept w p x =>
    exact h.keep rfl fun hf => hf.stay rfl rfl rfl rfl rfl ⟨[], by simp [VeTls.accept]⟩ rfl
  | rawReserve w p log =>
    exact h.keep rfl fun hf => hf.stay rfl rfl rfl rfl rfl ⟨[], by simp [Writer.rawReserve]⟩ rfl
  | closeBegin w p =>
    exact h.keep rfl fun hf =>
      hf.stay rfl rfl rfl rfl rfl ⟨[], by simp [VeTls.Writer.closeBegin]⟩ rfl

/-- A log is accepted when the thread or the producer has it. -/
theorem Move.accepts {a b : Writer × Producer} (hm : Move cfg me src a b)
    (h : id ∈ b.2.accepted) : id ∈ a.2.accepted ∨ Has cfg me b id := by
  cases hm with
  | quiet w w' p p' hq =>
    obtain ⟨f, n, k, l, _, _, rfl⟩ := hq
    exact .inl h
  | append w w' p kv flush b =>
    dsimp only at h
    rw [settleTls_eq] at h
    exact .inl h
  | accept w p x hx =>
    rcases List.mem_append.mp h with h | h
    · exact .inl h
    · obtain rfl := List.mem_singleton.mp h
      refine .inr ?_
      rcases hx with ⟨hown, hin⟩ | hplaced
      · left
        rw [ownIds_own hown]
        exact hin
      · exact .inr (.inl hplaced)
  | store w w' p p' kv old b hkv hb hr hr' hs hf =>
    obtain ⟨d, m, l, n, f, rfl⟩ := hf.frame
    exact .inl h
  | openSlot w p p' old b hr hf =>
    obtain ⟨d, m, l, n, f, rfl⟩ := hf.frame
    exact .inl h
  | _ => exact .inl h

theorem Moves.has {a b : Writer × Producer} (hm : Moves cfg me src a b) (h : Has cfg me a id) :
    Has cfg me b id := by
  induction hm with
  | refl => exact h
  | tail _ hlast ih => exact hlast.has ih

theorem Moves.accepts {a b : Writer × Producer} (hm : Moves cfg me src a b)
    (h : id ∈ b.2.accepted) : id ∈ a.2.accepted ∨ Has cfg me b id := by
  induction hm with
  | refl => exact .inl h
  | tail _ hlast ih =>
    rcases hlast.accepts h with hid | hhas
    · exact (ih hid).imp_right hlast.has
    · exact .inr hhas

/-- What the producer has it keeps when a thread loses its batch. -/
theorem Loss.found {a b : Writer × Producer} (hl : Loss cfg me a b) :
    b.2.accepted = a.2.accepted ∧ (Found cfg a.2 id → Found cfg b.2 id) := by
  cases hl with
  | leave w w' p =>
    dsimp only
    rw [leaveBatch_eq]
    exact ⟨rfl, fun hf => hf.stay rfl rfl rfl rfl rfl ⟨[], by simp⟩ rfl⟩
  | overflow w w' p kv flush =>
    exact ⟨rfl, fun hf => hf.stay rfl rfl rfl rfl rfl ⟨[], by simp [countDropped]⟩ rfl⟩
  | discard w w' p rc =>
    exact ⟨rfl, fun hf => hf.stay rfl rfl rfl rfl rfl ⟨[], by simp⟩ rfl⟩

end Writer

namespace Worker

/-- A worker hands on what it takes, and reports what it cannot merge. -/
theorem Move.found {a b : Worker × Producer} (hm : Move cfg a b) (hs : Upstream cfg Sized a.2)
    (h : Found cfg a.2 id) : Found cfg b.2 id := by
  cases hm with
  | idle w w' p p' hq =>
    obtain ⟨f, n, k, l, _, _, rfl⟩ := hq
    exact h.stay rfl rfl rfl rfl rfl ⟨l, rfl⟩ rfl
  | keyed w p m hk => exact h.keeps hk
  | skip w p t rest hi he =>
    dsimp only at hi hs h
    refine h.handOn (fun hx => .queue hx) ?_ (fun hx => .kept hx)
      ⟨[], by simp [ingressQueuePopLocked]⟩ ⟨[], by simp [ingressQueuePopLocked]⟩
    rintro ⟨x, hx, hid⟩
    rw [hi] at hx
    rcases List.mem_cons.mp hx with rfl | hx
    · rw [Builder.ids, (hs.ingress x (by rw [hi]; exact List.mem_cons_self)).empty he] at hid
      cases hid
    · exact .ingress ⟨x, hx, hid⟩
  | refuse w p t rest hi =>
    dsimp only at hi h
    refine h.handOn (fun hx => .queue hx) ?_ (fun hx => .kept hx) ⟨_, rfl⟩
      ⟨[], (List.append_nil _).symm⟩
    rintro ⟨x, hx, hid⟩
    rw [hi] at hx
    rcases List.mem_cons.mp hx with rfl | hx
    · exact .done ⟨_, List.mem_append_right _ (List.mem_singleton.mpr rfl), hid⟩
    · exact .ingress ⟨x, hx, hid⟩
  | merge w p p' t rest old b hi hf he =>
    dsimp only at hi h
    have hk := @Fill.ids cfg id p p' old b _ _ _ hf he
    have hb : id ∈ t.batch.ids → ∃ x ∈ VeTls.kept cfg p', id ∈ x.ids := by
      intro hid
      refine ⟨b, hf.mem, ?_⟩
      rw [he.ids]
      exact List.mem_append_right _ hid
    obtain ⟨d, m, l, n, f, rfl⟩ := hf.frame
    refine h.handOn (fun hx => .queue hx) ?_ (fun hx => .kept (hk hx))
      ⟨[], (List.append_nil _).symm⟩ ⟨[], (List.append_nil _).symm⟩
    rintro ⟨x, hx, hid⟩
    rw [hi] at hx
    rcases List.mem_cons.mp hx with rfl | hx
    · exact .kept (hb hid)
    · exact .ingress ⟨x, hx, hid⟩
  | begin w p => exact h.stay rfl rfl rfl rfl rfl ⟨[], (List.append_nil _).symm⟩ rfl
  | sealUp w p p' b hf =>
    have he : Extends (some b) [] 0 0 b := ⟨(List.append_nil _).symm, rfl, rfl⟩
    exact h.fill hf he
  | take p =>
    refine h.handOn (fun hx => .queue hx) (fun hx => .ingress hx) ?_
      ⟨[], (List.append_nil _).symm⟩ ⟨_, rfl⟩
    rintro ⟨b, hb, hid⟩
    rw [mem_kept] at hb
    rcases hb with hb | hb | ⟨x, hx, rfl⟩
    · refine .kept ⟨b, ?_, hid⟩
      rw [mem_kept]
      exact .inl hb
    · refine .kept ⟨b, ?_, hid⟩
      rw [mem_kept]
      exact .inr (.inl hb)
    · exact .taken ⟨sealedBatch cfg x, List.mem_append_right _ (List.mem_map_of_mem hx), hid⟩
  | rawPop w p item rest hpc hi =>
    dsimp only at hi h
    refine h.handOn ?_ (fun hx => .ingress hx) (fun hx => .kept hx) ⟨[], (List.append_nil _).symm⟩
      ⟨_, rfl⟩
    rintro ⟨x, hx, hid⟩
    rw [hi] at hx
    rcases List.mem_cons.mp hx with rfl | hx
    · exact .taken ⟨rawBatch x, List.mem_append_right _ (List.mem_singleton.mpr rfl),
        List.mem_singleton.mpr hid.symm⟩
    · exact .queue ⟨x, hx, hid⟩
  | drop w p j => exact h.stay rfl rfl rfl rfl rfl ⟨_, rfl⟩ rfl
  | _ => exact h.stay rfl rfl rfl rfl rfl ⟨[], (List.append_nil _).symm⟩ rfl

theorem Moves.found {a b : Worker × Producer} (hm : Moves cfg a b) (hs : Upstream cfg Sized a.2)
    (h : Found cfg a.2 id) : Upstream cfg Sized b.2 ∧ Found cfg b.2 id := by
  induction hm with
  | refl => exact ⟨hs, h⟩
  | tail _ hlast ih => exact ⟨hlast.contents sized_additive ih.1, hlast.found ih.1 ih.2⟩

end Worker

/-- A sender loses a log only with a key queue it frees. -/
theorem Sender.Move.found {a b : Sender.Pc × Producer} (hm : Sender.Move cfg a b)
    (hfree : ∀ x ∈ b.2.keys.freed, ∀ y ∈ x.builder, id ∉ y.ids) (h : Found cfg a.2 id) :
    Found cfg b.2 id := by
  have gone : ∀ {m m' : KeyMap SendTask Builder} {taken : Addr → Prop}
      {waiting : CStr → List SendTask} {gone : List (Info Builder)},
      Effect cfg.toKeyConfig m m' taken waiting gone →
      (∀ x ∈ m'.freed, ∀ y ∈ x.builder, id ∉ y.ids) → ∀ x ∈ gone, ∀ y ∈ x.builder, id ∉ y.ids := by
    intro m m' taken waiting gone he hf x hx
    rw [he.freed] at hf
    exact hf x (List.mem_append_right _ hx)
  cases hm with
  | idle pc pc' p p' ha =>
    obtain ⟨_, _, _, _, rfl⟩ := ha
    exact h.stay rfl rfl rfl rfl rfl ⟨[], (List.append_nil _).symm⟩ rfl
  | keyed pc pc' p m he => exact h.effect he (gone he hfree) rfl rfl rfl rfl rfl rfl rfl
  | take p q t rest now m hf hring he =>
    exact h.effect he (gone he hfree) rfl rfl rfl rfl rfl rfl rfl
  | put p t m he => exact h.effect he (gone he hfree) rfl rfl rfl rfl rfl rfl rfl
  | requeue p q t next m he => exact h.effect he (gone he hfree) rfl rfl rfl rfl rfl rfl rfl
  | finish p q m x he => exact h.effect he (gone he hfree) rfl rfl rfl rfl rfl rfl rfl
  | cleanup pc pc' p next m x hs he => exact h.effect he (gone he hfree) rfl rfl rfl rfl rfl rfl rfl
  | drop p t => exact h.stay rfl rfl rfl rfl rfl ⟨_, rfl⟩ rfl
  | report p q s sent => exact h.stay rfl rfl rfl rfl rfl ⟨_, rfl⟩ rfl
  | _ => exact h.stay rfl rfl rfl rfl rfl ⟨[], (List.append_nil _).symm⟩ rfl

namespace Sys

variable {st : Setup}

/-- The thread that empties or leaves its batch without a flush. -/
def givesUp (st : Setup) (s : Sys) : Act → Option ℕ
  | .call i (.elsewhere _ _) => some i
  | .writer i _ =>
    if Writer.refused (s.writers i).pc || Writer.overflows st.cfg (s.writers i) s.prod then some i
    else none
  | _ => none

/-- A thread that loses its batch in a call that stays here has none. -/
theorem call_loss (w : Writer) (p : Producer) (c : Call) (r : Writer × Producer)
    (hc : Fleet.here c = true) (hidle : w.pc = .idle) (h : Writer.call st.cfg st.me w p c = some r)
    (hl : Writer.Loss st.cfg st.me (w, p) r) : Writer.ownIds st.me w = [] := by
  cases hl with
  | leave _ w' _ hp =>
    refine Writer.ownIds_other fun hme => hp ?_
    rcases Writer.call_keeps p c _ hc h with hb | ⟨-, hb⟩
    · rw [← hme, ← hb]
    · rw [← hme, hb, Writer.switchBatch, if_pos hme]
  | overflow _ w' _ kv flush hown hpc =>
    rw [hidle] at hpc
    cases hpc
  | discard _ w' _ rc hown hpc =>
    rw [hidle] at hpc
    cases hpc

theorem go_loss (s : Sys) (i : ℕ) (input : Input) (r : Writer × Producer)
    (hok : Writer.Ok st.cfg st.me (s.writers i))
    (h : Writer.go st.cfg st.me (s.joined st) input (s.writers i) s.prod = some r)
    (hl : Writer.Loss st.cfg st.me (s.writers i, s.prod) r) :
    Writer.ownIds st.me (s.writers i) = [] ∨ givesUp st s (.writer i input) = some i := by
  generalize hw : s.writers i = w at *
  cases hl with
  | leave _ w' _ hp =>
    left
    refine Writer.ownIds_other fun hme => hp ?_
    rcases Writer.go_keeps _ input s.prod _ hok h with hb | ⟨-, hb⟩
    · rw [← hme, ← hb]
    · rw [← hme]
      exact hb.producer
  | overflow _ w' _ kv flush hown hpc hadd =>
    right
    simp [givesUp, hw, Writer.overflows, hpc, hadd]
  | discard _ w' _ rc hown hpc =>
    right
    simp [givesUp, hw, Writer.refused, hpc]

/-- What a step of a thread does to its batch and the producer. -/
theorem thread_step (s s' : Sys) (a : Act) (i : ℕ) (hgood : Good st s) (hc : caller a = some i)
    (h : step st s a = some s') : i < st.writerCount ∧ ∃ r, s' = s.setWriter i r ∧
      (Writer.Moves st.cfg st.me (s.writers i).pc (s.writers i, s.prod) r ∨
        Writer.Loss st.cfg st.me (s.writers i, s.prod) r ∧
          (Writer.ownIds st.me (s.writers i) = [] ∨ givesUp st s a = some i)) := by
  cases a with
  | call j c =>
    obtain rfl := Option.some.inj hc
    simp only [step] at h
    split at h
    · rename_i hlt
      obtain ⟨r, hr, rfl⟩ := Option.map_eq_some_iff.mp h
      refine ⟨hlt.1, r, rfl, ?_⟩
      refine (Writer.call_moves _ r.1 s.prod r.2 c hlt.2 hr).imp_right fun hl => ⟨hl, ?_⟩
      cases c with
      | elsewhere other b => exact .inr rfl
      | _ => exact .inl (call_loss _ _ _ r rfl hlt.2 hr hl)
    · cases h
  | writer j input =>
    obtain rfl := Option.some.inj hc
    simp only [step] at h
    split at h
    · rename_i hlt
      obtain ⟨r, hr, rfl⟩ := Option.map_eq_some_iff.mp h
      refine ⟨hlt, r, rfl, ?_⟩
      exact (Writer.go_moves _ input _ r.1 s.prod r.2 (hgood.writers j) hgood.sound hr).imp_right
        fun hl => ⟨hl, go_loss s j input r (hgood.writers j) hr hl⟩
    · cases h
  | worker j input => cases hc
  | sender j input => cases hc

/-- A thread has the log, or the producer. -/
def Seen (st : Setup) (s : Sys) (id : ℤ) : Prop :=
  (∃ j < st.writerCount, id ∈ Writer.ownIds st.me (s.writers j)) ∨ Found st.cfg s.prod id

/-- No key queue was freed with the log in its builder. -/
def Unfreed (p : Producer) (id : ℤ) : Prop := ∀ x ∈ p.keys.freed, ∀ b ∈ x.builder, id ∉ b.ids

instance (p : Producer) (id : ℤ) : Decidable (Unfreed p id) :=
  inferInstanceAs (Decidable (∀ x ∈ p.keys.freed, ∀ b ∈ x.builder, id ∉ b.ids))

/-- A log stays in sight, and comes into it when it is accepted. -/
structure Watched (st : Setup) (s s' : Sys) (id : ℤ) : Prop where
  seen : Seen st s id → Seen st s' id
  accepted : id ∈ s'.prod.accepted → id ∈ s.prod.accepted ∨ Seen st s' id

theorem Seen.writer {s : Sys} {id : ℤ} {i : ℕ} (hi : i < st.writerCount) (r : Writer × Producer)
    (h : Writer.Has st.cfg st.me r id) : Seen st (s.setWriter i r) id := by
  refine h.imp (fun hid => ⟨i, hi, ?_⟩) fun hf => hf
  have hself : (s.setWriter i r).writers i = r.1 := Function.update_self _ _ _
  rwa [hself]

/-- A log of another thread, or one that the thread or the producer has. -/
theorem Seen.setWriter {s : Sys} {id : ℤ} {i : ℕ} (hi : i < st.writerCount) (r : Writer × Producer)
    (hown : id ∈ Writer.ownIds st.me (s.writers i) → Writer.Has st.cfg st.me r id)
    (hf : Found st.cfg s.prod id → Writer.Has st.cfg st.me r id) (h : Seen st s id) :
    Seen st (s.setWriter i r) id := by
  rcases h with ⟨j, hj, hid⟩ | hfound
  · by_cases hji : j = i
    · subst hji
      exact .writer hj r (hown hid)
    · refine .inl ⟨j, hj, ?_⟩
      have hother : (s.setWriter i r).writers j = s.writers j := Function.update_of_ne hji _ _
      rwa [hother]
  · exact .writer hi r (hf hfound)

theorem watched_thread (s s' : Sys) (a : Act) (i : ℕ) (id : ℤ) (hgood : Good st s)
    (hc : caller a = some i)
    (hkeep : ∀ j ∈ givesUp st s a, id ∉ Writer.ownIds st.me (s.writers j))
    (h : step st s a = some s') : Watched st s s' id := by
  obtain ⟨hi, r, rfl, hm | ⟨hl, hown⟩⟩ := thread_step s s' a i hgood hc h
  · refine ⟨Seen.setWriter hi r (fun hid => hm.has (.inl hid)) fun hf => hm.has (.inr hf), ?_⟩
    exact fun hacc => (hm.accepts hacc).imp_right (Seen.writer hi r)
  · obtain ⟨hacc, hfound⟩ := @Writer.Loss.found st.cfg id st.me _ _ hl
    refine ⟨Seen.setWriter hi r (fun hid => ?_) fun hf => .inr (hfound hf), fun hx => .inl ?_⟩
    · rcases hown with hnil | hgives
      · rw [hnil] at hid
        cases hid
      · exact absurd hid (hkeep i hgives)
    · rw [← hacc]
      exact hx

theorem watched_step (s s' : Sys) (a : Act) (id : ℤ) (hgood : Good st s)
    (hsized : Every st Sized s)
    (hkeep : ∀ j ∈ givesUp st s a, id ∉ Writer.ownIds st.me (s.writers j))
    (hfree : Unfreed s'.prod id) (h : step st s a = some s') : Watched st s s' id := by
  cases a with
  | call i c => exact watched_thread s s' _ i id hgood rfl hkeep h
  | writer i input => exact watched_thread s s' _ i id hgood rfl hkeep h
  | worker i input =>
    obtain ⟨hacc, -⟩ := worker_still s s' i input hgood h
    simp only [step] at h
    split at h
    · obtain ⟨r, hr, rfl⟩ := Option.map_eq_some_iff.mp h
      refine ⟨fun hseen => hseen.imp_right fun hf => ?_, fun hx => .inl (hacc ▸ hx)⟩
      obtain hm | ⟨j, start, -, hp⟩ := Worker.step_moves input _ r.1 _ r.2 (hgood.workers i)
        hgood.sound hr
      · exact (hm.found hsized.upstream hf).2
      · show Found st.cfg r.2 id
        rw [(Prod.mk.inj hp).2]
        exact hf.stay rfl rfl rfl rfl rfl ⟨[], (List.append_nil _).symm⟩ rfl
    · cases h
  | sender i input =>
    obtain ⟨hacc, -⟩ := sender_still s s' i input hgood h
    obtain ⟨-, r, -, hm, rfl⟩ := sender_move s s' i input hgood h
    exact ⟨fun hseen => hseen.imp_right fun hf => hm.found hfree hf, fun hx => .inl (hacc ▸ hx)⟩

end Sys

end VeTls
