import VeTls.Keys.Held

/-!
# What the key map holds

The tasks waiting under each key and the builders being filled, with the
addresses left out. `Effect` is what an operation does to them: which queues
are in the hands of senders afterwards, what waits under every key, and
which queues were freed.
-/

set_option autoImplicit false

namespace VeTls.Keys.KeyMap

variable {τ β : Type}

def ring (cfg : KeyConfig) (m : KeyMap τ β) (k : CStr) : List τ :=
  match (live cfg m).find? fun q => (m.info q).key == k with
  | some q => m.tasks q
  | none => []

def builders (cfg : KeyConfig) (m : KeyMap τ β) : List β :=
  (live cfg m).filterMap fun q => (m.info q).builder

structure Effect (cfg : KeyConfig) (m m' : KeyMap τ β) (taken : Addr → Prop)
    (waiting : CStr → List τ) (gone : List (Info β)) : Prop where
  sound : Sound cfg m'
  held : ∀ a, Held cfg m' a ↔ taken a
  same : ∀ a, Held cfg m a → Held cfg m' a →
    (m'.info a).key = (m.info a).key ∧ (m'.info a).builder = (m.info a).builder
  ring : ∀ k, ring cfg m' k = waiting k
  builders : (builders cfg m).Perm (gone.filterMap Info.builder++builders cfg m')
  freed : m'.freed = m.freed++gone
  idle : ∀ a, (m'.info a).idle = true → (m'.info a).builder = (m.info a).builder ∧
    ((m.info a).idle = true ∨ Held cfg m a ∧ ¬ taken a ∧ waiting (m.info a).key = [])

/-- Queues may be listed differently or created, but nothing moves. -/
abbrev Keeps (cfg : KeyConfig) (m m' : KeyMap τ β) : Prop :=
  Effect cfg m m' (Held cfg m) (ring cfg m) []

theorem ring_self {cfg : KeyConfig} {m : KeyMap τ β} (h : Hashed cfg m) (q : Addr)
    (hq : q ∈ live cfg m) : ring cfg m (m.info q).key = m.tasks q := by
  unfold ring
  cases hf : (live cfg m).find? fun a => (m.info a).key == (m.info q).key with
  | none =>
    have := List.find?_eq_none.mp hf q hq
    simp at this
  | some a =>
    have hk := List.find?_some hf
    have ha := List.mem_of_find?_eq_some hf
    rw [h.key a q ha hq (by simpa using hk)]

theorem ring_cases (cfg : KeyConfig) (m : KeyMap τ β) (k : CStr) :
    ring cfg m k = [] ∨ ∃ q ∈ live cfg m, (m.info q).key = k ∧ ring cfg m k = m.tasks q := by
  unfold ring
  cases hf : (live cfg m).find? fun a => (m.info a).key == k with
  | none => exact Or.inl rfl
  | some a =>
    exact Or.inr ⟨a, List.mem_of_find?_eq_some hf, by simpa using List.find?_some hf, rfl⟩

theorem ring_congr {cfg : KeyConfig} {m m' : KeyMap τ β} (hl : live cfg m' = live cfg m)
    (hk : ∀ a, (m'.info a).key = (m.info a).key) (ht : m'.tasks = m.tasks) (k : CStr) :
    ring cfg m' k = ring cfg m k := by
  simp only [ring, hl, hk, ht]

/-- The non-empty queues of `m` are queues of `m'`. -/
def Carries (cfg : KeyConfig) (m m' : KeyMap τ β) : Prop :=
  ∀ q ∈ live cfg m, m.tasks q ≠ [] → q ∈ live cfg m' ∧ (m'.info q).key = (m.info q).key ∧
    m'.tasks q = m.tasks q

theorem carries_ring {cfg : KeyConfig} {m m' : KeyMap τ β} (hc : Carries cfg m m')
    (h' : Hashed cfg m') (k : CStr) (hk : ring cfg m k ≠ []) :
    ring cfg m' k = ring cfg m k := by
  rcases ring_cases cfg m k with hn | ⟨q, hq, hkey, hr⟩
  · exact absurd hn hk
  · rw [hr] at hk ⊢
    obtain ⟨hq', hkey', ht⟩ := hc q hq hk
    rw [← hkey, ← hkey', ring_self h' q hq', ht]

theorem ring_eq {cfg : KeyConfig} {m m' : KeyMap τ β} (h : Hashed cfg m) (h' : Hashed cfg m')
    (hto : Carries cfg m m') (hfrom : Carries cfg m' m) (k : CStr) :
    ring cfg m' k = ring cfg m k := by
  by_cases hk : ring cfg m k = []
  · by_contra hne
    rw [hk] at hne
    exact hne ((carries_ring hfrom h k hne).symm.trans hk)
  · exact carries_ring hto h' k hk

theorem touch_key {q : Addr} {m m' : KeyMap τ β} (ht : Touches q m m') (a : Addr) :
    (m'.info a).key = (m.info a).key := by
  by_cases ha : a = q
  · rw [ha, ht.key]
  · rw [ht.info a ha]

theorem builders_touch {cfg : KeyConfig} {q : Addr} {m m' : KeyMap τ β} (ht : Touches q m m')
    (hb : (m'.info q).builder = (m.info q).builder) : builders cfg m' = builders cfg m := by
  unfold builders
  rw [ht.live cfg]
  apply List.filterMap_congr
  intro a _
  by_cases ha : a = q
  · rw [ha, hb]
  · rw [ht.info a ha]

/-- An edit of one queue changes what waits under its key only. -/
theorem ring_touch {cfg : KeyConfig} {q : Addr} {m m' : KeyMap τ β} (ht : Touches q m m')
    (h : Hashed cfg m) (hq : q ∈ live cfg m) (k : CStr) :
    ring cfg m' k = if k = (m.info q).key then m'.tasks q else ring cfg m k := by
  have h' := h.touch ht
  split
  · rename_i hk
    rw [hk, ← ht.key]
    exact ring_self h' q (by rwa [ht.live cfg])
  · rename_i hk
    unfold ring
    simp only [ht.live cfg, touch_key ht]
    cases hf : (live cfg m).find? fun a => (m.info a).key == k with
    | none => rfl
    | some a =>
      have hka : (m.info a).key = k := by simpa using List.find?_some hf
      apply ht.tasks a
      intro ha
      exact hk (by rw [← hka, ha])

theorem touch_same {q : Addr} {m m' : KeyMap τ β} (ht : Touches q m m')
    (hb : (m'.info q).builder = (m.info q).builder) (a : Addr) :
    (m'.info a).key = (m.info a).key ∧ (m'.info a).builder = (m.info a).builder := by
  refine ⟨touch_key ht a, ?_⟩
  by_cases ha : a = q
  · rw [ha, hb]
  · rw [ht.info a ha]

theorem touch_idle {q : Addr} {m m' : KeyMap τ β} {P : Addr → Prop} (ht : Touches q m m')
    (hb : (m'.info q).builder = (m.info q).builder)
    (hi : (m'.info q).idle = true → (m.info q).idle = true ∨ P q) (a : Addr)
    (ha : (m'.info a).idle = true) :
    (m'.info a).builder = (m.info a).builder ∧ ((m.info a).idle = true ∨ P a) := by
  by_cases he : a = q
  · subst he
    exact ⟨hb, hi ha⟩
  · rw [ht.info a he] at ha ⊢
    exact ⟨rfl, Or.inl ha⟩

theorem effect_edit {cfg : KeyConfig} {q : Addr} {m m' : KeyMap τ β} {taken : Addr → Prop}
    (h : Hashed cfg m) (hq : q ∈ live cfg m) (hs : Sound cfg m') (ht : Touches q m m')
    (hb : (m'.info q).builder = (m.info q).builder) (hf : m'.freed = m.freed)
    (hh : ∀ a, Held cfg m' a ↔ taken a)
    (hi : (m'.info q).idle = true → (m.info q).idle = true ∨
      Held cfg m q ∧ ¬ taken q ∧ m'.tasks q = []) :
    Effect cfg m m' taken
      (fun k => if k = (m.info q).key then m'.tasks q else ring cfg m k) [] := by
  apply Effect.mk hs hh (fun a _ _ => touch_same ht hb a) (ring_touch ht h hq)
  · rw [builders_touch ht hb]
    rfl
  · simpa using hf
  · exact touch_idle ht hb (by simpa using hi)

theorem keeps_edit {cfg : KeyConfig} {q : Addr} {m m' : KeyMap τ β} (hs : Sound cfg m')
    (ht : Touches q m m') (hb : (m'.info q).builder = (m.info q).builder)
    (hf : m'.freed = m.freed) (htasks : m'.tasks q = m.tasks q)
    (hi : (m'.info q).inflight = (m.info q).inflight)
    (hidle : (m'.info q).idle = true → (m.info q).idle = true) : Keeps cfg m m' := by
  have htask : m'.tasks = m.tasks := by
    funext a
    by_cases ha : a = q
    · rw [ha, htasks]
    · exact ht.tasks a ha
  apply Effect.mk hs (ht.held hi) (fun a _ _ => touch_same ht hb a)
    (ring_congr (ht.live cfg) (touch_key ht) htask)
  · rw [builders_touch ht hb]
    rfl
  · simpa using hf
  · exact touch_idle ht hb fun h => Or.inl (hidle h)

theorem keeps_refl {cfg : KeyConfig} {m : KeyMap τ β} (h : Sound cfg m) : Keeps cfg m m :=
  ⟨h, fun _ => Iff.rfl, fun _ _ _ => ⟨rfl, rfl⟩, fun _ => rfl, List.Perm.refl _, by simp,
    fun _ ha => ⟨rfl, Or.inl ha⟩⟩

/-- A move between the lists: of the queue `q` only its flags change. -/
structure Relists (q : Addr) (m m' : KeyMap τ β) : Prop where
  touches : Touches q m m'
  builder : (m'.info q).builder = (m.info q).builder
  inflight : (m'.info q).inflight = (m.info q).inflight
  tasks : m'.tasks = m.tasks
  freed : m'.freed = m.freed

theorem Relists.refl (q : Addr) (m : KeyMap τ β) : Relists q m m :=
  ⟨Touches.refl q m, rfl, rfl, rfl, rfl⟩

theorem Relists.trans {q : Addr} {m₁ m₂ m₃ : KeyMap τ β} (h : Relists q m₁ m₂)
    (h' : Relists q m₂ m₃) : Relists q m₁ m₃ :=
  ⟨h.touches.trans h'.touches, h'.builder.trans h.builder, h'.inflight.trans h.inflight,
    h'.tasks.trans h.tasks, h'.freed.trans h.freed⟩

theorem Relists.keeps {cfg : KeyConfig} {q : Addr} {m m' : KeyMap τ β} (h : Relists q m m')
    (hs : Sound cfg m') (hi : (m'.info q).idle = true → (m.info q).idle = true) : Keeps cfg m m' :=
  keeps_edit hs h.touches h.builder h.freed (congrFun h.tasks q) h.inflight hi

theorem readyAdd_relists (q : Addr) (m : KeyMap τ β) : Relists q m (readyAdd q m) := by
  apply Relists.mk (readyAdd_touches q m) _ (readyAdd_inflight q m) (readyAdd_tasks q m)
  · unfold readyAdd
    split <;> rfl
  · unfold readyAdd
    split <;> simp

theorem readyRemove_relists (q : Addr) (m : KeyMap τ β) : Relists q m (readyRemove q m) := by
  have h := readyRemove_touches q m
  have hi := readyRemove_inflight q m
  unfold readyRemove at h hi ⊢
  split
  · exact Relists.refl q m
  · rename_i hr
    simp only [hr] at h hi
    exact ⟨h, by simp, hi, rfl, rfl⟩

theorem idleRemove_relists (q : Addr) (m : KeyMap τ β) : Relists q m (idleRemove q m) := by
  obtain ⟨_, _, hi, hb⟩ := idleRemove_info q m
  apply Relists.mk (idleRemove_touches q m) hb hi (idleRemove_tasks q m)
  unfold idleRemove
  split <;> rfl

theorem delayedRemove_relists (q : Addr) (m : KeyMap τ β) : Relists q m (delayedRemove q m) := by
  obtain ⟨_, _, hi, hb⟩ := delayedRemove_info q m
  apply Relists.mk (delayedRemove_touches q m) hb hi (delayedRemove_tasks q m)
  unfold delayedRemove
  split <;> rfl

theorem idleAdd_relists (q : Addr) (now : ℤ) (m : KeyMap τ β) : Relists q m (idleAdd q now m) := by
  apply Relists.mk (idleAdd_touches q now m) _ (idleAdd_inflight q now m)
  · unfold idleAdd
    split <;> rfl
  · unfold idleAdd
    split <;> rfl
  · unfold idleAdd
    split <;> simp

theorem unlist_relists (q : Addr) (m : KeyMap τ β) : Relists q m (unlist q m) :=
  ((readyRemove_relists q m).trans (idleRemove_relists q _)).trans (delayedRemove_relists q _)

theorem delayedAddSorted_relists (q : Addr) (next : ℤ) (m : KeyMap τ β) :
    Relists q m (delayedAddSorted q next m) := by
  refine (unlist_relists q m).trans ?_
  exact ⟨insertDelayed_touches q next _, by simp [delayedAddSorted, insertDelayed, unlist],
    by simp [delayedAddSorted, insertDelayed, unlist], rfl, rfl⟩

theorem promote_idle (q : Addr) (m : KeyMap τ β) :
    ((promote q m).info q).idle = (m.info q).idle := by
  unfold promote
  split
  · unfold readyAdd
    split
    · exact (delayedRemove_info q m).2.1
    · simp [(delayedRemove_info q m).2.1]
  · exact (delayedRemove_info q m).2.1

theorem promote_relists (q : Addr) (m : KeyMap τ β) : Relists q m (promote q m) := by
  unfold promote
  split
  · exact (delayedRemove_relists q m).trans (readyAdd_relists q _)
  · exact delayedRemove_relists q m

theorem keeps_trans {cfg : KeyConfig} {m₁ m₂ m₃ : KeyMap τ β} {taken : Addr → Prop}
    {waiting : CStr → List τ} {gone : List (Info β)} (h : Keeps cfg m₁ m₂)
    (h' : Effect cfg m₂ m₃ taken waiting gone) : Effect cfg m₁ m₃ taken waiting gone := by
  refine ⟨h'.sound, h'.held, ?_, h'.ring, ?_, ?_, ?_⟩
  · intro a ha ha'
    have hm := (h.held a).mpr ha
    obtain ⟨hk, hb⟩ := h.same a ha hm
    obtain ⟨hk', hb'⟩ := h'.same a hm ha'
    exact ⟨hk'.trans hk, hb'.trans hb⟩
  · exact h.builders.trans h'.builders
  · rw [h'.freed, h.freed, List.append_nil]
  · intro a ha
    obtain ⟨hb', hi' | ⟨hd, hn, hw⟩⟩ := h'.idle a ha
    · obtain ⟨hb, hi⟩ := h.idle a hi'
      exact ⟨hb'.trans hb, Or.inl (hi.resolve_right fun hx => hx.2.1 hx.1)⟩
    · have hd₁ := (h.held a).mp hd
      obtain ⟨hk, hb⟩ := h.same a hd₁ hd
      rw [hk] at hw
      exact ⟨hb'.trans hb, Or.inr ⟨hd₁, hn, hw⟩⟩

theorem effect_trans {cfg : KeyConfig} {m₁ m₂ m₃ : KeyMap τ β} {taken : Addr → Prop}
    {waiting : CStr → List τ} {gone gone' : List (Info β)}
    (h : Effect cfg m₁ m₂ taken waiting gone)
    (h' : Effect cfg m₂ m₃ (Held cfg m₂) (ring cfg m₂) gone') :
    Effect cfg m₁ m₃ taken waiting (gone++gone') := by
  refine ⟨h'.sound, fun a => (h'.held a).trans (h.held a), ?_,
    fun k => (h'.ring k).trans (h.ring k), ?_, ?_, ?_⟩
  · intro a ha ha'
    have hm := (h'.held a).mp ha'
    obtain ⟨hk, hb⟩ := h.same a ha hm
    obtain ⟨hk', hb'⟩ := h'.same a hm ha'
    exact ⟨hk'.trans hk, hb'.trans hb⟩
  · rw [List.filterMap_append, List.append_assoc]
    exact h.builders.trans (h'.builders.append_left _)
  · rw [h'.freed, h.freed, List.append_assoc]
  · intro a ha
    obtain ⟨hb', hi'⟩ := h'.idle a ha
    obtain ⟨hb, hi⟩ := h.idle a (hi'.resolve_right fun hx => hx.2.1 hx.1)
    exact ⟨hb'.trans hb, hi⟩

theorem effect_congr {cfg : KeyConfig} {m m' : KeyMap τ β} {taken taken' : Addr → Prop}
    {waiting waiting' : CStr → List τ} {gone : List (Info β)}
    (h : Effect cfg m m' taken waiting gone) (ht : ∀ a, taken a ↔ taken' a)
    (hw : ∀ k, waiting k = waiting' k) : Effect cfg m m' taken' waiting' gone := by
  refine ⟨h.sound, fun a => (h.held a).trans (ht a), h.same, fun k => (h.ring k).trans (hw k),
    h.builders, h.freed, fun a ha => ?_⟩
  obtain ⟨hb, hi⟩ := h.idle a ha
  rw [ht, hw] at hi
  exact ⟨hb, hi⟩

theorem create_builders {cfg : KeyConfig} {m : KeyMap τ β} (q : Addr) (key : CStr)
    (hq : q ∉ live cfg m) : (builders cfg (create cfg q key m)).Perm (builders cfg m) := by
  have hp := (create_live cfg q key m).filterMap
    fun a => ((create cfg q key m).info a).builder
  have hn : ((create cfg q key m).info q).builder = none := by simp [create, blank]
  simp only [List.filterMap_cons, hn] at hp
  refine hp.trans (List.Perm.of_eq (List.filterMap_congr ?_))
  intro a ha
  have hne : a ≠ q := fun he => hq (he ▸ ha)
  simp [create, hne]

theorem create_keeps {cfg : KeyConfig} {m : KeyMap τ β} (h : Sound cfg m) (q : Addr) (key : CStr)
    (hq : q ∉ live cfg m) (hl : lookup cfg key m = none) :
    Keeps cfg m (create cfg q key m) := by
  have hs := create_sound h q key hq hl
  have hlive := create_live cfg q key m
  have hinfo : ∀ a ∈ live cfg m, (create cfg q key m).info a = m.info a ∧
      (create cfg q key m).tasks a = m.tasks a := by
    intro a ha
    have hne : a ≠ q := fun he => hq (he ▸ ha)
    simp [create, hne]
  refine ⟨hs, create_held q key hq, ?_, ?_, (create_builders q key hq).symm, by simp [create], ?_⟩
  · intro a ha _
    rw [(hinfo a ha.1).1]
    exact ⟨rfl, rfl⟩
  · apply ring_eq h.hashed hs.hashed
    · intro a ha _
      exact ⟨hlive.mem_iff.mpr (List.mem_cons_of_mem q ha), by rw [(hinfo a ha).1],
        (hinfo a ha).2⟩
    · intro a ha hne
      rcases List.mem_cons.mp (hlive.mem_iff.mp ha) with rfl | hm
      · simp [create] at hne
      · exact ⟨hm, by rw [(hinfo a hm).1], (hinfo a hm).2.symm⟩
  · intro a ha
    by_cases he : a = q
    · simp [create, he, blank] at ha
    · have hia : (create cfg q key m).info a = m.info a := by simp [create, he]
      rw [hia] at ha ⊢
      exact ⟨rfl, Or.inl ha⟩

theorem keyQueueGetOrCreate_keeps {cfg : KeyConfig} {m : KeyMap τ β} (h : Sound cfg m)
    (addr : Addr) (key : CStr) (ha : addr ∉ live cfg m) :
    Keeps cfg m (keyQueueGetOrCreate cfg addr key m).2 := by
  unfold keyQueueGetOrCreate
  split
  · rename_i p _
    apply (idleRemove_relists p m).keeps (idleRemove_sound h p)
    simp [idleRemove_idle]
  · rename_i hn
    split
    · exact keeps_refl h
    · exact create_keeps h addr key ha hn

theorem enqueue_effect {cfg : KeyConfig} {m : KeyMap τ β} (h : Sound cfg m) (q : Addr) (t : τ)
    (hq : q ∈ live cfg m) (hi : (m.info q).idle = false) :
    Effect cfg m (enqueue q t m) (Held cfg m)
      (fun k => if k = (m.info q).key then ring cfg m k++[t] else ring cfg m k) [] := by
  have hb : ((enqueue q t m).info q).builder = (m.info q).builder := by
    unfold enqueue
    split
    · exact (readyAdd_relists q (pushBackTask q t m)).builder
    · rfl
  have hf : (enqueue q t m).freed = m.freed := by
    unfold enqueue
    split
    · exact (readyAdd_relists q (pushBackTask q t m)).freed
    · rfl
  have hs := enqueue_sound h q t hq hi
  have ht := enqueue_touches q t m
  have hidle : ((enqueue q t m).info q).idle = true → (enqueue q t m).tasks q = [] :=
    (hs.cell q (by rwa [ht.live cfg])).idle
  have he := effect_edit h.hashed hq hs ht hb hf (enqueue_held q t)
    (fun hx => absurd (hidle hx) (by simp [enqueue_tasks]))
  refine effect_congr he (fun _ => Iff.rfl) ?_
  intro k
  split
  · rename_i hk
    rw [hk, ring_self h.hashed q hq, enqueue_tasks]
    simp
  · rfl

/-- A pushed task waits last under its key; at the key limit nothing moves. -/
theorem keyQueuePushTask_effect {cfg : KeyConfig} {m : KeyMap τ β} (h : Sound cfg m)
    (addr : Addr) (key : CStr) (t : τ) (ha : addr ∉ live cfg m) :
    Effect cfg m (keyQueuePushTask cfg addr key t m).2 (Held cfg m)
      (fun k => if (keyQueuePushTask cfg addr key t m).1 ∧ k = key then ring cfg m k++[t]
        else ring cfg m k) [] := by
  have hk := keyQueueGetOrCreate_keeps h addr key ha
  obtain ⟨hs, hq⟩ := keyQueueGetOrCreate_spec h addr key ha
  unfold keyQueuePushTask
  cases hg : keyQueueGetOrCreate cfg addr key m with
  | mk o m' =>
    rw [hg] at hk hs hq
    cases o with
    | none => exact effect_congr hk (fun _ => Iff.rfl) (fun k => by simp)
    | some q =>
      obtain ⟨hlive, hidle, hkey⟩ := hq q rfl
      refine effect_congr (keeps_trans hk (enqueue_effect hs q t hlive hidle)) hk.held ?_
      have hkey' : (m'.info q).key = key := hkey
      intro k
      simp only [hkey', hk.ring, true_and]

theorem keyQueueReserve_keeps {cfg : KeyConfig} {m : KeyMap τ β} (h : Sound cfg m)
    (addr : Addr) (key : CStr) (ha : addr ∉ live cfg m) :
    Keeps cfg m (keyQueueReserve cfg addr key m).2 :=
  keyQueueGetOrCreate_keeps h addr key ha

theorem Keeps.trans {cfg : KeyConfig} {m₁ m₂ m₃ : KeyMap τ β} (h : Keeps cfg m₁ m₂)
    (h' : Keeps cfg m₂ m₃) : Keeps cfg m₁ m₃ :=
  effect_trans h h'

theorem delayedPromoteDue_keeps {cfg : KeyConfig} {m : KeyMap τ β} (h : Sound cfg m) (now : ℤ) :
    Keeps cfg m (delayedPromoteDue now m) := by
  have hgo : ∀ (l : List Addr) (m : KeyMap τ β), l.Nodup →
      (∀ a ∈ l, (m.info a).delayed = true) → Sound cfg m → Keeps cfg m (promoteGo now l m) := by
    intro l
    induction l with
    | nil => exact fun m _ _ h => keeps_refl h
    | cons q l ih =>
      intro m hn hd h
      rw [promoteGo]
      split
      · exact keeps_refl h
      · have hs := promote_sound h q (hd q (by simp))
        have hn' := List.nodup_cons.mp hn
        refine ((promote_relists q m).keeps hs (by simp [promote_idle])).trans (ih _ hn'.2 ?_ hs)
        intro a ha
        rw [promote_delayed q m a (fun he => hn'.1 (he ▸ ha))]
        exact hd a (by simp [ha])
  exact hgo m.delayed m h.listed.delayedNodup (fun a ha => (h.listed.delayed a).mp ha) h

/-- The sender that pops a ready queue has it and its first task. -/
theorem take_effect {cfg : KeyConfig} {m m₁ : KeyMap τ β} (h : Sound cfg m) (q : Addr)
    (hp : readyPop m = some (q, m₁)) :
    ∃ t m₂, keyQueuePopTask q m₁ = (some t, m₂) ∧ q ∈ live cfg m ∧ ¬ Held cfg m q ∧
      (m₂.info q).key = (m.info q).key ∧ ring cfg m (m.info q).key = t::m₂.tasks q ∧
      Effect cfg m m₂ (fun a => a = q ∨ Held cfg m a)
        (fun k => if k = (m.info q).key then m₂.tasks q else ring cfg m k) [] := by
  obtain ⟨hs, ht, hlive, hf, hf', htasks, hne⟩ := readyPop_sound h q hp
  have hlive' : q ∈ live cfg m₁ := by rwa [ht.live cfg]
  have hheld := readyPop_held h q hp
  have hs₂ := keyQueuePopTask_sound hs q hlive' hf
  have ht₂ := ht.trans (keyQueuePopTask_touches q m₁)
  have hh₂ := @keyQueuePopTask_held τ β cfg m₁ q
  have hr := ring_self h.hashed q hlive
  have hb : (m₁.info q).builder = (m.info q).builder ∧ m₁.freed = m.freed := by
    unfold readyPop at hp
    split at hp
    · simp at hp
    · simp only [Option.some.injEq, Prod.mk.injEq] at hp
      obtain ⟨rfl, rfl⟩ := hp
      simp [setInfo]
  cases hl : m.tasks q with
  | nil => exact absurd hl hne
  | cons t l =>
    have hpop : keyQueuePopTask q m₁ =
        (some t, { m₁ with tasks := Function.update m₁.tasks q l }) := by
      simp [keyQueuePopTask, htasks, hl]
    rw [hpop] at hs₂ ht₂ hh₂
    refine ⟨t, _, hpop, hlive, ?_, ht₂.key, by rw [hr, hl]; simp, ?_⟩
    · intro hd
      simp [hd.2] at hf'
    · apply effect_edit h.hashed hlive hs₂ ht₂ hb.1 hb.2 (fun a => (hh₂ a).trans (hheld a))
      intro hi
      exact absurd hi (by simp [((hs.cell q hlive').inflight hf).idle])

theorem gateRequeue_effect {cfg : KeyConfig} {m : KeyMap τ β} (h : Sound cfg m) (q : Addr)
    (t : τ) (next : ℤ) (hq : Held cfg m q) :
    Effect cfg m (gateRequeue q t next m) (fun a => a ≠ q ∧ Held cfg m a)
      (fun k => if k = (m.info q).key then t::ring cfg m k else ring cfg m k) [] := by
  have hre := delayedAddSorted_relists q next
    (setInfo q (fun i => { i with inflight := false }) (keyQueuePushFrontTask q t m))
  have hb : ((gateRequeue q t next m).info q).builder = (m.info q).builder := by
    rw [gateRequeue, hre.builder]
    simp [keyQueuePushFrontTask]
  have hs := gateRequeue_sound h q t next hq.1 hq.2
  have ht := gateRequeue_touches q t next m
  have hidle : ((gateRequeue q t next m).info q).idle = true →
      (gateRequeue q t next m).tasks q = [] := (hs.cell q (by rw [ht.live cfg]; exact hq.1)).idle
  have he := effect_edit h.hashed hq.1 hs ht hb hre.freed (gateRequeue_held q t next)
    (fun hx => Or.inr ⟨hq, by simp, hidle hx⟩)
  refine effect_congr he (fun _ => Iff.rfl) ?_
  intro k
  split
  · rename_i hk
    rw [hk, ring_self h.hashed q hq.1, gateRequeue, hre.tasks]
    simp [keyQueuePushFrontTask]
  · rfl

theorem keyQueueRemoveAndFree_effect {cfg : KeyConfig} {m : KeyMap τ β} (h : Sound cfg m)
    (q : Addr) (hq : q ∈ live cfg m) (ht : m.tasks q = []) (hf : (m.info q).inflight = false) :
    Effect cfg m (keyQueueRemoveAndFree cfg q m) (Held cfg m) (ring cfg m) [m.info q] := by
  have hs := keyQueueRemoveAndFree_sound h q hq
  have hperm := keyQueueRemoveAndFree_live cfg q h.hashed hq
  have hqn := (List.nodup_cons.mp (hperm.nodup_iff.mp h.hashed.live_nodup)).1
  have hre := unlist_relists q m
  have hinfo : ∀ a, a ≠ q → (keyQueueRemoveAndFree cfg q m).info a = m.info a :=
    fun a ha => hre.touches.info a ha
  have htasks : (keyQueueRemoveAndFree cfg q m).tasks = m.tasks := hre.tasks
  refine ⟨hs, keyQueueRemoveAndFree_held h.hashed q hq hf, ?_, ?_, ?_, rfl, ?_⟩
  · intro a ha _
    have he : a ≠ q := by
      rintro rfl
      exact absurd ha.2 (by simp [hf])
    rw [hinfo a he]
    exact ⟨rfl, rfl⟩
  · apply ring_eq h.hashed hs.hashed
    · intro a ha hne
      have he : a ≠ q := fun he => hne (he ▸ ht)
      refine ⟨?_, by rw [hinfo a he], by rw [htasks]⟩
      exact (List.mem_cons.mp (hperm.mem_iff.mp ha)).resolve_left he
    · intro a ha _
      have he : a ≠ q := fun he => hqn (he ▸ ha)
      exact ⟨hperm.mem_iff.mpr (List.mem_cons_of_mem q ha), by rw [hinfo a he], by rw [htasks]⟩
  · have hmap := hperm.filterMap fun a => (m.info a).builder
    have hrest : (live cfg (keyQueueRemoveAndFree cfg q m)).filterMap
        (fun a => (m.info a).builder) = builders cfg (keyQueueRemoveAndFree cfg q m) := by
      apply List.filterMap_congr
      intro a ha
      rw [hinfo a (fun he => hqn (he ▸ ha))]
    refine hmap.trans (List.Perm.of_eq ?_)
    rw [← hrest, List.filterMap_cons]
    cases hb : (m.info q).builder with
    | none => simp [hb]
    | some b => simp [hb]
  · intro a ha
    have he : a ≠ q := by
      rintro rfl
      simp [(hs.dead a hqn).idle] at ha
    rw [hinfo a he] at ha ⊢
    exact ⟨rfl, Or.inl ha⟩

/-- The first write of `keyQueueFinish`. -/
def letGo (q : Addr) (m : KeyMap τ β) : KeyMap τ β :=
  setInfo q (fun i => { i with inflight := false }) m

theorem letGo_effect {cfg : KeyConfig} {m : KeyMap τ β} (h : Sound cfg m) (q : Addr)
    (hq : Held cfg m q) (hn : m.tasks q = []) :
    Effect cfg m (letGo q m) (fun a => a ≠ q ∧ Held cfg m a) (ring cfg m) [] := by
  have ht := release_touches q m m (Touches.refl q m)
  have hfree := (h.cell q hq.1).inflight hq.2
  have hs : Sound cfg (letGo q m) := by
    refine h.touch ht (h.listed.setInfo q _ rfl rfl rfl) (h.due.setInfo q _ _ rfl rfl rfl)
      (fun hx => absurd hq.1 hx) fun _ => ?_
    rw [letGo, setInfo_self]
    exact ⟨nofun, fun hi => by simp [hfree.ready] at hi,
      fun hi => by simp [hfree.delayed] at hi, fun _ => hn, fun hi => absurd hn hi⟩
  have hb : builders cfg (letGo q m) = builders cfg m := builders_touch ht (by simp [letGo])
  have hself : ((letGo q m).info q).builder = (m.info q).builder := by simp [letGo]
  apply Effect.mk hs (fun a => ht.held_release (by simp) a) (fun a _ _ => touch_same ht hself a)
    (ring_congr (ht.live cfg) (touch_key ht) rfl)
  · rw [hb]
    rfl
  · rw [List.append_nil]
    rfl
  · exact touch_idle ht hself fun hi => Or.inl (by simpa [letGo] using hi)

/-- A finished queue that keeps its place goes to one of the three lists. -/
theorem keyQueueFinish_relists {cfg : KeyConfig} {m : KeyMap τ β} (now : ℤ) (q : Addr)
    (hk : m.tasks q ≠ [] ∨ cfg.keyQueueIdleTtlMs > 0) :
    Relists q (letGo q m) (keyQueueFinish cfg now q m) := by
  unfold keyQueueFinish letGo
  dsimp only
  split
  · split
    · exact delayedAddSorted_relists q _ _
    · exact readyAdd_relists q _
  · rename_i hn
    split
    · exact idleAdd_relists q now _
    · rename_i httl
      rcases hk with hk | hk
      · simp [hk] at hn
      · exact absurd hk httl

/-- A finished queue leaves the sender's hands; without tasks and without an
idle time it is freed. -/
theorem keyQueueFinish_effect {cfg : KeyConfig} {m : KeyMap τ β} (h : Sound cfg m) (now : ℤ)
    (q : Addr) (hq : Held cfg m q) :
    ∃ gone, Effect cfg m (keyQueueFinish cfg now q m) (fun a => a ≠ q ∧ Held cfg m a)
        (ring cfg m) gone ∧
      ∀ i ∈ gone, i.builder = (m.info q).builder ∧ m.tasks q = [] := by
  by_cases hk : m.tasks q ≠ [] ∨ cfg.keyQueueIdleTtlMs > 0
  · have hre := keyQueueFinish_relists now q hk
    have ht := (release_touches q m m (Touches.refl q m)).trans hre.touches
    have hs := keyQueueFinish_sound h now q hq.1 hq.2
    have hidle : ((keyQueueFinish cfg now q m).info q).idle = true →
        (keyQueueFinish cfg now q m).tasks q = [] :=
      (hs.cell q (by rw [ht.live cfg]; exact hq.1)).idle
    have he := effect_edit h.hashed hq.1 hs ht (by rw [hre.builder]; simp [letGo]) hre.freed
      (keyQueueFinish_held h now q hq.1) (fun hx => Or.inr ⟨hq, by simp, hidle hx⟩)
    refine ⟨[], effect_congr he (fun _ => Iff.rfl) ?_, by simp⟩
    intro k
    split
    · rename_i hkey
      rw [hkey, ring_self h.hashed q hq.1, hre.tasks]
      rfl
    · rfl
  · obtain ⟨hn, httl⟩ := not_or.mp hk
    have hn' : m.tasks q = [] := not_not.mp hn
    have hfin : keyQueueFinish cfg now q m = keyQueueRemoveAndFree cfg q (letGo q m) := by
      simp [keyQueueFinish, letGo, hn', httl]
    have hgo := letGo_effect h q hq hn'
    have hrem := keyQueueRemoveAndFree_effect hgo.sound q hq.1 hn' (by simp [letGo])
    rw [hfin]
    refine ⟨_, effect_trans hgo hrem, ?_⟩
    intro i hi
    obtain rfl := List.mem_singleton.mp hi
    exact ⟨by simp [letGo], hn'⟩

theorem cleanup_effect {cfg : KeyConfig} {m : KeyMap τ β} (h : Sound cfg m) (now : ℤ) (q : Addr) :
    ∃ gone, Effect cfg m (cleanup cfg now q m) (Held cfg m) (ring cfg m) gone ∧
      ∀ i ∈ gone, (m.info q).idle = true ∧ i.builder = (m.info q).builder := by
  unfold cleanup
  split
  · rename_i hg
    simp only [Bool.and_eq_true, Bool.not_eq_true', List.isEmpty_iff] at hg
    obtain ⟨⟨⟨hidle, htask⟩, hinf⟩, _⟩ := hg
    have hq : q ∈ live cfg m := by
      by_contra hn
      simp [(h.dead q hn).idle] at hidle
    have hre := idleRemove_relists q m
    have hs := idleRemove_sound h q
    have hrem := keyQueueRemoveAndFree_effect hs q (by rwa [hre.touches.live cfg])
      (by rw [hre.tasks]; exact htask) (hre.inflight.trans hinf)
    refine ⟨_, effect_trans (hre.keeps hs (by simp [idleRemove_idle])) hrem, ?_⟩
    intro i hi
    obtain rfl := List.mem_singleton.mp hi
    exact ⟨hidle, hre.builder⟩
  · exact ⟨[], keeps_refl h, by simp⟩

theorem cleanup_info (cfg : KeyConfig) (now : ℤ) (q a : Addr) (m : KeyMap τ β) (ha : a ≠ q) :
    (cleanup cfg now q m).info a = m.info a := by
  unfold cleanup
  split
  · exact ((unlist_touches q _).info a ha).trans ((idleRemove_touches q m).info a ha)
  · rfl

/-- The queues a cleanup frees were all on the idle list. -/
theorem idleCleanup_effect {cfg : KeyConfig} {m : KeyMap τ β} (h : Sound cfg m) (now : ℤ) :
    ∃ gone, Effect cfg m (idleCleanup cfg now m) (Held cfg m) (ring cfg m) gone ∧
      ∀ i ∈ gone, ∃ q, (m.info q).idle = true ∧ i.builder = (m.info q).builder := by
  have hgo : ∀ (l : List Addr) (m : KeyMap τ β), l.Nodup → Sound cfg m →
      ∃ gone, Effect cfg m (l.foldl (fun m q => cleanup cfg now q m) m) (Held cfg m)
        (ring cfg m) gone ∧
      ∀ i ∈ gone, ∃ q ∈ l, (m.info q).idle = true ∧ i.builder = (m.info q).builder := by
    intro l
    induction l with
    | nil => exact fun m _ h => ⟨[], keeps_refl h, by simp⟩
    | cons q l ih =>
      intro m hn h
      obtain ⟨hq, hl⟩ := List.nodup_cons.mp hn
      obtain ⟨gone, he, hg⟩ := cleanup_effect h now q
      obtain ⟨gone', he', hg'⟩ := ih (cleanup cfg now q m) hl he.sound
      refine ⟨gone++gone', effect_trans he he', ?_⟩
      intro i hi
      rcases List.mem_append.mp hi with hi | hi
      · exact ⟨q, by simp, hg i hi⟩
      · obtain ⟨a, ha, hidle, hb⟩ := hg' i hi
        rw [cleanup_info cfg now q a m (fun he => hq (he ▸ ha))] at hidle hb
        exact ⟨a, by simp [ha], hidle, hb⟩
  unfold idleCleanup
  split
  · exact ⟨[], keeps_refl h, by simp⟩
  · obtain ⟨gone, he, hg⟩ := hgo m.idle m h.listed.idleNodup h
    exact ⟨gone, he, fun i hi => (hg i hi).imp fun q hq => hq.2⟩

theorem setInfo_keeps {cfg : KeyConfig} {m : KeyMap τ β} (h : Sound cfg m) (q : Addr)
    (f : Info β → Info β) (hf : ∀ i, Unlisted i (f i)) (hb : ∀ i, (f i).builder = i.builder) :
    Keeps cfg m (setInfo q f m) :=
  keeps_edit (setInfo_sound h q f hf)
    (setInfo_touches q f m m rfl rfl rfl rfl fun i => ⟨(hf i).key, (hf i).hash⟩)
    (by rw [setInfo_self, hb]) rfl rfl (by rw [setInfo_self, (hf _).inflight])
    (by rw [setInfo_self, (hf _).idle]; exact id)

/-- A queue's builder is one of the builders, and can be exchanged. -/
theorem setBuilder_builders {cfg : KeyConfig} {m : KeyMap τ β} (h : Hashed cfg m) (q : Addr)
    (hq : q ∈ live cfg m) (b : Option β) :
    ∃ rest, (builders cfg m).Perm ((m.info q).builder.toList++rest) ∧
      (builders cfg (setInfo q (fun i => { i with builder := b }) m)).Perm (b.toList++rest) := by
  have hp := List.perm_cons_erase hq
  have hne : ∀ a ∈ (live cfg m).erase q, a ≠ q := fun a ha =>
    (h.live_nodup.mem_erase_iff.mp ha).1
  refine ⟨((live cfg m).erase q).filterMap fun a => (m.info a).builder, ?_, ?_⟩
  · refine (hp.filterMap fun a => (m.info a).builder).trans (List.Perm.of_eq ?_)
    cases hb : (m.info q).builder with
    | none => simp [hb]
    | some x => simp [hb]
  · have hrest : ((live cfg m).erase q).filterMap
        (fun a => ((setInfo q (fun i => { i with builder := b }) m).info a).builder) =
        ((live cfg m).erase q).filterMap fun a => (m.info a).builder := by
      apply List.filterMap_congr
      intro a ha
      rw [setInfo_other q a _ m (hne a ha)]
    refine (hp.filterMap fun a =>
      ((setInfo q (fun i => { i with builder := b }) m).info a).builder).trans
      (List.Perm.of_eq ?_)
    rw [← hrest]
    cases b with
    | none => simp
    | some x => simp

end VeTls.Keys.KeyMap
