import VeTls.Keys.Contents

/-!
# Slack queues

A queue of the map is slack when it has no task, no send in flight and is
not idle either: nothing that the scheduler does will ever free it. Only a
lookup or creation makes a queue slack; every other operation leaves the
slack queues as they are or makes them fewer.
-/

set_option autoImplicit false

namespace VeTls.Keys.KeyMap

variable {τ β : Type} {cfg : KeyConfig}

structure Slack (cfg : KeyConfig) (m : KeyMap τ β) (q : Addr) : Prop where
  live : q ∈ live cfg m
  idle : (m.info q).idle = false
  tasks : m.tasks q = []
  inflight : (m.info q).inflight = false

/-- No queue becomes slack, and those of the map keep key and builder. -/
structure Tightens (cfg : KeyConfig) (m m' : KeyMap τ β) : Prop where
  slack : ∀ a, Slack cfg m' a → Slack cfg m a
  live : ∀ a ∈ live cfg m', a ∈ KeyMap.live cfg m ∧ (m'.info a).key = (m.info a).key ∧
    (m'.info a).builder = (m.info a).builder
  idle : ∀ a, (m'.info a).idle = true → (m.info a).idle = true ∨ cfg.keyQueueIdleTtlMs > 0

theorem Tightens.refl (m : KeyMap τ β) : Tightens cfg m m :=
  ⟨fun _ h => h, fun _ h => ⟨h, rfl, rfl⟩, fun _ h => Or.inl h⟩

theorem Tightens.trans {m₁ m₂ m₃ : KeyMap τ β} (h : Tightens cfg m₁ m₂)
    (h' : Tightens cfg m₂ m₃) : Tightens cfg m₁ m₃ := by
  refine ⟨fun a ha => h.slack a (h'.slack a ha), ?_, ?_⟩
  · intro a ha
    obtain ⟨hl', hk', hb'⟩ := h'.live a ha
    obtain ⟨hl, hk, hb⟩ := h.live a hl'
    exact ⟨hl, hk'.trans hk, hb'.trans hb⟩
  · intro a ha
    rcases h'.idle a ha with hi | httl
    · exact h.idle a hi
    · exact Or.inr httl

/-- An operation on one queue is judged by that queue. -/
theorem Tightens.of_touches {q : Addr} {m m' : KeyMap τ β} (ht : Touches q m m')
    (hb : (m'.info q).builder = (m.info q).builder) (hs : Slack cfg m' q → Slack cfg m q)
    (hi : (m'.info q).idle = true → (m.info q).idle = true ∨ cfg.keyQueueIdleTtlMs > 0) :
    Tightens cfg m m' := by
  refine ⟨?_, ?_, ?_⟩
  · intro a ha
    by_cases he : a = q
    · subst he
      exact hs ha
    · refine ⟨by rw [← ht.live cfg]; exact ha.live, ?_, ?_, ?_⟩
      · rw [← ht.info a he]
        exact ha.idle
      · rw [← ht.tasks a he]
        exact ha.tasks
      · rw [← ht.info a he]
        exact ha.inflight
  · intro a ha
    rw [ht.live cfg] at ha
    by_cases he : a = q
    · subst he
      exact ⟨ha, ht.key, hb⟩
    · rw [ht.info a he]
      exact ⟨ha, rfl, rfl⟩
  · intro a ha
    by_cases he : a = q
    · subst he
      exact hi ha
    · rw [ht.info a he] at ha
      exact Or.inl ha

theorem promote_tightens (q : Addr) (m : KeyMap τ β) : Tightens cfg m (promote q m) := by
  have hr := promote_relists q m
  have hi := promote_idle q m
  refine Tightens.of_touches hr.touches hr.builder ?_ ?_
  · intro hs
    exact ⟨by rw [← hr.touches.live cfg]; exact hs.live, hi ▸ hs.idle,
      by rw [← hr.tasks]; exact hs.tasks, hr.inflight ▸ hs.inflight⟩
  · rw [hi]
    exact Or.inl

theorem promoteGo_tightens (now : ℤ) (l : List Addr) (m : KeyMap τ β) :
    Tightens cfg m (promoteGo now l m) := by
  induction l generalizing m with
  | nil => exact Tightens.refl m
  | cons q l ih =>
    simp only [promoteGo]
    split
    · exact Tightens.refl m
    · exact (promote_tightens q m).trans (ih (promote q m))

theorem delayedPromoteDue_tightens (now : ℤ) (m : KeyMap τ β) :
    Tightens cfg m (delayedPromoteDue now m) :=
  promoteGo_tightens now m.delayed m

/-- A change of fields that nothing here depends on. -/
theorem setInfo_tightens (q : Addr) (f : Info β → Info β) (m : KeyMap τ β)
    (hk : ∀ i, (f i).key = i.key ∧ (f i).hash = i.hash) (hb : ∀ i, (f i).builder = i.builder)
    (hi : ∀ i, (f i).idle = i.idle ∧ (f i).inflight = i.inflight) :
    Tightens cfg m (setInfo q f m) := by
  refine Tightens.of_touches (setInfo_touches q f m m rfl rfl rfl rfl fun _ => hk _)
    (by rw [setInfo_self, hb]) ?_ ?_
  · intro hs
    have hidle := hs.idle
    have hinflight := hs.inflight
    rw [setInfo_self] at hidle hinflight
    exact ⟨hs.live, (hi _).1 ▸ hidle, hs.tasks, (hi _).2 ▸ hinflight⟩
  · rw [setInfo_self, (hi _).1]
    exact Or.inl

/-- A queue in the hands of a sender is not slack. -/
theorem not_slack_of_inflight {m : KeyMap τ β} {q : Addr} (h : (m.info q).inflight = true) :
    ¬ Slack cfg m q := by
  intro hs
  simp [hs.inflight] at h

theorem not_slack_of_tasks {m : KeyMap τ β} {q : Addr} (h : m.tasks q ≠ []) : ¬ Slack cfg m q :=
  fun hs => h hs.tasks

theorem readyPop_tightens {m m' : KeyMap τ β} (h : Sound cfg m) (q : Addr)
    (hp : readyPop m = some (q, m')) : Tightens cfg m m' := by
  obtain ⟨_, ht, _, hf, _⟩ := readyPop_sound h q hp
  have hflags : (m'.info q).builder = (m.info q).builder ∧
      (m'.info q).idle = (m.info q).idle := by
    unfold readyPop at hp
    split at hp
    · simp at hp
    · simp only [Option.some.injEq, Prod.mk.injEq] at hp
      obtain ⟨rfl, rfl⟩ := hp
      simp [setInfo]
  refine Tightens.of_touches ht hflags.1 (fun hs => absurd hs (not_slack_of_inflight hf)) ?_
  rw [hflags.2]
  exact Or.inl

theorem keyQueuePopTask_tightens {m : KeyMap τ β} (q : Addr) (h : (m.info q).inflight = true) :
    Tightens cfg m (keyQueuePopTask q m).2 := by
  have hinfo : (keyQueuePopTask q m).2.info = m.info := by
    unfold keyQueuePopTask
    split <;> rfl
  refine Tightens.of_touches (keyQueuePopTask_touches q m) (by rw [hinfo]) ?_ ?_
  · intro hs
    exact absurd hs (not_slack_of_inflight (by rw [hinfo]; exact h))
  · rw [hinfo]
    exact Or.inl

theorem delayedAddSorted_idle (q : Addr) (next : ℤ) (m : KeyMap τ β) :
    ((delayedAddSorted q next m).info q).idle = false := by
  have hfree := unlist_free q m
  rw [unlist] at hfree
  simp [delayedAddSorted, insertDelayed, hfree.idle]

theorem gateRequeue_tightens (q : Addr) (t : τ) (next : ℤ) (m : KeyMap τ β) :
    Tightens cfg m (gateRequeue q t next m) := by
  have hr := delayedAddSorted_relists q next
    (setInfo q (fun i => { i with inflight := false }) (keyQueuePushFrontTask q t m))
  have hidle := delayedAddSorted_idle q next
    (setInfo q (fun i => { i with inflight := false }) (keyQueuePushFrontTask q t m))
  refine Tightens.of_touches (gateRequeue_touches q t next m) ?_ ?_ ?_
  · rw [gateRequeue, hr.builder]
    simp [keyQueuePushFrontTask]
  · intro hs
    refine absurd hs (not_slack_of_tasks ?_)
    rw [gateRequeue, hr.tasks]
    simp [keyQueuePushFrontTask]
  · intro hi
    rw [gateRequeue, hidle] at hi
    simp at hi

/-- The queue that was worked on is gone, the others are as they were. -/
theorem keyQueueRemoveAndFree_tightens {m m' : KeyMap τ β} (q : Addr) (ht : Touches q m m')
    (h : Hashed cfg m') (hq : q ∈ live cfg m') :
    Tightens cfg m (keyQueueRemoveAndFree cfg q m') := by
  have hperm := keyQueueRemoveAndFree_live cfg q h hq
  have hnot := (List.nodup_cons.mp (hperm.nodup_iff.mp h.live_nodup)).1
  have hun := ht.trans (unlist_touches q m')
  have hinfo : ∀ a, a ≠ q → (keyQueueRemoveAndFree cfg q m').info a = m.info a := hun.info
  have hmem : ∀ a ∈ live cfg (keyQueueRemoveAndFree cfg q m'), a ≠ q ∧ a ∈ live cfg m := by
    intro a ha
    refine ⟨fun he => hnot (he ▸ ha), ?_⟩
    rw [← ht.live cfg]
    exact hperm.mem_iff.mpr (by simp [ha])
  refine ⟨?_, ?_, ?_⟩
  · intro a ha
    obtain ⟨hne, hl⟩ := hmem a ha.live
    have hi := ha.idle
    have hf := ha.inflight
    rw [hinfo a hne] at hi hf
    exact ⟨hl, hi, (hun.tasks a hne).symm.trans ha.tasks, hf⟩
  · intro a ha
    obtain ⟨hne, hl⟩ := hmem a ha
    rw [hinfo a hne]
    exact ⟨hl, rfl, rfl⟩
  · intro a ha
    by_cases he : a = q
    · subst he
      have hfree : ((keyQueueRemoveAndFree cfg a m').info a).idle = false := (unlist_free a m').idle
      simp [hfree] at ha
    · rw [hinfo a he] at ha
      exact Or.inl ha

theorem keyQueueFinish_busy {m : KeyMap τ β} (now : ℤ) (q : Addr) (hn : m.tasks q ≠ []) :
    Tightens cfg m (keyQueueFinish cfg now q m) := by
  have hr : Relists q (letGo q m) (keyQueueFinish cfg now q m) :=
    keyQueueFinish_relists now q (Or.inl hn)
  have ht := (release_touches q m m (Touches.refl q m)).trans hr.touches
  refine Tightens.of_touches ht (by rw [hr.builder]; simp [letGo]) ?_ ?_
  · intro hs
    refine absurd hs (not_slack_of_tasks ?_)
    rw [hr.tasks]
    exact hn
  · intro hi
    unfold keyQueueFinish at hi
    simp only [setInfo_tasks, List.isEmpty_eq_false_iff.mpr hn, Bool.not_false, if_true] at hi
    split at hi
    · simp [delayedAddSorted_idle] at hi
    · left
      unfold readyAdd at hi
      split at hi <;> simpa using hi

/-- At the end of a send the queue has tasks left, is idle, or is gone. -/
theorem keyQueueFinish_tightens {m : KeyMap τ β} (h : Sound cfg m) (now : ℤ) (q : Addr)
    (hq : Held cfg m q) : Tightens cfg m (keyQueueFinish cfg now q m) := by
  by_cases hn : m.tasks q = []
  · by_cases httl : cfg.keyQueueIdleTtlMs > 0
    · have hr : Relists q (letGo q m) (keyQueueFinish cfg now q m) :=
        keyQueueFinish_relists now q (Or.inr httl)
      have ht := (release_touches q m m (Touches.refl q m)).trans hr.touches
      refine Tightens.of_touches ht (by rw [hr.builder]; simp [letGo]) ?_ (fun _ => Or.inr httl)
      intro hs
      have hidle := hs.idle
      have hfree := (h.cell q hq.1).inflight hq.2
      simp [keyQueueFinish, hn, httl, idleAdd, hfree.idle] at hidle
    · have hfin : keyQueueFinish cfg now q m = keyQueueRemoveAndFree cfg q (letGo q m) := by
        simp [keyQueueFinish, letGo, hn, httl]
      rw [hfin]
      exact keyQueueRemoveAndFree_tightens q (release_touches q m m (Touches.refl q m))
        (letGo_effect h q hq hn).sound.hashed hq.1
  · exact keyQueueFinish_busy now q hn

theorem cleanup_tightens {m : KeyMap τ β} (h : Sound cfg m) (now : ℤ) (q : Addr) :
    Tightens cfg m (cleanup cfg now q m) := by
  unfold cleanup
  split
  · rename_i hg
    simp only [Bool.and_eq_true] at hg
    have hq : q ∈ live cfg m := by
      by_contra hn
      simp [(h.dead q hn).idle] at hg
    have ht := idleRemove_touches q m
    exact keyQueueRemoveAndFree_tightens q ht (idleRemove_sound h q).hashed
      (by rwa [ht.live cfg])
  · exact Tightens.refl m

theorem idleCleanup_tightens {m : KeyMap τ β} (h : Sound cfg m) (now : ℤ) :
    Tightens cfg m (idleCleanup cfg now m) := by
  have hgo : ∀ (l : List Addr) (m : KeyMap τ β), Sound cfg m →
      Tightens cfg m (l.foldl (fun m q => cleanup cfg now q m) m) := by
    intro l
    induction l with
    | nil => exact fun m _ => Tightens.refl m
    | cons q l ih =>
      intro m h
      exact (cleanup_tightens h now q).trans (ih _ (cleanup_sound h now q))
  unfold idleCleanup
  split
  · exact Tightens.refl m
  · exact hgo m.idle m h

/-- A lookup or creation may leave the queue of its key slack. -/
structure Opens (cfg : KeyConfig) (key : CStr) (m m' : KeyMap τ β) : Prop where
  slack : ∀ a, Slack cfg m' a → Slack cfg m a ∨ (m'.info a).key = key
  live : ∀ a ∈ live cfg m', (a ∈ KeyMap.live cfg m ∧ (m'.info a).key = (m.info a).key ∧
      (m'.info a).builder = (m.info a).builder) ∨
    (m'.info a).key = key ∧ (m'.info a).builder = none
  idle : ∀ a, (m'.info a).idle = true → (m.info a).idle = true

theorem keyQueueGetOrCreate_opens {m : KeyMap τ β} (h : Sound cfg m) (addr : Addr) (key : CStr)
    (ha : addr ∉ live cfg m) : Opens cfg key m (keyQueueGetOrCreate cfg addr key m).2 := by
  unfold keyQueueGetOrCreate
  split
  · rename_i q hq
    obtain ⟨hlive, hkey⟩ := lookup_some h.hashed key q hq
    have hr := idleRemove_relists q m
    have ht := hr.touches
    refine ⟨?_, ?_, ?_⟩
    · intro a hs
      by_cases he : a = q
      · subst he
        exact Or.inr (ht.key.trans hkey)
      · have hi := hs.idle
        have hf := hs.inflight
        rw [ht.info a he] at hi hf
        exact Or.inl ⟨by rw [← ht.live cfg]; exact hs.live, hi, (ht.tasks a he).symm.trans hs.tasks,
          hf⟩
    · intro a hl
      rw [ht.live cfg] at hl
      by_cases he : a = q
      · subst he
        exact Or.inl ⟨hl, ht.key, hr.builder⟩
      · rw [ht.info a he]
        exact Or.inl ⟨hl, rfl, rfl⟩
    · intro a hi
      by_cases he : a = q
      · subst he
        simp [idleRemove_idle] at hi
      · rwa [ht.info a he] at hi
  · split
    · exact ⟨fun a hs => Or.inl hs, fun a hl => Or.inl ⟨hl, rfl, rfl⟩, fun a hi => hi⟩
    · have hperm := create_live cfg addr key m
      have hself : (create cfg addr key m).info addr = blank key := by simp [create]
      have hother : ∀ a, a ≠ addr → (create cfg addr key m).info a = m.info a ∧
          (create cfg addr key m).tasks a = m.tasks a := by
        intro a he
        simp [create, he]
      refine ⟨?_, ?_, ?_⟩
      · intro a hs
        by_cases he : a = addr
        · subst he
          rw [hself]
          exact Or.inr rfl
        · have hi := hs.idle
          have hf := hs.inflight
          have hl : a ∈ live cfg m := by simpa [he] using hperm.mem_iff.mp hs.live
          rw [(hother a he).1] at hi hf
          exact Or.inl ⟨hl, hi, (hother a he).2.symm.trans hs.tasks, hf⟩
      · intro a hl
        by_cases he : a = addr
        · subst he
          rw [hself]
          exact Or.inr ⟨rfl, rfl⟩
        · rw [(hother a he).1]
          exact Or.inl ⟨by simpa [he] using hperm.mem_iff.mp hl, rfl, rfl⟩
      · intro a hi
        by_cases he : a = addr
        · subst he
          rw [hself] at hi
          simp [blank] at hi
        · rwa [(hother a he).1] at hi

/-- After a push the queue of the key has a task. -/
theorem enqueue_tightens (q : Addr) (t : τ) (m : KeyMap τ β) : Tightens cfg m (enqueue q t m) := by
  have hflags : ((enqueue q t m).info q).builder = (m.info q).builder ∧
      ((enqueue q t m).info q).idle = (m.info q).idle := by
    unfold enqueue
    split
    · unfold readyAdd
      split
      · exact ⟨rfl, rfl⟩
      · simp [pushBackTask]
    · exact ⟨rfl, rfl⟩
  refine Tightens.of_touches (enqueue_touches q t m) hflags.1 ?_ ?_
  · intro hs
    refine absurd hs (not_slack_of_tasks ?_)
    rw [enqueue_tasks]
    simp
  · rw [hflags.2]
    exact Or.inl

end VeTls.Keys.KeyMap
