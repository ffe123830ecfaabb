import VeTls.Proto.Merges

/-!
# What the merges keep

A merge into the builder of the default key, and the merge of the whole
ingress queue: if no merge is refused every log is in a builder afterwards,
and a task whose merge is refused is lost.
-/

set_option autoImplicit false

namespace VeTls.Export

open VeTls.Keys (Addr CStr KeyMap)
open VeTls.Keys.KeyMap (Sound)
open VeTls.Wire (Bytes)
open VeTls.Worker (ingressQueuePopLocked)

variable {cfg : Config}

/-- The logs of the batch were put into the builder of the default key. -/
structure Filled (cfg : Config) (t : IngressTask) (addr : Addr) (p p' : Producer) : Prop where
  sound : Sound cfg.toKeyConfig p'.keys
  home : homeSizes cfg p' = after cfg t (homeSizes cfg p)
  key : homeKey cfg p' = if seals cfg t (homeSizes cfg p) then cfg.hashKey else homeKey cfg p
  logs : (keptLogs cfg p').Perm (keptLogs cfg p++t.batch.logs)
  shelf : ∀ rest, (shelf cfg p).Perm ((homeBuilder cfg p).toList++rest) →
    (shelf cfg p').Perm ((homeBuilder cfg p').toList++rest)
  sealedList : seals cfg t (homeSizes cfg p) = false ∧ p'.sealedList = p.sealedList ∨
    seals cfg t (homeSizes cfg p) = true ∧
      ∃ s, p'.sealedList = p.sealedList++[s] ∧ t.batch.logs.Sublist s.builder.logs
  has : ∀ Q, Additive Q → t.batch.Has Q → (∀ b ∈ kept cfg p, b.Has Q) → ∀ b ∈ kept cfg p', b.Has Q
  live : ∀ a ∈ KeyMap.live cfg.toKeyConfig p'.keys,
    a ∈ KeyMap.live cfg.toKeyConfig p.keys ∨ a = addr
  queue : p'.queue = p.queue
  ingressQueue : p'.ingressQueue = p.ingressQueue

theorem added_join (t : IngressTask) (h h' : Home) (he : h.join = h'.join) :
    added t h = added t h' := by
  rw [added, he]
  rfl

theorem storeBuilder_queues (flush : Bool) (slot : Slot) (b : Builder) (p : Producer) :
    (storeBuilder cfg flush slot b p).queue = p.queue ∧
      (storeBuilder cfg flush slot b p).ingressQueue = p.ingressQueue := by
  unfold storeBuilder
  split
  · cases slot <;> exact ⟨rfl, rfl⟩
  · cases slot <;> exact ⟨rfl, rfl⟩

theorem storeBuilder_filled (t : IngressTask) (addr : Addr) (slot : Slot) (b : Builder)
    (p : Producer) (hs : Sound cfg.toKeyConfig p.keys) (hok : SlotOk cfg p slot)
    (hbusy : SlotBusy p slot) (hhome : IsHome cfg p slot)
    (he : Extends (slotBuilder p slot) t.batch.logs t.batch.logsLen t.batch.logCount b)
    (hn : b.normKey = (slotBuilder p slot).elim cfg.hashKey Builder.normKey) :
    Filled cfg t addr p (storeBuilder cfg t.forceFlush slot b p) := by
  have hfill := storeBuilder_fill t.forceFlush slot b p hs hok hbusy
  have hjoin := hhome.homeBuilder hs
  have hsizes : added t (homeSizes cfg p) = sizes b := by
    rw [added, homeSizes_join, hjoin, sizes, he.logCount, he.logsLen]
    cases slotBuilder p slot <;> rfl
  have hseals : seals cfg t (homeSizes cfg p) = (t.forceFlush || shouldSeal cfg b) := by
    rw [seals, hsizes]
    rfl
  have hlogs : (keptLogs cfg (storeBuilder cfg t.forceFlush slot b p)).Perm
      (keptLogs cfg p++t.batch.logs) := by
    obtain ⟨rest, hp, hp'⟩ := hfill.kept
    have hold : (slotBuilder p slot).toList.flatMap Builder.logs =
        (slotBuilder p slot).elim [] Builder.logs := by
      cases slotBuilder p slot <;> simp
    refine (hp'.flatMap_right _).trans (.trans ?_ ((hp.flatMap_right _).symm.append_right _))
    rw [List.flatMap_cons, List.flatMap_append, hold, he.logs, List.append_assoc, List.append_assoc]
    exact List.perm_append_comm.append_left _
  have hhas : ∀ Q, Additive Q → t.batch.Has Q → (∀ x ∈ kept cfg p, x.Has Q) →
      ∀ x ∈ kept cfg (storeBuilder cfg t.forceFlush slot b p), x.Has Q := by
    intro Q hQ ht hp x hx
    rcases hfill.kept_cases x hx with rfl | hx
    · exact he.has hQ (fun y hy => hp y (hfill.old_mem y hy)) ht
    · exact hp x hx
  have hhomeOf : ∀ o : Option Builder, homeOf cfg (setSlot o p slot) = some o := by
    intro o
    rw [(hhome.setSlot o).homeOf (setSlot_shelved p hs slot o (Or.inr hbusy)).sound,
      slotBuilder_setSlot]
  have hshelf : ∀ o : Option Builder, ∀ rest, (shelf cfg p).Perm ((homeBuilder cfg p).toList++rest) →
      (shelf cfg (setSlot o p slot)).Perm ((homeBuilder cfg (setSlot o p slot)).toList++rest) := by
    intro o rest hrest
    rw [hjoin] at hrest
    rw [homeBuilder, hhomeOf]
    exact setSlot_shelf p hs slot hok o rest hrest
  obtain ⟨hqueue, hingress⟩ := storeBuilder_queues t.forceFlush slot b p
  have hlive : KeyMap.live cfg.toKeyConfig (storeBuilder cfg t.forceFlush slot b p).keys =
      KeyMap.live cfg.toKeyConfig p.keys := by
    unfold storeBuilder
    split
    · exact setSlot_live none p slot
    · exact setSlot_live (some b) p slot
  refine ⟨hfill.keys.sound, ?_, ?_, hlogs, ?_, ?_, hhas, ?_, hqueue, hingress⟩
  · unfold storeBuilder
    rw [after, hseals, homeSizes]
    split
    · exact congrArg (Option.map (Option.map sizes)) (hhomeOf none)
    · rw [hhomeOf, hsizes]
      rfl
  · unfold storeBuilder
    rw [hseals, homeKey, homeKey, hjoin, homeBuilder]
    split
    · exact congrArg (fun o => o.join.elim cfg.hashKey Builder.normKey) (hhomeOf none)
    · rw [hhomeOf]
      exact hn
  · intro rest hrest
    unfold storeBuilder
    split
    · exact hshelf none rest hrest
    · exact hshelf (some b) rest hrest
  · unfold storeBuilder
    rw [hseals]
    split
    case isTrue hseal =>
      refine Or.inr ⟨hseal, ⟨p.sealNo, b⟩, rfl, ?_⟩
      rw [he.logs]
      exact List.sublist_append_right _ _
    case isFalse hseal =>
      refine Or.inl ⟨Bool.eq_false_iff.mpr hseal, ?_⟩
      cases slot <;> rfl
  · intro a ha
    rw [hlive] at ha
    exact Or.inl ha

/-- Listing the queues differently, or making one, changes nothing else. -/
theorem Filled.keyed {t : IngressTask} {addr : Addr} {p p' : Producer}
    {m : KeyMap SendTask Builder} {bytes : ℕ}
    (h : Filled cfg t addr { p with keys := m, queueBytes := bytes } p')
    (hk : KeyMap.Keeps cfg.toKeyConfig p.keys m)
    (hhome : homeBuilder cfg { p with keys := m, queueBytes := bytes } = homeBuilder cfg p)
    (hlive : ∀ a ∈ KeyMap.live cfg.toKeyConfig m,
      a ∈ KeyMap.live cfg.toKeyConfig p.keys ∨ a = addr) : Filled cfg t addr p p' := by
  have hb : (KeyMap.builders cfg.toKeyConfig p.keys).Perm (KeyMap.builders cfg.toKeyConfig m) :=
    hk.builders
  have hkept : (kept cfg p).Perm (kept cfg { p with keys := m, queueBytes := bytes }) :=
    (hb.append_left _).append_right _
  have hadded : added t (homeSizes cfg { p with keys := m, queueBytes := bytes }) =
      added t (homeSizes cfg p) := by
    apply added_join
    rw [homeSizes_join, homeSizes_join, hhome]
  have hseals : seals cfg t (homeSizes cfg { p with keys := m, queueBytes := bytes }) =
      seals cfg t (homeSizes cfg p) := by
    rw [seals, hadded]
    rfl
  refine ⟨h.sound, ?_, ?_, ?_, ?_, ?_, ?_, ?_, h.queue, h.ingressQueue⟩
  · rw [h.home, after, hadded, hseals]
    rfl
  · rw [h.key, hseals, homeKey, hhome]
    rfl
  · exact h.logs.trans ((hkept.symm.flatMap_right _).append_right _)
  · intro rest hrest
    apply h.shelf rest
    rw [hhome]
    exact (hb.symm.append_left _).trans hrest
  · rw [← hseals]
    exact h.sealedList
  · intro Q hQ ht hp
    exact h.has Q hQ ht fun b hb => hp b (hkept.mem_iff.mpr hb)
  · intro a ha
    rcases h.live a ha with ha | rfl
    · exact hlive a ha
    · exact Or.inr rfl

/-- The merge failed and no builder got or lost logs. -/
structure Refused (cfg : Config) (p p' : Producer) : Prop where
  sound : Sound cfg.toKeyConfig p'.keys
  logs : (keptLogs cfg p').Perm (keptLogs cfg p)
  queue : p'.queue = p.queue
  ingressQueue : p'.ingressQueue = p.ingressQueue

theorem refused_keyed (p : Producer) (m : KeyMap SendTask Builder)
    (hk : KeyMap.Keeps cfg.toKeyConfig p.keys m) : Refused cfg p { p with keys := m } := by
  have hb : (KeyMap.builders cfg.toKeyConfig m).Perm (KeyMap.builders cfg.toKeyConfig p.keys) :=
    hk.builders.symm
  exact ⟨hk.sound, ((hb.append_left _).append_right _).flatMap_right _, rfl, rfl⟩

/-- A builder was opened for the slot and stays empty. -/
theorem refused_open (p : Producer) (m : KeyMap SendTask Builder) (slot : Slot) (b : Builder)
    (hk : KeyMap.Keeps cfg.toKeyConfig p.keys m) (hok : SlotOk cfg { p with keys := m } slot)
    (hbusy : SlotBusy { p with keys := m } slot)
    (he : Extends (slotBuilder { p with keys := m } slot) [] 0 0 b) :
    Refused cfg p (setSlot (some b) { p with keys := m } slot) := by
  have hr := refused_keyed p m hk
  have hf := setSlot_fill { p with keys := m } hk.sound slot hok hbusy b
  obtain ⟨rest, hp, hp'⟩ := hf.kept
  have hb : b.logs = (slotBuilder { p with keys := m } slot).toList.flatMap Builder.logs := by
    rw [he.logs, List.append_nil]
    cases slotBuilder { p with keys := m } slot <;> simp
  refine ⟨hf.keys.sound, ?_, ?_, ?_⟩
  · refine (hp'.flatMap_right _).trans (.trans ?_ ((hp.flatMap_right _).symm.trans hr.logs))
    rw [List.flatMap_cons, List.flatMap_append, hb]
  · cases slot <;> rfl
  · cases slot <;> rfl

theorem stampFirst_extends (p : Producer) (t : IngressTask) (slot : Slot) (key : CStr) (now : ℤ) :
    Extends (slotBuilder p slot) [] 0 0 (stampFirst t now (openBuilder p slot key now)) := by
  have hopen := Writer.openBuilder_extends p slot key now
  unfold stampFirst
  split
  · exact ⟨hopen.logs, hopen.logsLen, hopen.logCount⟩
  · exact hopen

theorem append_normKey (p : Producer) (t : IngressTask) (slot : Slot) (key : CStr) (now : ℤ)
    (b : Builder)
    (h : logBuilderAppend (stampFirst t now (openBuilder p slot key now)) t.batch = some b) :
    b.normKey = (slotBuilder p slot).elim key Builder.normKey := by
  have hopen : (openBuilder p slot key now).normKey =
      (slotBuilder p slot).elim key Builder.normKey := by
    unfold openBuilder
    cases slotBuilder p slot <;> rfl
  have hstamp : (stampFirst t now (openBuilder p slot key now)).normKey =
      (openBuilder p slot key now).normKey := by
    unfold stampFirst
    split <;> rfl
  unfold logBuilderAppend at h
  split at h
  · cases h
  · obtain rfl := Option.some.inj h
    exact hstamp.trans hopen

/-- A merge fails exactly when it is refused; else the builder of the default
key gets the batch. -/
theorem ingressTaskMergeWith_spec (mem : MergeAllocs) (t : IngressTask) (addr : Addr) (now : ℤ)
    (p : Producer) (hs : Sound cfg.toKeyConfig p.keys)
    (ha : addr ∉ KeyMap.live cfg.toKeyConfig p.keys) (hkey : t.normKey = cfg.hashKey)
    (hlogs : noLogs t = false) :
    (refuses (KeyMap.atLimit cfg.toKeyConfig p.keys) mem (homeSizes cfg p) = true ∧
        ∃ p', ingressTaskMergeWith cfg mem t addr now p = (false, p') ∧ Refused cfg p p') ∨
      (refuses (KeyMap.atLimit cfg.toKeyConfig p.keys) mem (homeSizes cfg p) = false ∧
        ∃ p', ingressTaskMergeWith cfg mem t addr now p = (true, p') ∧ Filled cfg t addr p p') := by
  have hne : ¬ (t.batch.logCount = 0 ∨ t.batch.logsLen = 0) := of_decide_eq_false hlogs
  have hstart := findSlotWith_home mem p addr hs ha
  rw [ingressTaskMergeWith, if_neg hne, hkey, mergeDefault_home]
  rcases hstart with ⟨hfind, hnone, hroom⟩ | ⟨slot, m, hfind, hk, hok, hbusy, hhome, hb, hroom, hlive⟩
  · refine Or.inl ⟨?_, p, by rw [hfind], refused_keyed p p.keys (KeyMap.keeps_refl hs)⟩
    rw [homeSizes, hnone]
    show (_ || !mem.queue || !mem.builder || !mem.append) = true
    rw [hroom]
    rfl
  · have hrefuses : refuses (KeyMap.atLimit cfg.toKeyConfig p.keys) mem (homeSizes cfg p) =
        ((slotBuilder { p with keys := m } slot).isNone && !mem.builder || !mem.append) := by
      rw [hb, homeSizes, homeBuilder]
      cases hh : homeOf cfg p with
      | none =>
        show (_ || !mem.queue || !mem.builder || !mem.append) = _
        rw [hroom hh]
        rfl
      | some o => cases o <;> rfl
    rw [hfind, hrefuses]
    dsimp only
    split
    case isTrue hbuilder =>
      exact Or.inl ⟨by rw [hbuilder]; rfl, _, rfl, refused_keyed p m hk⟩
    case isFalse hbuilder =>
      rw [Bool.eq_false_iff.mpr hbuilder, Bool.false_or]
      obtain happend | happend : mem.append = false ∨ mem.append = true := by
        cases mem.append <;> simp
      · rw [happend]
        exact Or.inl ⟨rfl, _, rfl, refused_open p m slot _ hk hok hbusy (stampFirst_extends _ _ _ _ _)⟩
      · obtain ⟨b, hadd⟩ := Worker.append_some
          (stampFirst t now (openBuilder { p with keys := m } slot cfg.hashKey now)) t.batch hne
        obtain ⟨he, hdelta⟩ := Worker.append_extends _ t slot cfg.hashKey now b hadd
        have hn := append_normKey _ t slot cfg.hashKey now b hadd
        have hfilled := storeBuilder_filled t addr slot b
          { p with keys := m, queueBytes := p.queueBytes+t.batch.logsLen } hk.sound
          (by cases slot <;> exact hok) (by cases slot <;> exact hbusy)
          (by cases slot <;> exact hhome) (by cases slot <;> exact he) (by cases slot <;> exact hn)
        refine Or.inr ⟨by rw [happend]; rfl, _, ?_, hfilled.keyed hk ?_ hlive⟩
        · rw [happend, if_neg (by simp), mergeInto, hadd]
          dsimp only
          rw [hdelta]
        · rw [← hb]
          exact hhome.homeBuilder hk.sound

/-- All of the tasks were put into the builder of the default key. -/
structure Merged (cfg : Config) (tasks : List IngressTask) (sealedAny : Bool) (p p' : Producer) :
    Prop where
  sound : Sound cfg.toKeyConfig p'.keys
  home : homeSizes cfg p' = homeAfter cfg tasks (homeSizes cfg p)
  key : homeKey cfg p' = if sealedAny then cfg.hashKey else homeKey cfg p
  logs : (keptLogs cfg p').Perm (keptLogs cfg p++taskLogs tasks)
  shelf : ∀ rest, (shelf cfg p).Perm ((homeBuilder cfg p).toList++rest) →
    (shelf cfg p').Perm ((homeBuilder cfg p').toList++rest)
  sealedLogs : sealedLogs p' = [] ↔ sealedLogs p = [] ∧ sealedAny = false
  has : ∀ Q, Additive Q → (∀ t ∈ tasks, t.batch.Has Q) → (∀ b ∈ kept cfg p, b.Has Q) →
    ∀ b ∈ kept cfg p', b.Has Q
  queue : p'.queue = p.queue

/-- A task was popped and its logs are nowhere. -/
structure Lost (cfg : Config) (tasks : List IngressTask) (p p' : Producer) : Prop where
  logs : ∃ lost, lost ≠ [] ∧ (keptLogs cfg p'++(taskLogs p'.ingressQueue++lost)).Perm
    (keptLogs cfg p++taskLogs tasks)
  queue : p'.queue = p.queue

theorem noLogs_nil (t : IngressTask) (h : noLogs t = true) (hz : t.batch.Has Sized) :
    t.batch.logs = [] := hz.empty (of_decide_eq_true h)

theorem noLogs_ne (t : IngressTask) (h : noLogs t = false) (hz : t.batch.Has Sized) :
    t.batch.logs ≠ [] := by
  have hne := of_decide_eq_false h
  obtain ⟨hcount, -⟩ := hz
  rw [← List.length_pos_iff]
  omega

theorem taskLogs_cons (t : IngressTask) (rest : List IngressTask) :
    taskLogs (t::rest) = t.batch.logs++taskLogs rest := List.flatMap_cons

theorem Merged.nil (p : Producer) (hs : Sound cfg.toKeyConfig p.keys) : Merged cfg [] false p p := by
  refine ⟨hs, rfl, rfl, ?_, fun _ h => h, ?_, fun _ _ _ h => h, rfl⟩
  · rw [taskLogs, List.flatMap_nil, List.append_nil]
  · simp

theorem homeAfter_append (l l' : List IngressTask) (h : Home) :
    homeAfter cfg (l++l') h = homeAfter cfg l' (homeAfter cfg l h) := by
  induction l generalizing h with
  | nil => rfl
  | cons t l ih => exact ih _

theorem taskLogs_append (l l' : List IngressTask) : taskLogs (l++l') = taskLogs l++taskLogs l' :=
  List.flatMap_append

theorem Merged.trans {l l' : List IngressTask} {s s' : Bool} {p p₁ p' : Producer}
    (h : Merged cfg l s p p₁) (h' : Merged cfg l' s' p₁ p') : Merged cfg (l++l') (s || s') p p' := by
  refine ⟨h'.sound, ?_, ?_, ?_, ?_, ?_, ?_, h'.queue.trans h.queue⟩
  · rw [homeAfter_append, ← h.home, h'.home]
  · rw [h'.key, h.key]
    cases s <;> cases s' <;> rfl
  · rw [taskLogs_append, ← List.append_assoc]
    exact h'.logs.trans (h.logs.append_right _)
  · intro others hp
    exact h'.shelf others (h.shelf others hp)
  · rw [h'.sealedLogs, h.sealedLogs, Bool.or_eq_false_iff, and_assoc]
  · intro Q hQ ht hp
    exact h'.has Q hQ (fun x hx => ht x (List.mem_append_right l hx))
      (h.has Q hQ (fun x hx => ht x (List.mem_append_left l' hx)) hp)

/-- A task without logs is passed over. -/
theorem Merged.skip (t : IngressTask) (p : Producer) (hs : Sound cfg.toKeyConfig p.keys)
    (hn : noLogs t = true) (hz : t.batch.Has Sized) : Merged cfg [t] false p p := by
  have htask : taskLogs [t] = [] := by
    rw [taskLogs_cons, noLogs_nil t hn hz]
    rfl
  refine ⟨hs, ?_, rfl, ?_, fun _ h => h, by simp, fun _ _ _ h => h, rfl⟩
  · rw [homeAfter, hn]
    rfl
  · rw [htask, List.append_nil]

theorem Filled.merged {t : IngressTask} {addr : Addr} {p p' : Producer}
    (h : Filled cfg t addr p p') (hn : noLogs t = false) (hz : t.batch.Has Sized) :
    Merged cfg [t] (seals cfg t (homeSizes cfg p)) p p' := by
  have htask : taskLogs [t] = t.batch.logs := (taskLogs_cons t []).trans (List.append_nil _)
  refine ⟨h.sound, ?_, h.key, ?_, h.shelf, ?_, ?_, h.queue⟩
  · rw [homeAfter, hn]
    exact h.home
  · rw [htask]
    exact h.logs
  · rcases h.sealedList with ⟨hno, hl⟩ | ⟨hyes, x, hl, hsub⟩
    · rw [sealedLogs, hl, hno]
      exact ⟨fun hp => ⟨hp, rfl⟩, And.left⟩
    · have hx : x.builder.logs ≠ [] := by
        intro hx
        rw [hx] at hsub
        exact noLogs_ne t hn hz (List.sublist_nil.mp hsub)
      rw [sealedLogs, hl, hyes]
      simp [hx]
  · intro Q hQ ht hp
    exact h.has Q hQ (ht t List.mem_cons_self) hp

theorem Merged.popped {t : IngressTask} {rest l : List IngressTask} {s : Bool} {p p' : Producer}
    (h : Merged cfg l s (ingressQueuePopLocked t rest p) p') : Merged cfg l s p p' :=
  ⟨h.sound, h.home, h.key, h.logs, h.shelf, h.sealedLogs, h.has, h.queue⟩

theorem Merged.lost {l l' : List IngressTask} {s : Bool} {p p₁ p' : Producer}
    (h : Merged cfg l s p p₁) (h' : Lost cfg l' p₁ p') : Lost cfg (l++l') p p' := by
  have hadd := h.logs.append_right (taskLogs l')
  rw [List.append_assoc, ← taskLogs_append] at hadd
  obtain ⟨lost, hne, hp⟩ := h'.logs
  exact ⟨⟨lost, hne, hp.trans hadd⟩, h'.queue.trans h.queue⟩

theorem Lost.popped {t : IngressTask} {rest l : List IngressTask} {p p' : Producer}
    (h : Lost cfg l (ingressQueuePopLocked t rest p) p') : Lost cfg l p p' :=
  ⟨h.logs, h.queue⟩

/-- The task that is refused is the one that is lost. -/
theorem Refused.lost {t : IngressTask} {rest : List IngressTask} {p p' : Producer}
    (h : Refused cfg (ingressQueuePopLocked t rest p) p') (hn : noLogs t = false)
    (hz : t.batch.Has Sized) : Lost cfg (t::rest) p p' := by
  have hlogs : (keptLogs cfg p').Perm (keptLogs cfg p) := h.logs
  refine ⟨⟨t.batch.logs, noLogs_ne t hn hz, ?_⟩, h.queue⟩
  rw [h.ingressQueue, taskLogs_cons]
  exact hlogs.append List.perm_append_comm

/-- The ingress queue is merged as a whole, or some task of it is lost. -/
theorem exportMergeWith_spec (now : ℤ) (addr : ℕ → Addr) (mem : ℕ → MergeAllocs) (limit : Bool)
    (tasks : List IngressTask) (i : ℕ) (p : Producer) (hs : Sound cfg.toKeyConfig p.keys)
    (hinj : Function.Injective addr) (hfresh : ∀ j, i ≤ j → addr j ∉ KeyMap.live cfg.toKeyConfig p.keys)
    (hlimit : homeSizes cfg p = none → KeyMap.atLimit cfg.toKeyConfig p.keys = limit)
    (hkeys : ∀ t ∈ tasks, t.normKey = cfg.hashKey) (hz : ∀ t ∈ tasks, t.batch.Has Sized) :
    (merges cfg limit mem i tasks (homeSizes cfg p) = none ∧
        ∃ p', exportMergeWith cfg now addr mem i tasks p = (false, p') ∧ Lost cfg tasks p p') ∨
      ∃ s, merges cfg limit mem i tasks (homeSizes cfg p) = some s ∧
        ∃ p', exportMergeWith cfg now addr mem i tasks p = (true, p') ∧ Merged cfg tasks s p p' := by
  induction tasks generalizing i p with
  | nil => exact Or.inr ⟨false, rfl, p, rfl, Merged.nil p hs⟩
  | cons t rest ih =>
    have hkeys' : ∀ x ∈ rest, x.normKey = cfg.hashKey := fun x hx => hkeys x (List.mem_cons_of_mem t hx)
    have hz' : ∀ x ∈ rest, x.batch.Has Sized := fun x hx => hz x (List.mem_cons_of_mem t hx)
    have ht := hz t List.mem_cons_self
    have hstep := ingressTaskMergeWith_spec (mem i) t (addr i) now (ingressQueuePopLocked t rest p) hs
      (hfresh i le_rfl) (hkeys t List.mem_cons_self)
    rw [merges, exportMergeWith]
    cases hn : noLogs t with
    | true =>
      have hskip : ingressTaskMergeWith cfg (mem i) t (addr i) now (ingressQueuePopLocked t rest p) =
          (true, ingressQueuePopLocked t rest p) := if_pos (of_decide_eq_true hn)
      have hskipped := Merged.skip t (ingressQueuePopLocked t rest p) hs hn ht
      rw [hskip, if_pos rfl]
      rcases ih (i+1) (ingressQueuePopLocked t rest p) hs (fun j hj => hfresh j (by omega)) hlimit
        hkeys' hz' with ⟨hm, p', he, hl⟩ | ⟨s, hm, p', he, hl⟩
      · exact Or.inl ⟨hm, p', he, (hskipped.lost hl).popped⟩
      · exact Or.inr ⟨s, hm, p', he, (hskipped.trans hl).popped⟩
    | false =>
      rw [if_neg (by simp)]
      have hsame : refuses limit (mem i) (homeSizes cfg p) =
          refuses (KeyMap.atLimit cfg.toKeyConfig p.keys) (mem i) (homeSizes cfg p) := by
        cases hh : homeSizes cfg p with
        | none => rw [hlimit hh]
        | some o => cases o <;> rfl
      rcases hstep hn with ⟨hr, p₁, he, hrefused⟩ | ⟨hr, p₁, he, hf⟩
      · have hr : refuses limit (mem i) (homeSizes cfg p) = true := hsame.trans hr
        rw [he, hr, if_pos rfl]
        exact Or.inl ⟨rfl, p₁, rfl, hrefused.lost hn ht⟩
      · have hr : refuses limit (mem i) (homeSizes cfg p) = false := hsame.trans hr
        have hhome : homeSizes cfg p₁ = after cfg t (homeSizes cfg p) := hf.home
        rw [he, hr, if_neg (by simp), ← hhome]
        rcases ih (i+1) p₁ hf.sound (fun j hj ha => (hf.live _ ha).elim (hfresh j (by omega))
            fun hji => by have := hinj hji; omega)
          (fun hh => by rw [hhome, after] at hh; split at hh <;> cases hh) hkeys' hz'
          with ⟨hm, p', he', hl⟩ | ⟨s, hm, p', he', hl⟩
        · exact Or.inl ⟨by rw [hm]; rfl, p', he', ((hf.merged hn ht).lost hl).popped⟩
        · exact Or.inr ⟨_, by rw [hm]; rfl, p', he', ((hf.merged hn ht).trans hl).popped⟩

section Allocated

/-- With nothing to merge an export only writes records. -/
theorem exportRawBufferWith_eq (cfg : Config) (me : ℕ) (suffix : Bytes) (e : Env) (w : Writer)
    (p : Producer) (hbatch : ownLogs me w = false) (hingress : p.ingressQueue = []) :
    exportRawBufferWith cfg me suffix e w p =
      some (if e.out then exportRecords cfg suffix p else (.dropError, []), w, p) := by
  rw [exportRawBufferWith, hbatch]
  simp only [Bool.false_eq_true, if_false, hingress, exportMergeWith]

theorem ingressTaskMergeLocked_ingressQueue (t : IngressTask) (addr : Addr) (now : ℤ)
    (p : Producer) : (ingressTaskMergeLocked cfg t addr now p).2.ingressQueue = p.ingressQueue := by
  have hset : ∀ (b : Option Builder) (p : Producer) (slot : Slot),
      (setSlot b p slot).ingressQueue = p.ingressQueue := by
    intro b p slot
    cases slot <;> rfl
  have hfind : ∀ useDefault, (findSlot cfg p useDefault t.normKey addr).2.ingressQueue =
      p.ingressQueue := by
    intro useDefault
    unfold findSlot
    split <;> rfl
  unfold ingressTaskMergeLocked
  split
  · rfl
  · split
    · rename_i p' he
      exact (congrArg (fun r => r.2.ingressQueue) he).symm.trans (hfind _)
    · rename_i slot p' he
      have hp : p'.ingressQueue = p.ingressQueue :=
        (congrArg (fun r => r.2.ingressQueue) he).symm.trans (hfind _)
      unfold mergeInto
      split
      · exact (hset _ _ _).trans hp
      · exact (storeBuilder_queues _ _ _ _).2.trans hp

theorem tlsBatchMergeLocked_ingressQueue (now now2 : ℤ) (addr : Addr) (w w' : Writer)
    (p p' : Producer) (h : tlsBatchMergeLocked cfg now now2 addr w p = (.rc .ok, w', p')) :
    p'.ingressQueue = p.ingressQueue := by
  have hwait : Waited cfg p (Writer.tlsBuilder cfg w).logsLen false _ :=
    waitBufferSpaceLocked_waited p (Writer.tlsBuilder cfg w).logsLen false now now2
  replace hwait := hwait.ok
  unfold tlsBatchMergeLocked at h
  dsimp only at h
  split at h
  · obtain ⟨-, rfl⟩ : w = w' ∧ p = p' := by simpa using h
    rfl
  · generalize waitBufferSpaceLocked cfg p _ false now now2 = r at h hwait
    obtain ⟨r, p₀⟩ := r
    split at h
    · rename_i p₁ he
      obtain ⟨rfl, rfl⟩ := Prod.mk.inj he
      obtain rfl : p₀ = p := (hwait rfl).1
      split at h
      · rename_i p₂ he
        obtain ⟨-, -, rfl⟩ := by simpa only [Prod.mk.injEq] using h
        exact (congrArg (fun r => r.2.ingressQueue) he).symm.trans
          (ingressTaskMergeLocked_ingressQueue _ addr now p₀)
      · cases h
    · rename_i hne he
      obtain ⟨rfl, -, -⟩ := by simpa only [Prod.mk.injEq] using h
      exact absurd rfl hne

theorem tlsBatchMergeWith_all (now now2 : ℤ) (addr : ℕ → Addr) (w : Writer) (p : Producer) :
    tlsBatchMergeWith cfg ⟨.first now now2, now, addr, fun _ => allAllocs, true⟩ w p =
      tlsBatchMergeLocked cfg now now2 (addr 0) w p := by
  unfold tlsBatchMergeWith tlsBatchMergeLocked
  simp only [ingressTaskMergeWith_all]
  rfl

/-- Where every allocation succeeds this is the export as it was before. -/
theorem exportRawBufferWith_all (me : ℕ) (suffix : Bytes) (now now2 : ℤ) (addr : ℕ → Addr)
    (w : Writer) (p : Producer) :
    exportRawBufferWith cfg me suffix ⟨.first now now2, now, addr, fun _ => allAllocs, true⟩ w p =
      exportRawBuffer cfg me suffix now now2
        ((List.range' 0 (p.ingressQueue.length+1)).map addr) w p := by
  rw [exportRawBufferWith, exportRawBuffer, tlsBatchMergeWith_all, List.range'_succ, List.map_cons,
    List.headD_cons, List.tail_cons]
  have hkeep : ∀ w' p', (if ownLogs me w then tlsBatchMergeLocked cfg now now2 (addr 0) w p
      else (.rc .ok, w, p)) = (.rc .ok, w', p') → p'.ingressQueue = p.ingressQueue := by
    intro w' p' h
    split at h
    · exact tlsBatchMergeLocked_ingressQueue now now2 (addr 0) w w' p p' h
    · obtain ⟨-, rfl⟩ : w = w' ∧ p = p' := by simpa using h
      rfl
  dsimp only
  generalize (if ownLogs me w then tlsBatchMergeLocked cfg now now2 (addr 0) w p
    else (.rc .ok, w, p)) = merged at hkeep ⊢
  obtain ⟨r, w', p'⟩ := merged
  cases r with
  | block d => rfl
  | rc c =>
    cases c with
    | ok =>
      dsimp only
      rw [hkeep w' p' rfl, exportMergeWith_all]
      rfl
    | full => rfl
    | closed => rfl
    | timeout => rfl

end Allocated

end VeTls.Export
