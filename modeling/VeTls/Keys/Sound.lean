import VeTls.Keys.Map

/-!
# The scheduler invariant

`Listed` ties every list to the flag of its members and holds between any
two writes of an operation. `Cell` is the state one queue may be in between
operations. `Sound` collects them with the shape of the hash buckets.
-/

set_option autoImplicit false

namespace VeTls.Keys.KeyMap

variable {τ β : Type}

structure Listed (m : KeyMap τ β) : Prop where
  ready : ∀ a, a ∈ m.ready ↔ (m.info a).ready = true
  delayed : ∀ a, a ∈ m.delayed ↔ (m.info a).delayed = true
  idle : ∀ a, a ∈ m.idle ↔ (m.info a).idle = true
  readyNodup : m.ready.Nodup
  delayedNodup : m.delayed.Nodup
  idleNodup : m.idle.Nodup

def Due (m : KeyMap τ β) : Prop :=
  m.delayed.Pairwise fun a b => (m.info a).nextReadyMs ≤ (m.info b).nextReadyMs

structure Hashed (cfg : KeyConfig) (m : KeyMap τ β) : Prop where
  index : ∀ i a, a ∈ m.buckets i → bucketIndex cfg (m.info a).hash = i
  hash : ∀ i a, a ∈ m.buckets i → (m.info a).hash = hash32Fnv1a (m.info a).key
  nodup : ∀ i, (m.buckets i).Nodup
  key : ∀ a b, a ∈ live cfg m → b ∈ live cfg m → (m.info a).key = (m.info b).key → a = b
  count : m.keyQueueCount = (live cfg m).length

structure Free (i : Info β) : Prop where
  ready : i.ready = false
  delayed : i.delayed = false
  idle : i.idle = false

structure Busy (i : Info β) (l : List τ) : Prop where
  inflight : i.inflight = true → Free i
  ready : i.ready = true → i.delayed = false ∧ i.idle = false ∧ l ≠ []
  delayed : i.delayed = true → i.idle = false ∧ l ≠ []
  idle : i.idle = true → l = []
  pending : l ≠ [] → i.inflight = false → i.ready = true ∨ i.delayed = true

structure Sound (cfg : KeyConfig) (m : KeyMap τ β) : Prop where
  listed : Listed m
  due : Due m
  hashed : Hashed cfg m
  dead : ∀ a, a ∉ live cfg m → Free (m.info a)
  cell : ∀ a, a ∈ live cfg m → Busy (m.info a) (m.tasks a)

theorem mem_live (cfg : KeyConfig) (m : KeyMap τ β) (a : Addr) :
    a ∈ live cfg m ↔ ∃ i, i < keyBucketCount cfg ∧ a ∈ m.buckets i := by
  simp [live]

theorem Hashed.mem_live (cfg : KeyConfig) (m : KeyMap τ β) (h : Hashed cfg m) (i : ℕ) (a : Addr)
    (ha : a ∈ m.buckets i) : a ∈ live cfg m :=
  (KeyMap.mem_live cfg m a).mpr ⟨i, h.index i a ha ▸ bucketIndex_lt cfg _, ha⟩

theorem Hashed.mem_bucket (cfg : KeyConfig) (m : KeyMap τ β) (h : Hashed cfg m) (a : Addr)
    (ha : a ∈ live cfg m) : a ∈ m.buckets (bucketIndex cfg (m.info a).hash) := by
  obtain ⟨i, _, hi⟩ := (KeyMap.mem_live cfg m a).mp ha
  rw [h.index i a hi]
  exact hi

theorem empty_listed : Listed (empty : KeyMap τ β) :=
  ⟨by simp [empty, blank], by simp [empty, blank], by simp [empty, blank],
    List.nodup_nil, List.nodup_nil, List.nodup_nil⟩

theorem empty_sound (cfg : KeyConfig) : Sound cfg (empty : KeyMap τ β) := by
  have hlive : live cfg (empty : KeyMap τ β) = [] := by simp [live, empty]
  have hb : ∀ i, (empty : KeyMap τ β).buckets i = [] := fun _ => rfl
  refine ⟨empty_listed, List.Pairwise.nil, ⟨?_, ?_, ?_, ?_, ?_⟩, ?_, ?_⟩
  · simp [hb]
  · simp [hb]
  · simp [hb]
  · simp [hlive]
  · rw [hlive]
    rfl
  · intro a _
    exact ⟨rfl, rfl, rfl⟩
  · simp [hlive]

@[simp] theorem setInfo_tasks (q : Addr) (f : Info β → Info β) (m : KeyMap τ β) :
    (setInfo q f m).tasks = m.tasks := rfl

@[simp] theorem setInfo_buckets (q : Addr) (f : Info β → Info β) (m : KeyMap τ β) :
    (setInfo q f m).buckets = m.buckets := rfl

@[simp] theorem setInfo_ready (q : Addr) (f : Info β → Info β) (m : KeyMap τ β) :
    (setInfo q f m).ready = m.ready := rfl

@[simp] theorem setInfo_delayed (q : Addr) (f : Info β → Info β) (m : KeyMap τ β) :
    (setInfo q f m).delayed = m.delayed := rfl

@[simp] theorem setInfo_idle (q : Addr) (f : Info β → Info β) (m : KeyMap τ β) :
    (setInfo q f m).idle = m.idle := rfl

@[simp] theorem setInfo_count (q : Addr) (f : Info β → Info β) (m : KeyMap τ β) :
    (setInfo q f m).keyQueueCount = m.keyQueueCount := rfl

@[simp] theorem setInfo_self (q : Addr) (f : Info β → Info β) (m : KeyMap τ β) :
    (setInfo q f m).info q = f (m.info q) := by simp [setInfo]

theorem setInfo_other (q a : Addr) (f : Info β → Info β) (m : KeyMap τ β) (h : a ≠ q) :
    (setInfo q f m).info a = m.info a := by simp [setInfo, h]

@[simp] theorem setInfo_live (cfg : KeyConfig) (q : Addr) (f : Info β → Info β)
    (m : KeyMap τ β) : live cfg (setInfo q f m) = live cfg m := rfl

/-- Nothing but the queue `q` changes, and that keeps its key. -/
structure Touches (q : Addr) (m m' : KeyMap τ β) : Prop where
  buckets : m'.buckets = m.buckets
  count : m'.keyQueueCount = m.keyQueueCount
  info : ∀ a, a ≠ q → m'.info a = m.info a
  tasks : ∀ a, a ≠ q → m'.tasks a = m.tasks a
  key : (m'.info q).key = (m.info q).key
  hash : (m'.info q).hash = (m.info q).hash

theorem Touches.refl (q : Addr) (m : KeyMap τ β) : Touches q m m :=
  ⟨rfl, rfl, fun _ _ => rfl, fun _ _ => rfl, rfl, rfl⟩

theorem Touches.trans {q : Addr} {m₁ m₂ m₃ : KeyMap τ β} (h : Touches q m₁ m₂)
    (h' : Touches q m₂ m₃) : Touches q m₁ m₃ :=
  ⟨h'.buckets.trans h.buckets, h'.count.trans h.count,
    fun a ha => (h'.info a ha).trans (h.info a ha), fun a ha => (h'.tasks a ha).trans (h.tasks a ha),
    h'.key.trans h.key, h'.hash.trans h.hash⟩

theorem Touches.live {q : Addr} {m m' : KeyMap τ β} (h : Touches q m m') (cfg : KeyConfig) :
    live cfg m' = live cfg m := by simp [KeyMap.live, h.buckets]

theorem setInfo_touches (q : Addr) (f : Info β → Info β) (m m₀ : KeyMap τ β)
    (hi : m₀.info = m.info) (ht : m₀.tasks = m.tasks) (hb : m₀.buckets = m.buckets)
    (hc : m₀.keyQueueCount = m.keyQueueCount)
    (hk : ∀ i, (f i).key = i.key ∧ (f i).hash = i.hash) : Touches q m (setInfo q f m₀) := by
  refine ⟨hb, hc, ?_, fun a _ => congrFun ht a, ?_, ?_⟩
  · intro a ha
    rw [setInfo_other q a f m₀ ha, hi]
  · rw [setInfo_self, (hk _).1, hi]
  · rw [setInfo_self, (hk _).2, hi]

theorem readyAdd_touches (q : Addr) (m : KeyMap τ β) : Touches q m (readyAdd q m) := by
  unfold readyAdd
  split
  · exact Touches.refl q m
  · exact setInfo_touches q _ m _ rfl rfl rfl rfl fun _ => ⟨rfl, rfl⟩

theorem readyRemove_touches (q : Addr) (m : KeyMap τ β) : Touches q m (readyRemove q m) := by
  unfold readyRemove
  split
  · exact Touches.refl q m
  · exact setInfo_touches q _ m _ rfl rfl rfl rfl fun _ => ⟨rfl, rfl⟩

theorem idleRemove_touches (q : Addr) (m : KeyMap τ β) : Touches q m (idleRemove q m) := by
  unfold idleRemove
  split
  · exact Touches.refl q m
  · exact setInfo_touches q _ m _ rfl rfl rfl rfl fun _ => ⟨rfl, rfl⟩

theorem idleAdd_touches (q : Addr) (now : ℤ) (m : KeyMap τ β) : Touches q m (idleAdd q now m) := by
  unfold idleAdd
  split
  · exact Touches.refl q m
  · exact setInfo_touches q _ m _ rfl rfl rfl rfl fun _ => ⟨rfl, rfl⟩

theorem delayedRemove_touches (q : Addr) (m : KeyMap τ β) : Touches q m (delayedRemove q m) := by
  unfold delayedRemove
  split
  · exact Touches.refl q m
  · exact setInfo_touches q _ m _ rfl rfl rfl rfl fun _ => ⟨rfl, rfl⟩

theorem insertDelayed_touches (q : Addr) (next : ℤ) (m : KeyMap τ β) :
    Touches q m (insertDelayed q next m) := by
  have h := setInfo_touches q (fun i => { i with delayed := true, nextReadyMs := next }) m m
    rfl rfl rfl rfl fun _ => ⟨rfl, rfl⟩
  exact ⟨h.buckets, h.count, h.info, h.tasks, h.key, h.hash⟩

theorem pushBackTask_touches (q : Addr) (t : τ) (m : KeyMap τ β) :
    Touches q m (pushBackTask q t m) :=
  ⟨rfl, rfl, fun _ _ => rfl, fun _ ha => Function.update_of_ne ha _ _, rfl, rfl⟩

theorem keyQueuePushFrontTask_touches (q : Addr) (t : τ) (m : KeyMap τ β) :
    Touches q m (keyQueuePushFrontTask q t m) :=
  ⟨rfl, rfl, fun _ _ => rfl, fun _ ha => Function.update_of_ne ha _ _, rfl, rfl⟩

theorem keyQueuePopTask_touches (q : Addr) (m : KeyMap τ β) :
    Touches q m (keyQueuePopTask q m).2 := by
  unfold keyQueuePopTask
  split
  · exact Touches.refl q m
  · exact ⟨rfl, rfl, fun _ _ => rfl, fun _ ha => Function.update_of_ne ha _ _, rfl, rfl⟩

theorem Hashed.touch {cfg : KeyConfig} {q : Addr} {m m' : KeyMap τ β} (h : Hashed cfg m)
    (ht : Touches q m m') : Hashed cfg m' := by
  have hl := ht.live cfg
  have hk : ∀ a, (m'.info a).key = (m.info a).key ∧ (m'.info a).hash = (m.info a).hash := by
    intro a
    by_cases ha : a = q
    · subst ha
      exact ⟨ht.key, ht.hash⟩
    · rw [ht.info a ha]
      exact ⟨rfl, rfl⟩
  refine ⟨?_, ?_, ?_, ?_, ?_⟩
  · intro i a ha
    rw [(hk a).2]
    exact h.index i a (ht.buckets ▸ ha)
  · intro i a ha
    rw [(hk a).1, (hk a).2]
    exact h.hash i a (ht.buckets ▸ ha)
  · intro i
    rw [ht.buckets]
    exact h.nodup i
  · intro a b ha hb he
    rw [(hk a).1, (hk b).1] at he
    exact h.key a b (hl ▸ ha) (hl ▸ hb) he
  · rw [ht.count, hl]
    exact h.count

/-- An operation on one queue keeps the invariant when it leaves that queue
in a state of its own and the lists in agreement with the flags. -/
theorem Sound.touch {cfg : KeyConfig} {q : Addr} {m m' : KeyMap τ β} (h : Sound cfg m)
    (ht : Touches q m m') (hl : Listed m') (hd : Due m')
    (hdead : q ∉ live cfg m → Free (m'.info q))
    (hcell : q ∈ live cfg m → Busy (m'.info q) (m'.tasks q)) : Sound cfg m' := by
  refine ⟨hl, hd, h.hashed.touch ht, ?_, ?_⟩
  · intro a ha
    rw [ht.live cfg] at ha
    by_cases he : a = q
    · subst he
      exact hdead ha
    · rw [ht.info a he]
      exact h.dead a ha
  · intro a ha
    rw [ht.live cfg] at ha
    by_cases he : a = q
    · subst he
      exact hcell ha
    · rw [ht.info a he, ht.tasks a he]
      exact h.cell a ha

theorem mem_append_flag (q a : Addr) (l : List Addr) (g : Addr → Info β) (p : Info β → Bool)
    (x : Info β) (hx : p x = true) (h : a ∈ l ↔ p (g a) = true) :
    a ∈ l++[q] ↔ p (Function.update g q x a) = true := by
  by_cases ha : a = q
  · subst ha
    simp [hx]
  · simp [ha, h]

theorem mem_erase_flag (q a : Addr) (l : List Addr) (g : Addr → Info β) (p : Info β → Bool)
    (x : Info β) (hx : p x = false) (hn : l.Nodup) (h : a ∈ l ↔ p (g a) = true) :
    a ∈ l.erase q ↔ p (Function.update g q x a) = true := by
  by_cases ha : a = q
  · subst ha
    simp [hx, hn.mem_erase_iff]
  · simp [ha, hn.mem_erase_iff, h]

theorem mem_keep_flag (q a : Addr) (l : List Addr) (g : Addr → Info β) (p : Info β → Bool)
    (x : Info β) (hx : p x = p (g q)) (h : a ∈ l ↔ p (g a) = true) :
    a ∈ l ↔ p (Function.update g q x a) = true := by
  by_cases ha : a = q
  · subst ha
    simp [hx, h]
  · simp [ha, h]

/-- An edit that keeps the three flags and the three lists. -/
theorem Listed.setInfo {m : KeyMap τ β} (h : Listed m) (q : Addr) (f : Info β → Info β)
    (hr : (f (m.info q)).ready = (m.info q).ready)
    (hd : (f (m.info q)).delayed = (m.info q).delayed)
    (hi : (f (m.info q)).idle = (m.info q).idle) : Listed (setInfo q f m) :=
  ⟨fun a => mem_keep_flag q a _ _ Info.ready _ hr (h.ready a),
    fun a => mem_keep_flag q a _ _ Info.delayed _ hd (h.delayed a),
    fun a => mem_keep_flag q a _ _ Info.idle _ hi (h.idle a), h.readyNodup, h.delayedNodup,
    h.idleNodup⟩

theorem nodup_concat (q : Addr) (l : List Addr) (h : l.Nodup) (hq : q ∉ l) : (l++[q]).Nodup := by
  rw [List.nodup_append]
  refine ⟨h, List.nodup_singleton q, ?_⟩
  intro a ha b hb he
  rw [List.mem_singleton] at hb
  exact hq (hb ▸ he ▸ ha)

theorem readyAdd_listed (q : Addr) {m : KeyMap τ β} (h : Listed m) : Listed (readyAdd q m) := by
  unfold readyAdd
  split
  · exact h
  · rename_i hg
    simp only [Bool.or_eq_true, not_or, Bool.not_eq_true] at hg
    have hq : q ∉ m.ready := by simp [h.ready, hg.1.1.1]
    exact ⟨fun a => mem_append_flag q a _ _ Info.ready _ rfl (h.ready a),
      fun a => mem_keep_flag q a _ _ Info.delayed _ rfl (h.delayed a),
      fun a => mem_keep_flag q a _ _ Info.idle _ rfl (h.idle a),
      nodup_concat q _ h.readyNodup hq, h.delayedNodup, h.idleNodup⟩

theorem idleAdd_listed (q : Addr) (now : ℤ) {m : KeyMap τ β} (h : Listed m) :
    Listed (idleAdd q now m) := by
  unfold idleAdd
  split
  · exact h
  · rename_i hg
    simp only [Bool.or_eq_true, not_or, Bool.not_eq_true] at hg
    have hq : q ∉ m.idle := by simp [h.idle, hg.1.1]
    exact ⟨fun a => mem_keep_flag q a _ _ Info.ready _ rfl (h.ready a),
      fun a => mem_keep_flag q a _ _ Info.delayed _ rfl (h.delayed a),
      fun a => mem_append_flag q a _ _ Info.idle _ rfl (h.idle a),
      h.readyNodup, h.delayedNodup, nodup_concat q _ h.idleNodup hq⟩

theorem readyRemove_listed (q : Addr) {m : KeyMap τ β} (h : Listed m) :
    Listed (readyRemove q m) := by
  unfold readyRemove
  split
  · exact h
  · exact ⟨fun a => mem_erase_flag q a _ _ Info.ready _ rfl h.readyNodup (h.ready a),
      fun a => mem_keep_flag q a _ _ Info.delayed _ rfl (h.delayed a),
      fun a => mem_keep_flag q a _ _ Info.idle _ rfl (h.idle a),
      h.readyNodup.erase q, h.delayedNodup, h.idleNodup⟩

theorem idleRemove_listed (q : Addr) {m : KeyMap τ β} (h : Listed m) :
    Listed (idleRemove q m) := by
  unfold idleRemove
  split
  · exact h
  · exact ⟨fun a => mem_keep_flag q a _ _ Info.ready _ rfl (h.ready a),
      fun a => mem_keep_flag q a _ _ Info.delayed _ rfl (h.delayed a),
      fun a => mem_erase_flag q a _ _ Info.idle _ rfl h.idleNodup (h.idle a),
      h.readyNodup, h.delayedNodup, h.idleNodup.erase q⟩

theorem delayedRemove_listed (q : Addr) {m : KeyMap τ β} (h : Listed m) :
    Listed (delayedRemove q m) := by
  unfold delayedRemove
  split
  · exact h
  · exact ⟨fun a => mem_keep_flag q a _ _ Info.ready _ rfl (h.ready a),
      fun a => mem_erase_flag q a _ _ Info.delayed _ rfl h.delayedNodup (h.delayed a),
      fun a => mem_keep_flag q a _ _ Info.idle _ rfl (h.idle a),
      h.readyNodup, h.delayedNodup.erase q, h.idleNodup⟩

theorem unlist_listed (q : Addr) {m : KeyMap τ β} (h : Listed m) : Listed (unlist q m) :=
  delayedRemove_listed q (idleRemove_listed q (readyRemove_listed q h))

theorem insert_perm (q : Addr) (p : Addr → Bool) (l : List Addr) :
    (l.takeWhile p ++ q::l.dropWhile p).Perm (q::l) := by
  have h : (l.takeWhile p ++ q::l.dropWhile p).Perm (q::(l.takeWhile p ++ l.dropWhile p)) :=
    List.perm_middle
  rwa [List.takeWhile_append_dropWhile] at h

theorem insertDelayed_delayed (q : Addr) (next : ℤ) (m : KeyMap τ β) :
    (insertDelayed q next m).delayed =
      m.delayed.takeWhile (fun a => decide ((m.info a).nextReadyMs ≤ next)) ++
        q::m.delayed.dropWhile (fun a => decide ((m.info a).nextReadyMs ≤ next)) := rfl

theorem insertDelayed_listed (q : Addr) (next : ℤ) {m : KeyMap τ β} (h : Listed m)
    (hq : (m.info q).delayed = false) : Listed (insertDelayed q next m) := by
  have hperm := insert_perm q (fun a => decide ((m.info a).nextReadyMs ≤ next)) m.delayed
  have hnot : q ∉ m.delayed := by simp [h.delayed, hq]
  refine ⟨fun a => mem_keep_flag q a _ _ Info.ready _ rfl (h.ready a), ?_,
    fun a => mem_keep_flag q a _ _ Info.idle _ rfl (h.idle a), h.readyNodup, ?_, h.idleNodup⟩
  · intro a
    rw [insertDelayed_delayed, hperm.mem_iff, List.mem_cons]
    by_cases ha : a = q
    · subst ha
      simp [insertDelayed]
    · simp [insertDelayed, setInfo_other q a _ m ha, ha, h.delayed a]
  · rw [insertDelayed_delayed]
    exact hperm.nodup_iff.mpr (List.nodup_cons.mpr ⟨hnot, h.delayedNodup⟩)

theorem delayedRemove_delayed (q : Addr) (m : KeyMap τ β) :
    ((delayedRemove q m).info q).delayed = false := by
  unfold delayedRemove
  split
  · rename_i hg
    simpa using hg
  · simp

theorem delayedAddSorted_listed (q : Addr) (next : ℤ) {m : KeyMap τ β} (h : Listed m) :
    Listed (delayedAddSorted q next m) :=
  insertDelayed_listed q next (unlist_listed q h) (delayedRemove_delayed q _)

theorem Due.congr {m m' : KeyMap τ β} (h : Due m) (hd : m'.delayed = m.delayed)
    (hn : ∀ a ∈ m.delayed, (m'.info a).nextReadyMs = (m.info a).nextReadyMs) : Due m' := by
  unfold Due
  rw [hd]
  refine List.Pairwise.imp_of_mem ?_ h
  intro a b ha hb hab
  rwa [hn a ha, hn b hb]

theorem Due.erase {m : KeyMap τ β} (h : Due m) (hn : m.delayed.Nodup) (q : Addr) (x : Info β)
    (m' : KeyMap τ β) (hd : m'.delayed = m.delayed.erase q)
    (hi : m'.info = Function.update m.info q x) : Due m' := by
  unfold Due
  rw [hd]
  refine List.Pairwise.imp_of_mem ?_ (h.sublist List.erase_sublist)
  intro a b ha hb hab
  have hne : ∀ c ∈ m.delayed.erase q, c ≠ q := fun c hc => (hn.mem_erase_iff.mp hc).1
  simpa [hi, hne a ha, hne b hb] using hab

/-- Sorted insertion: everything before is due no later, everything behind
is due strictly later. -/
theorem insertDelayed_due (q : Addr) (next : ℤ) {m : KeyMap τ β} (h : Due m)
    (hq : q ∉ m.delayed) : Due (insertDelayed q next m) := by
  have hself : ((insertDelayed q next m).info q).nextReadyMs = next := by
    simp [insertDelayed]
  have hother : ∀ a ∈ m.delayed,
      ((insertDelayed q next m).info a).nextReadyMs = (m.info a).nextReadyMs := by
    intro a ha
    have hne : a ≠ q := fun he => hq (he ▸ ha)
    simp [insertDelayed, setInfo_other q a _ m hne]
  have htake : ∀ a ∈ m.delayed.takeWhile (fun a => decide ((m.info a).nextReadyMs ≤ next)),
      (m.info a).nextReadyMs ≤ next := fun a ha => by
    simpa using List.mem_takeWhile_imp ha
  have hdrop : ∀ a ∈ m.delayed.dropWhile (fun a => decide ((m.info a).nextReadyMs ≤ next)),
      next ≤ (m.info a).nextReadyMs := by
    intro a ha
    cases hl : m.delayed.dropWhile (fun a => decide ((m.info a).nextReadyMs ≤ next)) with
    | nil => simp [hl] at ha
    | cons b l =>
      have hb : ¬ (m.info b).nextReadyMs ≤ next := by
        have := List.head?_dropWhile_not (fun a => decide ((m.info a).nextReadyMs ≤ next)) m.delayed
        simpa [hl] using this
      have hs : (b::l).Pairwise fun a b => (m.info a).nextReadyMs ≤ (m.info b).nextReadyMs :=
        hl ▸ h.sublist (List.dropWhile_sublist _)
      rw [hl] at ha
      rcases List.mem_cons.mp ha with rfl | ha
      · omega
      · have := (List.pairwise_cons.mp hs).1 a ha
        omega
  unfold Due
  rw [insertDelayed_delayed, List.pairwise_append, List.pairwise_cons]
  have hmt : ∀ a, a ∈ m.delayed.takeWhile (fun a => decide ((m.info a).nextReadyMs ≤ next)) →
      a ∈ m.delayed := fun a ha => (List.takeWhile_sublist _).subset ha
  have hmd : ∀ a, a ∈ m.delayed.dropWhile (fun a => decide ((m.info a).nextReadyMs ≤ next)) →
      a ∈ m.delayed := fun a ha => (List.dropWhile_sublist _).subset ha
  refine ⟨?_, ⟨?_, ?_⟩, ?_⟩
  · refine List.Pairwise.imp_of_mem ?_ (h.sublist (List.takeWhile_sublist _))
    intro a b ha hb hab
    rwa [hother a (hmt a ha), hother b (hmt b hb)]
  · intro a ha
    rw [hself, hother a (hmd a ha)]
    exact hdrop a ha
  · refine List.Pairwise.imp_of_mem ?_ (h.sublist (List.dropWhile_sublist _))
    intro a b ha hb hab
    rwa [hother a (hmd a ha), hother b (hmd b hb)]
  · intro a ha b hb
    rw [hother a (hmt a ha)]
    rcases List.mem_cons.mp hb with rfl | hb
    · rw [hself]
      exact htake a ha
    · rw [hother b (hmd b hb)]
      exact (htake a ha).trans (hdrop b hb)

end VeTls.Keys.KeyMap
