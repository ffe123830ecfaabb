import VeTls.Keys.Sound

/-!
# The scheduler operations keep the invariant

One theorem for each operation. A queue that a sender has taken with
`readyPop` is in no list until `keyQueueFinish` or `gateRequeue` returns it,
which is what the two rely on.
-/

set_option autoImplicit false

namespace VeTls.Keys.KeyMap

variable {τ β : Type}

theorem readyRemove_of_free (q : Addr) (m : KeyMap τ β) (h : (m.info q).ready = false) :
    readyRemove q m = m := by simp [readyRemove, h]

theorem idleRemove_of_free (q : Addr) (m : KeyMap τ β) (h : (m.info q).idle = false) :
    idleRemove q m = m := by simp [idleRemove, h]

theorem delayedRemove_of_free (q : Addr) (m : KeyMap τ β) (h : (m.info q).delayed = false) :
    delayedRemove q m = m := by simp [delayedRemove, h]

theorem unlist_of_free (q : Addr) (m : KeyMap τ β) (h : Free (m.info q)) : unlist q m = m := by
  rw [unlist, readyRemove_of_free q m h.ready, idleRemove_of_free q m h.idle,
    delayedRemove_of_free q m h.delayed]

theorem delayedAddSorted_of_free (q : Addr) (next : ℤ) (m : KeyMap τ β) (h : Free (m.info q)) :
    delayedAddSorted q next m = insertDelayed q next m :=
  congrArg (insertDelayed q next) (unlist_of_free q m h)

theorem Due.setInfo {m : KeyMap τ β} (h : Due m) (q : Addr) (f : Info β → Info β)
    (m₀ : KeyMap τ β) (hd : m₀.delayed = m.delayed) (hi : m₀.info = m.info)
    (hn : (f (m.info q)).nextReadyMs = (m.info q).nextReadyMs) : Due (setInfo q f m₀) := by
  refine h.congr hd ?_
  intro a _
  by_cases ha : a = q
  · subst ha
    rw [setInfo_self, hi]
    exact hn
  · rw [setInfo_other q a _ _ ha, hi]

theorem readyAdd_due (q : Addr) {m : KeyMap τ β} (h : Due m) : Due (readyAdd q m) := by
  unfold readyAdd
  split
  · exact h
  · exact h.setInfo q _ _ rfl rfl rfl

theorem idleAdd_due (q : Addr) (now : ℤ) {m : KeyMap τ β} (h : Due m) : Due (idleAdd q now m) := by
  unfold idleAdd
  split
  · exact h
  · exact h.setInfo q _ _ rfl rfl rfl

theorem readyRemove_due (q : Addr) {m : KeyMap τ β} (h : Due m) : Due (readyRemove q m) := by
  unfold readyRemove
  split
  · exact h
  · exact h.setInfo q _ _ rfl rfl rfl

theorem idleRemove_due (q : Addr) {m : KeyMap τ β} (h : Due m) : Due (idleRemove q m) := by
  unfold idleRemove
  split
  · exact h
  · exact h.setInfo q _ _ rfl rfl rfl

theorem delayedRemove_due (q : Addr) {m : KeyMap τ β} (hl : Listed m) (h : Due m) :
    Due (delayedRemove q m) := by
  unfold delayedRemove
  split
  · exact h
  · exact h.erase hl.delayedNodup q _ _ rfl rfl

theorem unlist_due (q : Addr) {m : KeyMap τ β} (hl : Listed m) (h : Due m) : Due (unlist q m) :=
  delayedRemove_due q (idleRemove_listed q (readyRemove_listed q hl))
    (idleRemove_due q (readyRemove_due q h))

theorem unlist_touches (q : Addr) (m : KeyMap τ β) : Touches q m (unlist q m) :=
  ((readyRemove_touches q m).trans (idleRemove_touches q _)).trans (delayedRemove_touches q _)

theorem readyRemove_ready (q : Addr) (m : KeyMap τ β) :
    ((readyRemove q m).info q).ready = false := by
  unfold readyRemove
  split
  · rename_i hg
    simpa using hg
  · simp

theorem idleRemove_idle (q : Addr) (m : KeyMap τ β) : ((idleRemove q m).info q).idle = false := by
  unfold idleRemove
  split
  · rename_i hg
    simpa using hg
  · simp

theorem idleRemove_info (q : Addr) (m : KeyMap τ β) :
    ((idleRemove q m).info q).ready = (m.info q).ready ∧
      ((idleRemove q m).info q).delayed = (m.info q).delayed ∧
      ((idleRemove q m).info q).inflight = (m.info q).inflight ∧
      ((idleRemove q m).info q).builder = (m.info q).builder := by
  unfold idleRemove
  split
  · exact ⟨rfl, rfl, rfl, rfl⟩
  · simp

theorem delayedRemove_info (q : Addr) (m : KeyMap τ β) :
    ((delayedRemove q m).info q).ready = (m.info q).ready ∧
      ((delayedRemove q m).info q).idle = (m.info q).idle ∧
      ((delayedRemove q m).info q).inflight = (m.info q).inflight ∧
      ((delayedRemove q m).info q).builder = (m.info q).builder := by
  unfold delayedRemove
  split
  · exact ⟨rfl, rfl, rfl, rfl⟩
  · simp

theorem unlist_free (q : Addr) (m : KeyMap τ β) : Free ((unlist q m).info q) := by
  refine ⟨?_, delayedRemove_delayed q _, ?_⟩
  · rw [unlist, (delayedRemove_info q _).1, (idleRemove_info q _).1]
    exact readyRemove_ready q m
  · rw [unlist, (delayedRemove_info q _).2.1]
    exact idleRemove_idle q _

theorem unlist_delayed (q : Addr) (m : KeyMap τ β) :
    (unlist q m).delayed.Sublist m.delayed := by
  have hr : (readyRemove q m).delayed = m.delayed := by
    unfold readyRemove
    split <;> rfl
  have hi : (idleRemove q (readyRemove q m)).delayed = m.delayed := by
    unfold idleRemove
    split
    · exact hr
    · exact hr
  rw [← hi]
  unfold unlist delayedRemove
  split
  · exact List.Sublist.refl _
  · exact List.erase_sublist

theorem unlist_freed (q : Addr) (m : KeyMap τ β) : (unlist q m).freed = m.freed := by
  unfold unlist delayedRemove idleRemove readyRemove
  split <;> split <;> split <;> rfl

theorem unlist_idle (q : Addr) (m : KeyMap τ β) (hq : (m.info q).idle = false) :
    (unlist q m).idle = m.idle := by
  have hr : ((readyRemove q m).info q).idle = false := by
    unfold readyRemove
    split
    · exact hq
    · simpa using hq
  rw [unlist, idleRemove_of_free q _ hr]
  unfold delayedRemove readyRemove
  split <;> split <;> rfl

@[simp] theorem idleRemove_tasks (q : Addr) (m : KeyMap τ β) :
    (idleRemove q m).tasks = m.tasks := by
  unfold idleRemove
  split <;> rfl

@[simp] theorem delayedRemove_tasks (q : Addr) (m : KeyMap τ β) :
    (delayedRemove q m).tasks = m.tasks := by
  unfold delayedRemove
  split <;> rfl

@[simp] theorem readyAdd_tasks (q : Addr) (m : KeyMap τ β) : (readyAdd q m).tasks = m.tasks := by
  unfold readyAdd
  split <;> rfl

theorem readyAdd_self (q : Addr) (m : KeyMap τ β) (hr : (m.info q).ready = false)
    (hd : (m.info q).delayed = false) (hi : (m.info q).inflight = false) (ht : m.tasks q ≠ []) :
    (readyAdd q m).info q = { m.info q with ready := true } := by
  have he : (m.tasks q).isEmpty = false := by simp [ht]
  simp [readyAdd, hr, hd, hi, he]

/-- A queue taken off the idle list is between two operations as before. -/
theorem idleRemove_sound {cfg : KeyConfig} {m : KeyMap τ β} (h : Sound cfg m) (q : Addr) :
    Sound cfg (idleRemove q m) := by
  obtain ⟨hr, hd, hf, _⟩ := idleRemove_info q m
  refine h.touch (idleRemove_touches q m) (idleRemove_listed q h.listed)
    (idleRemove_due q h.due) ?_ ?_
  · intro hq
    have hfree := h.dead q hq
    exact ⟨hr.trans hfree.ready, hd.trans hfree.delayed, idleRemove_idle q m⟩
  · intro hq
    have hb := h.cell q hq
    refine ⟨?_, ?_, ?_, ?_, ?_⟩
    · intro hi
      have hfree := hb.inflight (hf ▸ hi)
      exact ⟨hr.trans hfree.ready, hd.trans hfree.delayed, idleRemove_idle q m⟩
    · intro hi
      have := hb.ready (hr ▸ hi)
      exact ⟨hd.trans this.1, idleRemove_idle q m, by simpa using this.2.2⟩
    · intro hi
      have := hb.delayed (hd ▸ hi)
      exact ⟨idleRemove_idle q m, by simpa using this.2⟩
    · intro hi
      simp [idleRemove_idle] at hi
    · rw [hr, hd, hf, idleRemove_tasks]
      exact hb.pending

theorem flatMap_perm (n i : ℕ) (f g : ℕ → List Addr) (q : Addr) (hi : i < n)
    (hq : (f i).Perm (q::g i)) (ho : ∀ j, j ≠ i → f j = g j) :
    ((List.range n).flatMap f).Perm (q::(List.range n).flatMap g) := by
  induction n with
  | zero => omega
  | succ n ih =>
    simp only [List.range_succ, List.flatMap_append, List.flatMap_singleton]
    by_cases he : i = n
    · subst he
      have hpre : (List.range i).flatMap f = (List.range i).flatMap g :=
        List.flatMap_congr fun j hj => ho j (List.mem_range.mp hj).ne
      rw [hpre]
      exact (hq.append_left _).trans List.perm_middle
    · rw [ho n (Ne.symm he)]
      exact (ih (by omega)).append_right _

theorem create_live (cfg : KeyConfig) (q : Addr) (key : CStr) (m : KeyMap τ β) :
    (live cfg (create cfg q key m)).Perm (q::live cfg m) :=
  flatMap_perm _ _ _ _ q (bucketIndex_lt cfg (hash32Fnv1a key))
    (by simp [create]) (fun j hj => by simp [create, hj])

theorem lookup_none {cfg : KeyConfig} {m : KeyMap τ β} (h : Hashed cfg m) (key : CStr)
    (hn : lookup cfg key m = none) (a : Addr) (ha : a ∈ live cfg m) : (m.info a).key ≠ key := by
  intro he
  have hb := h.mem_bucket cfg m a ha
  have hh := h.hash _ a hb
  rw [he] at hh
  rw [hh] at hb
  have hno := List.find?_eq_none.mp hn a hb
  simp [he, hh] at hno

theorem lookup_some {cfg : KeyConfig} {m : KeyMap τ β} (h : Hashed cfg m) (key : CStr) (p : Addr)
    (hs : lookup cfg key m = some p) : p ∈ live cfg m ∧ (m.info p).key = key := by
  have hp := List.find?_some hs
  simp only [Bool.and_eq_true, beq_iff_eq] at hp
  exact ⟨h.mem_live cfg m _ p (List.mem_of_find?_eq_some hs), hp.2⟩

/-- A new queue is in the bucket of its hash and in no list. -/
theorem create_sound {cfg : KeyConfig} {m : KeyMap τ β} (h : Sound cfg m) (q : Addr) (key : CStr)
    (hq : q ∉ live cfg m) (hn : lookup cfg key m = none) : Sound cfg (create cfg q key m) := by
  have hperm := create_live cfg q key m
  have hfree := h.dead q hq
  have hnob : ∀ i, q ∉ m.buckets i := fun i hi => hq (h.hashed.mem_live cfg m i q hi)
  have hself : (create cfg q key m).info q = blank key := by simp [create]
  have hother : ∀ a, a ≠ q → (create cfg q key m).info a = m.info a := by
    intro a ha
    simp [create, ha]
  have hmem : ∀ i a, a ∈ (create cfg q key m).buckets i →
      (a = q ∧ i = bucketIndex cfg (hash32Fnv1a key)) ∨ (a ≠ q ∧ a ∈ m.buckets i) := by
    intro i a ha
    by_cases hi : i = bucketIndex cfg (hash32Fnv1a key)
    · subst hi
      simp only [create, Function.update_self, List.mem_cons] at ha
      rcases ha with ha | ha
      · exact Or.inl ⟨ha, rfl⟩
      · exact Or.inr ⟨fun he => hnob _ (he ▸ ha), ha⟩
    · simp only [create, Function.update_of_ne hi] at ha
      exact Or.inr ⟨fun he => hnob _ (he ▸ ha), ha⟩
  refine ⟨?_, ?_, ⟨?_, ?_, ?_, ?_, ?_⟩, ?_, ?_⟩
  · exact ⟨fun a => mem_keep_flag q a _ _ Info.ready _ hfree.ready.symm (h.listed.ready a),
      fun a => mem_keep_flag q a _ _ Info.delayed _ hfree.delayed.symm (h.listed.delayed a),
      fun a => mem_keep_flag q a _ _ Info.idle _ hfree.idle.symm (h.listed.idle a),
      h.listed.readyNodup, h.listed.delayedNodup, h.listed.idleNodup⟩
  · refine h.due.congr rfl ?_
    intro a ha
    have hne : a ≠ q := by
      intro he
      have hdel := (h.listed.delayed a).mp ha
      rw [he, hfree.delayed] at hdel
      exact Bool.noConfusion hdel
    rw [hother a hne]
  · intro i a ha
    rcases hmem i a ha with ⟨rfl, rfl⟩ | ⟨hne, ha⟩
    · rw [hself]
      rfl
    · rw [hother a hne]
      exact h.hashed.index i a ha
  · intro i a ha
    rcases hmem i a ha with ⟨rfl, rfl⟩ | ⟨hne, ha⟩
    · rw [hself]
      rfl
    · rw [hother a hne]
      exact h.hashed.hash i a ha
  · intro i
    by_cases hi : i = bucketIndex cfg (hash32Fnv1a key)
    · subst hi
      simpa [create] using ⟨hnob _, h.hashed.nodup _⟩
    · simpa [create, hi] using h.hashed.nodup i
  · intro a b ha hb he
    rw [hperm.mem_iff, List.mem_cons] at ha hb
    have hkey : ∀ c, c ∈ live cfg m → ((create cfg q key m).info c).key ≠ key := by
      intro c hc
      rw [hother c (fun he => hq (he ▸ hc))]
      exact lookup_none h.hashed key hn c hc
    have hqk : ((create cfg q key m).info q).key = key := by rw [hself]; rfl
    rcases ha with rfl | ha <;> rcases hb with rfl | hb
    · rfl
    · exact absurd (he.symm.trans hqk) (hkey b hb)
    · exact absurd (he.trans hqk) (hkey a ha)
    · rw [hother a (fun he => hq (he ▸ ha)), hother b (fun he => hq (he ▸ hb))] at he
      exact h.hashed.key a b ha hb he
  · rw [hperm.length_eq, List.length_cons, ← h.hashed.count]
    rfl
  · intro a ha
    rw [hperm.mem_iff, List.mem_cons, not_or] at ha
    rw [hother a ha.1]
    exact h.dead a ha.2
  · intro a ha
    by_cases he : a = q
    · subst he
      have ht : (create cfg a key m).tasks a = [] := by simp [create]
      rw [hself, ht]
      exact ⟨fun _ => ⟨rfl, rfl, rfl⟩, nofun, nofun, nofun, fun hne => absurd rfl hne⟩
    · rw [hperm.mem_iff, List.mem_cons] at ha
      have ht : (create cfg q key m).tasks a = m.tasks a := by simp [create, he]
      rw [hother a he, ht]
      exact h.cell a (ha.resolve_left he)

theorem keyQueueRemoveAndFree_live (cfg : KeyConfig) (q : Addr) {m : KeyMap τ β}
    (h : Hashed cfg m) (hq : q ∈ live cfg m) :
    (live cfg m).Perm (q::live cfg (keyQueueRemoveAndFree cfg q m)) := by
  have hb := h.mem_bucket cfg m q hq
  refine flatMap_perm _ _ _ _ q (bucketIndex_lt cfg (m.info q).hash) ?_ ?_
  · simpa [keyQueueRemoveAndFree] using List.perm_cons_erase hb
  · intro j hj
    simp [keyQueueRemoveAndFree, hj]

theorem Hashed.live_nodup {cfg : KeyConfig} {m : KeyMap τ β} (h : Hashed cfg m) :
    (live cfg m).Nodup := by
  rw [live, List.nodup_flatMap]
  refine ⟨fun i _ => h.nodup i, ?_⟩
  refine List.Pairwise.imp_of_mem ?_ (List.nodup_range (n := keyBucketCount cfg))
  intro i j _ _ hij a hi hj
  exact hij ((h.index i a hi).symm.trans (h.index j a hj))

/-- A queue of the map can be freed in any state of its flags. -/
theorem keyQueueRemoveAndFree_sound {cfg : KeyConfig} {m : KeyMap τ β} (h : Sound cfg m)
    (q : Addr) (hq : q ∈ live cfg m) : Sound cfg (keyQueueRemoveAndFree cfg q m) := by
  have hperm := keyQueueRemoveAndFree_live cfg q h.hashed hq
  have hnd := hperm.nodup_iff.mp h.hashed.live_nodup
  have hqn := (List.nodup_cons.mp hnd).1
  have ht := unlist_touches q m
  have hmem : ∀ i a, a ∈ (keyQueueRemoveAndFree cfg q m).buckets i → a ≠ q ∧ a ∈ m.buckets i := by
    intro i a ha
    by_cases hi : i = bucketIndex cfg (m.info q).hash
    · subst hi
      simp only [keyQueueRemoveAndFree, Function.update_self] at ha
      exact (h.hashed.nodup _).mem_erase_iff.mp ha
    · simp only [keyQueueRemoveAndFree, Function.update_of_ne hi] at ha
      refine ⟨?_, ha⟩
      rintro rfl
      exact hi (h.hashed.index i a ha).symm
  have hlive : ∀ a, a ∈ live cfg (keyQueueRemoveAndFree cfg q m) → a ≠ q ∧ a ∈ live cfg m := by
    intro a ha
    exact ⟨fun he => hqn (he ▸ ha), hperm.mem_iff.mpr (List.mem_cons_of_mem q ha)⟩
  have hother : ∀ a, a ≠ q → (keyQueueRemoveAndFree cfg q m).info a = m.info a := ht.info
  have hl := unlist_listed q h.listed
  refine ⟨⟨hl.ready, hl.delayed, hl.idle, hl.readyNodup, hl.delayedNodup, hl.idleNodup⟩,
    unlist_due q h.listed h.due, ⟨?_, ?_, ?_, ?_, ?_⟩, ?_, ?_⟩
  · intro i a ha
    obtain ⟨hne, ha⟩ := hmem i a ha
    rw [hother a hne]
    exact h.hashed.index i a ha
  · intro i a ha
    obtain ⟨hne, ha⟩ := hmem i a ha
    rw [hother a hne]
    exact h.hashed.hash i a ha
  · intro i
    by_cases hi : i = bucketIndex cfg (m.info q).hash
    · subst hi
      simpa [keyQueueRemoveAndFree] using (h.hashed.nodup _).erase q
    · simpa [keyQueueRemoveAndFree, hi] using h.hashed.nodup i
  · intro a b ha hb he
    obtain ⟨hna, ha⟩ := hlive a ha
    obtain ⟨hnb, hb⟩ := hlive b hb
    rw [hother a hna, hother b hnb] at he
    exact h.hashed.key a b ha hb he
  · have hlen := hperm.length_eq
    rw [List.length_cons, ← h.hashed.count] at hlen
    change m.keyQueueCount-1 = _
    omega
  · intro a ha
    by_cases he : a = q
    · subst he
      exact unlist_free a m
    · rw [hother a he]
      refine h.dead a fun hm => ?_
      rw [hperm.mem_iff, List.mem_cons] at hm
      exact ha (hm.resolve_left he)
  · intro a ha
    obtain ⟨hne, hm⟩ := hlive a ha
    have htask : (keyQueueRemoveAndFree cfg q m).tasks a = m.tasks a := ht.tasks a hne
    rw [hother a hne, htask]
    exact h.cell a hm

theorem cleanup_sound {cfg : KeyConfig} {m : KeyMap τ β} (h : Sound cfg m) (now : ℤ) (q : Addr) :
    Sound cfg (cleanup cfg now q m) := by
  unfold cleanup
  split
  · rename_i hg
    simp only [Bool.and_eq_true] at hg
    have hq : q ∈ live cfg m := by
      by_contra hn
      have hidle := (h.dead q hn).idle
      simp [hidle] at hg
    exact keyQueueRemoveAndFree_sound (idleRemove_sound h q) q
      (by rwa [(idleRemove_touches q m).live cfg])
  · exact h

theorem idleCleanup_sound {cfg : KeyConfig} {m : KeyMap τ β} (h : Sound cfg m) (now : ℤ) :
    Sound cfg (idleCleanup cfg now m) := by
  have hgo : ∀ (l : List Addr) (m : KeyMap τ β), Sound cfg m →
      Sound cfg (l.foldl (fun m q => cleanup cfg now q m) m) := by
    intro l
    induction l with
    | nil => exact fun m h => h
    | cons q l ih => exact fun m h => ih _ (cleanup_sound h now q)
  unfold idleCleanup
  split
  · exact h
  · exact hgo m.idle m h

theorem readyPop_sound {cfg : KeyConfig} {m m' : KeyMap τ β} (h : Sound cfg m) (q : Addr)
    (hp : readyPop m = some (q, m')) :
    Sound cfg m' ∧ Touches q m m' ∧ q ∈ live cfg m ∧ (m'.info q).inflight = true ∧
      (m.info q).inflight = false ∧ m'.tasks = m.tasks ∧ m.tasks q ≠ [] := by
  unfold readyPop at hp
  split at hp
  · simp at hp
  · rename_i a l hr
    simp only [Option.some.injEq, Prod.mk.injEq] at hp
    obtain ⟨rfl, rfl⟩ := hp
    have hflag := (h.listed.ready a).mp (by simp [hr])
    have hlive : a ∈ live cfg m := by
      by_contra hn
      simp [(h.dead a hn).ready] at hflag
    have hcell := h.cell a hlive
    obtain ⟨hd, hi, hne⟩ := hcell.ready hflag
    have hinf : (m.info a).inflight = false := by
      cases hf : (m.info a).inflight with
      | false => rfl
      | true => simp [(hcell.inflight hf).ready] at hflag
    have ht := setInfo_touches a (fun i => { i with ready := false, inflight := true }) m
      { m with ready := l } rfl rfl rfl rfl fun _ => ⟨rfl, rfl⟩
    have hnd : (a::l).Nodup := hr ▸ h.listed.readyNodup
    have herase : l = m.ready.erase a := by simp [hr]
    refine ⟨h.touch ht ?_ (h.due.setInfo a _ _ rfl rfl rfl) (fun hn => absurd hlive hn) ?_, ht,
      hlive, by simp, hinf, rfl, hne⟩
    · refine ⟨?_, fun b => mem_keep_flag a b _ _ Info.delayed _ rfl (h.listed.delayed b),
        fun b => mem_keep_flag a b _ _ Info.idle _ rfl (h.listed.idle b),
        (List.nodup_cons.mp hnd).2, h.listed.delayedNodup, h.listed.idleNodup⟩
      intro b
      change b ∈ l ↔ _
      rw [herase]
      exact mem_erase_flag a b _ _ Info.ready _ rfl h.listed.readyNodup (h.listed.ready b)
    · intro _
      rw [setInfo_self]
      exact ⟨fun _ => ⟨rfl, hd, hi⟩, nofun, fun hd' => by simp [hd] at hd',
        fun hi' => by simp [hi] at hi', nofun⟩

/-- While a sender has the queue, its tasks can be edited freely. -/
theorem Sound.edit_inflight {cfg : KeyConfig} {q : Addr} {m m' : KeyMap τ β} (h : Sound cfg m)
    (ht : Touches q m m') (hl : Listed m') (hd : Due m') (hi : m'.info q = m.info q)
    (hq : q ∈ live cfg m) (hf : (m.info q).inflight = true) : Sound cfg m' := by
  have hfree := (h.cell q hq).inflight hf
  refine h.touch ht hl hd (fun hn => absurd hq hn) fun _ => ?_
  rw [hi]
  exact ⟨fun _ => hfree, fun hr => by simp [hfree.ready] at hr,
    fun hd => by simp [hfree.delayed] at hd, fun hi => by simp [hfree.idle] at hi,
    fun _ hn => by simp [hf] at hn⟩

theorem keyQueuePopTask_sound {cfg : KeyConfig} {m : KeyMap τ β} (h : Sound cfg m) (q : Addr)
    (hq : q ∈ live cfg m) (hf : (m.info q).inflight = true) :
    Sound cfg (keyQueuePopTask q m).2 := by
  have ht := keyQueuePopTask_touches q m
  unfold keyQueuePopTask at ht ⊢
  split
  · exact h
  · rename_i t l hl
    simp only [hl] at ht
    exact h.edit_inflight ht ⟨h.listed.ready, h.listed.delayed, h.listed.idle,
      h.listed.readyNodup, h.listed.delayedNodup, h.listed.idleNodup⟩ h.due rfl hq hf

theorem release_touches (q : Addr) (m m₀ : KeyMap τ β) (ht : Touches q m m₀) :
    Touches q m (setInfo q (fun i => { i with inflight := false }) m₀) :=
  ht.trans (setInfo_touches q _ m₀ m₀ rfl rfl rfl rfl fun _ => ⟨rfl, rfl⟩)

theorem gateRequeue_touches (q : Addr) (t : τ) (next : ℤ) (m : KeyMap τ β) :
    Touches q m (gateRequeue q t next m) :=
  ((release_touches q m _ (keyQueuePushFrontTask_touches q t m)).trans (unlist_touches q _)).trans
    (insertDelayed_touches q next _)

theorem gateRequeue_sound {cfg : KeyConfig} {m : KeyMap τ β} (h : Sound cfg m) (q : Addr) (t : τ)
    (next : ℤ) (hq : q ∈ live cfg m) (hf : (m.info q).inflight = true) :
    Sound cfg (gateRequeue q t next m) := by
  have hfree := (h.cell q hq).inflight hf
  have hfree' : Free ((setInfo q (fun i => { i with inflight := false })
      (keyQueuePushFrontTask q t m)).info q) := by
    rw [setInfo_self]
    exact ⟨hfree.ready, hfree.delayed, hfree.idle⟩
  have hl : Listed (setInfo q (fun i => { i with inflight := false })
      (keyQueuePushFrontTask q t m)) :=
    Listed.setInfo (m := keyQueuePushFrontTask q t m) ⟨h.listed.ready, h.listed.delayed,
      h.listed.idle, h.listed.readyNodup, h.listed.delayedNodup, h.listed.idleNodup⟩ q _ rfl rfl rfl
  have hqd : q ∉ m.delayed := by simp [h.listed.delayed, hfree.delayed]
  have hd : Due (setInfo q (fun i => { i with inflight := false })
      (keyQueuePushFrontTask q t m)) := h.due.setInfo q _ _ rfl rfl rfl
  refine h.touch (gateRequeue_touches q t next m) ?_ ?_ (fun hn => absurd hq hn) fun _ => ?_
  · exact delayedAddSorted_listed q next hl
  · rw [gateRequeue, delayedAddSorted_of_free q next _ hfree']
    exact insertDelayed_due q next hd hqd
  · rw [gateRequeue, delayedAddSorted_of_free q next _ hfree']
    simp only [insertDelayed, setInfo_self, setInfo_tasks, keyQueuePushFrontTask,
      Function.update_self]
    exact ⟨by simp, fun hr => by simp [hfree.ready] at hr,
      fun _ => ⟨hfree.idle, List.cons_ne_nil _ _⟩, fun hi => by simp [hfree.idle] at hi,
      fun _ _ => Or.inr rfl⟩

theorem keyQueueFinish_sound {cfg : KeyConfig} {m : KeyMap τ β} (h : Sound cfg m) (now : ℤ)
    (q : Addr) (hq : q ∈ live cfg m) (hf : (m.info q).inflight = true) :
    Sound cfg (keyQueueFinish cfg now q m) := by
  have hfree := (h.cell q hq).inflight hf
  have ht := release_touches q m m (Touches.refl q m)
  have hl : Listed (setInfo q (fun i => { i with inflight := false }) m) :=
    h.listed.setInfo q _ rfl rfl rfl
  have hd : Due (setInfo q (fun i => { i with inflight := false }) m) :=
    h.due.setInfo q _ _ rfl rfl rfl
  have hfree' : Free ((setInfo q (fun i => { i with inflight := false }) m).info q) := by
    rw [setInfo_self]
    exact ⟨hfree.ready, hfree.delayed, hfree.idle⟩
  unfold keyQueueFinish
  simp only [setInfo_tasks]
  by_cases he : (m.tasks q).isEmpty
  · simp only [he, Bool.not_true, Bool.false_eq_true, if_false]
    have hnil : m.tasks q = [] := List.isEmpty_iff.mp he
    split
    · refine h.touch (ht.trans (idleAdd_touches q now _)) (idleAdd_listed q now hl)
        (idleAdd_due q now hd) (fun hn => absurd hq hn) fun _ => ?_
      simp only [idleAdd, setInfo_self, setInfo_tasks, he, hfree.idle, Bool.not_true, Bool.or_self,
        Bool.false_eq_true, if_false]
      exact ⟨by simp, fun hr => by simp [hfree.ready] at hr,
        fun hd => by simp [hfree.delayed] at hd, fun _ => hnil, fun hn => absurd hnil hn⟩
    · -- the state in which only the flag is cleared is sound when the ring is empty
      have hs : Sound cfg (setInfo q (fun i => { i with inflight := false }) m) := by
        refine h.touch ht hl hd (fun hn => absurd hq hn) fun _ => ?_
        simp only [setInfo_self, setInfo_tasks]
        exact ⟨by simp, fun hr => by simp [hfree.ready] at hr,
          fun hd => by simp [hfree.delayed] at hd, fun _ => hnil, fun hn => absurd hnil hn⟩
      exact keyQueueRemoveAndFree_sound hs q hq
  · have hne : m.tasks q ≠ [] := fun hn => he (by simp [hn])
    simp only [Bool.not_eq_true] at he
    simp only [he, Bool.not_false, if_true]
    split
    · refine h.touch (ht.trans ((unlist_touches q _).trans (insertDelayed_touches q _ _)))
        (delayedAddSorted_listed q _ hl) ?_ (fun hn => absurd hq hn) fun _ => ?_
      · rw [delayedAddSorted_of_free q _ _ hfree']
        exact insertDelayed_due q _ hd (by rw [hl.delayed, hfree'.delayed]; simp)
      · rw [delayedAddSorted_of_free q _ _ hfree']
        simp only [insertDelayed, setInfo_self, setInfo_tasks]
        exact ⟨by simp, fun hr => by simp [hfree.ready] at hr, fun _ => ⟨hfree.idle, hne⟩,
          fun hi => by simp [hfree.idle] at hi, fun _ _ => Or.inr rfl⟩
    · refine h.touch (ht.trans (readyAdd_touches q _)) (readyAdd_listed q hl) (readyAdd_due q hd)
        (fun hn => absurd hq hn) fun _ => ?_
      rw [readyAdd_self q _ hfree'.ready hfree'.delayed (by simp) hne, readyAdd_tasks]
      exact ⟨fun hi => by simp at hi, fun _ => ⟨hfree'.delayed, hfree'.idle, hne⟩,
        fun hd => by simp [hfree.delayed] at hd, fun hi => by simp [hfree.idle] at hi,
        fun _ _ => Or.inl rfl⟩

/-- What a successful lookup or creation returns: a queue of the map with
the wanted key that is not idle. -/
theorem keyQueueGetOrCreate_spec {cfg : KeyConfig} {m : KeyMap τ β} (h : Sound cfg m)
    (addr : Addr) (key : CStr) (ha : addr ∉ live cfg m) :
    Sound cfg (keyQueueGetOrCreate cfg addr key m).2 ∧
      ∀ q, (keyQueueGetOrCreate cfg addr key m).1 = some q →
        q ∈ live cfg (keyQueueGetOrCreate cfg addr key m).2 ∧
        ((keyQueueGetOrCreate cfg addr key m).2.info q).idle = false ∧
        ((keyQueueGetOrCreate cfg addr key m).2.info q).key = key := by
  unfold keyQueueGetOrCreate
  split
  · rename_i p hp
    obtain ⟨hlive, hkey⟩ := lookup_some h.hashed key p hp
    refine ⟨idleRemove_sound h p, ?_⟩
    intro q he
    obtain rfl := Option.some.inj he
    exact ⟨by rwa [(idleRemove_touches p m).live cfg], idleRemove_idle p m,
      (idleRemove_touches p m).key.trans hkey⟩
  · rename_i hn
    split
    · exact ⟨h, nofun⟩
    · refine ⟨create_sound h addr key ha hn, ?_⟩
      intro q he
      obtain rfl := Option.some.inj he
      refine ⟨(create_live cfg addr key m).mem_iff.mpr (by simp), ?_, ?_⟩
      · simp [create, blank]
      · simp [create, blank]

theorem pushBackTask_listed (q : Addr) (t : τ) {m : KeyMap τ β} (h : Listed m) :
    Listed (pushBackTask q t m) :=
  ⟨h.ready, h.delayed, h.idle, h.readyNodup, h.delayedNodup, h.idleNodup⟩

theorem enqueue_touches (q : Addr) (t : τ) (m : KeyMap τ β) : Touches q m (enqueue q t m) := by
  unfold enqueue
  split
  · exact (pushBackTask_touches q t m).trans (readyAdd_touches q _)
  · exact pushBackTask_touches q t m

theorem enqueue_tasks (q : Addr) (t : τ) (m : KeyMap τ β) :
    (enqueue q t m).tasks = Function.update m.tasks q (m.tasks q++[t]) := by
  unfold enqueue
  split
  · rw [readyAdd_tasks]
    rfl
  · rfl

theorem enqueue_sound {cfg : KeyConfig} {m : KeyMap τ β} (h : Sound cfg m) (q : Addr) (t : τ)
    (hq : q ∈ live cfg m) (hidle : (m.info q).idle = false) : Sound cfg (enqueue q t m) := by
  have hcell := h.cell q hq
  have hl := pushBackTask_listed q t h.listed
  have hd : Due (pushBackTask q t m) := h.due
  have htask : (enqueue q t m).tasks q ≠ [] := by simp [enqueue_tasks]
  refine h.touch (enqueue_touches q t m) ?_ ?_ (fun hn => absurd hq hn) fun _ => ?_
  · unfold enqueue
    split
    · exact readyAdd_listed q hl
    · exact hl
  · unfold enqueue
    split
    · exact readyAdd_due q hd
    · exact hd
  · unfold enqueue at htask ⊢
    split at htask
    · rename_i hg
      rw [if_pos hg]
      simp only [Bool.and_eq_true, Bool.not_eq_true', List.isEmpty_iff] at hg
      have hready : (m.info q).ready = false := by
        cases hr : (m.info q).ready with
        | false => rfl
        | true => exact absurd hg.1 (hcell.ready hr).2.2
      have hdelay : (m.info q).delayed = false := by
        cases hr : (m.info q).delayed with
        | false => rfl
        | true => exact absurd hg.1 (hcell.delayed hr).2
      have hinfo := readyAdd_self q (pushBackTask q t m) hready hdelay hg.2 (by simpa using htask)
      rw [hinfo]
      exact ⟨fun hi => by simp [pushBackTask, hg.2] at hi, fun _ => ⟨hdelay, hidle, htask⟩,
        fun hd => by simp [pushBackTask, hdelay] at hd,
        fun hi => by simp [pushBackTask, hidle] at hi, fun _ _ => Or.inl rfl⟩
    · rename_i hg
      rw [if_neg hg]
      refine ⟨hcell.inflight, fun hr => ⟨(hcell.ready hr).1, (hcell.ready hr).2.1, htask⟩,
        fun hd => ⟨(hcell.delayed hd).1, htask⟩,
        fun hi => by simp [pushBackTask, hidle] at hi, fun _ hi => ?_⟩
      have hi' : (m.info q).inflight = false := hi
      refine hcell.pending ?_ hi'
      intro hn
      simp [hn, hi'] at hg

theorem keyQueuePushTask_sound {cfg : KeyConfig} {m : KeyMap τ β} (h : Sound cfg m)
    (addr : Addr) (key : CStr) (t : τ) (ha : addr ∉ live cfg m) :
    Sound cfg (keyQueuePushTask cfg addr key t m).2 := by
  obtain ⟨hs, hq⟩ := keyQueueGetOrCreate_spec h addr key ha
  unfold keyQueuePushTask
  cases hg : keyQueueGetOrCreate cfg addr key m with
  | mk o m' =>
    rw [hg] at hs hq
    cases o with
    | none => exact hs
    | some q =>
      obtain ⟨hlive, hidle, _⟩ := hq q rfl
      exact enqueue_sound hs q t hlive hidle

theorem keyQueueReserve_sound {cfg : KeyConfig} {m : KeyMap τ β} (h : Sound cfg m)
    (addr : Addr) (key : CStr) (ha : addr ∉ live cfg m) :
    Sound cfg (keyQueueReserve cfg addr key m).2 :=
  (keyQueueGetOrCreate_spec h addr key ha).1

theorem promote_touches (q : Addr) (m : KeyMap τ β) : Touches q m (promote q m) := by
  unfold promote
  split
  · exact (delayedRemove_touches q m).trans (readyAdd_touches q _)
  · exact delayedRemove_touches q m

theorem promote_sound {cfg : KeyConfig} {m : KeyMap τ β} (h : Sound cfg m) (q : Addr)
    (hq : (m.info q).delayed = true) : Sound cfg (promote q m) := by
  have hlive : q ∈ live cfg m := by
    by_contra hn
    simp [(h.dead q hn).delayed] at hq
  have hcell := h.cell q hlive
  obtain ⟨hidle, hne⟩ := hcell.delayed hq
  have hready : (m.info q).ready = false := by
    cases hr : (m.info q).ready with
    | false => rfl
    | true => simp [(hcell.ready hr).1] at hq
  have hinf : (m.info q).inflight = false := by
    cases hf : (m.info q).inflight with
    | false => rfl
    | true => simp [(hcell.inflight hf).delayed] at hq
  have hem : (m.tasks q).isEmpty = false := by simp [hne]
  refine h.touch (promote_touches q m) ?_ ?_ (fun hn => absurd hlive hn) fun _ => ?_
  · unfold promote
    split
    · exact readyAdd_listed q (delayedRemove_listed q h.listed)
    · exact delayedRemove_listed q h.listed
  · unfold promote
    split
    · exact readyAdd_due q (delayedRemove_due q h.listed h.due)
    · exact delayedRemove_due q h.listed h.due
  · simp only [promote, hinf, hem, Bool.not_false, Bool.and_self, if_true, readyAdd,
      delayedRemove, hq, Bool.not_true, Bool.false_eq_true, if_false, setInfo_self, setInfo_tasks,
      hready, Bool.or_self]
    exact ⟨nofun, fun _ => ⟨rfl, hidle, hne⟩, nofun, fun hi => by simp [hidle] at hi,
      fun _ _ => Or.inl rfl⟩

theorem promote_delayed (q : Addr) (m : KeyMap τ β) (a : Addr) (ha : a ≠ q) :
    ((promote q m).info a).delayed = (m.info a).delayed := by
  rw [(promote_touches q m).info a ha]

theorem promoteGo_sound {cfg : KeyConfig} (now : ℤ) (l : List Addr) (m : KeyMap τ β)
    (h : Sound cfg m) (hn : l.Nodup) (hd : ∀ a ∈ l, (m.info a).delayed = true) :
    Sound cfg (promoteGo now l m) := by
  induction l generalizing m with
  | nil => exact h
  | cons q l ih =>
    rw [promoteGo]
    split
    · exact h
    · obtain ⟨hq, hl⟩ := List.nodup_cons.mp hn
      refine ih (promote q m) (promote_sound h q (hd q (by simp))) hl ?_
      intro a ha
      rw [promote_delayed q m a (fun he => hq (he ▸ ha))]
      exact hd a (by simp [ha])

theorem delayedPromoteDue_sound {cfg : KeyConfig} {m : KeyMap τ β} (h : Sound cfg m) (now : ℤ) :
    Sound cfg (delayedPromoteDue now m) :=
  promoteGo_sound now m.delayed m h h.listed.delayedNodup fun a ha => (h.listed.delayed a).mp ha

/-- The two differ in nothing that the lists and the buckets depend on. -/
structure Unlisted (i i' : Info β) : Prop where
  ready : i'.ready = i.ready
  delayed : i'.delayed = i.delayed
  idle : i'.idle = i.idle
  inflight : i'.inflight = i.inflight
  next : i'.nextReadyMs = i.nextReadyMs
  key : i'.key = i.key
  hash : i'.hash = i.hash

theorem setInfo_sound {cfg : KeyConfig} {m : KeyMap τ β} (h : Sound cfg m) (q : Addr)
    (f : Info β → Info β) (hf : ∀ i, Unlisted i (f i)) : Sound cfg (setInfo q f m) := by
  obtain ⟨hr, hd, hi, hn, hx, _, _⟩ := hf (m.info q)
  refine h.touch (setInfo_touches q f m m rfl rfl rfl rfl fun i => ⟨(hf i).key, (hf i).hash⟩)
    (h.listed.setInfo q f hr hd hi) (h.due.setInfo q f m rfl rfl hx) ?_ ?_
  · intro hq
    have hfree := h.dead q hq
    rw [setInfo_self]
    exact ⟨hr.trans hfree.ready, hd.trans hfree.delayed, hi.trans hfree.idle⟩
  · intro hq
    have hb := h.cell q hq
    rw [setInfo_self]
    refine ⟨?_, ?_, ?_, ?_, ?_⟩
    · intro hinf
      have hfree := hb.inflight (hn ▸ hinf)
      exact ⟨hr.trans hfree.ready, hd.trans hfree.delayed, hi.trans hfree.idle⟩
    · rw [hr, hd, hi]
      exact hb.ready
    · rw [hd, hi]
      exact hb.delayed
    · rw [hi]
      exact hb.idle
    · rw [hr, hd, hn]
      exact hb.pending

end VeTls.Keys.KeyMap
