import VeTls.Keys.Contents

/-!
# What a queue remembers of its key

The key breaker keeps its failure count and its deadline in the queue of the
key. `Still` are the operations that leave the queues of the map and what
they remember alone. Under `Grows` queues are added, which know nothing of
their key; under `Shrinks` queues are freed, and what they knew is lost.
-/

set_option autoImplicit false

namespace VeTls.Keys.KeyMap

variable {τ β : Type} {cfg : KeyConfig}

def memo (i : Info β) : CStr × ℤ × ℤ :=
  (i.key, i.breakerConsecutiveFailures, i.breakerOpenUntilMs)

theorem memo_key {i j : Info β} (h : memo i = memo j) : i.key = j.key := congrArg Prod.fst h

structure Still (m m' : KeyMap τ β) : Prop where
  buckets : m'.buckets = m.buckets
  memo : ∀ a, memo (m'.info a) = memo (m.info a)

theorem Still.refl (m : KeyMap τ β) : Still m m := ⟨rfl, fun _ => rfl⟩

theorem Still.trans {m₁ m₂ m₃ : KeyMap τ β} (h : Still m₁ m₂) (h' : Still m₂ m₃) : Still m₁ m₃ :=
  ⟨h'.buckets.trans h.buckets, fun a => (h'.memo a).trans (h.memo a)⟩

theorem Still.live {m m' : KeyMap τ β} (h : Still m m') : live cfg m' = live cfg m := by
  unfold KeyMap.live
  rw [h.buckets]

theorem setInfo_still (q : Addr) (f : Info β → Info β) (m m₀ : KeyMap τ β)
    (hb : m₀.buckets = m.buckets) (hi : m₀.info = m.info) (hf : ∀ i, memo (f i) = memo i) :
    Still m (setInfo q f m₀) := by
  refine ⟨hb, fun a => ?_⟩
  by_cases ha : a = q
  · subst ha
    rw [setInfo_self, hf, hi]
  · rw [setInfo_other q a f m₀ ha, hi]

theorem readyAdd_still (q : Addr) (m : KeyMap τ β) : Still m (readyAdd q m) := by
  unfold readyAdd
  split
  · exact .refl m
  · exact setInfo_still q _ m _ rfl rfl fun _ => rfl

theorem readyRemove_still (q : Addr) (m : KeyMap τ β) : Still m (readyRemove q m) := by
  unfold readyRemove
  split
  · exact .refl m
  · exact setInfo_still q _ m _ rfl rfl fun _ => rfl

theorem idleRemove_still (q : Addr) (m : KeyMap τ β) : Still m (idleRemove q m) := by
  unfold idleRemove
  split
  · exact .refl m
  · exact setInfo_still q _ m _ rfl rfl fun _ => rfl

theorem delayedRemove_still (q : Addr) (m : KeyMap τ β) : Still m (delayedRemove q m) := by
  unfold delayedRemove
  split
  · exact .refl m
  · exact setInfo_still q _ m _ rfl rfl fun _ => rfl

theorem idleAdd_still (q : Addr) (now : ℤ) (m : KeyMap τ β) : Still m (idleAdd q now m) := by
  unfold idleAdd
  split
  · exact .refl m
  · exact setInfo_still q _ m _ rfl rfl fun _ => rfl

theorem unlist_still (q : Addr) (m : KeyMap τ β) : Still m (unlist q m) :=
  ((readyRemove_still q m).trans (idleRemove_still q _)).trans (delayedRemove_still q _)

theorem delayedAddSorted_still (q : Addr) (next : ℤ) (m : KeyMap τ β) :
    Still m (delayedAddSorted q next m) := by
  have hset := setInfo_still q (fun i => { i with delayed := true, nextReadyMs := next })
    (unlist q m) (unlist q m) rfl rfl fun _ => rfl
  exact (unlist_still q m).trans ⟨hset.buckets, hset.memo⟩

theorem promote_still (q : Addr) (m : KeyMap τ β) : Still m (promote q m) := by
  unfold promote
  split
  · exact (delayedRemove_still q m).trans (readyAdd_still q _)
  · exact delayedRemove_still q m

theorem promoteGo_still (now : ℤ) (l : List Addr) (m : KeyMap τ β) :
    Still m (promoteGo now l m) := by
  induction l generalizing m with
  | nil => exact .refl m
  | cons q l ih =>
    simp only [promoteGo]
    split
    · exact .refl m
    · exact (promote_still q m).trans (ih (promote q m))

theorem readyPop_still {m m' : KeyMap τ β} (q : Addr) (h : readyPop m = some (q, m')) :
    Still m m' := by
  unfold readyPop at h
  split at h
  · cases h
  · simp only [Option.some.injEq, Prod.mk.injEq] at h
    obtain ⟨rfl, rfl⟩ := h
    exact setInfo_still _ _ m _ rfl rfl fun _ => rfl

theorem keyQueuePopTask_still (q : Addr) (m : KeyMap τ β) : Still m (keyQueuePopTask q m).2 := by
  unfold keyQueuePopTask
  split
  · exact .refl m
  · exact ⟨rfl, fun _ => rfl⟩

theorem enqueue_still (q : Addr) (t : τ) (m : KeyMap τ β) : Still m (enqueue q t m) := by
  have hpush : Still m (pushBackTask q t m) := ⟨rfl, fun _ => rfl⟩
  unfold enqueue
  split
  · exact hpush.trans (readyAdd_still q _)
  · exact hpush

theorem gateRequeue_still (q : Addr) (t : τ) (next : ℤ) (m : KeyMap τ β) :
    Still m (gateRequeue q t next m) :=
  (setInfo_still q (fun i => { i with inflight := false }) m (keyQueuePushFrontTask q t m) rfl rfl
    fun _ => rfl).trans (delayedAddSorted_still q next _)

/-- Queues are added for keys that had none. -/
structure Grows (cfg : KeyConfig) (m m' : KeyMap τ β) : Prop where
  live : ∀ a ∈ live cfg m, a ∈ KeyMap.live cfg m'
  kept : ∀ a ∈ KeyMap.live cfg m, memo (m'.info a) = memo (m.info a)
  born : ∀ a ∈ KeyMap.live cfg m', a ∉ KeyMap.live cfg m →
    memo (m'.info a) = ((m'.info a).key, 0, 0) ∧
      ∀ b ∈ KeyMap.live cfg m, (m.info b).key ≠ (m'.info a).key

theorem Still.grows {m m' : KeyMap τ β} (h : Still m m') : Grows cfg m m' := by
  refine ⟨fun a ha => ?_, fun a _ => h.memo a, fun a ha hn => ?_⟩
  · rw [h.live]
    exact ha
  · rw [h.live] at ha
    exact absurd ha hn

theorem Grows.refl (m : KeyMap τ β) : Grows cfg m m := (Still.refl m).grows

theorem Grows.trans {m₁ m₂ m₃ : KeyMap τ β} (h : Grows cfg m₁ m₂) (h' : Grows cfg m₂ m₃) :
    Grows cfg m₁ m₃ := by
  refine ⟨fun a ha => h'.live a (h.live a ha), fun a ha => ?_, fun a ha hn => ?_⟩
  · exact (h'.kept a (h.live a ha)).trans (h.kept a ha)
  · by_cases hmid : a ∈ KeyMap.live cfg m₂
    · have hkept := h'.kept a hmid
      obtain ⟨hblank, hnew⟩ := h.born a hmid hn
      rw [hkept, memo_key hkept]
      exact ⟨hblank, hnew⟩
    · obtain ⟨hblank, hnew⟩ := h'.born a ha hmid
      refine ⟨hblank, fun b hb hkey => ?_⟩
      exact hnew b (h.live b hb) ((memo_key (h.kept b hb)).trans hkey)

theorem create_grows {m : KeyMap τ β} (h : Hashed cfg m) (q : Addr) (key : CStr)
    (hq : q ∉ live cfg m) (hn : lookup cfg key m = none) : Grows cfg m (create cfg q key m) := by
  have hperm := create_live cfg q key m
  have hself : (create cfg q key m).info q = blank key := by simp [create]
  refine ⟨fun a ha => hperm.mem_iff.mpr (List.mem_cons_of_mem q ha), fun a ha => ?_,
    fun a ha hnew => ?_⟩
  · have hne : a ≠ q := fun he => hq (he ▸ ha)
    simp [create, hne]
  · have hqa : a = q := (List.mem_cons.mp (hperm.mem_iff.mp ha)).resolve_right hnew
    rw [hqa, hself]
    exact ⟨rfl, fun b hb => lookup_none h key hn b hb⟩

theorem keyQueueGetOrCreate_grows {m : KeyMap τ β} (h : Hashed cfg m) (addr : Addr) (key : CStr)
    (ha : addr ∉ live cfg m) : Grows cfg m (keyQueueGetOrCreate cfg addr key m).2 := by
  unfold keyQueueGetOrCreate
  split
  · exact (idleRemove_still _ m).grows
  · rename_i hn
    split
    · exact .refl m
    · exact create_grows h addr key ha hn

theorem keyQueuePushTask_grows {m : KeyMap τ β} (h : Hashed cfg m) (addr : Addr) (key : CStr)
    (t : τ) (ha : addr ∉ live cfg m) : Grows cfg m (keyQueuePushTask cfg addr key t m).2 := by
  have hget := keyQueueGetOrCreate_grows h addr key ha
  unfold keyQueuePushTask
  split
  · rename_i m' he
    rwa [he] at hget
  · rename_i q m' he
    rw [he] at hget
    exact hget.trans (enqueue_still q t m').grows

/-- Queues are freed, all of them queues with `P`. -/
structure Shrinks (cfg : KeyConfig) (P : Addr → Prop) (m m' : KeyMap τ β) : Prop where
  live : ∀ a ∈ live cfg m', a ∈ KeyMap.live cfg m
  kept : ∀ a ∈ KeyMap.live cfg m', memo (m'.info a) = memo (m.info a)
  gone : ∀ a ∈ KeyMap.live cfg m, a ∉ KeyMap.live cfg m' → P a

theorem Still.shrinks {m m' : KeyMap τ β} (h : Still m m') (P : Addr → Prop) :
    Shrinks cfg P m m' := by
  refine ⟨fun a ha => ?_, fun a _ => h.memo a, fun a ha hn => ?_⟩
  · rwa [h.live] at ha
  · rw [h.live] at hn
    exact absurd ha hn

theorem Shrinks.mono {m m' : KeyMap τ β} {P Q : Addr → Prop} (h : Shrinks cfg P m m')
    (hpq : ∀ a, P a → Q a) : Shrinks cfg Q m m' :=
  ⟨h.live, h.kept, fun a ha hn => hpq a (h.gone a ha hn)⟩

theorem Shrinks.trans {m₁ m₂ m₃ : KeyMap τ β} {P : Addr → Prop} (h : Shrinks cfg P m₁ m₂)
    (h' : Shrinks cfg P m₂ m₃) : Shrinks cfg P m₁ m₃ := by
  refine ⟨fun a ha => h.live a (h'.live a ha), fun a ha => ?_, fun a ha hn => ?_⟩
  · exact (h'.kept a ha).trans (h.kept a (h'.live a ha))
  · by_cases hmid : a ∈ KeyMap.live cfg m₂
    · exact h'.gone a hmid hn
    · exact h.gone a ha hmid

theorem keyQueueRemoveAndFree_shrinks {m m' : KeyMap τ β} (q : Addr) (hs : Still m m')
    (h : Hashed cfg m') (hq : q ∈ live cfg m') :
    Shrinks cfg (fun a => a = q) m (keyQueueRemoveAndFree cfg q m') := by
  have hperm := keyQueueRemoveAndFree_live cfg q h hq
  have hmemo : ∀ a, memo ((keyQueueRemoveAndFree cfg q m').info a) = memo (m.info a) :=
    (hs.trans (unlist_still q m')).memo
  refine ⟨fun a ha => ?_, fun a _ => hmemo a, fun a ha hn => ?_⟩
  · rw [← hs.live]
    exact hperm.mem_iff.mpr (List.mem_cons_of_mem q ha)
  · rw [← hs.live] at ha
    exact (List.mem_cons.mp (hperm.mem_iff.mp ha)).resolve_right hn

/-- `T` relates every key to what its queue has noted down in `mem`; a key
without a queue stands for a fresh one. -/
structure Tells {σ : Type} (cfg : KeyConfig) (T : CStr → σ → Prop) (fresh : σ) (mem : Addr → σ)
    (m : KeyMap τ β) : Prop where
  live : ∀ q ∈ live cfg m, T (m.info q).key (mem q)
  absent : ∀ key, (∀ q ∈ KeyMap.live cfg m, (m.info q).key ≠ key) → T key fresh

theorem Tells.mono {σ : Type} {T T' : CStr → σ → Prop} {fresh : σ} {mem : Addr → σ}
    {m : KeyMap τ β} (h : Tells cfg T fresh mem m) (hT : ∀ key x, T key x → T' key x) :
    Tells cfg T' fresh mem m :=
  ⟨fun q hq => hT _ _ (h.live q hq), fun key hnone => hT _ _ (h.absent key hnone)⟩

/-- The queues and their keys are the same. -/
theorem Tells.congr {σ : Type} {T : CStr → σ → Prop} {fresh : σ} {mem mem' : Addr → σ}
    {m m' : KeyMap τ β} (h : Tells cfg T fresh mem m)
    (hlive : KeyMap.live cfg m' = KeyMap.live cfg m)
    (hkey : ∀ q ∈ KeyMap.live cfg m, (m'.info q).key = (m.info q).key)
    (hmem : ∀ q ∈ KeyMap.live cfg m, mem' q = mem q) : Tells cfg T fresh mem' m' := by
  constructor
  · intro q hq
    rw [hlive] at hq
    rw [hkey q hq, hmem q hq]
    exact h.live q hq
  · intro key hnone
    apply h.absent key
    intro q hq
    rw [← hkey q hq]
    exact hnone q (hlive ▸ hq)

theorem Tells.grows {σ : Type} {T : CStr → σ → Prop} {fresh : σ} {mem mem' : Addr → σ}
    {m m' : KeyMap τ β} (h : Tells cfg T fresh mem m) (hg : Grows cfg m m')
    (hkept : ∀ q ∈ KeyMap.live cfg m, mem' q = mem q)
    (hborn : ∀ q ∈ KeyMap.live cfg m', q ∉ KeyMap.live cfg m → mem' q = fresh) :
    Tells cfg T fresh mem' m' := by
  constructor
  · intro q hq
    by_cases hold : q ∈ KeyMap.live cfg m
    · rw [memo_key (hg.kept q hold), hkept q hold]
      exact h.live q hold
    · rw [hborn q hq hold]
      exact h.absent _ (hg.born q hq hold).2
  · intro key hnone
    apply h.absent key
    intro q hq hkey
    exact hnone q (hg.live q hq) ((memo_key (hg.kept q hq)).trans hkey)

/-- A queue may be freed that has no more to tell than a new one. -/
theorem Tells.shrinks {σ : Type} {T : CStr → σ → Prop} {fresh : σ} {mem mem' : Addr → σ}
    {P : Addr → Prop} {m m' : KeyMap τ β} (h : Tells cfg T fresh mem m) (hs : Shrinks cfg P m m')
    (hkept : ∀ q ∈ KeyMap.live cfg m', mem' q = mem q)
    (hgone : ∀ q ∈ KeyMap.live cfg m, P q → T (m.info q).key fresh) :
    Tells cfg T fresh mem' m' := by
  constructor
  · intro q hq
    rw [memo_key (hs.kept q hq), hkept q hq]
    exact h.live q (hs.live q hq)
  · intro key hnone
    by_cases hold : ∃ q ∈ KeyMap.live cfg m, (m.info q).key = key
    · obtain ⟨q, hq, rfl⟩ := hold
      apply hgone q hq
      apply hs.gone q hq
      intro hstill
      exact hnone q hstill (memo_key (hs.kept q hstill))
    · exact h.absent key fun q hq hkey => hold ⟨q, hq, hkey⟩

/-- The end of a send frees the queue when nothing is left and queues are not
kept. -/
theorem keyQueueFinish_shrinks {m : KeyMap τ β} (h : Sound cfg m) (now : ℤ) (q : Addr)
    (hq : q ∈ live cfg m) :
    Shrinks cfg (fun a => a = q ∧ m.tasks q = [] ∧ cfg.keyQueueIdleTtlMs ≤ 0) m
      (keyQueueFinish cfg now q m) := by
  have hlet : Still m (setInfo q (fun i => { i with inflight := false }) m) :=
    setInfo_still q _ m m rfl rfl fun _ => rfl
  unfold keyQueueFinish
  dsimp only
  split
  · split
    · exact (hlet.trans (delayedAddSorted_still q _ _)).shrinks _
    · exact (hlet.trans (readyAdd_still q _)).shrinks _
  · rename_i hempty
    split
    · exact (hlet.trans (idleAdd_still q now _)).shrinks _
    · rename_i httl
      have ht := release_touches q m m (Touches.refl q m)
      have hfree := keyQueueRemoveAndFree_shrinks q hlet (h.hashed.touch ht) hq
      refine ⟨hfree.live, hfree.kept, fun a ha hn => ⟨hfree.gone a ha hn, ?_, by omega⟩⟩
      simpa using hempty

/-- The test of the cleanup for one queue. -/
def overdue (cfg : KeyConfig) (now : ℤ) (m : KeyMap τ β) (q : Addr) : Bool :=
  (m.info q).idle && (m.tasks q).isEmpty && !(m.info q).inflight &&
    decide (now-(m.info q).emptySinceMs ≥ cfg.keyQueueIdleTtlMs)

theorem cleanup_shrinks {m : KeyMap τ β} (h : Sound cfg m) (now : ℤ) (q : Addr) :
    Shrinks cfg (fun a => a = q ∧ overdue cfg now m q = true) m (cleanup cfg now q m) := by
  unfold cleanup
  split
  · rename_i hg
    have hlive : q ∈ live cfg m := by
      by_contra hn
      simp [(h.dead q hn).idle] at hg
    have hs := idleRemove_still q m
    have hfree := keyQueueRemoveAndFree_shrinks q hs (idleRemove_sound h q).hashed
      (by rwa [hs.live])
    exact ⟨hfree.live, hfree.kept, fun a ha hn => ⟨hfree.gone a ha hn, hg⟩⟩
  · exact (Still.refl m).shrinks _

theorem cleanup_overdue (now : ℤ) (q a : Addr) (m : KeyMap τ β) (ha : a ≠ q) :
    overdue cfg now (cleanup cfg now q m) a = overdue cfg now m a := by
  have htasks : (cleanup cfg now q m).tasks a = m.tasks a := by
    unfold cleanup
    split
    · exact ((unlist_touches q _).tasks a ha).trans ((idleRemove_touches q m).tasks a ha)
    · rfl
  unfold overdue
  rw [cleanup_info cfg now q a m ha, htasks]

theorem idleCleanup_shrinks {m : KeyMap τ β} (h : Sound cfg m) (now : ℤ) :
    Shrinks cfg (fun a => a ∈ m.idle ∧ overdue cfg now m a = true ∧ cfg.keyQueueIdleTtlMs > 0) m
      (idleCleanup cfg now m) := by
  have hgo : ∀ (l : List Addr) (m : KeyMap τ β), l.Nodup → Sound cfg m →
      Shrinks cfg (fun a => a ∈ l ∧ overdue cfg now m a = true) m
        (l.foldl (fun m q => cleanup cfg now q m) m) := by
    intro l
    induction l with
    | nil => exact fun m _ _ => (Still.refl m).shrinks _
    | cons q l ih =>
      intro m hn hs
      obtain ⟨hq, hl⟩ := List.nodup_cons.mp hn
      have hone := cleanup_shrinks hs now q
      have hrest := ih (cleanup cfg now q m) hl (cleanup_sound hs now q)
      have hfirst : Shrinks cfg (fun a => a ∈ q::l ∧ overdue cfg now m a = true) m
          (cleanup cfg now q m) := by
        refine hone.mono fun a ha => ?_
        obtain ⟨rfl, hdue⟩ := ha
        exact ⟨List.mem_cons_self, hdue⟩
      refine hfirst.trans (hrest.mono fun a ha => ?_)
      rw [cleanup_overdue now q a m (fun he => hq (he ▸ ha.1))] at ha
      exact ⟨List.mem_cons_of_mem q ha.1, ha.2⟩
  unfold idleCleanup
  split
  · exact (Still.refl m).shrinks _
  · rename_i httl
    refine (hgo m.idle m h.listed.idleNodup h).mono fun a ha => ⟨ha.1, ha.2, by omega⟩

end VeTls.Keys.KeyMap
