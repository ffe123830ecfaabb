import VeTls.Keys.Steps

/-!
# Queues in the hands of a sender

`Held` are the queues of the map with `inflight` set: between `readyPop` and
the return of the queue by `keyQueueFinish` or `gateRequeue`.
-/

set_option autoImplicit false

namespace VeTls.Keys.KeyMap

variable {τ β : Type}

def Held (cfg : KeyConfig) (m : KeyMap τ β) (a : Addr) : Prop :=
  a ∈ live cfg m ∧ (m.info a).inflight = true

theorem Touches.held {cfg : KeyConfig} {q : Addr} {m m' : KeyMap τ β} (ht : Touches q m m')
    (hq : (m'.info q).inflight = (m.info q).inflight) (a : Addr) :
    Held cfg m' a ↔ Held cfg m a := by
  unfold Held
  rw [ht.live cfg]
  by_cases ha : a = q
  · subst ha
    rw [hq]
  · rw [ht.info a ha]

theorem Touches.held_release {cfg : KeyConfig} {q : Addr} {m m' : KeyMap τ β}
    (ht : Touches q m m') (hq : (m'.info q).inflight = false) (a : Addr) :
    Held cfg m' a ↔ a ≠ q ∧ Held cfg m a := by
  unfold Held
  rw [ht.live cfg]
  by_cases ha : a = q
  · subst ha
    simp [hq]
  · rw [ht.info a ha]
    simp [ha]

theorem readyAdd_inflight (q : Addr) (m : KeyMap τ β) :
    ((readyAdd q m).info q).inflight = (m.info q).inflight := by
  unfold readyAdd
  split
  · rfl
  · simp

theorem idleAdd_inflight (q : Addr) (now : ℤ) (m : KeyMap τ β) :
    ((idleAdd q now m).info q).inflight = (m.info q).inflight := by
  unfold idleAdd
  split
  · rfl
  · simp

theorem readyRemove_inflight (q : Addr) (m : KeyMap τ β) :
    ((readyRemove q m).info q).inflight = (m.info q).inflight := by
  unfold readyRemove
  split
  · rfl
  · simp

theorem unlist_inflight (q : Addr) (m : KeyMap τ β) :
    ((unlist q m).info q).inflight = (m.info q).inflight := by
  rw [unlist, (delayedRemove_info q _).2.2.1, (idleRemove_info q _).2.2.1,
    readyRemove_inflight]

theorem delayedAddSorted_inflight (q : Addr) (next : ℤ) (m : KeyMap τ β) :
    ((delayedAddSorted q next m).info q).inflight = (m.info q).inflight := by
  rw [← unlist_inflight q m]
  simp [delayedAddSorted, insertDelayed, unlist]

theorem delayedAddSorted_touches (q : Addr) (next : ℤ) (m : KeyMap τ β) :
    Touches q m (delayedAddSorted q next m) :=
  (unlist_touches q m).trans (insertDelayed_touches q next _)

theorem create_held {cfg : KeyConfig} {m : KeyMap τ β} (q : Addr) (key : CStr)
    (hq : q ∉ live cfg m) (a : Addr) : Held cfg (create cfg q key m) a ↔ Held cfg m a := by
  unfold Held
  rw [(create_live cfg q key m).mem_iff, List.mem_cons]
  by_cases ha : a = q
  · subst ha
    simp [create, blank, hq]
  · simp [create, ha]

theorem keyQueueRemoveAndFree_held {cfg : KeyConfig} {m : KeyMap τ β} (h : Hashed cfg m)
    (q : Addr) (hq : q ∈ live cfg m) (hf : (m.info q).inflight = false) (a : Addr) :
    Held cfg (keyQueueRemoveAndFree cfg q m) a ↔ Held cfg m a := by
  have hperm := keyQueueRemoveAndFree_live cfg q h hq
  have hnd := List.nodup_cons.mp (hperm.nodup_iff.mp h.live_nodup)
  have ht := unlist_touches q m
  unfold Held
  rw [hperm.mem_iff, List.mem_cons]
  by_cases ha : a = q
  · subst ha
    simp [hnd.1, hf]
  · have hinfo : (keyQueueRemoveAndFree cfg q m).info a = m.info a := ht.info a ha
    simp [ha, hinfo]

theorem keyQueueGetOrCreate_held {cfg : KeyConfig} {m : KeyMap τ β} (addr : Addr) (key : CStr)
    (ha : addr ∉ live cfg m) (a : Addr) :
    Held cfg (keyQueueGetOrCreate cfg addr key m).2 a ↔ Held cfg m a := by
  unfold keyQueueGetOrCreate
  split
  · rename_i p _
    exact (idleRemove_touches p m).held (idleRemove_info p m).2.2.1 a
  · split
    · rfl
    · exact create_held addr key ha a

theorem enqueue_held {cfg : KeyConfig} {m : KeyMap τ β} (q : Addr) (t : τ) (a : Addr) :
    Held cfg (enqueue q t m) a ↔ Held cfg m a := by
  refine (enqueue_touches q t m).held ?_ a
  unfold enqueue
  split
  · rw [readyAdd_inflight]
    rfl
  · rfl

theorem keyQueuePushTask_held {cfg : KeyConfig} {m : KeyMap τ β} (addr : Addr) (key : CStr)
    (t : τ) (ha : addr ∉ live cfg m) (a : Addr) :
    Held cfg (keyQueuePushTask cfg addr key t m).2 a ↔ Held cfg m a := by
  have hg := keyQueueGetOrCreate_held addr key ha a (m := m)
  unfold keyQueuePushTask
  cases he : keyQueueGetOrCreate cfg addr key m with
  | mk o m' =>
    rw [he] at hg
    cases o with
    | none => exact hg
    | some q => exact (enqueue_held q t a).trans hg

theorem promote_held {cfg : KeyConfig} {m : KeyMap τ β} (q a : Addr) :
    Held cfg (promote q m) a ↔ Held cfg m a := by
  refine (promote_touches q m).held ?_ a
  unfold promote
  split
  · rw [readyAdd_inflight, (delayedRemove_info q m).2.2.1]
  · exact (delayedRemove_info q m).2.2.1

theorem promoteGo_held {cfg : KeyConfig} (now : ℤ) (l : List Addr) (m : KeyMap τ β) (a : Addr) :
    Held cfg (promoteGo now l m) a ↔ Held cfg m a := by
  induction l generalizing m with
  | nil => rfl
  | cons q l ih =>
    rw [promoteGo]
    split
    · rfl
    · exact (ih _).trans (promote_held q a)

theorem cleanup_held {cfg : KeyConfig} {m : KeyMap τ β} (h : Sound cfg m) (now : ℤ) (q a : Addr) :
    Held cfg (cleanup cfg now q m) a ↔ Held cfg m a := by
  unfold cleanup
  split
  · rename_i hg
    simp only [Bool.and_eq_true, Bool.not_eq_true'] at hg
    have hq : q ∈ live cfg m := by
      by_contra hn
      simp [(h.dead q hn).idle] at hg
    have ht := idleRemove_touches q m
    have hi := (idleRemove_info q m).2.2.1
    have hf := keyQueueRemoveAndFree_held (h.hashed.touch ht) q (by rwa [ht.live cfg])
      (hi.trans hg.1.2) a
    exact hf.trans (ht.held hi a)
  · rfl

theorem idleCleanup_held {cfg : KeyConfig} {m : KeyMap τ β} (h : Sound cfg m) (now : ℤ)
    (a : Addr) : Held cfg (idleCleanup cfg now m) a ↔ Held cfg m a := by
  have hgo : ∀ (l : List Addr) (m : KeyMap τ β), Sound cfg m →
      (Held cfg (l.foldl (fun m q => cleanup cfg now q m) m) a ↔ Held cfg m a) := by
    intro l
    induction l with
    | nil => exact fun m _ => Iff.rfl
    | cons q l ih => exact fun m h => (ih _ (cleanup_sound h now q)).trans (cleanup_held h now q a)
  unfold idleCleanup
  split
  · rfl
  · exact hgo m.idle m h

theorem readyPop_held {cfg : KeyConfig} {m m' : KeyMap τ β} (h : Sound cfg m) (q : Addr)
    (hp : readyPop m = some (q, m')) (a : Addr) :
    Held cfg m' a ↔ a = q ∨ Held cfg m a := by
  obtain ⟨_, ht, hlive, hf, _⟩ := readyPop_sound h q hp
  unfold Held
  rw [ht.live cfg]
  by_cases ha : a = q
  · subst ha
    simp [hlive, hf]
  · rw [ht.info a ha]
    simp [ha]

theorem keyQueuePopTask_held {cfg : KeyConfig} {m : KeyMap τ β} (q a : Addr) :
    Held cfg (keyQueuePopTask q m).2 a ↔ Held cfg m a := by
  refine (keyQueuePopTask_touches q m).held ?_ a
  unfold keyQueuePopTask
  split <;> rfl

theorem gateRequeue_held {cfg : KeyConfig} {m : KeyMap τ β} (q : Addr) (t : τ) (next : ℤ)
    (a : Addr) : Held cfg (gateRequeue q t next m) a ↔ a ≠ q ∧ Held cfg m a := by
  refine (gateRequeue_touches q t next m).held_release ?_ a
  rw [gateRequeue, delayedAddSorted_inflight]
  simp

theorem keyQueueFinish_held {cfg : KeyConfig} {m : KeyMap τ β} (h : Sound cfg m) (now : ℤ)
    (q : Addr) (hq : q ∈ live cfg m) (a : Addr) :
    Held cfg (keyQueueFinish cfg now q m) a ↔ a ≠ q ∧ Held cfg m a := by
  have ht := release_touches q m m (Touches.refl q m)
  have hf : ((setInfo q (fun i => { i with inflight := false }) m).info q).inflight = false := by
    simp
  have hrel := @Touches.held_release τ β cfg q _ _ ht hf a
  unfold keyQueueFinish
  dsimp only
  split
  · split
    · exact ((delayedAddSorted_touches q _ _).held (delayedAddSorted_inflight q _ _) a).trans hrel
    · exact ((readyAdd_touches q _).held (readyAdd_inflight q _) a).trans hrel
  · split
    · exact ((idleAdd_touches q now _).held (idleAdd_inflight q now _) a).trans hrel
    · exact (keyQueueRemoveAndFree_held (h.hashed.touch ht) q hq hf a).trans hrel

end VeTls.Keys.KeyMap
