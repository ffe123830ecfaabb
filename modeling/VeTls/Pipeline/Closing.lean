import VeTls.Pipeline.Contents

/-!
# The steps of a close

A close tests in one critical section whether the producer is drained, and
sets `stop` in the same one. No other step sets it.
-/

set_option autoImplicit false

namespace VeTls.Writer

open VeTls.Keys (Addr CStr KeyMap)

variable {cfg : Config}

/-- The way out of the drain test: `stop` is set, or nothing is. -/
inductive Tested (cfg : Config) (w : Writer) (p : Producer) : Writer × Producer → Prop
  | stops (hd : isDrainedLocked cfg p = true) :
      Tested cfg w p ({ w with pc := .closeStop }, { p with closing := false, stop := true })
  | late (hd : isDrainedLocked cfg p = false) : Tested cfg w p (ret .timeout w, p)
  | waits (hd : isDrainedLocked cfg p = false) (timeoutMs start : ℤ) :
      Tested cfg w p ({ w with pc := .closeWait timeoutMs start }, p)

theorem closeLoop_tested (timeoutMs start now : ℤ) (w : Writer) (p : Producer) :
    Tested cfg w p (closeLoop cfg timeoutMs start now w p) := by
  unfold closeLoop
  cases hd : isDrainedLocked cfg p with
  | true => exact .stops hd
  | false =>
    split
    · contradiction
    · split
      · exact .late hd
      · split
        · exact .late hd
        · exact .waits hd timeoutMs start

/-- The places of a close at which the drain test may come next. -/
def testing : Pc → Bool
  | .closeLock _ | .closeWait _ _ => true
  | _ => false

/-- The step leaves `stop` as it is, and is not the one that sets it. -/
def Apart (p : Producer) (r : Writer × Producer) : Prop :=
  r.2.stop = p.stop ∧ r.1.pc ≠ .closeStop

/-- The step finds the producer drained and sets `stop`. -/
structure Stops (cfg : Config) (w : Writer) (p : Producer) (r : Writer × Producer) : Prop where
  pc : testing w.pc = true
  drained : isDrainedLocked cfg p = true
  writer : r.1 = { w with pc := .closeStop }
  prod : ∃ a f, r.2 = { p with accepting := a, closing := false, stop := true, flushRequested := f }

theorem quiet_stop {p p' : Producer} (h : Quiet p p') : p'.stop = p.stop := by
  obtain ⟨_, _, _, _, _, _, rfl⟩ := h
  rfl

theorem admitted_pair (P : Writer × Producer → Prop) (w : Writer) (again : ℤ → Pc)
    (go : Producer → Writer × Producer) (p : Producer) (need : ℕ) (r : Wait × Producer)
    (hr : Waited cfg p need false r) (hret : ∀ res p', Quiet p p' → P (ret res w, p'))
    (hagain : ∀ d p', Quiet p p' → P ({ w with pc := again d }, p'))
    (hgo : P (go p)) : P (admitted w again go r) := by
  obtain ⟨x, p'⟩ := r
  have herr : ∀ rc, Quiet p (mapWaitErrorToResult rc p').2 := by
    intro rc
    obtain ⟨f, n, k, l, hk, hl, rfl⟩ := hr.quiet
    cases rc with
    | closed => exact ⟨f, n, k, l, hk, hl, rfl⟩
    | _ => exact ⟨f, n+1, k, l, hk, hl, rfl⟩
  cases x with
  | block d => exact hagain d p' hr.quiet
  | rc rc =>
    cases rc with
    | ok =>
      obtain ⟨rfl, _⟩ := hr.ok rfl
      exact hgo
    | full => exact hret _ _ (herr .full)
    | closed => exact hret _ _ (herr .closed)
    | timeout => exact hret _ _ (herr .timeout)

theorem enter_pair (P : Writer × Producer → Prop) (i : Input) (bytes : ℕ) (again : ℤ → Pc)
    (go : Producer → Writer × Producer) (w : Writer) (p : Producer)
    (hret : ∀ res p', Quiet p p' → P (ret res w, p'))
    (hagain : ∀ d p', Quiet p p' → P ({ w with pc := again d }, p'))
    (hgo : P (go p)) : P (enter cfg i bytes again go w p) := by
  unfold enter
  split
  · exact hret _ p (Quiet.refl p)
  · split
    · rename_i p' hd
      exact hret _ p' (ingressBreakerDropLocked_quiet p p' bytes i.now hd)
    · exact admitted_pair P w again go p bytes _
        (waitBufferSpaceLocked_waited p bytes false i.now i.now2) hret hagain hgo

theorem apart_ret (res : Result) (w : Writer) (p p' : Producer) (hq : Quiet p p') :
    Apart p (ret res w, p') := ⟨quiet_stop hq, nofun⟩

theorem flushFailed_apart (rc : WaitRc) (w : Writer) (p : Producer) (who : FlushBy) :
    Apart p (flushFailed rc w p who) := by
  cases who with
  | add id flush => exact ⟨rfl, nofun⟩
  | close timeoutMs => exact ⟨rfl, nofun⟩

/-- A batch that was just pushed is seen by the drain test. -/
theorem flushPush_apart (i : Input) (start : ℤ) (who : FlushBy) (w : Writer) (p : Producer) :
    Apart p (flushPush cfg i start who w p) := by
  unfold flushPush
  obtain he | ⟨x, hx, he⟩ := ingressQueuePushLocked_cases cfg p cfg.hashKey (tlsBuilder cfg w)
    (forceFlush who) (ingressWaitMs cfg) start i.now2
  · rw [he]
    cases who with
    | add id flush => exact ⟨rfl, nofun⟩
    | close timeoutMs =>
      dsimp only [flushed]
      generalize hb : closeBegin _ = q
      have hstop : q.stop = p.stop := by
        rw [← hb]
        rfl
      have hfull : q.ingressQueue.isEmpty = false := by
        rw [← hb]
        exact List.isEmpty_eq_false_iff.mpr (List.append_ne_nil_of_right_ne_nil _ (by simp))
      generalize hr : closeLoop cfg timeoutMs i.now i.now2 _ q = r
      have ht := @closeLoop_tested cfg timeoutMs i.now i.now2
        (setBuilder (some (tlsBatchReset (tlsBuilder cfg w))) w) q
      rw [hr] at ht
      cases ht with
      | stops hd => simp [isDrainedLocked, hfull] at hd
      | late hd => exact ⟨hstop, nofun⟩
      | waits hd => exact ⟨hstop, nofun⟩
  · rw [he]
    cases x with
    | block d => exact ⟨rfl, nofun⟩
    | rc rc =>
      cases rc with
      | ok => exact absurd rfl hx
      | full => exact flushFailed_apart _ w p who
      | closed => exact flushFailed_apart _ w p who
      | timeout => exact flushFailed_apart _ w p who

theorem flushAdmit_apart (i : Input) (who : FlushBy) (w : Writer) (p : Producer) (need : ℕ)
    (r : Wait × Producer) (hr : Waited cfg p need false r) :
    Apart p (flushAdmit cfg i who w r) := by
  obtain ⟨x, p'⟩ := r
  have hstop : p'.stop = p.stop := quiet_stop hr.quiet
  have hfail : ∀ rc, Apart p (flushFailed rc w p' who) := by
    intro rc
    obtain ⟨hs, hpc⟩ := flushFailed_apart rc w p' who
    exact ⟨hs.trans hstop, hpc⟩
  cases x with
  | block d => exact ⟨hstop, nofun⟩
  | rc rc =>
    cases rc with
    | ok =>
      obtain ⟨hs, hpc⟩ := @flushPush_apart cfg i i.now who w p'
      exact ⟨hs.trans hstop, hpc⟩
    | full => exact hfail .full
    | closed => exact hfail .closed
    | timeout => exact hfail .timeout

theorem kvAdd_apart (i : Input) (kv : Wire.KvLog) (hashKey : CStr) (flush : Bool) (w : Writer)
    (p : Producer) : Apart p (kvAdd cfg i kv hashKey flush w p) := by
  have hslot : ∀ b slot (q : Producer), (setSlot b q slot).stop = q.stop := by
    intro b slot q
    cases slot <;> rfl
  have hstore : ∀ b slot (q : Producer), (storeBuilder cfg flush slot b q).stop = q.stop := by
    intro b slot q
    unfold storeBuilder
    split
    · exact hslot none slot q
    · exact hslot (some b) slot q
  have hfind : ∀ (q : Producer) key, (findSlot cfg q (cfg.fastBuilder && hashKey.isEmpty) key
      i.addr).2.stop = q.stop := by
    intro q key
    unfold findSlot
    split <;> rfl
  have hsettle : ∀ a b (q : Producer), (settleQueue a b q).stop = q.stop := by
    intro a b q
    unfold settleQueue
    split
    · rfl
    · split <;> rfl
  have hkey := hfind (kvReserve kv p) (cfg.normalizeHashKey hashKey)
  unfold kvAdd
  dsimp only
  split
  · rename_i q hq
    rw [hq] at hkey
    unfold kvRefuse
    dsimp only
    split
    · exact ⟨hkey, nofun⟩
    · exact ⟨hkey, nofun⟩
  · rename_i slot q hq
    rw [hq] at hkey
    unfold kvStore
    split
    · exact ⟨(hslot _ _ _).trans hkey, nofun⟩
    · exact ⟨((hstore _ _ _).trans (hsettle _ _ _)).trans hkey, nofun⟩

theorem closeLoop_stops (timeoutMs start now : ℤ) (w : Writer) (p : Producer) (a f : Bool)
    (c : Bool) (ht : testing w.pc = true) :
    Apart p (closeLoop cfg timeoutMs start now w
        { p with accepting := a, closing := c, flushRequested := f }) ∨
      Stops cfg w p (closeLoop cfg timeoutMs start now w
        { p with accepting := a, closing := c, flushRequested := f }) := by
  generalize hr : closeLoop cfg timeoutMs start now w _ = r
  have htest := @closeLoop_tested cfg timeoutMs start now w
    { p with accepting := a, closing := c, flushRequested := f }
  rw [hr] at htest
  cases htest with
  | stops hd => exact .inr ⟨ht, hd, rfl, a, f, rfl⟩
  | late hd => exact .inl ⟨rfl, nofun⟩
  | waits hd => exact .inl ⟨rfl, nofun⟩

/-- `stop` is set by the drain test of a close and by nothing else. -/
theorem go_stops (me : ℕ) (joined : Bool) (i : Input) (w : Writer) (p : Producer)
    (r : Writer × Producer) (h : go cfg me joined i w p = some r) :
    Apart p r ∨ Stops cfg w p r := by
  unfold go at h
  split at h
  · cases h
  · cases hpc : w.pc with
    | idle => simp [hpc] at h
    | tlsLock kv flush =>
      simp only [hpc, Option.some.injEq] at h
      subst h
      exact .inl (enter_pair (Apart p) i _ _ _ w p (fun res p' => apart_ret res w p p')
        (fun d p' hq => ⟨quiet_stop hq, nofun⟩) ⟨rfl, nofun⟩)
    | tlsWait kv flush deadline =>
      simp only [hpc, Option.some.injEq] at h
      subst h
      exact .inl (admitted_pair (Apart p) w _ _ p _ _ (waitLoop_waited p _ false deadline i.now)
        (fun res p' => apart_ret res w p p') (fun d p' hq => ⟨quiet_stop hq, nofun⟩) ⟨rfl, nofun⟩)
    | tlsAppend kv flush =>
      simp only [hpc, Option.some.injEq] at h
      subst h
      refine .inl ?_
      unfold tlsAppend
      dsimp only
      split
      · exact ⟨rfl, nofun⟩
      · split
        · rw [settleTls_eq]
          exact ⟨rfl, nofun⟩
        · rw [settleTls_eq]
          exact ⟨rfl, nofun⟩
    | flushLock id flush =>
      simp only [hpc, Option.some.injEq] at h
      subst h
      refine .inl ?_
      unfold tlsBatchFlushLocked
      split
      · exact ⟨rfl, nofun⟩
      · exact flushAdmit_apart i _ w p _ _
          (waitBufferSpaceLocked_waited p _ false i.now i.now2)
    | flushWait who deadline =>
      simp only [hpc, Option.some.injEq] at h
      subst h
      exact .inl (flushAdmit_apart i who w p _ _ (waitLoop_waited p _ false deadline i.now))
    | pushWait who start =>
      simp only [hpc, Option.some.injEq] at h
      subst h
      exact .inl (flushPush_apart i start who w p)
    | flushFail rc =>
      simp only [hpc, Option.some.injEq] at h
      subst h
      exact .inl ⟨rfl, nofun⟩
    | rawLock log =>
      simp only [hpc, Option.some.injEq] at h
      subst h
      exact .inl (enter_pair (Apart p) i _ _ _ w p (fun res p' => apart_ret res w p p')
        (fun d p' hq => ⟨quiet_stop hq, nofun⟩) ⟨rfl, nofun⟩)
    | rawWait log deadline =>
      simp only [hpc, Option.some.injEq] at h
      subst h
      exact .inl (admitted_pair (Apart p) w _ _ p _ _ (waitLoop_waited p _ false deadline i.now)
        (fun res p' => apart_ret res w p p') (fun d p' hq => ⟨quiet_stop hq, nofun⟩) ⟨rfl, nofun⟩)
    | rawPush log =>
      simp only [hpc, Option.some.injEq] at h
      subst h
      refine .inl ?_
      unfold rawPush
      split
      · exact ⟨rfl, nofun⟩
      · dsimp only
        split
        · exact ⟨rfl, nofun⟩
        · exact ⟨rfl, nofun⟩
    | kvLock kv hashKey flush =>
      simp only [hpc, Option.some.injEq] at h
      subst h
      exact .inl (enter_pair (Apart p) i _ _ _ w p (fun res p' => apart_ret res w p p')
        (fun d p' hq => ⟨quiet_stop hq, nofun⟩) (kvAdd_apart i kv hashKey flush w p))
    | kvWait kv hashKey flush deadline =>
      simp only [hpc, Option.some.injEq] at h
      subst h
      exact .inl (admitted_pair (Apart p) w _ _ p _ _ (waitLoop_waited p _ false deadline i.now)
        (fun res p' => apart_ret res w p p') (fun d p' hq => ⟨quiet_stop hq, nofun⟩)
        (kvAdd_apart i kv hashKey flush w p))
    | closeLock timeoutMs =>
      have ht : testing w.pc = true := by
        rw [hpc]
        rfl
      simp only [hpc] at h
      split at h
      · obtain rfl := Option.some.inj h
        unfold tlsBatchFlushLocked
        split
        · exact closeLoop_stops timeoutMs i.now i.now2 w p false true true ht
        · exact .inl (flushAdmit_apart i _ w p _ _
            (waitBufferSpaceLocked_waited p _ false i.now i.now2))
      · obtain rfl := Option.some.inj h
        exact closeLoop_stops timeoutMs i.now i.now2 w p false true true ht
    | closeWait timeoutMs start =>
      simp only [hpc, Option.some.injEq] at h
      subst h
      have ht : testing w.pc = true := by
        rw [hpc]
        rfl
      exact closeLoop_stops timeoutMs start i.now w p p.accepting p.flushRequested p.closing ht
    | closeStop =>
      simp only [hpc, Option.some.injEq] at h
      subst h
      exact .inl ⟨rfl, nofun⟩
    | closeJoin =>
      simp only [hpc] at h
      split at h
      · obtain rfl := Option.some.inj h
        exact .inl ⟨rfl, nofun⟩
      · cases h

end VeTls.Writer
