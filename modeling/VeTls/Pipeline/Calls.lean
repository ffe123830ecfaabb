import VeTls.Pipeline.WriterMoves

/-!
# The log of a call

A call keeps the log it adds until the log is in a buffer, so what is known
of it when the call begins is known at every step.
-/

set_option autoImplicit false

namespace VeTls

open VeTls.Keys (Addr CStr KeyMap)

variable {cfg : Config}

namespace Writer

variable {me : ℕ}

theorem closeLoop_kvLog (timeoutMs start now : ℤ) (w : Writer) (p : Producer) :
    kvLog (closeLoop cfg timeoutMs start now w p).1.pc = none := by
  unfold closeLoop
  split
  · rfl
  · split
    · rfl
    · split <;> rfl

theorem flushed_kvLog (i : Input) (w : Writer) (p : Producer) (who : FlushBy) :
    kvLog (flushed cfg i w p who).1.pc = none := by
  cases who with
  | add id f => rfl
  | close timeoutMs => exact closeLoop_kvLog timeoutMs _ _ w _

theorem flushFailed_kvLog (rc : WaitRc) (w : Writer) (p : Producer) (who : FlushBy) :
    kvLog (flushFailed rc w p who).1.pc = none := by
  cases who <;> rfl

theorem flushPush_kvLog (i : Input) (start : ℤ) (who : FlushBy) (w : Writer) (p : Producer) :
    kvLog (flushPush cfg i start who w p).1.pc = none := by
  unfold flushPush
  split
  · rfl
  · exact flushed_kvLog i _ _ who
  · exact flushFailed_kvLog _ w _ who

theorem flushAdmit_kvLog (i : Input) (who : FlushBy) (w : Writer) (r : Wait × Producer) :
    kvLog (flushAdmit cfg i who w r).1.pc = none := by
  unfold flushAdmit
  split
  · rfl
  · exact flushPush_kvLog i _ who w _
  · exact flushFailed_kvLog _ w _ who

theorem tlsBatchFlushLocked_kvLog (i : Input) (who : FlushBy) (w : Writer) (p : Producer) :
    kvLog (tlsBatchFlushLocked cfg i who w p).1.pc = none := by
  unfold tlsBatchFlushLocked
  split
  · exact flushed_kvLog i w p who
  · exact flushAdmit_kvLog i who w _

/-- What is known of the log of a call, as long as it is not in a buffer. -/
structure Origin {α : Type} (φ : Pc → Option α) : Prop where
  quiet : ∀ pc, kvLog pc = none → φ pc = none
  tlsWait : ∀ kv flush d, φ (.tlsWait kv flush d) = φ (.tlsLock kv flush)
  tlsAppend : ∀ kv flush, φ (.tlsAppend kv flush) = φ (.tlsLock kv flush)
  kvWait : ∀ kv key flush d, φ (.kvWait kv key flush d) = φ (.kvLock kv key flush)

theorem go_origin {α : Type} {φ : Pc → Option α} (hφ : Origin φ) (joined : Bool) (i : Input)
    (w : Writer) (p : Producer) (r : Writer × Producer) (hgo : go cfg me joined i w p = some r)
    (a : α) (h : φ r.1.pc = some a) : φ w.pc = some a := by
  have none_of : ∀ x : Writer × Producer, kvLog x.1.pc = none → x = r → False := by
    rintro x hx rfl
    simp [hφ.quiet _ hx] at h
  have dead : ∀ {pc : Pc} {P : Prop}, kvLog pc = none → φ pc = some a → P := by
    intro pc P hn hs
    simp [hφ.quiet pc hn] at hs
  unfold go at hgo
  split at hgo
  · simp at hgo
  · cases hpc : w.pc with
    | idle => simp [hpc] at hgo
    | tlsLock kv' flush =>
      simp only [hpc, Option.some.injEq] at hgo
      rw [← hgo] at h
      revert h
      refine enter_thread (fun x => φ x.pc = some a → _) i _ w p _ _ (fun _ => dead rfl)
        (fun d => ?_) (fun _ => ?_)
      · rw [hφ.tlsWait]
        exact id
      · exact (hφ.tlsAppend kv' flush).symm.trans
    | tlsWait kv' flush deadline =>
      simp only [hpc, Option.some.injEq] at hgo
      rw [← hgo] at h
      revert h
      refine admit_thread (fun x => φ x.pc = some a → _) w _ _ _ (fun _ => dead rfl)
        (fun d => ?_) (fun _ => ?_)
      · rw [hφ.tlsWait, hφ.tlsWait]
        exact id
      · rw [hφ.tlsWait]
        exact (hφ.tlsAppend kv' flush).symm.trans
    | tlsAppend kv' flush =>
      simp only [hpc, Option.some.injEq] at hgo
      refine absurd hgo (none_of _ ?_)
      unfold tlsAppend
      dsimp only
      split
      · rfl
      · split <;> rfl
    | flushLock id flush =>
      simp only [hpc, Option.some.injEq] at hgo
      exact absurd hgo (none_of _ (tlsBatchFlushLocked_kvLog i _ w p))
    | flushWait who deadline =>
      simp only [hpc, Option.some.injEq] at hgo
      exact absurd hgo (none_of _ (flushAdmit_kvLog i who w _))
    | pushWait who start =>
      simp only [hpc, Option.some.injEq] at hgo
      exact absurd hgo (none_of _ (flushPush_kvLog i start who w p))
    | flushFail rc =>
      simp only [hpc, Option.some.injEq] at hgo
      exact absurd hgo (none_of _ rfl)
    | rawLock log =>
      simp only [hpc, Option.some.injEq] at hgo
      refine absurd hgo (none_of _ ?_)
      exact enter_thread (fun x => kvLog x.pc = none) i _ w p _ _ (fun _ => rfl) (fun _ => rfl)
        (fun _ => rfl)
    | rawWait log deadline =>
      simp only [hpc, Option.some.injEq] at hgo
      refine absurd hgo (none_of _ ?_)
      exact admit_thread (fun x => kvLog x.pc = none) w _ _ _ (fun _ => rfl) (fun _ => rfl)
        (fun _ => rfl)
    | rawPush log =>
      simp only [hpc, Option.some.injEq] at hgo
      refine absurd hgo (none_of _ ?_)
      unfold rawPush
      split <;> rfl
    | kvLock kv' hashKey flush =>
      simp only [hpc, Option.some.injEq] at hgo
      rw [← hgo] at h
      revert h
      refine enter_thread (fun x => φ x.pc = some a → _) i _ w p _ _ (fun _ => dead rfl)
        (fun d => ?_) fun q => ?_
      · rw [hφ.kvWait]
        exact id
      · obtain ⟨r, hr⟩ := kvAdd_thread cfg i kv' hashKey flush w q
        rw [hr]
        exact dead rfl
    | kvWait kv' hashKey flush deadline =>
      simp only [hpc, Option.some.injEq] at hgo
      rw [← hgo] at h
      revert h
      refine admit_thread (fun x => φ x.pc = some a → _) w _ _ _ (fun _ => dead rfl)
        (fun d => ?_) fun q => ?_
      · rw [hφ.kvWait, hφ.kvWait]
        exact id
      · obtain ⟨r, hr⟩ := kvAdd_thread cfg i kv' hashKey flush w q
        rw [hr]
        exact dead rfl
    | closeLock timeoutMs =>
      simp only [hpc] at hgo
      split at hgo
      · exact absurd (Option.some.inj hgo) (none_of _ (tlsBatchFlushLocked_kvLog i _ w p))
      · exact absurd (Option.some.inj hgo) (none_of _ (flushed_kvLog i w p _))
    | closeWait timeoutMs start =>
      simp only [hpc, Option.some.injEq] at hgo
      exact absurd hgo (none_of _ (closeLoop_kvLog timeoutMs start i.now w p))
    | closeStop =>
      simp only [hpc, Option.some.injEq] at hgo
      exact absurd hgo (none_of _ rfl)
    | closeJoin =>
      simp only [hpc] at hgo
      split at hgo
      · exact absurd (Option.some.inj hgo) (none_of _ rfl)
      · simp at hgo

theorem kvLog_origin : Origin kvLog :=
  ⟨fun _ h => h, fun _ _ _ => rfl, fun _ _ => rfl, fun _ _ _ _ => rfl⟩

/-- A call does not change the log it adds. -/
theorem go_kvLog (joined : Bool) (i : Input) (w : Writer) (p : Producer) (r : Writer × Producer)
    (hgo : go cfg me joined i w p = some r) (kv : Wire.KvLog) (h : kvLog r.1.pc = some kv) :
    kvLog w.pc = some kv :=
  go_origin kvLog_origin joined i w p r hgo kv h

theorem keyedAdd_origin : Origin fun pc => if keyedAdd pc then some () else none := by
  refine ⟨fun pc h => ?_, fun _ _ _ => rfl, fun _ _ => rfl, fun _ _ _ _ => rfl⟩
  cases pc <;> simp_all [keyedAdd, kvLog]

theorem go_keyedAdd (joined : Bool) (i : Input) (w : Writer) (p : Producer) (r : Writer × Producer)
    (hgo : go cfg me joined i w p = some r) (h : keyedAdd w.pc = false) :
    keyedAdd r.1.pc = false := by
  by_contra hn
  have ho := go_origin keyedAdd_origin joined i w p r hgo () (by simpa using hn)
  simp [h] at ho

theorem call_kvLog (w : Writer) (p : Producer) (c : Call) (r : Writer × Producer)
    (hidle : w.pc = .idle) (h : call cfg me w p c = some r) (kv : Wire.KvLog)
    (hkv : kvLog r.1.pc = some kv) : ∃ hashKey flush, c = .addKv kv hashKey flush := by
  cases c with
  | addRaw log =>
    simp only [call] at h
    split at h <;> (rw [← Option.some.inj h] at hkv; simp [kvLog, ret] at hkv)
  | addKv kv' hashKey flush =>
    simp only [call] at h
    split at h
    · rw [← Option.some.inj h] at hkv
      simp [kvLog, ret] at hkv
    · split at h
      · rw [← Option.some.inj h] at hkv
        exact ⟨hashKey, flush, by rw [Option.some.inj hkv]⟩
      · rw [← Option.some.inj h] at hkv
        exact ⟨hashKey, flush, by rw [Option.some.inj hkv]⟩
  | flush =>
    rw [← Option.some.inj h] at hkv
    simp [kvLog, ret] at hkv
  | close timeoutMs =>
    rw [← Option.some.inj h] at hkv
    simp [kvLog] at hkv
  | elsewhere other builder =>
    simp only [call] at h
    split at h
    · simp at h
    · rw [← Option.some.inj h] at hkv
      simp [kvLog, hidle] at hkv

/-- Only an add with a hash key, or to an ordered producer, is keyed. -/
theorem call_keyedAdd (w : Writer) (p : Producer) (c : Call) (r : Writer × Producer)
    (hidle : w.pc = .idle) (h : call cfg me w p c = some r)
    (hc : ∀ kv hashKey flush, c = .addKv kv hashKey flush → tlsPath cfg hashKey = true) :
    keyedAdd r.1.pc = false := by
  cases c with
  | addRaw log =>
    simp only [call] at h
    split at h <;> (rw [← Option.some.inj h]; rfl)
  | addKv kv hashKey flush =>
    simp only [call, hc kv hashKey flush rfl, if_true] at h
    split at h <;> (rw [← Option.some.inj h]; rfl)
  | flush =>
    rw [← Option.some.inj h]
    rfl
  | close timeoutMs =>
    rw [← Option.some.inj h]
    rfl
  | elsewhere other builder =>
    simp only [call] at h
    split at h
    · simp at h
    · rw [← Option.some.inj h, hidle]
      rfl

end Writer

end VeTls
