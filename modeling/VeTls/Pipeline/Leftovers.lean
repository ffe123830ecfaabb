import VeTls.Fleet
import VeTls.Pipeline.Books

/-!
# Batches of producers that are gone

A destroy frees the batch of the thread that calls it and cannot reach those
of the others. As long as no other thread has logs for a producer that is
freed, every batch belongs to a live producer and every counter of thread
bytes is the sum of what the threads have.
-/

set_option autoImplicit false

namespace VeTls

open VeTls.Keys (Addr CStr KeyMap)
open VeTls.Threads (total le_total)

variable {cfg : Config}

namespace Writer

/-- What a step leaves of the batch: all of it, nothing, or one log more. -/
inductive Carries (cfg : Config) (w : Writer) : TlsBatch → Prop
  | same : Carries cfg w w.batch
  | reset : Carries cfg w { w.batch with builder := some (tlsBatchReset (tlsBuilder cfg w)) }
  | grown (id : ℤ) (kv : Wire.KvLog) (b : Builder)
      (h : logBuilderAddKvLens (tlsBuilder cfg w) id kv = some b) :
      Carries cfg w { w.batch with builder := some b }

/-- The batch stays as it is, or it is one for this producer. -/
def Keeps (cfg : Config) (me : ℕ) (w w' : Writer) : Prop :=
  w'.batch = w.batch ∨ (w.batch.producer = some me ∧ Carries cfg w w'.batch)

section Batch

variable {me : ℕ} {w : Writer}

theorem admitted_keeps (again : ℤ → Pc) (go : Producer → Writer × Producer)
    (h : ∀ p, (go p).1.batch = w.batch) (r : Wait × Producer) :
    (admitted w again go r).1.batch = w.batch := by
  obtain ⟨x, p⟩ := r
  cases x with
  | block d => rfl
  | rc rc =>
    cases rc with
    | ok => exact h p
    | _ => rfl

theorem enter_keeps (i : Input) (bytes : ℕ) (again : ℤ → Pc) (go : Producer → Writer × Producer)
    (p : Producer) (h : ∀ p, (go p).1.batch = w.batch) :
    (enter cfg i bytes again go w p).1.batch = w.batch := by
  unfold enter
  split
  · rfl
  · split
    · rfl
    · exact admitted_keeps again go h _

theorem closeLoop_keeps (timeoutMs start now : ℤ) (p : Producer) :
    (closeLoop cfg timeoutMs start now w p).1.batch = w.batch := by
  unfold closeLoop
  split
  · rfl
  · split
    · rfl
    · split <;> rfl

theorem flushed_keeps (i : Input) (w' : Writer) (p : Producer) (who : FlushBy) :
    (flushed cfg i w' p who).1.batch = w'.batch := by
  cases who with
  | add id flush => rfl
  | close timeoutMs => exact closeLoop_keeps timeoutMs i.now i.now2 _

theorem flushFailed_keeps (rc : WaitRc) (p : Producer) (who : FlushBy) :
    (flushFailed rc w p who).1.batch = w.batch := by
  cases who <;> rfl

theorem flushPush_keeps (i : Input) (start : ℤ) (who : FlushBy) (p : Producer)
    (h : w.batch.producer = some me) : Keeps cfg me w (flushPush cfg i start who w p).1 := by
  unfold flushPush
  split
  · exact .inl rfl
  · refine .inr ⟨h, ?_⟩
    rw [flushed_keeps]
    exact .reset
  · exact .inl (flushFailed_keeps _ _ who)

theorem flushAdmit_keeps (i : Input) (who : FlushBy) (r : Wait × Producer)
    (h : w.batch.producer = some me) : Keeps cfg me w (flushAdmit cfg i who w r).1 := by
  unfold flushAdmit
  split
  · exact .inl rfl
  · exact flushPush_keeps i i.now who _ h
  · exact .inl (flushFailed_keeps _ _ who)

theorem tlsBatchFlushLocked_keeps (i : Input) (who : FlushBy) (p : Producer)
    (h : w.batch.producer = some me) :
    Keeps cfg me w (tlsBatchFlushLocked cfg i who w p).1 := by
  unfold tlsBatchFlushLocked
  split
  · exact .inl (flushed_keeps i w p who)
  · exact flushAdmit_keeps i who _ h

theorem tlsAppend_keeps (kv : Wire.KvLog) (flush : Bool) (p : Producer)
    (h : w.batch.producer = some me) : Keeps cfg me w (tlsAppend cfg kv flush w p).1 := by
  refine .inr ⟨h, ?_⟩
  unfold tlsAppend
  dsimp only
  split
  · exact .reset
  · rename_i b hb
    split
    · exact .grown p.nextId kv b hb
    · exact .grown p.nextId kv b hb

theorem kvAdd_keeps (i : Input) (kv : Wire.KvLog) (hashKey : CStr) (flush : Bool)
    (p : Producer) : (kvAdd cfg i kv hashKey flush w p).1.batch = w.batch := by
  unfold kvAdd
  dsimp only
  split
  · unfold kvRefuse
    dsimp only
    split <;> rfl
  · unfold kvStore
    split <;> rfl

theorem rawPush_keeps (log : RawLog) (p : Producer) :
    (rawPush cfg log w p).1.batch = w.batch := by
  unfold rawPush
  split <;> rfl

/-- A running call touches the batch only if it is one for its producer. -/
theorem go_keeps (joined : Bool) (i : Input) (p : Producer) (r : Writer × Producer)
    (hok : Ok cfg me w) (h : go cfg me joined i w p = some r) : Keeps cfg me w r.1 := by
  unfold go at h
  split at h
  · cases h
  · cases hpc : w.pc with
    | idle => simp [hpc] at h
    | tlsLock kv flush =>
      simp only [hpc, Option.some.injEq] at h
      subst h
      exact .inl (enter_keeps i _ _ _ p fun _ => rfl)
    | tlsWait kv flush deadline =>
      simp only [hpc, Option.some.injEq] at h
      subst h
      exact .inl (admitted_keeps _ (tlsReserve kv flush w) (fun _ => rfl) _)
    | tlsAppend kv flush =>
      simp only [hpc, Option.some.injEq] at h
      subst h
      exact tlsAppend_keeps kv flush p (hok.own (by rw [hpc]; rfl))
    | flushLock id flush =>
      simp only [hpc, Option.some.injEq] at h
      subst h
      exact tlsBatchFlushLocked_keeps i _ p (hok.own (by rw [hpc]; rfl))
    | flushWait who deadline =>
      simp only [hpc, Option.some.injEq] at h
      subst h
      exact flushAdmit_keeps i who _ (hok.own (by rw [hpc]; rfl))
    | pushWait who start =>
      simp only [hpc, Option.some.injEq] at h
      subst h
      exact flushPush_keeps i start who p (hok.own (by rw [hpc]; rfl))
    | flushFail rc =>
      simp only [hpc, Option.some.injEq] at h
      subst h
      exact .inr ⟨hok.own (by rw [hpc]; rfl), .reset⟩
    | rawLock log =>
      simp only [hpc, Option.some.injEq] at h
      subst h
      exact .inl (enter_keeps i _ _ _ p fun _ => rfl)
    | rawWait log deadline =>
      simp only [hpc, Option.some.injEq] at h
      subst h
      exact .inl (admitted_keeps _ (rawReserve log w) (fun _ => rfl) _)
    | rawPush log =>
      simp only [hpc, Option.some.injEq] at h
      subst h
      exact .inl (rawPush_keeps log p)
    | kvLock kv hashKey flush =>
      simp only [hpc, Option.some.injEq] at h
      subst h
      exact .inl (enter_keeps i _ _ _ p fun _ => kvAdd_keeps i kv hashKey flush _)
    | kvWait kv hashKey flush deadline =>
      simp only [hpc, Option.some.injEq] at h
      subst h
      exact .inl (admitted_keeps _ _ (fun _ => kvAdd_keeps i kv hashKey flush _) _)
    | closeLock timeoutMs =>
      simp only [hpc] at h
      split at h
      · rename_i hown
        obtain rfl := Option.some.inj h
        simp only [ownLogs, Bool.and_eq_true, decide_eq_true_eq] at hown
        exact tlsBatchFlushLocked_keeps i _ p hown.1
      · obtain rfl := Option.some.inj h
        exact .inl (flushed_keeps i w p _)
    | closeWait timeoutMs start =>
      simp only [hpc, Option.some.injEq] at h
      subst h
      exact .inl (closeLoop_keeps timeoutMs start i.now p)
    | closeStop =>
      simp only [hpc, Option.some.injEq] at h
      subst h
      exact .inl rfl
    | closeJoin =>
      simp only [hpc] at h
      split at h
      · obtain rfl := Option.some.inj h
        exact .inl rfl
      · cases h

/-- Calls leave the batch alone, but for the one that is about to add to it. -/
theorem call_keeps (p : Producer) (c : Call) (r : Writer × Producer) (hc : Fleet.here c = true)
    (h : call cfg me w p c = some r) :
    r.1.batch = w.batch ∨
      (Fleet.batches cfg c = true ∧ r.1.batch = switchBatch me w.batch) := by
  cases c with
  | addRaw log =>
    simp only [call] at h
    split at h
    · obtain rfl := Option.some.inj h
      exact .inl rfl
    · obtain rfl := Option.some.inj h
      exact .inl rfl
  | addKv kv hashKey flush =>
    simp only [call] at h
    split at h
    · obtain rfl := Option.some.inj h
      exact .inl rfl
    · rename_i hkv
      split at h
      · rename_i htls
        obtain rfl := Option.some.inj h
        exact .inr ⟨by simp [Fleet.batches, hkv, htls], rfl⟩
      · obtain rfl := Option.some.inj h
        exact .inl rfl
  | flush =>
    obtain rfl := Option.some.inj h
    exact .inl rfl
  | close timeoutMs =>
    obtain rfl := Option.some.inj h
    exact .inl rfl
  | elsewhere other builder => cases hc

theorem Carries.producer {batch : TlsBatch} (h : Carries cfg w batch) :
    batch.producer = w.batch.producer := by
  cases h <;> rfl

/-- A builder without logs has no bytes. -/
def Weighed (w : Writer) : Prop :=
  ∀ b, w.batch.builder = some b → b.logs = [] → b.logsLen = 0

theorem Carries.weighed {batch : TlsBatch} {w' : Writer} (h : Carries cfg w batch)
    (hw : Weighed w) (hb : w'.batch = batch) : Weighed w' := by
  intro b hbuilder hlogs
  cases h with
  | same => exact hw b (by rw [← hb]; exact hbuilder) hlogs
  | reset =>
    rw [hb] at hbuilder
    obtain rfl := Option.some.inj hbuilder
    rfl
  | grown id kv b' hadd =>
    rw [hb] at hbuilder
    obtain rfl := Option.some.inj hbuilder
    have hx := addKv_extends w.batch.builder _ b' id kv ⟨rfl, rfl, rfl⟩ hadd
    rw [hx.logs] at hlogs
    simp at hlogs

end Batch

end Writer

namespace Thread

theorem relabel_length (birth old new : ℕ) (births : List ℕ) (h : births.length = old) :
    (relabel birth old new births).length = new := by
  simp only [relabel, List.length_take, List.length_append, List.length_replicate]
  omega

theorem mem_relabel {birth old new b : ℕ} {births : List ℕ} (h : b ∈ relabel birth old new births) :
    b ∈ births ∨ (b = birth ∧ old < new) := by
  obtain hb | hb := List.mem_append.mp (List.mem_of_mem_take h)
  · exact .inl hb
  · rw [List.mem_replicate] at hb
    exact .inr ⟨hb.2, by omega⟩

theorem seen_pc (addr : ℕ) (t : Thread) (h : t.doing ≠ .call addr) : (t.seen addr).pc = .idle := by
  rw [seen, if_neg h]

theorem seen_batch (addr : ℕ) (t : Thread) : (t.seen addr).batch = t.writer.batch := by
  unfold seen
  split <;> rfl

/-- A thread is seen after a step as the step left it. -/
theorem seen_after (addr birth : ℕ) (w : Writer) (t : Thread) :
    (t.after addr birth w).seen addr = w := by
  unfold seen after
  by_cases hpc : w.pc = .idle
  · rw [if_pos hpc, if_neg nofun, ← hpc]
  · rw [if_neg hpc, if_pos rfl]

theorem after_doing (addr birth other : ℕ) (w : Writer) (t : Thread) (h : other ≠ addr) :
    (t.after addr birth w).doing ≠ .call other := by
  simp only [after]
  split
  · nofun
  · intro he
    exact h (Doing.call.inj he).symm

end Thread

namespace Fleet

open Sys (Good Books)

variable {n : ℕ} {f : Fleet}

/-- What is known of a producer's own state between two steps. -/
structure Kept (n addr : ℕ) (h : Home) (f : Fleet) : Prop where
  good : Good (h.setup n addr) (f.view addr h)
  books : Books (h.setup n addr) (f.view addr h)

theorem view_setThread (addr i : ℕ) (h : Home) (p : Producer) (t : Thread) :
    (f.setThread i t).view addr { h with prod := p } =
      (f.view addr h).setWriter i (t.seen addr, p) := by
  simp only [view, setThread, Sys.setWriter]
  congr
  ext j
  by_cases hj : j = i
  · rw [hj, Function.update_self, Function.update_self]
  · rw [Function.update_of_ne hj, Function.update_of_ne hj]

/-- A thread that is not in a call to the producer changes: its batch stays,
or it is given up. -/
theorem Kept.thread {addr : ℕ} {h : Home} {p : Producer} (hk : Kept n addr h f) (i : ℕ)
    (hi : i < n) (t : Thread) (hold : (f.threads i).doing ≠ .call addr)
    (hnew : t.doing ≠ .call addr)
    (hb : (t.writer.batch = (f.threads i).writer.batch ∧ p = h.prod) ∨
      (t.writer.batch.producer ≠ some addr ∧
        p = Writer.leaveBatch addr (f.threads i).writer.batch h.prod)) :
    Kept n addr { h with prod := p } (f.setThread i t) := by
  obtain ⟨hgood, hbooks⟩ := hk
  have hr : Writer.Unreserved ((f.threads i).seen addr).pc := by
    rw [Thread.seen_pc addr _ hold]
    trivial
  have hpc := Thread.seen_pc addr t hnew
  have hr' : Writer.Unreserved (t.seen addr).pc := by
    rw [hpc]
    trivial
  have hok : ∀ j, Writer.Ok h.cfg addr
      (((f.view addr h).setWriter i (t.seen addr, p)).writers j) :=
    Sys.forall_update _ _ i _ hgood.writers (Writer.ok_unbatched _ (by rw [hpc]; rfl))
  obtain ⟨hbatch, rfl⟩ | ⟨hother, rfl⟩ := hb
  · have hm : Writer.Move h.cfg addr .idle ((f.threads i).seen addr, h.prod)
        (t.seen addr, h.prod) :=
      .quiet _ _ _ _ (Quiet.refl _) (by rw [Thread.seen_batch, Thread.seen_batch, hbatch]) hr hr'
    apply Kept.mk
    · rw [view_setThread]
      exact ⟨hgood.toCore.writer i _ (hm.frame hgood.sound), hok, hgood.workers⟩
    · rw [view_setThread]
      exact Sys.books_move hbooks hgood.toCore i hi .idle _ hm
  · have hl : Writer.Loss h.cfg addr ((f.threads i).seen addr, h.prod)
        (t.seen addr, Writer.leaveBatch addr ((f.threads i).seen addr).batch h.prod) :=
      .leave _ _ _ (by rw [Thread.seen_batch]; exact hother) hr hr'
    rw [Thread.seen_batch] at hl
    apply Kept.mk
    · rw [view_setThread]
      exact ⟨hgood.toCore.writer i _ (hl.frame hgood.sound), hok, hgood.workers⟩
    · rw [view_setThread]
      exact Sys.books_loss hbooks hgood.toCore i hi _ hl

theorem Kept.congr {addr : ℕ} {h : Home} {f' : Fleet} (hk : Kept n addr h f)
    (ht : f'.threads = f.threads) : Kept n addr h f' := by
  have hv : f'.view addr h = f.view addr h := by rw [view, view, ht]
  apply Kept.mk
  · rw [hv]
    exact hk.good
  · rw [hv]
    exact hk.books

/-- Neither invariant is about the flags that a destroy sets. -/
theorem Kept.flags {addr : ℕ} {h : Home} (hk : Kept n addr h f) (accepting closing stop sendStop : Bool) :
    Kept n addr { h with prod := { h.prod with
      accepting := accepting, closing := closing, stop := stop, sendQueueStop := sendStop } } f :=
  ⟨⟨⟨hk.good.sound, hk.good.held, hk.good.alone⟩, hk.good.writers, hk.good.workers⟩,
    ⟨hk.books.tls, hk.books.ingress, hk.books.queue⟩⟩

theorem Kept.step {addr : ℕ} {h : Home} {a : VeTls.Act} {s : Sys} (hk : Kept n addr h f)
    (hs : Sys.step (h.setup n addr) (f.view addr h) a = some s) :
    Good (h.setup n addr) s ∧ Books (h.setup n addr) s :=
  ⟨Sys.good_step _ _ a hk.good hs, Sys.books_step _ _ a hk.good hk.books hs⟩

/-- A step of the thread `i` at its producer leaves the others where they are. -/
theorem view_threadStep {addr i : ℕ} {h : Home} {s : Sys}
    (hs : ∀ j, j ≠ i → s.writers j = (f.threads j).seen addr) :
    ((f.setHome addr (some (h.after s))).setThread i
      ((f.threads i).after addr h.birth (s.writers i))).view addr (h.after s) = s := by
  simp only [view, setThread, setHome, Home.after]
  have hw : (fun j => (Function.update f.threads i
      ((f.threads i).after addr h.birth (s.writers i)) j).seen addr) = s.writers := by
    ext j
    by_cases hj : j = i
    · rw [hj, Function.update_self, Thread.seen_after]
    · rw [Function.update_of_ne hj, hs j hj]
  rw [hw]

/-- The log was added to the producer the batch is for, and that is live. -/
def Lives (f : Fleet) (t : Thread) (birth : ℕ) : Prop :=
  ∃ addr h, t.writer.batch.producer = some addr ∧ f.mem addr = some h ∧ h.birth = birth

structure Fits (f : Fleet) (t : Thread) : Prop where
  call : ∀ addr, t.doing = .call addr → (f.mem addr).isSome = true
  births : t.births.length = Thread.heldLogs t.writer
  lives : ∀ b ∈ t.births, Lives f t b
  weighed : Writer.Weighed t.writer
  gone : ∀ addr stage, t.doing = .destroy addr stage → stage ≠ .batch →
    t.writer.batch.producer ≠ some addr

structure Inv (n : ℕ) (f : Fleet) : Prop where
  homes : ∀ addr h, f.mem addr = some h → Kept n addr h f
  fits : ∀ i, Fits f (f.threads i)
  beyond : ∀ i, n ≤ i → f.threads i = Thread.start

/-- The producers of `f` are still there. -/
def Stays (f f' : Fleet) : Prop :=
  ∀ addr h, f.mem addr = some h → ∃ h', f'.mem addr = some h' ∧ h'.birth = h.birth

theorem Lives.stays {f' : Fleet} {t t' : Thread} {b : ℕ} (h : Lives f t b) (hs : Stays f f')
    (hb : t'.writer.batch.producer = t.writer.batch.producer) : Lives f' t' b := by
  obtain ⟨addr, home, hp, hm, hbirth⟩ := h
  obtain ⟨home', hm', hbirth'⟩ := hs addr home hm
  exact ⟨addr, home', hb.trans hp, hm', hbirth'.trans hbirth⟩

theorem Fits.stays {f' : Fleet} {t : Thread} (h : Fits f t) (hs : Stays f f') : Fits f' t := by
  refine ⟨?_, h.births, fun b hb => (h.lives b hb).stays hs rfl, h.weighed, h.gone⟩
  intro addr hcall
  obtain ⟨home, hm⟩ := Option.isSome_iff_exists.mp (h.call addr hcall)
  obtain ⟨home', hm', _⟩ := hs addr home hm
  rw [hm']
  rfl

theorem Inv.stays {f' : Fleet} (hI : Inv n f) (hs : Stays f f')
    (hhomes : ∀ addr h, f'.mem addr = some h → Kept n addr h f')
    (hthreads : ∀ i, f'.threads i = f.threads i ∨ (i < n ∧ Fits f' (f'.threads i))) :
    Inv n f' := by
  refine ⟨hhomes, ?_, ?_⟩
  · intro i
    obtain he | hfit := hthreads i
    · rw [he]
      exact (hI.fits i).stays hs
    · exact hfit.2
  · intro i hi
    obtain he | hfit := hthreads i
    · rw [he]
      exact hI.beyond i hi
    · omega

theorem setHome_self (addr : ℕ) (h : Option Home) : (f.setHome addr h).mem addr = h :=
  Function.update_self _ _ _

theorem setHome_other (addr other : ℕ) (h : Option Home) (hne : other ≠ addr) :
    (f.setHome addr h).mem other = f.mem other :=
  Function.update_of_ne hne _ _

theorem stays_setHome {addr : ℕ} {h h' : Home} (hm : f.mem addr = some h)
    (hb : h'.birth = h.birth) : Stays f (f.setHome addr (some h')) := by
  intro a home ha
  by_cases haddr : a = addr
  · subst haddr
    rw [hm] at ha
    obtain rfl := Option.some.inj ha
    exact ⟨h', setHome_self a _, hb⟩
  · exact ⟨home, by rw [setHome_other _ _ _ haddr]; exact ha, rfl⟩

theorem freeBatch_mem (batch : TlsBatch) (addr : ℕ) :
    (f.freeBatch batch).mem addr =
      (f.mem addr).map fun h => { h with prod := Writer.leaveBatch addr batch h.prod } := by
  unfold freeBatch
  split
  · rename_i hp
    simp [Writer.leaveBatch, hp]
  · rename_i a hp
    by_cases ha : addr = a
    · subst ha
      exact setHome_self addr _
    · have hne : ¬some a = some addr := fun h => ha (Option.some.inj h).symm
      rw [setHome_other _ _ _ ha]
      simp [Writer.leaveBatch, hp, hne]

theorem stays_freeBatch (batch : TlsBatch) : Stays f (f.freeBatch batch) := by
  intro addr h hm
  exact ⟨{ h with prod := Writer.leaveBatch addr batch h.prod }, by rw [freeBatch_mem, hm]; rfl, rfl⟩

theorem freeBatch_threads (batch : TlsBatch) : (f.freeBatch batch).threads = f.threads := by
  unfold freeBatch
  split <;> rfl

theorem setThread_threads (i : ℕ) (t : Thread) (j : ℕ) :
    (f.setThread i t).threads j = f.threads j ∨ (j = i ∧ (f.setThread i t).threads j = t) := by
  by_cases hj : j = i
  · subst hj
    exact .inr ⟨rfl, Function.update_self _ _ _⟩
  · exact .inl (Function.update_of_ne hj _ _)

/-- A thread without a batch. -/
theorem fits_dropped (t : Thread) (normKey : Option ℕ) (d : Doing) (hd : ∀ addr, d ≠ .call addr) :
    Fits f { t.dropped normKey with doing := d } :=
  ⟨fun addr h => absurd h (hd addr), rfl, nofun, nofun, fun _ _ _ _ => nofun⟩

/-- A thread that is in no call gives up its batch. -/
theorem Inv.drop (hI : Inv n f) (i : ℕ) (hi : i < n) (normKey : Option ℕ) (d : Doing)
    (hold : ∀ addr, (f.threads i).doing ≠ .call addr) (hd : ∀ addr, d ≠ .call addr) :
    Inv n ((f.freeBatch (f.threads i).writer.batch).setThread i
      { (f.threads i).dropped normKey with doing := d }) := by
  refine hI.stays (stays_freeBatch _) ?_ ?_
  · intro addr h hm
    have hm' : (f.freeBatch (f.threads i).writer.batch).mem addr = some h := hm
    rw [freeBatch_mem] at hm'
    obtain ⟨home, hhome, rfl⟩ := Option.map_eq_some_iff.mp hm'
    have hk := (hI.homes addr home hhome).thread i hi
      { (f.threads i).dropped normKey with doing := d } (hold addr) (hd addr) (.inr ⟨nofun, rfl⟩)
    apply hk.congr
    simp only [setThread, freeBatch_threads]
  · intro j
    obtain he | ⟨rfl, he⟩ := setThread_threads (f := f.freeBatch (f.threads i).writer.batch) i
      { (f.threads i).dropped normKey with doing := d } j
    · exact .inl (by rw [he, freeBatch_threads])
    · refine .inr ⟨hi, ?_⟩
      rw [he]
      exact fits_dropped _ normKey d hd

/-- What a step of a call leaves of the batch. -/
def Leaves (cfg : Config) (addr : ℕ) (w w' : Writer) : Prop :=
  w'.batch = w.batch ∨ (w.batch = ⟨none, none⟩ ∧ w'.batch = ⟨some addr, none⟩) ∨
    (w.batch.producer = some addr ∧ Writer.Carries cfg w w'.batch)

theorem Leaves.grown {addr : ℕ} {w w' : Writer} (h : Leaves cfg addr w w')
    (hlt : Thread.heldLogs w < Thread.heldLogs w') :
    w.batch.producer = some addr ∧ w'.batch.producer = some addr := by
  obtain he | ⟨_, he⟩ | ⟨hp, hc⟩ := h
  · rw [Thread.heldLogs, Thread.heldLogs, he] at hlt
    omega
  · rw [Thread.heldLogs, Thread.heldLogs, he] at hlt
    cases hlt
  · exact ⟨hp, hc.producer.trans hp⟩

theorem Leaves.producer {addr other : ℕ} {w w' : Writer} (h : Leaves cfg addr w w')
    (hp : w.batch.producer = some other) : w'.batch.producer = some other := by
  obtain he | ⟨he, _⟩ | ⟨_, hc⟩ := h
  · rw [he, hp]
  · rw [he] at hp
    cases hp
  · exact hc.producer.trans hp

theorem Leaves.weighed {addr : ℕ} {w w' : Writer} (h : Leaves cfg addr w w')
    (hw : Writer.Weighed w) : Writer.Weighed w' := by
  obtain he | ⟨_, he⟩ | ⟨_, hc⟩ := h
  · have hsame : Writer.Carries cfg w w.batch := .same
    exact hsame.weighed hw he
  · intro b hb
    rw [he] at hb
    cases hb
  · exact hc.weighed hw rfl

/-- Another producer's share of the batch. -/
theorem Leaves.other {addr other : ℕ} {w w' : Writer} {p : Producer} (h : Leaves cfg addr w w')
    (hne : other ≠ addr) :
    (w'.batch = w.batch ∧ p = p) ∨
      (w'.batch.producer ≠ some other ∧ p = Writer.leaveBatch other w.batch p) := by
  have hneg : ¬some addr = some other := fun he => hne (Option.some.inj he).symm
  obtain he | ⟨he, he'⟩ | ⟨hp, hc⟩ := h
  · exact .inl ⟨he, rfl⟩
  · exact .inr ⟨by rw [he']; exact hneg, by rw [Writer.leaveBatch, he, if_neg (by simp)]⟩
  · exact .inr ⟨by rw [hc.producer, hp]; exact hneg, by rw [Writer.leaveBatch, hp, if_neg hneg]⟩

/-- A running call leaves the batch, or it is one for its producer. -/
theorem go_leaves {addr i : ℕ} {h : Home} (joined : Bool) (input : Input) (p : Producer)
    (r : Writer × Producer) (hd : (f.threads i).doing = .call addr)
    (hok : Writer.Ok h.cfg addr ((f.view addr h).writers i))
    (hr : Writer.go h.cfg addr joined input ((f.view addr h).writers i) p = some r) :
    Leaves h.cfg addr (f.threads i).writer r.1 := by
  have hkeeps := Writer.go_keeps joined input p r hok hr
  have hseen : (f.view addr h).writers i = (f.threads i).writer := if_pos hd
  rw [hseen] at hkeeps
  obtain hsame | hcarries := hkeeps
  · exact .inl hsame
  · exact .inr (.inr hcarries)

/-- So does the beginning of a call, when the batch was switched before. -/
theorem call_leaves {addr i : ℕ} {h : Home} (p : Producer) (c : Call) (r : Writer × Producer)
    (hc : here c = true)
    (hbatch : batches h.cfg c = true → (f.threads i).writer.batch = ⟨none, none⟩ ∨
      (f.threads i).writer.batch.producer = some addr)
    (hr : Writer.call h.cfg addr ((f.view addr h).writers i) p c = some r) :
    Leaves h.cfg addr (f.threads i).writer r.1 := by
  have hseen : ((f.view addr h).writers i).batch = (f.threads i).writer.batch :=
    Thread.seen_batch addr _
  obtain hsame | ⟨hb, hswitch⟩ := Writer.call_keeps p c r hc hr
  · exact .inl (hsame.trans hseen)
  · rw [hseen] at hswitch
    obtain hnone | hown := hbatch hb
    · refine .inr (.inl ⟨hnone, ?_⟩)
      rw [hswitch, hnone]
      rfl
    · refine .inl ?_
      rw [hswitch, Writer.switchBatch]
      exact if_pos hown

/-- A step of a thread's call keeps the invariant. -/
theorem Inv.threadStep (hI : Inv n f) {addr i : ℕ} {h : Home} {a : VeTls.Act} {s : Sys}
    (hi : i < n) (hm : f.mem addr = some h)
    (hs : Sys.step (h.setup n addr) (f.view addr h) a = some s)
    (hothers : ∀ j, j ≠ i → s.writers j = (f.threads j).seen addr)
    (hdoing : ∀ other, other ≠ addr → (f.threads i).doing ≠ .call other)
    (hleaves : Leaves h.cfg addr (f.threads i).writer (s.writers i)) :
    Inv n ((f.setHome addr (some (h.after s))).setThread i
      ((f.threads i).after addr h.birth (s.writers i))) := by
  have hstays : Stays f (f.setHome addr (some (h.after s))) := stays_setHome hm rfl
  refine hI.stays hstays ?_ ?_
  · intro other home hhome
    by_cases hother : other = addr
    · subst hother
      have he : (f.setHome other (some (h.after s))).mem other = some home := hhome
      rw [setHome_self] at he
      obtain rfl := Option.some.inj he
      have hk := (hI.homes other h hm).step hs
      apply Kept.mk
      · rw [view_threadStep hothers]
        exact hk.1
      · rw [view_threadStep hothers]
        exact hk.2
    · have he : (f.setHome addr (some (h.after s))).mem other = some home := hhome
      rw [setHome_other _ _ _ hother] at he
      have hk := (hI.homes other home he).thread i hi
        ((f.threads i).after addr h.birth (s.writers i)) (hdoing other hother)
        (Thread.after_doing addr h.birth other _ _ hother) (hleaves.other hother)
      exact hk.congr rfl
  · intro j
    obtain he | ⟨rfl, he⟩ := setThread_threads (f := f.setHome addr (some (h.after s))) i
      ((f.threads i).after addr h.birth (s.writers i)) j
    · exact .inl he
    · refine .inr ⟨hi, ?_⟩
      rw [he]
      have hfit := hI.fits j
      refine ⟨?_, Thread.relabel_length _ _ _ _ hfit.births, ?_, hleaves.weighed hfit.weighed, ?_⟩
      · intro other hcall
        by_cases hother : other = addr
        · subst hother
          show ((f.setHome other (some (h.after s))).mem other).isSome = true
          rw [setHome_self]
          rfl
        · exact absurd hcall (Thread.after_doing addr h.birth other _ _ hother)
      · intro b hb
        obtain hb | ⟨rfl, hlt⟩ := Thread.mem_relabel hb
        · obtain ⟨a', home, hp, hhome, hbirth⟩ := (hfit.lives b hb).stays hstays rfl
          exact ⟨a', home, hleaves.producer hp, hhome, hbirth⟩
        · exact ⟨addr, h.after s, (hleaves.grown hlt).2, setHome_self addr _, rfl⟩
      · intro other stage hd
        simp only [Thread.after] at hd
        split at hd <;> cases hd

theorem Inv.flags (hI : Inv n f) {addr : ℕ} {h : Home} (hm : f.mem addr = some h)
    (accepting closing stop sendStop : Bool) :
    Inv n (f.setHome addr (some { h with prod := { h.prod with
      accepting := accepting, closing := closing, stop := stop, sendQueueStop := sendStop } })) := by
  refine hI.stays (stays_setHome hm rfl) ?_ fun i => .inl rfl
  intro other home hhome
  by_cases hother : other = addr
  · subst hother
    rw [setHome_self] at hhome
    obtain rfl := Option.some.inj hhome
    exact ((hI.homes other h hm).flags accepting closing stop sendStop).congr rfl
  · rw [setHome_other _ _ _ hother] at hhome
    exact (hI.homes other home hhome).congr rfl

/-- A thread outside every call goes on with a destroy, or begins one. -/
theorem Inv.doing (hI : Inv n f) (i : ℕ) (hi : i < n) (d : Doing)
    (hold : ∀ addr, (f.threads i).doing ≠ .call addr) (hd : ∀ addr, d ≠ .call addr)
    (hgone : ∀ addr stage, d = .destroy addr stage → stage ≠ .batch →
      (f.threads i).writer.batch.producer ≠ some addr) : Inv n (f.setDoing i d) := by
  refine hI.stays (fun addr h hm => ⟨h, hm, rfl⟩) ?_ ?_
  · intro addr h hm
    exact (hI.homes addr h hm).thread i hi { f.threads i with doing := d } (hold addr) (hd addr)
      (.inl ⟨rfl, rfl⟩)
  · intro j
    obtain he | ⟨rfl, he⟩ := setThread_threads (f := f) i { f.threads i with doing := d } j
    · exact .inl he
    · refine .inr ⟨hi, ?_⟩
      have hfit := hI.fits j
      rw [setDoing, he]
      exact ⟨fun addr h => absurd h (hd addr), hfit.births, hfit.lives, hfit.weighed, hgone⟩

theorem setThread_setDoing (i : ℕ) (t : Thread) (d : Doing) :
    (f.setThread i t).setDoing i d = f.setThread i { t with doing := d } := by
  simp only [setDoing, setThread, Function.update_self, Function.update_idem]

/-- A thread with no logs for an address that holds no producer is charged
nothing there. -/
theorem Fits.charge {addr : ℕ} {t : Thread} (hfit : Fits f t) (hm : f.mem addr = none) :
    Writer.tlsCharge addr (t.seen addr) = 0 ∧ Writer.rawCharge (t.seen addr) = 0 ∧
      (t.seen addr).pc = .idle := by
  have hdoing : t.doing ≠ .call addr := by
    intro hd
    have := hfit.call addr hd
    rw [hm] at this
    cases this
  have hpc := Thread.seen_pc addr t hdoing
  have hr : Writer.Unreserved (t.seen addr).pc := by
    rw [hpc]
    trivial
  refine ⟨?_, Writer.rawCharge_eq _ hr, hpc⟩
  rw [Writer.tlsCharge_eq addr _ hr, Thread.seen_batch]
  split
  · rename_i hp
    have hempty : t.births = [] := by
      by_contra hne
      obtain ⟨b, hb⟩ := List.exists_mem_of_ne_nil _ hne
      obtain ⟨addr', home, hp', hhome, _⟩ := hfit.lives b hb
      rw [hp] at hp'
      obtain rfl := Option.some.inj hp'
      rw [hm] at hhome
      cases hhome
    have hlen := hfit.births
    rw [hempty] at hlen
    cases hb : t.writer.batch.builder with
    | none => simp [Writer.builderLen, hb]
    | some b =>
      have hlogs : b.logs = [] := by
        simp only [Thread.heldLogs, hb, Option.map_some, Option.getD_some, List.length_nil] at hlen
        exact List.length_eq_zero_iff.mp hlen.symm
      simp only [Writer.builderLen, hb, Option.map_some, Option.getD_some]
      exact hfit.weighed b hb hlogs
  · rfl

/-- A new producer finds no charge at its address. -/
theorem Inv.create_kept (hI : Inv n f) {addr : ℕ} (hm : f.mem addr = none) (cfg : Config)
    (birth hashKey : ℕ) : Kept n addr (Home.create birth cfg hashKey) f := by
  let st : Setup := ⟨cfg, n, addr⟩
  have hgood := Sys.good_start st
  have hbooks := Sys.books_start st
  have hcharge := fun i => (hI.fits i).charge hm
  refine ⟨⟨⟨hgood.sound, hgood.held, hgood.alone⟩, ?_, hgood.workers⟩, ?_, hbooks.ingress, ?_⟩
  · intro i
    exact Writer.ok_unbatched _ (by
      show Writer.batched ((f.threads i).seen addr).pc = false
      rw [(hcharge i).2.2]
      rfl)
  · exact (Threads.total_eq_zero n _ _ fun i => (hcharge i).1).symm
  · have hq := hbooks.queue
    rw [Threads.total_eq_zero _ (Sys.start st).writers Writer.rawCharge (fun _ => rfl)] at hq
    rw [Threads.total_eq_zero _ (f.view addr (Home.create birth cfg hashKey)).writers
      Writer.rawCharge fun i => (hcharge i).2.1]
    exact hq

theorem Inv.create (hI : Inv n f) {addr : ℕ} (hm : f.mem addr = none) (cfg : Config)
    (hashKey : ℕ) :
    Inv n { f.setHome addr (some (Home.create f.created cfg hashKey)) with
      created := f.created+1 } := by
  refine hI.stays ?_ ?_ fun i => .inl rfl
  · intro other h hother
    have hne : other ≠ addr := by
      rintro rfl
      rw [hm] at hother
      cases hother
    exact ⟨h, (setHome_other _ _ _ hne).trans hother, rfl⟩
  · intro other h hother
    have he : (f.setHome addr (some (Home.create f.created cfg hashKey))).mem other = some h :=
      hother
    by_cases hne : other = addr
    · subst hne
      rw [setHome_self] at he
      obtain rfl := Option.some.inj he
      exact (hI.create_kept hm cfg f.created hashKey).congr rfl
    · rw [setHome_other _ _ _ hne] at he
      exact (hI.homes other h he).congr rfl

/-- No other thread is in a call to the producer that `i` is about to free, or
has logs for it. -/
def CleanAt (n i : ℕ) (f : Fleet) : Doing → Prop
  | .destroy addr .join => ∀ j < n, j ≠ i → (f.threads j).doing ≠ .call addr ∧
      ((f.threads j).writer.batch.producer = some addr → Thread.heldLogs (f.threads j).writer = 0)
  | _ => True

def FreesClean (n : ℕ) (f : Fleet) : Act → Prop
  | .destroying i => CleanAt n i f (f.threads i).doing
  | _ => True

instance decidableCleanAt (n i : ℕ) (f : Fleet) : ∀ d, Decidable (CleanAt n i f d)
  | .destroy addr .join => inferInstanceAs (Decidable (∀ j < n, j ≠ i →
      (f.threads j).doing ≠ .call addr ∧ ((f.threads j).writer.batch.producer = some addr →
        Thread.heldLogs (f.threads j).writer = 0)))
  | .nothing | .call _ | .destroy _ .batch | .destroy _ .sendQueue => isTrue trivial

instance decidableFreesClean (n : ℕ) (f : Fleet) : ∀ a, Decidable (FreesClean n f a)
  | .destroying i => inferInstanceAs (Decidable (CleanAt n i f (f.threads i).doing))
  | .create _ _ _ | .call _ _ _ | .writer _ _ | .worker _ _ _ | .sender _ _ _ | .destroy _ _ =>
    isTrue trivial

/-- A thread that has nothing at an address keeps what it has when the
address is freed. -/
theorem Fits.free {addr : ℕ} {t : Thread} (hfit : Fits f t) (hcall : t.doing ≠ .call addr)
    (hlogs : t.writer.batch.producer = some addr → Thread.heldLogs t.writer = 0) :
    Fits (f.setHome addr none) t := by
  refine ⟨?_, hfit.births, ?_, hfit.weighed, hfit.gone⟩
  · intro other hother
    have hne : other ≠ addr := by
      rintro rfl
      exact hcall hother
    rw [setHome_other _ _ _ hne]
    exact hfit.call other hother
  · intro b hb
    obtain ⟨other, h, hp, hm, hbirth⟩ := hfit.lives b hb
    have hne : other ≠ addr := by
      rintro rfl
      have hlen := hfit.births
      rw [hlogs hp] at hlen
      rw [List.length_eq_zero_iff.mp hlen] at hb
      cases hb
    exact ⟨other, h, hp, (setHome_other _ _ _ hne).trans hm, hbirth⟩

/-- The last step of a destroy. -/
theorem Inv.free (hI : Inv n f) {addr i : ℕ} (hi : i < n)
    (hd : (f.threads i).doing = .destroy addr .join)
    (hclean : ∀ j < n, j ≠ i → (f.threads j).doing ≠ .call addr ∧
      ((f.threads j).writer.batch.producer = some addr →
        Thread.heldLogs (f.threads j).writer = 0)) :
    Inv n ((f.setHome addr none).setDoing i .nothing) := by
  have hfree : Inv n (f.setHome addr none) := by
    refine ⟨?_, ?_, hI.beyond⟩
    · intro other h hm
      have hne : other ≠ addr := by
        rintro rfl
        rw [setHome_self] at hm
        cases hm
      rw [setHome_other _ _ _ hne] at hm
      exact (hI.homes other h hm).congr rfl
    · intro j
      by_cases hj : j = i
      · subst hj
        exact (hI.fits j).free (by rw [hd]; nofun)
          fun hp => absurd hp ((hI.fits j).gone addr .join hd nofun)
      · by_cases hlt : j < n
        · exact (hI.fits j).free (hclean j hlt hj).1 (hclean j hlt hj).2
        · have hstart : f.threads j = Thread.start := hI.beyond j (by omega)
          refine (hI.fits j).free ?_ ?_
          · rw [hstart]
            nofun
          · intro hp
            rw [hstart] at hp
            cases hp
  refine hfree.doing i hi .nothing ?_ nofun nofun
  intro other
  show (f.threads i).doing ≠ _
  rw [hd]
  nofun

theorem destroyStep_inv (hI : Inv n f) {addr i : ℕ} (hi : i < n) {h : Home}
    (hm : f.mem addr = some h) (stage : Stage) (hd : (f.threads i).doing = .destroy addr stage)
    (hclean : FreesClean n f (.destroying i)) (f' : Fleet)
    (hs : destroyStep n i addr h f stage = some f') : Inv n f' := by
  have hold : ∀ other, (f.threads i).doing ≠ .call other := by
    intro other
    rw [hd]
    nofun
  cases stage with
  | batch =>
    simp only [destroyStep] at hs
    split at hs
    · obtain rfl := Option.some.inj hs
      rw [setThread_setDoing]
      exact hI.drop i hi none _ hold nofun
    · rename_i hp
      obtain rfl := Option.some.inj hs
      refine hI.doing i hi _ hold nofun ?_
      intro other stage he _
      obtain ⟨rfl, _⟩ := Doing.destroy.inj he
      exact hp
  | sendQueue =>
    obtain rfl := Option.some.inj hs
    have hflags := hI.flags hm h.prod.accepting h.prod.closing h.prod.stop true
    refine hflags.doing i hi _ hold nofun ?_
    intro other stage he _
    obtain ⟨rfl, _⟩ := Doing.destroy.inj he
    exact (hI.fits i).gone addr .sendQueue hd nofun
  | join =>
    simp only [destroyStep] at hs
    split at hs
    · obtain rfl := Option.some.inj hs
      simp only [FreesClean, hd, CleanAt] at hclean
      exact hI.free hi hd hclean
    · cases hs

theorem setWriter_others {addr i : ℕ} {h : Home} (r : Writer × Producer) (j : ℕ) (hj : j ≠ i) :
    ((f.view addr h).setWriter i r).writers j = (f.threads j).seen addr :=
  Function.update_of_ne hj _ _

theorem writer_inv (hI : Inv n f) {addr i : ℕ} (input : Input) (f' : Fleet)
    (hd : (f.threads i).doing = .call addr)
    (hs : threadStep n i addr (.writer i input) f = some f') : Inv n f' := by
  obtain ⟨h, hm, hrest⟩ := Option.bind_eq_some_iff.mp hs
  obtain ⟨s, hstep, hf⟩ := Option.bind_eq_some_iff.mp hrest
  obtain rfl := Option.some.inj hf
  have hgo := hstep
  simp only [Sys.step] at hgo
  split at hgo
  · rename_i hi
    obtain ⟨r, hr, rfl⟩ := Option.map_eq_some_iff.mp hgo
    refine hI.threadStep hi hm hstep (setWriter_others r) ?_ ?_
    · intro other hne he
      rw [hd] at he
      exact hne (Doing.call.inj he).symm
    · have hw : ((f.view addr h).setWriter i r).writers i = r.1 := Function.update_self _ _ _
      rw [hw]
      exact go_leaves _ input _ r hd ((hI.homes addr h hm).good.writers i) hr
  · cases hgo

/-- Before a batched add the thread has no batch but one for the producer. -/
theorem Inv.switch (hI : Inv n f) {i : ℕ} (hi : i < n) (addr normKey : ℕ)
    (hd : (f.threads i).doing = .nothing) :
    Inv n (f.switch i addr normKey) ∧
      ((f.switch i addr normKey).threads i).doing = .nothing ∧
      (((f.switch i addr normKey).threads i).writer.batch = ⟨none, none⟩ ∨
        ((f.switch i addr normKey).threads i).writer.batch.producer = some addr) := by
  unfold Fleet.switch
  split
  · rename_i hp
    exact ⟨hI, hd, .inr hp.1⟩
  · have hold : ∀ other, (f.threads i).doing ≠ .call other := by
      intro other
      rw [hd]
      nofun
    have hdrop := hI.drop i hi (some normKey) (f.threads i).doing hold hold
    refine ⟨hdrop, ?_, .inl ?_⟩
    · show (Function.update (f.freeBatch _).threads i _ i).doing = _
      rw [Function.update_self]
      exact hd
    · show (Function.update (f.freeBatch _).threads i _ i).writer.batch = _
      rw [Function.update_self]
      rfl

/-- A call begins. -/
theorem call_inv (hI : Inv n f) {addr i : ℕ} (c : Call) (hc : here c = true) (f' : Fleet)
    (hd : (f.threads i).doing = .nothing)
    (hbatch : ∀ h, f.mem addr = some h → batches h.cfg c = true →
      (f.threads i).writer.batch = ⟨none, none⟩ ∨
        (f.threads i).writer.batch.producer = some addr)
    (hs : threadStep n i addr (.call i c) f = some f') : Inv n f' := by
  obtain ⟨h, hm, hrest⟩ := Option.bind_eq_some_iff.mp hs
  obtain ⟨s, hstep, hf⟩ := Option.bind_eq_some_iff.mp hrest
  obtain rfl := Option.some.inj hf
  have hcall := hstep
  simp only [Sys.step] at hcall
  split at hcall
  · rename_i hi
    obtain ⟨r, hr, rfl⟩ := Option.map_eq_some_iff.mp hcall
    refine hI.threadStep hi.1 hm hstep (setWriter_others r) ?_ ?_
    · intro other _
      simp [hd]
    · have hw : ((f.view addr h).setWriter i r).writers i = r.1 := Function.update_self _ _ _
      rw [hw]
      exact call_leaves _ c r hc (hbatch h hm) hr
  · cases hcall

/-- The producer's own threads do not see the batches. -/
theorem own_inv (hI : Inv n f) {addr : ℕ} (a : VeTls.Act) (f' : Fleet)
    (hw : ∀ st s s', Sys.step st s a = some s' → s'.writers = s.writers)
    (hs : ownStep n addr a f = some f') : Inv n f' := by
  obtain ⟨h, hm, hrest⟩ := Option.bind_eq_some_iff.mp hs
  obtain ⟨s, hstep, hf⟩ := Option.bind_eq_some_iff.mp hrest
  obtain rfl := Option.some.inj hf
  refine hI.stays (stays_setHome hm rfl) ?_ fun i => .inl rfl
  intro other home hhome
  by_cases hother : other = addr
  · subst hother
    rw [setHome_self] at hhome
    obtain rfl := Option.some.inj hhome
    have hk := (hI.homes other h hm).step hstep
    have hview : (f.setHome other (some (h.after s))).view other (h.after s) = s := by
      have hwriters := hw _ _ _ hstep
      simp only [view, setHome, Home.after]
      rw [show (fun i => (f.threads i).seen other) = s.writers from hwriters.symm]
    apply Kept.mk
    · rw [hview]
      exact hk.1
    · rw [hview]
      exact hk.2
  · rw [setHome_other _ _ _ hother] at hhome
    exact (hI.homes other home hhome).congr rfl

theorem worker_writers (st : Setup) (s s' : Sys) (j : ℕ) (input : Worker.Input)
    (h : Sys.step st s (.worker j input) = some s') : s'.writers = s.writers := by
  simp only [Sys.step] at h
  split at h
  · obtain ⟨r, _, rfl⟩ := Option.map_eq_some_iff.mp h
    rfl
  · cases h

theorem sender_writers (st : Setup) (s s' : Sys) (j : ℕ) (input : Sender.Input)
    (h : Sys.step st s (.sender j input) = some s') : s'.writers = s.writers := by
  simp only [Sys.step] at h
  split at h
  · obtain ⟨r, _, rfl⟩ := Option.map_eq_some_iff.mp h
    rfl
  · cases h

theorem step_inv (hI : Inv n f) (a : Act) (hclean : FreesClean n f a) (f' : Fleet)
    (hs : step n f a = some f') : Inv n f' := by
  cases a with
  | create addr cfg hashKey =>
    simp only [step] at hs
    split at hs
    · cases hs
    · rename_i hm
      obtain rfl := Option.some.inj hs
      exact hI.create (Option.not_isSome_iff_eq_none.mp hm) cfg hashKey
  | call i addr c =>
    obtain ⟨h, hm, hrest⟩ := Option.bind_eq_some_iff.mp hs
    split at hrest
    · rename_i hready
      split at hrest
      · obtain ⟨hI', hd, hb⟩ := hI.switch hready.1 addr h.normKey hready.2.1
        exact call_inv hI' c hready.2.2 f' hd (fun _ _ _ => hb) hrest
      · rename_i hno
        refine call_inv hI c hready.2.2 f' hready.2.1 ?_ hrest
        intro h' hm' hb
        rw [hm] at hm'
        obtain rfl := Option.some.inj hm'
        exact absurd hb hno
    · cases hrest
  | writer i input =>
    simp only [step] at hs
    split at hs
    · rename_i addr hd
      exact writer_inv hI input f' hd hs
    · cases hs
  | worker addr j input => exact own_inv hI _ f' (fun st s s' => worker_writers st s s' j input) hs
  | sender addr j input => exact own_inv hI _ f' (fun st s s' => sender_writers st s s' j input) hs
  | destroy i addr =>
    obtain ⟨h, hm, hrest⟩ := Option.bind_eq_some_iff.mp hs
    split at hrest
    · rename_i hready
      obtain rfl := Option.some.inj hrest
      have hold : ∀ other, (f.threads i).doing ≠ .call other := by
        intro other
        rw [hready.2]
        nofun
      have hflags := hI.flags hm false false true h.prod.sendQueueStop
      refine hflags.doing i hready.1 _ hold nofun ?_
      intro other stage he hstage
      obtain ⟨_, rfl⟩ := Doing.destroy.inj he
      exact absurd rfl hstage
    · cases hrest
  | destroying i =>
    simp only [step] at hs
    split at hs
    · rename_i addr stage hd
      obtain ⟨h, hm, hrest⟩ := Option.bind_eq_some_iff.mp hs
      split at hrest
      · rename_i hi
        exact destroyStep_inv hI hi hm stage hd hclean f' hrest
      · cases hrest
    · cases hs

theorem inv_start (n : ℕ) : Inv n start := by
  refine ⟨?_, ?_, fun i _ => rfl⟩
  · intro addr h hm
    cases hm
  · intro i
    refine ⟨?_, rfl, ?_, ?_, ?_⟩
    · intro addr hd
      cases hd
    · intro b hb
      cases hb
    · intro b hb
      cases hb
    · intro addr stage hd
      cases hd

/-- Bytes of `tls_bytes` of the producer at `addr` that are the thread's: its
batch, and what it has reserved for a log it is about to append. A step takes
at most these off the counter. -/
def tlsCharge (addr : ℕ) (t : Thread) : ℕ := Writer.tlsCharge addr (t.seen addr)

/-- Every log in a thread's batch was added to the producer now live at the
address the batch names, and the counters are the sums of the charges. -/
structure BatchesLive (n : ℕ) (f : Fleet) : Prop where
  births : ∀ i, (f.threads i).births.length = Thread.heldLogs (f.threads i).writer
  live : ∀ i, ∀ b ∈ (f.threads i).births, ∃ addr h,
    (f.threads i).writer.batch.producer = some addr ∧ f.mem addr = some h ∧ h.birth = b
  exact : ∀ addr h, f.mem addr = some h →
    h.prod.tlsBytes = total n f.threads (tlsCharge addr)
  covers : ∀ addr h, f.mem addr = some h → ∀ i < n, tlsCharge addr (f.threads i) ≤ h.prod.tlsBytes

theorem Inv.batchesLive (hI : Inv n f) : BatchesLive n f := by
  have hexact : ∀ addr h, f.mem addr = some h →
      h.prod.tlsBytes = total n f.threads (tlsCharge addr) :=
    fun addr h hm => (hI.homes addr h hm).books.tls
  refine ⟨fun i => (hI.fits i).births, fun i => (hI.fits i).lives, hexact, ?_⟩
  intro addr h hm i hi
  rw [hexact addr h hm]
  exact le_total n i hi f.threads (tlsCharge addr)

/-- In every run in which no other thread is in a call to a producer when it
is freed, or has logs for it, no batch outlives its producer and no counter
of thread bytes goes below zero. -/
theorem run_batches_live (n : ℕ) (acts : List Act) (f : Fleet)
    (hclean : Machine.Along (step n) (FreesClean n) acts start) (h : run n acts start = some f) :
    BatchesLive n f := by
  have hI : Inv n f := Machine.run_invariant (step n) (Inv n) (FreesClean n)
    (fun _ a f' hI hc hs => step_inv hI a hc f' hs) acts start f (inv_start n) hclean h
  exact hI.batchesLive

def oneBucket : Config := { keyQueueBucketCount := 1 }

/-- Thread `i` adds a log to the producer at address 7. -/
def addLog (i : ℕ) : List Act :=
  [.call i 7 (.addKv ⟨5, 0, false, [([65], [66])]⟩ [] false), .writer i ⟨1, 1, 9⟩,
    .writer i ⟨1, 1, 9⟩]

/-- Thread `i` destroys the producer at address 7. -/
def destroyIt (i : ℕ) : List Act :=
  [.destroy i 7, .destroying i, .destroying i, .worker 7 0 ⟨1, 1, [], none, none⟩,
    .sender 7 0 ⟨1, 1, 7, none, .sent⟩, .destroying i]

/-- The thread that has the log destroys the producer, and the next one gets
the same address. -/
def replaced : List Act :=
  .create 7 oneBucket 0::addLog 1++destroyIt 1++[.create 7 oneBucket 0]++addLog 1

theorem replaced_batches_live : ∃ f, run 2 replaced start = some f ∧
    (f.mem 7).map (fun h => h.prod.tlsBytes) = some 12 ∧ (f.threads 1).births = [1] ∧
    BatchesLive 2 f :=
  ⟨_, rfl, by decide, by decide, run_batches_live 2 replaced _ (by decide) rfl⟩

/-- The same, but another thread destroys the producer. -/
def leftBehind : List Act :=
  .create 7 oneBucket 0::addLog 1++destroyIt 0++[.create 7 oneBucket 0]++addLog 1

theorem leftBehind_run : ∃ f f' : Fleet, run 2 leftBehind start = some f ∧
    (f.threads 1).births = [0, 1] ∧ (f.threads 1).writer.batch.producer = some 7 ∧
    (f.mem 7).map (fun h => h.birth) = some 1 ∧
    run 2 [.call 1 7 (.close 5), .writer 1 ⟨1, 1, 9⟩] f = some f' ∧
    (f'.mem 7).map (fun h => h.prod.tlsBytes) = some (2^64-12) :=
  ⟨_, _, rfl, by decide, by decide, by decide, rfl, by decide⟩

/-- The batch has one log of each producer, and its flush takes the bytes of
both off the counter of the second. -/
theorem leftBehind_not_live : ∃ f f' : Fleet, run 2 leftBehind start = some f ∧
    ¬BatchesLive 2 f ∧ run 2 [.call 1 7 (.close 5), .writer 1 ⟨1, 1, 9⟩] f = some f' ∧
    (f'.mem 7).map (fun h => h.prod.tlsBytes) = some (2^64-12) := by
  obtain ⟨f, f', hf, hbirths, hp, hbirth, hf', htls⟩ := leftBehind_run
  refine ⟨f, f', hf, ?_, hf', htls⟩
  intro h
  obtain ⟨addr, home, hp', hm, h0⟩ := h.live 1 0 (by rw [hbirths]; decide)
  rw [hp] at hp'
  obtain rfl := Option.some.inj hp'
  rw [hm, Option.map_some, h0] at hbirth
  cases hbirth

end Fleet

end VeTls
