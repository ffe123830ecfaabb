import VeTls.Lib.Machine
import VeTls.Pipeline.Limits

/-!
# Batches that are too large

The size of a request is judged when its body is compressed, for the batch as
a whole. A batch over the limit is dropped with all its logs. A run is written
down with the logs of the batch each worker has in its hands, and with those
that were reported with `PayloadTooLarge`.
-/

set_option autoImplicit false

namespace VeTls

open VeTls.Keys (Addr CStr KeyMap)

variable {cfg : Config}

def overLimit (cfg : Config) (size : ℕ) : Bool :=
  decide (cfg.aggStrategy = 1) && decide (cfg.aggMaxCompressedBytesPerRequest > 0) &&
    decide (size > cfg.aggMaxCompressedBytesPerRequest.toNat)

/-- The size of a request with these logs. `packed` is what the compressor
makes of a body, which its logs determine. -/
def requestSize (cfg : Config) (packed : Wire.Bytes → ℕ) (logs : List Log) : ℕ :=
  if Worker.shouldSkipCompress cfg (rawBody cfg (logs.map Log.size).sum) then
    rawBody cfg (logs.map Log.size).sum
  else packed (logs.flatMap Log.bytes)

/-- The log can be sent in a request of its own. -/
def fitsAlone (cfg : Config) (packed : Wire.Bytes → ℕ) (l : Log) : Bool :=
  !overLimit cfg (requestSize cfg packed [l])

/-- The bytes of a builder are those of its logs. -/
def Weighed (logs : List Log) (logsLen _ : ℕ) : Prop := logsLen = (logs.map Log.size).sum

theorem weighed_additive : Additive Weighed := by
  constructor
  · rfl
  · intro l l' n n' c c' h h'
    rw [Weighed, List.map_append, List.sum_append]
    exact congrArg₂ (·+·) h h'

theorem weighed_stores (id : ℤ) : Stores Weighed id := fun _ => (Nat.add_zero _).symm

namespace Worker

def compressedTask (answer : Option ℕ) (t : SendTask) : Option SendTask :=
  match answer with
  | some n => if n > 0 then some { t with precompressedSize := n } else none
  | none => none

/-- The task whose size a step compares with the limit. -/
def measured (cfg : Config) (i : Input) : Pc → Option SendTask
  | .prepare j =>
    if j.task.bodySize = 0 then none
    else if shouldSkipCompress cfg j.task.bodySize then some j.task
    else compressedTask i.pooled j.task
  | .compress j => compressedTask i.compressed j.task
  | _ => none

/-- The step drops the task with `PayloadTooLarge`. -/
def judged (cfg : Config) (i : Input) (pc : Pc) : Bool := (measured cfg i pc).any (tooLarge cfg)

theorem judged_measured {i : Input} {pc : Pc} (h : judged cfg i pc = true) :
    ∃ t, measured cfg i pc = some t ∧ tooLarge cfg t = true := by
  unfold judged at h
  cases hm : measured cfg i pc with
  | none =>
    rw [hm] at h
    cases h
  | some t =>
    rw [hm] at h
    exact ⟨t, rfl, h⟩

theorem tooLarge_eq (t : SendTask) : tooLarge cfg t = overLimit cfg (sendSize t) := rfl

theorem judged_judging (i : Input) (pc : Pc) (h : judged cfg i pc = true) : judging pc = true := by
  cases pc with
  | prepare j => rfl
  | compress j => rfl
  | _ => cases h

theorem compressedTask_size {answer : Option ℕ} {t t' : SendTask}
    (h : compressedTask answer t = some t') : ∃ n, answer = some n ∧ n > 0 ∧ sendSize t' = n := by
  cases answer with
  | none => cases h
  | some n =>
    simp only [compressedTask] at h
    split at h
    · rename_i hn
      obtain rfl := Option.some.inj h
      exact ⟨n, rfl, hn, if_pos hn⟩
    · cases h

/-- A judged task goes to the drop. -/
theorem judged_prepare (i : Input) (j : Job) (h : judged cfg i (.prepare j) = true) :
    ∃ j', prepare cfg i j = .drop j' := by
  obtain ⟨t, ht, hlarge⟩ := judged_measured h
  simp only [measured] at ht
  unfold prepare
  split at ht
  · cases ht
  · rename_i hzero
    rw [if_neg hzero]
    split at ht
    · rename_i hskip
      obtain rfl := Option.some.inj ht
      rw [if_pos hskip]
      exact ⟨j, if_pos hlarge⟩
    · rename_i hskip
      rw [if_neg hskip]
      cases hp : i.pooled with
      | none =>
        rw [hp] at ht
        cases ht
      | some n =>
        rw [hp] at ht
        simp only [compressedTask] at ht
        split at ht
        · rename_i hn
          obtain rfl := Option.some.inj ht
          exact ⟨setCompressed n j, (if_pos hn).trans (if_pos hlarge)⟩
        · cases ht

theorem judged_compress (i : Input) (j : Job) (h : judged cfg i (.compress j) = true) :
    ∃ j', compressDone cfg i j = .drop j' := by
  obtain ⟨t, ht, hlarge⟩ := judged_measured h
  unfold compressDone
  cases hc : i.compressed with
  | none =>
    simp only [measured, hc] at ht
    cases ht
  | some n =>
    simp only [measured, hc, compressedTask] at ht
    split at ht
    · rename_i hn
      obtain rfl := Option.some.inj ht
      exact ⟨setCompressed n j, (if_pos hn).trans (if_pos hlarge)⟩
    · cases ht

theorem prepare_compressing (i : Input) (j : Job)
    (h : compressing (prepare cfg i j) = true) :
    prepare cfg i j = .scratchLock j ∧ shouldSkipCompress cfg j.task.bodySize = false := by
  have hprepared : ∀ j', compressing (prepared cfg j') = false := by
    intro j'
    unfold prepared
    split
    · rfl
    · split <;> rfl
  unfold prepare at h ⊢
  split at h
  · cases h
  · rename_i hzero
    rw [if_neg hzero]
    split at h
    · rw [hprepared] at h
      cases h
    · rename_i hskip
      rw [if_neg hskip]
      refine ⟨?_, Bool.eq_false_iff.mpr hskip⟩
      split at h
      · split at h
        · rw [hprepared] at h
          cases h
        · rename_i hn
          exact if_neg hn
      · rfl

theorem compressDone_compressing (i : Input) (j : Job) :
    compressing (compressDone cfg i j) = false := by
  unfold compressDone
  split
  · split
    · unfold prepared
      split
      · rfl
      · split <;> rfl
    · rfl
  · rfl

end Worker

/-- A pipeline, the logs of the batch each worker has in its hands, whether
the worker has found it too large, and the logs reported so. -/
structure Blamed where
  sys : Sys
  body : ℕ → List Log
  blamed : ℕ → Bool
  tooLarge : List Log

namespace Blamed

variable {st : Setup} {packed : Wire.Bytes → ℕ}

def start (st : Setup) : Blamed := ⟨Sys.start st, fun _ => [], fun _ => false, []⟩

/-- A new batch comes with the next sealed builder; a raw log is none. -/
def carried (w : Worker) (pc : Worker.Pc) (body : List Log) : List Log :=
  match pc with
  | .prepare j =>
    if j.builderBytes.isSome then (w.sealedRest.head?.map fun x => x.builder.logs).getD [] else []
  | _ => body

/-- The logs the step calls back with `PayloadTooLarge`. -/
def calledBack (blamed : Bool) (body : List Log) : Worker.Pc → List Log
  | .drop _ => if blamed then body else []
  | _ => []

def step (st : Setup) (w : Blamed) (a : Act) : Option Blamed :=
  (Sys.step st w.sys a).map fun s =>
    match a with
    | .worker i input =>
      { sys := s
        body := Function.update w.body i
          (carried (w.sys.workers i) (s.workers i).pc (w.body i))
        blamed := Function.update w.blamed i (Worker.judged st.cfg input (w.sys.workers i).pc)
        tooLarge := w.tooLarge++calledBack (w.blamed i) (w.body i) (w.sys.workers i).pc }
    | _ => { w with sys := s }

/-- The compressor answers as it answers for this body. -/
def answersFor (packed : Wire.Bytes → ℕ) (body : List Log) (answer : Option ℕ) : Bool :=
  answer.all fun n => decide (n = 0 ∨ n = packed (body.flatMap Log.bytes))

/-- A body of a builder is compressed as `packed` says, or not at all. -/
def Honest (packed : Wire.Bytes → ℕ) (w : Blamed) : Act → Prop
  | .worker i input =>
    match (w.sys.workers i).pc with
    | .prepare j => j.builderBytes.isSome = true → answersFor packed (w.body i) input.pooled = true
    | .compress j =>
      j.builderBytes.isSome = true → answersFor packed (w.body i) input.compressed = true
    | _ => True
  | _ => True

instance (packed : Wire.Bytes → ℕ) (w : Blamed) (a : Act) : Decidable (Honest packed w a) :=
  match a with
  | .worker i input =>
    match h : (w.sys.workers i).pc with
    | .prepare j => decidable_of_iff
        (j.builderBytes.isSome = true → answersFor packed (w.body i) input.pooled = true)
        (by rw [Honest, h])
    | .compress j => decidable_of_iff
        (j.builderBytes.isSome = true → answersFor packed (w.body i) input.compressed = true)
        (by rw [Honest, h])
    | .top | .timed _ | .pop | .scratchLock _ | .scratchWait _ _ | .keyReserve _ | .sendLock _
    | .sendWait _ _ | .push _ _ | .unreserve _ | .drop _ | .release _ | .finish | .exited =>
      isTrue (by rw [Honest, h]; trivial)
  | .call _ _ | .writer _ _ | .sender _ _ => isTrue trivial

/-- A batch of two logs or more that is found too large has no log that could
be sent alone. -/
def NoneAlone (st : Setup) (packed : Wire.Bytes → ℕ) (w : Blamed) : Act → Prop
  | .worker i input =>
    Worker.judged st.cfg input (w.sys.workers i).pc = true → 2 ≤ (w.body i).length →
      ∀ l ∈ w.body i, fitsAlone st.cfg packed l = false
  | _ => True

instance (st : Setup) (packed : Wire.Bytes → ℕ) (w : Blamed) (a : Act) :
    Decidable (NoneAlone st packed w a) :=
  match a with
  | .worker i input => inferInstanceAs (Decidable
      (Worker.judged st.cfg input (w.sys.workers i).pc = true → 2 ≤ (w.body i).length →
        ∀ l ∈ w.body i, fitsAlone st.cfg packed l = false))
  | .call _ _ | .writer _ _ | .sender _ _ => isTrue trivial

/-- What is known of a worker and the batch in its hands. -/
structure Carries (cfg : Config) (packed : Wire.Bytes → ℕ) (w : Worker) (body : List Log)
    (blamed : Bool) : Prop where
  rest : ∀ x ∈ w.sealedRest, x.builder.Has Weighed
  size : ∀ j, Worker.job w.pc = some j → j.builderBytes.isSome = true →
    j.task.bodySize = rawBody cfg (body.map Log.size).sum
  raw : ∀ j, Worker.job w.pc = some j → j.builderBytes.isSome = false → body = []
  fresh : ∀ j, w.pc = .prepare j → j.task.precompressedSize = 0
  long : ∀ j, Worker.job w.pc = some j → Worker.compressing w.pc = true →
    Worker.shouldSkipCompress cfg j.task.bodySize = false
  blamed : blamed = true → ∀ l ∈ body, fitsAlone cfg packed l = false

variable {w : Worker} {body : List Log} {b : Bool}

/-- A single log that is found too large could not be sent alone. -/
theorem judged_alone (i : Worker.Input) (l : Log) (h : Carries st.cfg packed w [l] b)
    (j : Job) (hj : w.pc = .prepare j ∨ w.pc = .compress j) (hb : j.builderBytes.isSome = true)
    (hpool : w.pc = .prepare j → answersFor packed [l] i.pooled = true)
    (hcomp : w.pc = .compress j → answersFor packed [l] i.compressed = true)
    (hjudged : Worker.judged st.cfg i w.pc = true) : fitsAlone st.cfg packed l = false := by
  obtain ⟨t, ht, hlarge⟩ := Worker.judged_measured hjudged
  have hjob : Worker.job w.pc = some j := by
    obtain hpc | hpc := hj <;> (rw [hpc]; rfl)
  have hsize := h.size j hjob hb
  suffices hreq : requestSize st.cfg packed [l] = Worker.sendSize t by
    rw [fitsAlone, hreq, ← Worker.tooLarge_eq, hlarge]
    rfl
  have hanswer : ∀ answer, answersFor packed [l] answer = true →
      Worker.shouldSkipCompress st.cfg j.task.bodySize = false →
      Worker.compressedTask answer j.task = some t →
      requestSize st.cfg packed [l] = Worker.sendSize t := by
    intro answer hall hskip hc
    obtain ⟨n, rfl, hpos, hn⟩ := Worker.compressedTask_size hc
    rw [hsize] at hskip
    rw [requestSize, if_neg (Bool.eq_false_iff.mp hskip), hn]
    obtain hzero | hpacked := of_decide_eq_true hall
    · omega
    · exact hpacked.symm
  obtain hpc | hpc := hj
  · rw [hpc] at ht
    simp only [Worker.measured] at ht
    split at ht
    · cases ht
    · split at ht
      · rename_i hskip
        obtain rfl := Option.some.inj ht
        have hfresh := h.fresh j hpc
        rw [hsize] at hskip
        rw [requestSize, if_pos hskip, Worker.sendSize, if_neg (by omega), hsize]
      · rename_i hskip
        exact hanswer _ (hpool hpc) (Bool.eq_false_iff.mpr hskip) ht
  · rw [hpc] at ht
    exact hanswer _ (hcomp hpc) (h.long j hjob (by rw [hpc]; rfl)) ht

/-- The worker goes on with its batch. -/
theorem Carries.goesOn (h : Carries cfg packed w body b) (j : Job)
    (hj : Worker.job w.pc = some j) (pc : Worker.Pc) (hpc : Worker.GoesOn j pc)
    (hc : Worker.compressing pc = true → Worker.shouldSkipCompress cfg j.task.bodySize = false)
    (b' : Bool) (hb : b' = true → ∀ l ∈ body, fitsAlone cfg packed l = false) :
    Carries cfg packed { w with pc := pc } (carried w pc body) b' := by
  obtain ⟨⟨j₂, hj₂, hsame⟩, hprep⟩ := hpc
  have hbody : carried w pc body = body := by
    unfold carried
    split
    · exact absurd rfl (hprep _)
    · rfl
  have hsize : j₂.task.bodySize = j.task.bodySize := by rw [hsame.task]
  have hone : ∀ j', Worker.job pc = some j' → j' = j₂ :=
    fun j' hj' => (Option.some.inj (hj₂.symm.trans hj')).symm
  rw [hbody]
  refine ⟨h.rest, fun j' hj' hsome => ?_, fun j' hj' hnone => ?_, fun j' hj' => ?_,
    fun j' hj' hcomp => ?_, hb⟩
  · obtain rfl := hone j' hj'
    rw [hsize]
    rw [hsame.builderBytes] at hsome
    exact h.size j hj hsome
  · obtain rfl := hone j' hj'
    rw [hsame.builderBytes] at hnone
    exact h.raw j hj hnone
  · exact absurd hj' (hprep j')
  · obtain rfl := hone j' hj'
    rw [hsize]
    exact hc hcomp

/-- The worker has no batch. -/
theorem Carries.empty (h : Carries cfg packed w body b) (pc : Worker.Pc)
    (hpc : Worker.job pc = none) :
    Carries cfg packed { w with pc := pc } (carried w pc body) false := by
  have hnone : ∀ j, Worker.job pc ≠ some j := by
    intro j hj
    rw [hpc] at hj
    cases hj
  refine ⟨h.rest, fun j hj => absurd hj (hnone j), fun j hj => absurd hj (hnone j), ?_,
    fun j hj => absurd hj (hnone j), nofun⟩
  rintro j rfl
  cases hpc

/-- Under the condition no log of a batch that is found too large could be sent
alone. -/
theorem judged_none_alone (i : Worker.Input) (h : Carries st.cfg packed w body b)
    (hpool : ∀ j, w.pc = .prepare j → j.builderBytes.isSome = true →
      answersFor packed body i.pooled = true)
    (hcomp : ∀ j, w.pc = .compress j → j.builderBytes.isSome = true →
      answersFor packed body i.compressed = true)
    (hmany : Worker.judged st.cfg i w.pc = true → 2 ≤ body.length →
      ∀ l ∈ body, fitsAlone st.cfg packed l = false)
    (hjudged : Worker.judged st.cfg i w.pc = true) :
    ∀ l ∈ body, fitsAlone st.cfg packed l = false := by
  obtain ⟨j, hj⟩ : ∃ j, w.pc = .prepare j ∨ w.pc = .compress j := by
    have hjudging := Worker.judged_judging i w.pc hjudged
    generalize w.pc = pc at hjudging
    cases pc with
    | prepare j => exact ⟨j, .inl rfl⟩
    | compress j => exact ⟨j, .inr rfl⟩
    | _ => cases hjudging
  have hjob : Worker.job w.pc = some j := by
    obtain hpc | hpc := hj <;> (rw [hpc]; rfl)
  rcases body with _ | ⟨l, _ | ⟨l', rest⟩⟩
  · nofun
  · intro x hx
    obtain rfl := List.mem_singleton.mp hx
    cases hb : j.builderBytes.isSome with
    | false =>
      have hnil := h.raw j hjob hb
      cases hnil
    | true =>
      exact judged_alone i x h j hj hb (fun hpc => hpool j hpc hb) (fun hpc => hcomp j hpc hb)
        hjudged
  · refine hmany hjudged ?_
    rw [List.length_cons, List.length_cons]
    omega

theorem carries_next (h : Carries cfg packed w body b) :
    Carries cfg packed (Worker.next cfg w) (carried w (Worker.next cfg w).pc body) false := by
  unfold Worker.next
  split
  · exact h.empty .finish rfl
  · rename_i x rest hrest
    have hall := h.rest
    rw [hrest] at hall
    have hbody : carried w (.prepare ⟨builderToSendTask cfg x, some x.builder.logsLen⟩) body =
        x.builder.logs := by
      simp [carried, hrest]
    dsimp only
    rw [hbody]
    refine ⟨fun y hy => hall y (List.mem_cons_of_mem x hy), ?_, ?_, ?_, ?_, nofun⟩
    · intro j hj _
      obtain rfl := Option.some.inj hj
      have hlen : x.builder.logsLen = (x.builder.logs.map Log.size).sum :=
        hall x List.mem_cons_self
      rw [← hlen]
      rfl
    · intro j hj hb
      obtain rfl := Option.some.inj hj
      cases hb
    · intro j hj
      obtain rfl := Worker.Pc.prepare.inj hj
      rfl
    · intro j _ hcomp
      cases hcomp

theorem carries_turn (i : Worker.Input) {w' : Worker} (h : Carries cfg packed w body b)
    (ht : Worker.Turn cfg i w w')
    (hjudged : Worker.judged cfg i w.pc = true → ∀ l ∈ body, fitsAlone cfg packed l = false) :
    Carries cfg packed w' (carried w w'.pc body) (Worker.judged cfg i w.pc) := by
  have hquiet : Worker.judging w.pc = false → Worker.judged cfg i w.pc = false := by
    intro hj
    apply Bool.eq_false_iff.mpr
    intro hjudge
    rw [Worker.judged_judging i w.pc hjudge] at hj
    cases hj
  cases ht with
  | waits c hpc =>
    rw [hquiet (by rw [hpc]; rfl)]
    exact h.empty _ rfl
  | raw item hpc =>
    rw [hquiet (by rw [hpc]; rfl)]
    refine ⟨h.rest, ?_, ?_, ?_, ?_, nofun⟩
    · intro j hj hb
      obtain rfl := Option.some.inj hj
      cases hb
    · exact fun _ _ _ => rfl
    · intro j hj
      obtain rfl := Worker.Pc.prepare.inj hj
      rfl
    · intro j _ hcomp
      cases hcomp
  | next hpc =>
    rw [hquiet (by obtain hpc | ⟨n, hpc⟩ := hpc <;> (rw [hpc]; rfl))]
    exact carries_next h
  | prepares j hpc =>
    exact h.goesOn j (by rw [hpc]; rfl) _ (Worker.prepare_goesOn i j)
      (fun hc => (Worker.prepare_compressing i j hc).2) _ hjudged
  | compresses j hpc =>
    refine h.goesOn j (by rw [hpc]; rfl) _ (Worker.compressDone_goesOn i j) (fun hc => ?_) _ hjudged
    rw [Worker.compressDone_compressing] at hc
    cases hc
  | keeps j pc hj hw hd hj' hp hc =>
    exact h.goesOn j hj pc (Worker.goesOn_same j pc hj' hp) (fun hcomp => h.long j hj (hc hcomp)) _
      hjudged
  | drops j hpc =>
    rw [hquiet (by rw [hpc]; rfl)]
    unfold Worker.done
    split <;> exact h.empty _ rfl
  | pushes j start hpc =>
    rw [hquiet (by rw [hpc]; rfl)]
    unfold Worker.done
    split <;> exact h.empty _ rfl
  | finish hpc =>
    rw [hquiet (by rw [hpc]; rfl)]
    exact h.empty _ rfl

theorem carries_step (i : Worker.Input) {p : Producer} {r : Worker × Producer}
    (hs : KeyMap.Sound cfg.toKeyConfig p.keys) (hup : Upstream cfg Weighed p)
    (h : Carries cfg packed w body b)
    (hjudged : Worker.judged cfg i w.pc = true → ∀ l ∈ body, fitsAlone cfg packed l = false)
    (hstep : Worker.step cfg i w p = some r) :
    Carries cfg packed r.1 (carried w r.1.pc body) (Worker.judged cfg i w.pc) := by
  obtain ht | ht := Worker.step_cases i hs hstep
  · have hquiet : Worker.judged cfg i w.pc = false := by
      obtain ⟨c, hpc⟩ | hpc := ht.starts <;> (rw [hpc]; rfl)
    rw [hquiet]
    obtain rfl | ⟨p', hm, hpc, hrest, _⟩ := ht.taken hs
    · exact h.empty _ rfl
    · obtain ⟨hmoves, _, _⟩ := Worker.mergeAll_moves i.now _ i.addrs w p p' hs rfl hm
      have hkept := (hmoves.contents weighed_additive hup).kept
      have hnone : Worker.job r.1.pc = none := by
        rw [hpc]
        rfl
      refine ⟨fun x hx => hkept _ (hrest x hx), ?_, ?_, ?_, ?_, nofun⟩
      · intro j hj
        rw [hnone] at hj
        cases hj
      · intro j hj
        rw [hnone] at hj
        cases hj
      · intro j hj
        rw [hpc] at hj
        cases hj
      · intro j hj
        rw [hnone] at hj
        cases hj
  · exact carries_turn i h ht.2.1 hjudged

structure Inv (st : Setup) (packed : Wire.Bytes → ℕ) (w : Blamed) : Prop where
  good : Sys.Good st w.sys
  every : Sys.Every st Weighed w.sys
  carries : ∀ i, Carries st.cfg packed (w.sys.workers i) (w.body i) (w.blamed i)
  tooLarge : ∀ l ∈ w.tooLarge, fitsAlone st.cfg packed l = false

theorem inv_start (st : Setup) (packed : Wire.Bytes → ℕ) : Inv st packed (start st) :=
  ⟨Sys.good_start st, Sys.every_start weighed_additive st,
    fun _ => ⟨nofun, nofun, nofun, nofun, nofun, nofun⟩, nofun⟩

theorem inv_step (w w' : Blamed) (a : Act) (hi : Inv st packed w)
    (ha : Honest packed w a ∧ NoneAlone st packed w a) (h : step st w a = some w') :
    Inv st packed w' := by
  obtain ⟨s, hs, he⟩ := Option.map_eq_some_iff.mp h
  have hgood := Sys.good_step _ _ a hi.good hs
  have hevery := (Sys.every_step weighed_additive _ _ a hi.good (fun id _ => weighed_stores id)
    hi.every hs).2
  cases a with
  | call i c =>
    subst he
    simp only [Sys.step] at hs
    split at hs
    · obtain ⟨r, _, rfl⟩ := Option.map_eq_some_iff.mp hs
      exact ⟨hgood, hevery, hi.carries, hi.tooLarge⟩
    · cases hs
  | writer i input =>
    subst he
    simp only [Sys.step] at hs
    split at hs
    · obtain ⟨r, _, rfl⟩ := Option.map_eq_some_iff.mp hs
      exact ⟨hgood, hevery, hi.carries, hi.tooLarge⟩
    · cases hs
  | sender i input =>
    subst he
    simp only [Sys.step] at hs
    split at hs
    · obtain ⟨r, _, rfl⟩ := Option.map_eq_some_iff.mp hs
      exact ⟨hgood, hevery, hi.carries, hi.tooLarge⟩
    · cases hs
  | worker i input =>
    subst he
    simp only [Sys.step] at hs
    split at hs
    · obtain ⟨r, hr, rfl⟩ := Option.map_eq_some_iff.mp hs
      obtain ⟨hhonest, hmany⟩ := ha
      have hjudged := judged_none_alone input (hi.carries i)
        (fun j hpc hb => by simp only [Honest, hpc] at hhonest; exact hhonest hb)
        (fun j hpc hb => by simp only [Honest, hpc] at hhonest; exact hhonest hb) hmany
      have hself : (w.sys.setWorker i r).workers i = r.1 := Function.update_self _ _ _
      refine ⟨hgood, hevery, fun k => ?_, fun l hl => ?_⟩
      · by_cases hk : k = i
        · subst hk
          dsimp only
          rw [hself, Function.update_self, Function.update_self]
          exact carries_step input hi.good.sound hi.every.upstream (hi.carries k) hjudged hr
        · dsimp only
          rw [Function.update_of_ne hk, Function.update_of_ne hk]
          have hother : (w.sys.setWorker i r).workers k = w.sys.workers k :=
            Function.update_of_ne hk _ _
          rw [hother]
          exact hi.carries k
      · obtain hl | hl := List.mem_append.mp hl
        · exact hi.tooLarge l hl
        · unfold calledBack at hl
          split at hl
          · split at hl
            · rename_i hblamed
              exact (hi.carries i).blamed hblamed l hl
            · cases hl
          · cases hl
    · cases hs

/-- Bodies go out as they are, and may have twenty bytes. -/
def plain : Setup :=
  ⟨{ keyQueueBucketCount := 1, compressNone := true, aggMaxCompressedBytesPerRequest := 20 }, 1, 0⟩

def shortLog : Wire.KvLog := ⟨5, 0, false, [([65], [66])]⟩

def longLog : Wire.KvLog := ⟨5, 0, false, [([65], List.replicate 20 66)]⟩

def addLog (kv : Wire.KvLog) (flush : Bool) (steps : ℕ) : List Act :=
  .call 0 (.addKv kv [] flush)::List.replicate steps (.writer 0 ⟨1, 1, 9⟩)

def work (steps : ℕ) : List Act := List.replicate steps (.worker 0 ⟨1, 1, [8], none, none⟩)

/-- A log on its own, and then one that is too large for any request. -/
def oneOfEach : List Act := addLog shortLog true 3++work 7++addLog longLog true 3++work 4

/-- Two logs in one batch. -/
def twoInOne : List Act := addLog shortLog false 2++addLog shortLog true 3++work 4

end Blamed

end VeTls
