import VeTls.Proto.Upright
import VeTls.Proto.Written

/-!
# When the export is complete

An export that succeeds should have written every log that was held when it
began, and one that fails should leave every log held. What is written and
what is lost is decided by the state before the call, by the memory that is
there, and by a wait for room.
-/

set_option autoImplicit false

namespace VeTls.Export

open VeTls.Keys (KeyMap)
open VeTls.Keys.KeyMap (Sound)
open VeTls.Wire (Bytes)

variable {cfg : Config}

/-- The logs in the batch of the thread, if it is one for this producer. -/
def ownBatch (cfg : Config) (me : ℕ) (w : Writer) : List Log :=
  if w.batch.producer = some me then (Writer.tlsBuilder cfg w).logs else []

/-- The logs that are held apart from the raw queue. -/
def heldLogs (cfg : Config) (me : ℕ) (w : Writer) (p : Producer) : List Log :=
  keptLogs cfg p++(taskLogs p.ingressQueue++ownBatch cfg me w)

/-- A successful export has written all that was held, a failed one has left
it where it was or moved it to another place that is held. -/
def Complete (cfg : Config) (me : ℕ) (suffix : Bytes) (w : Writer) (p : Producer)
    (r : Result × Bytes) (w' : Writer) (p' : Producer) : Prop :=
  (r.1 = .ok → Contains suffix r.2 p.queue (heldLogs cfg me w p)) ∧
    (r.1 ≠ .ok → p'.queue = p.queue ∧ (heldLogs cfg me w p).Subperm (heldLogs cfg me w' p'))

section Condition

/-- The batch of the thread, if it has logs, can be merged. -/
def ownMerges (cfg : Config) (me : ℕ) (e : Env) (w : Writer) (p : Producer) : Bool :=
  !ownLogs me w ||
    (decide ((e.turn.wait cfg p (Writer.tlsBuilder cfg w).logsLen).1 = .rc .ok) &&
      !refuses (KeyMap.atLimit cfg.toKeyConfig p.keys) (e.mem 0) (homeSizes cfg p))

def ownSeals (cfg : Config) (me : ℕ) (w : Writer) (p : Producer) : Bool :=
  ownLogs me w && seals cfg (ownTask cfg w) (homeSizes cfg p)

def ownHome (cfg : Config) (me : ℕ) (w : Writer) (p : Producer) : Home :=
  if ownLogs me w then after cfg (ownTask cfg w) (homeSizes cfg p) else homeSizes cfg p

/-- Whether the merge of the ingress queue seals anything; `none` when it
fails. -/
def ingressSeals (cfg : Config) (me : ℕ) (e : Env) (w : Writer) (p : Producer) : Option Bool :=
  merges cfg (KeyMap.atLimit cfg.toKeyConfig p.keys) e.mem 1 p.ingressQueue (ownHome cfg me w p)

/-- The keys and sizes of all builders that the export writes when nothing
fails. -/
def outlines (cfg : Config) (me : ℕ) (e : Env) (w : Writer) (p : Producer) : List (ℕ × ℕ) :=
  let fresh := ownSeals cfg me w p || (ingressSeals cfg me e w p).getD false
  let key := if fresh then cfg.hashKey else homeKey cfg p
  let home := (homeAfter cfg p.ingressQueue (ownHome cfg me w p)).join
  ((home.filter fun x => decide (x.1 > 0)).map fun x => (key.length, x.2)).toList++
    ((others cfg p).filter fun b => decide (b.logCount > 0)).map outline

/-- The export gets as far as to return a buffer. -/
def Writes (cfg : Config) (me : ℕ) (suffix : Bytes) (e : Env) (w : Writer) (p : Producer) : Prop :=
  ownMerges cfg me e w p = true ∧ ingressSeals cfg me e w p ≠ none ∧ e.out = true ∧
    Fits suffix p.queue (outlines cfg me e w p)

/-- A task of the ingress queue is popped and then not merged. -/
def LosesTask (cfg : Config) (me : ℕ) (e : Env) (w : Writer) (p : Producer) : Prop :=
  ownMerges cfg me e w p = true ∧ ingressSeals cfg me e w p = none

/-- No log is in a sealed builder, none gets there, and no length is cut. -/
def AllRecorded (cfg : Config) (me : ℕ) (suffix : Bytes) (e : Env) (w : Writer) (p : Producer) :
    Prop :=
  sealedLogs p = [] ∧ ownSeals cfg me w p = false ∧ ingressSeals cfg me e w p = some false ∧
    (∀ i ∈ p.queue, i.data.length < 2^32) ∧
      ∀ x ∈ outlines cfg me e w p, groupSize suffix x.2 < 2^32

end Condition

/-- `calloc` returns addresses that are not in use. -/
structure Fresh (cfg : Config) (e : Env) (p : Producer) : Prop where
  injective : Function.Injective e.addr
  unused : ∀ i, e.addr i ∉ KeyMap.live cfg.toKeyConfig p.keys

section Own

variable {me : ℕ} {e : Env} {w : Writer} {p : Producer}

def ownTasks (cfg : Config) (me : ℕ) (w : Writer) : List IngressTask :=
  if ownLogs me w then [ownTask cfg w] else []

theorem ownLogs_spec (cfg : Config) (h : ownLogs me w = true) :
    w.batch.producer = some me ∧ (Writer.tlsBuilder cfg w).logCount > 0 := by
  unfold ownLogs at h
  obtain ⟨hp, hb⟩ := Bool.and_eq_true_iff.mp h
  refine ⟨of_decide_eq_true hp, ?_⟩
  unfold Writer.tlsBuilder
  cases hbuilder : w.batch.builder with
  | none =>
    rw [hbuilder] at hb
    cases hb
  | some b =>
    rw [hbuilder] at hb
    exact of_decide_eq_true hb

theorem ownTask_noLogs (hz : Writer.Own cfg me Sized w) (hown : ownLogs me w = true) :
    noLogs (ownTask cfg w) = false := by
  obtain ⟨hp, hcount⟩ := ownLogs_spec cfg hown
  obtain ⟨hc, hlen⟩ := hz hp
  have hne : ¬ ((Writer.tlsBuilder cfg w).logCount = 0 ∨ (Writer.tlsBuilder cfg w).logsLen = 0) := by
    omega
  exact decide_eq_false hne

theorem ownTasks_home (hz : Writer.Own cfg me Sized w) :
    homeAfter cfg (ownTasks cfg me w) (homeSizes cfg p) = ownHome cfg me w p := by
  unfold ownTasks ownHome
  cases hown : ownLogs me w with
  | true =>
    rw [if_pos rfl, if_pos rfl, homeAfter, ownTask_noLogs hz hown]
    rfl
  | false => rfl

theorem ownTasks_logs (hz : Writer.Own cfg me Sized w) :
    taskLogs (ownTasks cfg me w) = ownBatch cfg me w := by
  unfold ownTasks ownBatch
  cases hown : ownLogs me w with
  | true =>
    rw [if_pos rfl, if_pos (ownLogs_spec cfg hown).1, taskLogs_cons]
    exact List.append_nil _
  | false =>
    rw [if_neg (by simp)]
    split
    case isTrue hp =>
      have hempty := (hz hp).empty
      refine (hempty (Or.inl ?_)).symm
      unfold Writer.tlsBuilder
      cases hb : w.batch.builder with
      | none => rfl
      | some b =>
        have hn : ¬ b.logCount > 0 := by simpa [ownLogs, hp, hb] using hown
        show b.logCount = 0
        omega
    case isFalse => rfl

/-- The export has come to the ingress queue. -/
structure Begun (cfg : Config) (me : ℕ) (e : Env) (w : Writer) (p : Producer) (w₁ : Writer)
    (p₁ : Producer) : Prop where
  batch : ownBatch cfg me w₁ = []
  merged : Merged cfg (ownTasks cfg me w) (ownSeals cfg me w p) p p₁
  ingressQueue : p₁.ingressQueue = p.ingressQueue
  unused : ∀ i, 1 ≤ i → e.addr i ∉ KeyMap.live cfg.toKeyConfig p₁.keys
  limit : homeSizes cfg p₁ = none →
    KeyMap.atLimit cfg.toKeyConfig p₁.keys = KeyMap.atLimit cfg.toKeyConfig p.keys

theorem turn_quiet (cfg : Config) (p : Producer) (turn : Turn) (need : ℕ) :
    Quiet p (turn.wait cfg p need).2 ∧ ((turn.wait cfg p need).1 = .rc .ok →
      (turn.wait cfg p need).2 = p) := by
  have hw : Waited cfg p need false (turn.wait cfg p need) := by
    cases turn with
    | first now now2 => exact waitBufferSpaceLocked_waited p need false now now2
    | woken deadline now => exact waitLoop_waited p need false deadline now
  exact ⟨hw.quiet, fun h => (hw.ok h).1⟩

theorem refused_quiet {p₁ : Producer} (hs : Sound cfg.toKeyConfig p.keys) (hq : Quiet p p₁) :
    Refused cfg p p₁ := by
  obtain ⟨f, n, k, l, _, _, rfl⟩ := hq
  exact ⟨hs, List.Perm.refl _, rfl, rfl⟩

/-- The merge of the thread's batch. -/
theorem tlsBatchMergeWith_spec (hu : Upright cfg me w p) (hf : Fresh cfg e p)
    (hown : ownLogs me w = true) :
    (ownMerges cfg me e w p = false ∧ ∃ r p₁, tlsBatchMergeWith cfg e w p = (r, w, p₁) ∧
        r ≠ .rc .ok ∧ Refused cfg p p₁) ∨
      (ownMerges cfg me e w p = true ∧ ∃ w₁ p₁, tlsBatchMergeWith cfg e w p = (.rc .ok, w₁, p₁) ∧
        Begun cfg me e w p w₁ p₁) := by
  have hz : (ownTask cfg w).batch.Has Sized := hu.ownSized (ownLogs_spec cfg hown).1
  have hn := ownTask_noLogs hu.ownSized hown
  have hne : ¬ ((Writer.tlsBuilder cfg w).logCount = 0 ∨ (Writer.tlsBuilder cfg w).logsLen = 0) :=
    of_decide_eq_false hn
  obtain ⟨hquiet, hsame⟩ := turn_quiet cfg p e.turn (Writer.tlsBuilder cfg w).logsLen
  rw [tlsBatchMergeWith, ownMerges, hown, Bool.not_true, Bool.false_or]
  rw [if_neg hne]
  generalize e.turn.wait cfg p (Writer.tlsBuilder cfg w).logsLen = r at hquiet hsame ⊢
  obtain ⟨r, p₀⟩ := r
  by_cases hr : r = .rc .ok
  · obtain rfl : p₀ = p := hsame hr
    subst hr
    rcases ingressTaskMergeWith_spec (e.mem 0) (ownTask cfg w) (e.addr 0) e.now p₀ hu.sound
        (hf.unused 0) rfl hn with ⟨hrefuses, p₁, he, hrefused⟩ | ⟨hrefuses, p₁, he, hfilled⟩
    · rw [hrefuses]
      refine Or.inl ⟨by simp, .rc .full, p₁, ?_, nofun, hrefused⟩
      dsimp only
      rw [he]
    · rw [hrefuses]
      have hmerged := hfilled.merged hn hz
      refine Or.inr ⟨by simp, _, { p₁ with
        tlsBytes := wrapSub p₁.tlsBytes (Writer.tlsBuilder cfg w).logsLen }, by dsimp only; rw [he],
        ?_, ?_, hfilled.ingressQueue, ?_, ?_⟩
      · unfold ownBatch
        split <;> rfl
      · rw [ownTasks, ownSeals, hown]
        exact ⟨hmerged.sound, hmerged.home, hmerged.key, hmerged.logs, hmerged.shelf,
          hmerged.sealedLogs, hmerged.has, hmerged.queue⟩
      · intro i hi ha
        rcases hfilled.live _ ha with ha | ha
        · exact hf.unused i ha
        · have := hf.injective ha
          omega
      · intro hnone
        have hhome : homeSizes cfg p₁ = none := hnone
        rw [hfilled.home, after] at hhome
        split at hhome <;> cases hhome
  · refine Or.inl ⟨by simp [hr], r, p₀, ?_, hr, refused_quiet hu.sound hquiet⟩
    split
    case h_1 he => exact absurd (Prod.mk.inj he).1 hr
    case h_2 he =>
      obtain ⟨rfl, rfl⟩ := Prod.mk.inj he
      rfl

/-- The export comes to the ingress queue, or it returns with the logs where
they were. -/
theorem begin_spec (hu : Upright cfg me w p) (hf : Fresh cfg e p) :
    (ownMerges cfg me e w p = false ∧ ∃ r p₁,
        (if ownLogs me w then tlsBatchMergeWith cfg e w p else (.rc .ok, w, p)) = (r, w, p₁) ∧
        r ≠ .rc .ok ∧ Refused cfg p p₁) ∨
      (ownMerges cfg me e w p = true ∧ ∃ w₁ p₁,
        (if ownLogs me w then tlsBatchMergeWith cfg e w p else (.rc .ok, w, p)) =
          (.rc .ok, w₁, p₁) ∧ Begun cfg me e w p w₁ p₁) := by
  cases hown : ownLogs me w with
  | true =>
    rw [if_pos rfl]
    exact tlsBatchMergeWith_spec hu hf hown
  | false =>
    have htasks : ownTasks cfg me w = [] := by rw [ownTasks, hown]; rfl
    rw [if_neg (by simp)]
    refine Or.inr ⟨by rw [ownMerges, hown]; rfl, w, p, rfl, ?_, ?_, rfl, fun i _ => hf.unused i,
      fun _ => rfl⟩
    · rw [← ownTasks_logs hu.ownSized, htasks]
      rfl
    · rw [htasks, ownSeals, hown]
      exact Merged.nil p hu.sound

theorem ownTasks_has {Q : List Log → ℕ → ℕ → Prop} (ho : Writer.Own cfg me Q w) :
    ∀ t ∈ ownTasks cfg me w, t.batch.Has Q := by
  intro t ht
  unfold ownTasks at ht
  split at ht
  · rename_i hown
    rw [List.mem_singleton.mp ht]
    exact ho (ownLogs_spec cfg hown).1
  · cases ht

theorem tasks_have {Q : List Log → ℕ → ℕ → Prop} (ho : Writer.Own cfg me Q w)
    (hp : Upstream cfg Q p) : ∀ t ∈ ownTasks cfg me w++p.ingressQueue, t.batch.Has Q := by
  intro t ht
  rcases List.mem_append.mp ht with ht | ht
  · exact ownTasks_has ho t ht
  · exact hp.ingress t ht

theorem heldLogs_tasks (hz : Writer.Own cfg me Sized w) :
    (heldLogs cfg me w p).Perm (keptLogs cfg p++taskLogs (ownTasks cfg me w++p.ingressQueue)) := by
  rw [heldLogs, taskLogs_append, ownTasks_logs hz]
  exact List.perm_append_comm.append_left _

theorem keptLogs_held : (keptLogs cfg p).Subperm (heldLogs cfg me w p) :=
  (List.sublist_append_left _ _).subperm

/-- What the builders are after the merges, from what there was before. -/
theorem fullBuilders_outline {p' : Producer} {s : Bool} (hu : Upright cfg me w p)
    (hs : ingressSeals cfg me e w p = some s)
    (h : Merged cfg (ownTasks cfg me w++p.ingressQueue) (ownSeals cfg me w p || s) p p') :
    ((fullBuilders cfg p').map outline).Perm (outlines cfg me e w p) := by
  have hshelf := h.shelf (others cfg p) (shelf_others p hu.sound)
  have hfull := (hshelf.filter fun b => decide (b.logCount > 0)).map outline
  rw [List.filter_append, List.map_append, homeOutline, h.home, h.key, homeAfter_append,
    ownTasks_home hu.ownSized] at hfull
  rw [outlines, hs]
  exact hfull

end Own

/-- An export that returns is complete exactly when no task is popped and
then lost, and when, if it gets as far as to return a buffer, no log is in a
sealed builder, none gets there and no record is cut. -/
theorem export_complete_iff (cfg : Config) (me : ℕ) (suffix : Bytes) (e : Env) (w w' : Writer)
    (p p' : Producer) (r : Result × Bytes) (hu : Upright cfg me w p) (hf : Fresh cfg e p)
    (h : exportRawBufferWith cfg me suffix e w p = some (r, w', p')) :
    Complete cfg me suffix w p r w' p' ↔
      ¬ LosesTask cfg me e w p ∧ (Writes cfg me suffix e w p → AllRecorded cfg me suffix e w p) := by
  have hheld := heldLogs_tasks (p := p) hu.ownSized
  rw [exportRawBufferWith] at h
  rcases begin_spec hu hf with ⟨hno, r₁, p₁, hbegin, hr, hrefused⟩ | ⟨hyes, w₁, p₁, hbegin, hbegun⟩
  · -- nothing was popped yet
    have hleft : (heldLogs cfg me w p).Subperm (heldLogs cfg me w p₁) := by
      rw [heldLogs, heldLogs, hrefused.ingressQueue]
      exact (hrefused.logs.symm.append_right _).subperm
    have hdone : ∀ c : Result, c ≠ .ok → some ((c, ([] : Bytes)), w, p₁) = some (r, w', p') →
        Complete cfg me suffix w p r w' p' := by
      intro c hc he
      obtain ⟨rfl, rfl, rfl⟩ : (c, []) = r ∧ w = w' ∧ p₁ = p' := by simpa using he
      exact ⟨fun hok => absurd hok hc, fun _ => ⟨hrefused.queue, hleft⟩⟩
    refine iff_of_true ?_ ⟨fun hl => ?_, fun hw => ?_⟩
    · rw [hbegin] at h
      cases r₁ with
      | block d => cases h
      | rc c =>
        cases c with
        | ok => exact absurd rfl hr
        | full => exact hdone .dropError (by simp) h
        | closed => exact hdone .closed (by simp) h
        | timeout => exact hdone .timeout (by simp) h
    · exact absurd (hno.symm.trans hl.1) (by simp)
    · exact absurd (hno.symm.trans hw.1) (by simp)
  · rw [hbegin] at h
    dsimp only at h
    rw [hbegun.ingressQueue] at h
    have hhome : homeSizes cfg p₁ = ownHome cfg me w p :=
      hbegun.merged.home.trans (ownTasks_home hu.ownSized)
    have hmerge := exportMergeWith_spec e.now e.addr e.mem (KeyMap.atLimit cfg.toKeyConfig p.keys)
      p.ingressQueue 1 p₁ hbegun.merged.sound hf.injective hbegun.unused hbegun.limit hu.keyed
      hu.sized.ingress
    rw [hhome] at hmerge
    rcases hmerge with ⟨hnone, p₂, he, hlost⟩ | ⟨s, hsome, p₂, he, hmerged⟩
    · -- the task that was refused is gone
      rw [he] at h
      obtain ⟨rfl, rfl, rfl⟩ : (Result.dropError, []) = r ∧ w₁ = w' ∧ p₂ = p' := by simpa using h
      obtain ⟨lost, hne, hp⟩ := (hbegun.merged.lost hlost).logs
      refine iff_of_false (fun hc => ?_) fun hc => hc.1 ⟨hyes, hnone⟩
      obtain ⟨-, hsub⟩ := hc.2 (by simp)
      have hlen := hsub.length_le
      rw [hheld.length_eq, ← hp.length_eq, heldLogs, hbegun.batch] at hlen
      have := List.length_pos_iff.mpr hne
      simp only [List.length_append, List.length_nil] at hlen
      omega
    · have hsome : ingressSeals cfg me e w p = some s := hsome
      rw [he] at h
      obtain ⟨rfl, rfl, rfl⟩ : (if e.out then exportRecords cfg suffix p₂ else (.dropError, [])) = r ∧
        w₁ = w' ∧ p₂ = p' := by simpa using h
      have hall := hbegun.merged.trans hmerged
      have hlogs : (heldLogs cfg me w p).Perm (keptLogs cfg p₂) := hheld.trans hall.logs.symm
      have hleft : p₂.queue = p.queue ∧ (heldLogs cfg me w p).Subperm (heldLogs cfg me w₁ p₂) :=
        ⟨hall.queue, hlogs.subperm.trans keptLogs_held⟩
      have hnot : ¬ LosesTask cfg me e w p := fun hl => by
        have := hl.2.symm.trans hsome
        cases this
      have houtline := fullBuilders_outline hu hsome hall
      have hz := hall.has Sized sized_additive (tasks_have hu.ownSized hu.sized) hu.sized.kept
      have hw := hall.has Weighed weighed_additive (tasks_have hu.ownWeighed hu.weighed)
        hu.weighed.kept
      cases hout : e.out with
      | false =>
        refine iff_of_true ⟨by simp, fun _ => hleft⟩ ⟨hnot, fun hwrites => ?_⟩
        have := hout.symm.trans hwrites.2.2.1
        cases this
      | true =>
        have hrecords := exportRecords_spec suffix p₂ fun b hb =>
          hw b (List.mem_append_left _ (List.mem_filter.mp hb).1)
        rw [hall.queue, Fits.perm houtline] at hrecords
        rcases hrecords with ⟨hfit, he⟩ | ⟨hbig, he⟩
        · have hcontains := contains_written suffix p₂ (heldLogs cfg me w p) hz hw hlogs
            (by rw [hall.queue, Fits.perm houtline]; exact hfit)
          rw [hall.queue, hall.sealedLogs, Bool.or_eq_false_iff] at hcontains
          have hwrites : Writes cfg me suffix e w p :=
            ⟨hyes, by simp [hsome], hout, hfit⟩
          have hrecorded : AllRecorded cfg me suffix e w p ↔
              (sealedLogs p = [] ∧ ownSeals cfg me w p = false ∧ s = false) ∧
                (∀ i ∈ p.queue, i.data.length < 2^32) ∧
                  ∀ x ∈ (fullBuilders cfg p₂).map outline, groupSize suffix x.2 < 2^32 := by
            simp only [AllRecorded, hsome, Option.some.injEq, houtline.mem_iff, and_assoc]
          rw [if_pos rfl, he, Complete]
          dsimp only
          constructor
          · intro hc
            exact ⟨hnot, fun _ => hrecorded.mpr (hcontains.mp (hc.1 rfl))⟩
          · intro hc
            exact ⟨fun _ => hcontains.mpr (hrecorded.mp (hc.2 hwrites)), fun hne => absurd rfl hne⟩
        · rw [if_pos rfl, he]
          exact iff_of_true ⟨by simp, fun _ => hleft⟩
            ⟨hnot, fun hwrites => absurd hwrites.2.2.2 hbig⟩

/-- Every allocation succeeds, at addresses from 100 on. -/
def plenty : Env := ⟨.first 1 1, 1, fun i => 100+i, fun _ => allAllocs, true⟩

theorem plenty_fresh (cfg : Config) (p : Producer)
    (h : ∀ a ∈ KeyMap.live cfg.toKeyConfig p.keys, a < 100) : Fresh cfg plenty p := by
  constructor
  · intro i j hij
    have hij : 100+i = 100+j := hij
    omega
  · intro i ha
    have ha : 100+i < 100 := h _ ha
    omega

/-- A log in the batch of the thread, and a raw log. -/
def holdTwo : List Act :=
  [.call 0 (.addKv ⟨5, 0, false, [([65], [66])]⟩ [] false), .writer 0 ⟨1, 1, 9⟩,
    .writer 0 ⟨1, 1, 9⟩, .call 0 (.addRaw ⟨5, 0, false, [1, 2, 3], true⟩), .writer 0 ⟨1, 1, 9⟩,
    .writer 0 ⟨1, 1, 9⟩]
theorem holdTwo_complete : ∃ s buf w' p',
    Sys.run Sys.twoWriters holdTwo (Sys.start Sys.twoWriters) = some s ∧
      exportRawBufferWith Sys.twoWriters.cfg Sys.twoWriters.me [] plenty (s.writers 0) s.prod =
        some ((.ok, buf), w', p') ∧
      Complete Sys.twoWriters.cfg Sys.twoWriters.me [] (s.writers 0) s.prod (.ok, buf) w' p' := by
  refine ⟨_, _, _, _, rfl, rfl, ?_⟩
  refine (export_complete_iff _ _ _ plenty _ _ _ _ _ (upright_run Sys.twoWriters holdTwo _ rfl 0)
    (plenty_fresh _ _ (by decide +kernel)) rfl).mpr ⟨fun h => ?_, fun _ => ⟨?_, ?_, ?_, ?_, ?_⟩⟩
  · exact absurd h.2 (by decide +kernel)
  · decide +kernel
  · decide +kernel
  · decide +kernel
  · decide +kernel
  · decide +kernel
/-- A builder is full with one log. -/
def oneLog : Setup := ⟨{ logCountPerPackage := 1, keyQueueBucketCount := 1 }, 1, 0⟩

def sealOne : List Act :=
  [.call 0 (.addKv ⟨5, 0, false, [([65], [66])]⟩ [75] false), .writer 0 ⟨1, 1, 9⟩]

/-- One key at most, and two logs in a builder. -/
def oneKey : Setup :=
  ⟨{ keyQueueMaxActive := 1, keyQueueBucketCount := 1, logCountPerPackage := 2 }, 2, 0⟩

/-- The first thread adds a log under a key, and one that it hands over. -/
def publishOne : List Act :=
  [.call 0 (.addKv ⟨5, 0, false, [([65], [66])]⟩ [75] false), .writer 0 ⟨1, 1, 9⟩,
    .call 0 (.addKv ⟨5, 0, false, [([65], [66])]⟩ [] true), .writer 0 ⟨1, 1, 10⟩,
    .writer 0 ⟨1, 1, 10⟩, .writer 0 ⟨1, 1, 10⟩]

theorem contains_empty (suffix buf : Bytes) (raws : List RawItem) (logs : List Log)
    (hbuf : exportedData buf = some []) (h : Contains suffix buf raws logs) : logs = [] := by
  obtain ⟨data, hdata, groups, hsub, hin⟩ := h
  obtain rfl := Option.some.inj (hbuf.symm.trans hdata)
  have hnone := hsub.length_le
  simp only [List.length_append, List.length_map, List.length_nil] at hnone
  have hgroups : groups = [] := List.length_eq_zero_iff.mp (by omega)
  rw [hgroups] at hin
  exact List.length_eq_zero_iff.mp (Nat.le_zero.mp hin.length_le)

/-- A builder that is sealed is not among the records of a successful export;
a batch that cannot be merged at the key limit is popped by an export that
fails. -/
theorem sealOne_publishOne_incomplete :
    (∃ s, Sys.run oneLog sealOne (Sys.start oneLog) = some s ∧ Fresh oneLog.cfg plenty s.prod ∧
      exportRawBufferWith oneLog.cfg oneLog.me [] plenty (s.writers 0) s.prod =
        some ((.ok, bufferBytes 2 []), s.writers 0, s.prod) ∧
      ¬ Complete oneLog.cfg oneLog.me [] (s.writers 0) s.prod (.ok, bufferBytes 2 [])
        (s.writers 0) s.prod) ∧
    ∃ s p', Sys.run oneKey publishOne (Sys.start oneKey) = some s ∧
      Fresh oneKey.cfg plenty s.prod ∧
      exportRawBufferWith oneKey.cfg oneKey.me [] plenty (s.writers 1) s.prod =
        some ((.dropError, []), s.writers 1, p') ∧
      ¬ Complete oneKey.cfg oneKey.me [] (s.writers 1) s.prod (.dropError, []) (s.writers 1) p' := by
  constructor
  · refine ⟨_, rfl, plenty_fresh _ _ (by decide +kernel), ?_, ?_⟩
    · rw [exportRawBufferWith_eq _ _ _ _ _ _ (by decide +kernel) (by decide +kernel)]
      congr 2
    · intro h
      have hlogs := contains_empty _ _ _ _ (by decide +kernel) (h.1 rfl)
      exact absurd (congrArg List.length hlogs) (by decide +kernel)
  · refine ⟨_, _, rfl, plenty_fresh _ _ (by decide +kernel), rfl, ?_⟩
    intro h
    have hlen := (h.2 nofun).2.length_le
    exact absurd hlen (by decide +kernel)

end VeTls.Export
