import VeTls.Pipeline.Shut

/-!
# The turns of a worker

One round of a worker is a critical section in which it takes its work, and
then one step after the other for each raw log and each sealed builder. The
first is the only one that changes what waits before the send queue; `Turn`
lists the others.
-/

set_option autoImplicit false

namespace VeTls

open VeTls.Keys (Addr CStr KeyMap)
open VeTls.Keys.KeyMap (Sound)

variable {cfg : Config}

/-- A wait for space changes nothing but the flush flag. -/
def Raised (p p' : Producer) : Prop := p' = p ∨ p' = { p with flushRequested := true }

theorem waitLoop_raised (p : Producer) (need : ℕ) (reserve : Bool) (deadline now : ℤ) :
    Raised p (waitLoop cfg p need reserve deadline now).2 := by
  unfold waitLoop
  split
  · exact .inl rfl
  · split
    · exact .inl rfl
    · split <;> exact .inr rfl

theorem waitBufferSpaceLocked_raised (p : Producer) (need : ℕ) (reserve : Bool) (now now2 : ℤ) :
    Raised p (waitBufferSpaceLocked cfg p need reserve now now2).2 := by
  unfold waitBufferSpaceLocked
  split
  · exact .inl rfl
  · split
    · exact .inl rfl
    · split
      · exact .inl rfl
      · exact waitLoop_raised p need reserve _ now2

/-- What waits before the send queue stays there, and so does a flush. -/
structure Passes (cfg : Config) (p p' : Producer) : Prop where
  flag : p.flushRequested = true → p'.flushRequested = true
  ingressQueue : p'.ingressQueue = p.ingressQueue
  kept : ∀ b ∈ kept cfg p', b ∈ kept cfg p

theorem Passes.of_eq {p p' : Producer} (hf : p.flushRequested = true → p'.flushRequested = true)
    (hi : p'.ingressQueue = p.ingressQueue) (hd : p'.defaultBuilder = p.defaultBuilder)
    (hk : p'.keys = p.keys) (hl : p'.sealedList = p.sealedList) : Passes cfg p p' := by
  refine ⟨hf, hi, ?_⟩
  rw [kept_congr hd hk hl]
  exact fun b hb => hb

theorem Passes.refl (p : Producer) : Passes cfg p p := .of_eq id rfl rfl rfl rfl

theorem Passes.trans {p₁ p₂ p₃ : Producer} (h : Passes cfg p₁ p₂) (h' : Passes cfg p₂ p₃) :
    Passes cfg p₁ p₃ :=
  ⟨fun hf => h'.flag (h.flag hf), h'.ingressQueue.trans h.ingressQueue,
    fun b hb => h.kept b (h'.kept b hb)⟩

theorem Raised.passes {p p' : Producer} (h : Raised p p') : Passes cfg p p' := by
  obtain rfl | rfl := h
  · exact .refl _
  · exact .of_eq (fun _ => rfl) rfl rfl rfl rfl

namespace Worker

variable {w : Worker} {p : Producer} {r : Worker × Producer}

theorem scratch_passes (p : Producer) (bytes : ℕ) : Passes cfg p { p with scratchBytes := bytes } :=
  .of_eq id rfl rfl rfl rfl

theorem releaseScratch_passes (bytes : ℕ) (p : Producer) :
    Passes cfg p (releaseScratchBytes bytes p) := scratch_passes p _

/-- The same batch, perhaps compressed meanwhile. -/
structure SameBatch (j j' : Job) : Prop where
  builderBytes : j'.builderBytes = j.builderBytes
  task : j'.task = { j.task with precompressedSize := j'.task.precompressedSize }

theorem SameBatch.refl (j : Job) : SameBatch j j := ⟨rfl, rfl⟩

theorem sameBatch_setCompressed (n : ℕ) (j : Job) : SameBatch j (setCompressed n j) := ⟨rfl, rfl⟩

theorem prepared_job (j : Job) : job (prepared cfg j) = some j ∧
    ∀ j', prepared cfg j ≠ .prepare j' := by
  unfold prepared
  split
  · exact ⟨rfl, nofun⟩
  · split
    · exact ⟨rfl, nofun⟩
    · exact ⟨rfl, nofun⟩

/-- The step goes on with the same batch. -/
def GoesOn (j : Job) (pc : Pc) : Prop :=
  (∃ j', job pc = some j' ∧ SameBatch j j') ∧ ∀ j', pc ≠ .prepare j'

theorem goesOn_prepared (j j' : Job) (h : SameBatch j j') : GoesOn j (prepared cfg j') :=
  ⟨⟨j', prepared_job j' |>.1, h⟩, (prepared_job j').2⟩

theorem goesOn_same (j : Job) (pc : Pc) (h : job pc = some j) (hp : ∀ j', pc ≠ .prepare j') :
    GoesOn j pc := ⟨⟨j, h, .refl j⟩, hp⟩

theorem prepare_goesOn (i : Input) (j : Job) : GoesOn j (prepare cfg i j) := by
  unfold prepare
  split
  · exact goesOn_same j _ rfl nofun
  · split
    · exact goesOn_prepared j j (.refl j)
    · split
      · rename_i n _
        split
        · exact goesOn_prepared j _ (sameBatch_setCompressed n j)
        · exact goesOn_same j _ rfl nofun
      · exact goesOn_same j _ rfl nofun

theorem compressDone_goesOn (i : Input) (j : Job) : GoesOn j (compressDone cfg i j) := by
  unfold compressDone
  split
  · rename_i n _
    split
    · exact goesOn_prepared j _ (sameBatch_setCompressed n j)
    · exact goesOn_same j _ rfl nofun
  · exact goesOn_same j _ rfl nofun

/-- The places where the size of the batch is judged. -/
def judging : Pc → Bool
  | .prepare _ | .compress _ => true
  | _ => false

/-- The places between which the body of the batch is compressed. -/
def compressing : Pc → Bool
  | .scratchLock _ | .scratchWait _ _ | .compress _ => true
  | _ => false

/-- A step of a worker that does not take its work. -/
inductive Turn (cfg : Config) (i : Input) (w : Worker) : Worker → Prop
  | waits (b : Bool) (h : w.pc = .top) : Turn cfg i w { w with pc := .timed b }
  | raw (item : RawItem) (h : w.pc = .pop) :
      Turn cfg i w { w with pc := .prepare ⟨rawToSendTask item, none⟩ }
  | next (h : w.pc = .pop ∨ ∃ bytes, w.pc = .release bytes) : Turn cfg i w (next cfg w)
  | prepares (j : Job) (h : w.pc = .prepare j) : Turn cfg i w { w with pc := prepare cfg i j }
  | compresses (j : Job) (h : w.pc = .compress j) :
      Turn cfg i w { w with pc := compressDone cfg i j }
  | keeps (j : Job) (pc : Pc) (h : job w.pc = some j) (hw : judging w.pc = false)
      (hd : ∀ j', w.pc ≠ .drop j') (h' : job pc = some j) (hp : ∀ j', pc ≠ .prepare j')
      (hc : compressing pc = true → compressing w.pc = true) : Turn cfg i w { w with pc := pc }
  | drops (j : Job) (h : w.pc = .drop j) : Turn cfg i w (done j w)
  | pushes (j : Job) (start : ℤ) (h : w.pc = .push j start) : Turn cfg i w (done j w)
  | finish (h : w.pc = .finish) : Turn cfg i w { w with pc := .top }

/-- The worker merges the ingress queue and looks at every builder. -/
def takes : Pc → Pc → Bool
  | .top, .pop | .top, .exited | .timed _, .pop | .timed _, .exited => true
  | _, _ => false

theorem body_pc (i : Input) (haveAny haveIngress : Bool)
    (h : body cfg i haveAny haveIngress w p = some r) : r.1.pc = .pop ∨ r.1.pc = .exited := by
  unfold body at h
  split at h
  · obtain rfl := Option.some.inj h
    exact .inr rfl
  · obtain ⟨p₁, _, h⟩ := Option.bind_eq_some_iff.mp h
    obtain rfl := Option.some.inj h
    exact .inl rfl

theorem top_cases (i : Input) (h : top cfg i w p = some r) :
    (∃ b, r = ({ w with pc := .timed b }, p)) ∨
      ∃ b, body cfg i (anyBuilder cfg p) b w p = some r := by
  simp only [top] at h
  split at h
  · split at h
    · cases h
    · split at h
      · split at h
        · exact .inl ⟨_, (Option.some.inj h).symm⟩
        · exact .inr ⟨_, h⟩
      · exact .inl ⟨_, (Option.some.inj h).symm⟩
  · exact .inr ⟨_, h⟩

/-- The worker takes its work, knowing whether a builder has logs if it does
not assume so. -/
def Takes (cfg : Config) (i : Input) (w : Worker) (p : Producer) (r : Worker × Producer) : Prop :=
  takes w.pc r.1.pc = true ∧ ∃ haveAny haveIngress, (haveAny = false → anyBuilder cfg p = false) ∧
    body cfg i haveAny haveIngress w p = some r

/-- A step that leaves upstream as it is. -/
def Turns (cfg : Config) (i : Input) (w : Worker) (p : Producer) (r : Worker × Producer) : Prop :=
  takes w.pc r.1.pc = false ∧ Turn cfg i w r.1 ∧ Passes cfg p r.2

theorem scratchAdmit_turns (i : Input) (j : Job) (x : Wait × Producer) (hx : Raised p x.2)
    (hj : job w.pc = some j) (hw : judging w.pc = false) (hd : ∀ j', w.pc ≠ .drop j')
    (hc : compressing w.pc = true) (ht : ∀ pc, takes w.pc pc = false) :
    Turns cfg i w p (scratchAdmit j w x) := by
  obtain ⟨res, p'⟩ := x
  have hp : Passes cfg p p' := hx.passes
  cases res with
  | block d => exact ⟨ht _, .keeps j _ hj hw hd rfl nofun fun _ => hc, hp⟩
  | rc rc =>
    cases rc with
    | ok => exact ⟨ht _, .keeps j _ hj hw hd rfl nofun fun _ => hc, hp.trans (scratch_passes p' _)⟩
    | full => exact ⟨ht _, .keeps j _ hj hw hd rfl nofun fun _ => hc, hp⟩
    | closed => exact ⟨ht _, .keeps j _ hj hw hd rfl nofun fun _ => hc, hp⟩
    | timeout => exact ⟨ht _, .keeps j _ hj hw hd rfl nofun fun _ => hc, hp⟩

theorem sendAdmit_turns (i : Input) (j : Job) (x : Wait × Producer) (hx : Raised p x.2)
    (hj : job w.pc = some j) (hw : judging w.pc = false) (hd : ∀ j', w.pc ≠ .drop j')
    (ht : ∀ pc, takes w.pc pc = false) : Turns cfg i w p (sendAdmit i j w x) := by
  obtain ⟨res, p'⟩ := x
  have hp : Passes cfg p p' := hx.passes
  cases res with
  | block d => exact ⟨ht _, .keeps j _ hj hw hd rfl nofun nofun, hp⟩
  | rc rc =>
    cases rc with
    | ok =>
      exact ⟨ht _, .keeps j _ hj hw hd rfl nofun nofun, hp.trans (.of_eq id rfl rfl rfl rfl)⟩
    | full => exact ⟨ht _, .keeps j _ hj hw hd rfl nofun nofun, hp⟩
    | closed => exact ⟨ht _, .keeps j _ hj hw hd rfl nofun nofun, hp⟩
    | timeout => exact ⟨ht _, .keeps j _ hj hw hd rfl nofun nofun, hp⟩

theorem sendQueuePush_turns (i : Input) (j : Job) (start : ℤ) (hpc : w.pc = .push j start) :
    Turns cfg i w p (sendQueuePush cfg i j start w p) := by
  have ht : ∀ pc, takes w.pc pc = false := by
    rw [hpc]
    exact fun _ => rfl
  have back : Turns cfg i w p ({ w with pc := .unreserve j }, p) :=
    ⟨ht _, .keeps j _ (by rw [hpc]; rfl) (by rw [hpc]; rfl) (by rw [hpc]; nofun) rfl nofun nofun, .refl p⟩
  unfold sendQueuePush
  split
  · exact back
  · split
    · dsimp only
      split
      · exact back
      · split
        · exact back
        · refine ⟨ht _, ?_, .refl p⟩
          exact .keeps j w.pc (by rw [hpc]; rfl) (by rw [hpc]; rfl) (by rw [hpc]; nofun)
            (by rw [hpc]; rfl) (by rw [hpc]; nofun) id
    · exact ⟨ht _, .pushes j start hpc, .of_eq id rfl rfl rfl rfl⟩

theorem keyReserve_turns (i : Input) (addr : Addr) (j : Job) (hpc : w.pc = .keyReserve j)
    (hs : Sound cfg.toKeyConfig p.keys) (ha : addr ∉ KeyMap.live cfg.toKeyConfig p.keys) :
    Turns cfg i w p (keyReserve cfg addr j w p) := by
  refine ⟨?_, ?_, id, rfl, ?_⟩
  · rw [hpc]
    rfl
  · unfold keyReserve
    dsimp only
    split
    · exact .keeps j _ (by rw [hpc]; rfl) (by rw [hpc]; rfl) (by rw [hpc]; nofun) rfl nofun nofun
    · exact .keeps j _ (by rw [hpc]; rfl) (by rw [hpc]; rfl) (by rw [hpc]; nofun) rfl nofun nofun
  · exact kept_effect (KeyMap.keyQueueReserve_keeps hs addr
      (cfg.normalizeHashKey j.task.hashKey) ha) rfl rfl rfl

/-- A worker takes its work, or leaves what waits upstream alone. -/
theorem step_cases (i : Input) (hs : Sound cfg.toKeyConfig p.keys)
    (h : step cfg i w p = some r) : Takes cfg i w p r ∨ Turns cfg i w p r := by
  have taken : ∀ haveAny b, (haveAny = false → anyBuilder cfg p = false) →
      (w.pc = .top ∨ ∃ b', w.pc = .timed b') → body cfg i haveAny b w p = some r →
      Takes cfg i w p r := by
    intro haveAny b hany hpc hb
    refine ⟨?_, haveAny, b, hany, hb⟩
    obtain hpc | ⟨b', hpc⟩ := hpc
    · obtain hr | hr := body_pc i haveAny b hb
      · rw [hpc, hr]
        rfl
      · rw [hpc, hr]
        rfl
    · obtain hr | hr := body_pc i haveAny b hb
      · rw [hpc, hr]
        rfl
      · rw [hpc, hr]
        rfl
  unfold step at h
  cases hpc : w.pc with
  | top =>
    simp only [hpc] at h
    obtain ⟨b, rfl⟩ | ⟨b, hb⟩ := top_cases i h
    · exact .inr ⟨by rw [hpc]; rfl, .waits b hpc, .refl p⟩
    · exact .inl (taken _ b id (.inl hpc) hb)
  | timed b =>
    simp only [hpc] at h
    exact .inl (taken true b nofun (.inr ⟨b, hpc⟩) h)
  | pop =>
    simp only [hpc, Option.some.injEq] at h
    subst h
    have ht : ∀ pc, takes w.pc pc = false := by
      rw [hpc]
      exact fun _ => rfl
    right
    unfold pop
    split
    · exact ⟨ht _, .next (.inl hpc), .refl p⟩
    · exact ⟨ht _, .raw _ hpc, .of_eq id rfl rfl rfl rfl⟩
  | prepare j =>
    simp only [hpc, Option.some.injEq] at h
    subst h
    exact .inr ⟨by rw [hpc]; rfl, .prepares j hpc, .refl p⟩
  | scratchLock j =>
    simp only [hpc] at h
    right
    split at h
    · obtain rfl := Option.some.inj h
      exact ⟨by rw [hpc]; rfl, .keeps j _ (by rw [hpc]; rfl) (by rw [hpc]; rfl)
        (by rw [hpc]; nofun) rfl nofun nofun, .refl p⟩
    · obtain rfl := Option.some.inj h
      exact scratchAdmit_turns i j _ (waitBufferSpaceLocked_raised p _ true i.now i.now2)
        (by rw [hpc]; rfl) (by rw [hpc]; rfl) (by rw [hpc]; nofun) (by rw [hpc]; rfl)
        (by rw [hpc]; exact fun _ => rfl)
  | scratchWait j deadline =>
    simp only [hpc, Option.some.injEq] at h
    subst h
    exact .inr (scratchAdmit_turns i j _ (waitLoop_raised p _ true deadline i.now)
      (by rw [hpc]; rfl) (by rw [hpc]; rfl) (by rw [hpc]; nofun) (by rw [hpc]; rfl)
      (by rw [hpc]; exact fun _ => rfl))
  | compress j =>
    simp only [hpc, Option.some.injEq] at h
    subst h
    exact .inr ⟨by rw [hpc]; rfl, .compresses j hpc, releaseScratch_passes _ p⟩
  | keyReserve j =>
    simp only [hpc] at h
    split at h
    · cases h
    · split at h
      · cases h
      · rename_i a _ _ ha
        obtain rfl := Option.some.inj h
        exact .inr (keyReserve_turns i a j hpc hs ha)
  | sendLock j =>
    simp only [hpc, Option.some.injEq] at h
    subst h
    exact .inr (sendAdmit_turns i j _ (waitBufferSpaceLocked_raised p _ true i.now i.now2)
      (by rw [hpc]; rfl) (by rw [hpc]; rfl) (by rw [hpc]; nofun) (by rw [hpc]; exact fun _ => rfl))
  | sendWait j deadline =>
    simp only [hpc, Option.some.injEq] at h
    subst h
    exact .inr (sendAdmit_turns i j _ (waitLoop_raised p _ true deadline i.now)
      (by rw [hpc]; rfl) (by rw [hpc]; rfl) (by rw [hpc]; nofun) (by rw [hpc]; exact fun _ => rfl))
  | push j start =>
    simp only [hpc, Option.some.injEq] at h
    subst h
    exact .inr (sendQueuePush_turns i j start hpc)
  | unreserve j =>
    simp only [hpc, Option.some.injEq] at h
    subst h
    exact .inr ⟨by rw [hpc]; rfl, .keeps j _ (by rw [hpc]; rfl) (by rw [hpc]; rfl)
      (by rw [hpc]; nofun) rfl nofun nofun, .of_eq id rfl rfl rfl rfl⟩
  | drop j =>
    simp only [hpc, Option.some.injEq] at h
    subst h
    exact .inr ⟨by rw [hpc]; rfl, .drops j hpc, .of_eq id rfl rfl rfl rfl⟩
  | release bytes =>
    simp only [hpc, Option.some.injEq] at h
    subst h
    exact .inr ⟨by rw [hpc]; rfl, .next (.inr ⟨bytes, hpc⟩), .of_eq id rfl rfl rfl rfl⟩
  | finish =>
    simp only [hpc, Option.some.injEq] at h
    subst h
    exact .inr ⟨by rw [hpc]; rfl, .finish hpc, .of_eq id rfl rfl rfl rfl⟩
  | exited => simp [hpc] at h

theorem sealDue_kept (flushAll : Bool) (now : ℤ) (p : Producer) (slot : Slot)
    (hs : Sound cfg.toKeyConfig p.keys) (hslot : SlotOk cfg p slot) (b : Builder)
    (hb : b ∈ kept cfg (sealDue cfg flushAll now p slot)) : b ∈ kept cfg p := by
  unfold sealDue at hb
  cases hx : slotBuilder p slot with
  | none =>
    rw [hx] at hb
    exact hb
  | some x =>
    rw [hx] at hb
    dsimp only at hb
    split at hb
    · have hf := sealSlot_fill p hs slot hslot x
      obtain rfl | hb := hf.kept_cases b hb
      · exact hf.old_mem b hx
      · exact hb
    · exact hb

theorem sealAll_kept (flushAll : Bool) (now : ℤ) (p : Producer)
    (hs : Sound cfg.toKeyConfig p.keys) (b : Builder)
    (hb : b ∈ kept cfg (sealAll cfg flushAll now p)) : b ∈ kept cfg p := by
  have hgo : ∀ (l : List Slot) (p : Producer), Sound cfg.toKeyConfig p.keys →
      (∀ slot ∈ l, SlotOk cfg p slot) → b ∈ kept cfg (l.foldl (sealDue cfg flushAll now) p) →
      b ∈ kept cfg p := by
    intro l
    induction l with
    | nil => exact fun _ _ _ hb => hb
    | cons slot l ih =>
      intro p hs hl hb
      have hslot := hl slot List.mem_cons_self
      refine sealDue_kept flushAll now p slot hs hslot b (ih _ ?_ (fun x hx => ?_) hb)
      · exact (sealDue_moves flushAll now start p slot hs hslot).2.sound
      · have hx' := hl x (List.mem_cons_of_mem slot hx)
        cases x with
        | default => trivial
        | key q =>
          unfold SlotOk at hx' ⊢
          dsimp only at hx' ⊢
          rwa [sealDue_live]
  refine hgo (slots cfg p) p hs (fun slot hslot => ?_) hb
  obtain rfl | hslot := List.mem_cons.mp hslot
  · trivial
  · obtain ⟨q, hq, rfl⟩ := List.mem_map.mp hslot
    exact hq

theorem Takes.starts {i : Input} (h : Takes cfg i w p r) :
    (∃ b, w.pc = .timed b) ∨ w.pc = .top := by
  have htakes := h.1
  cases hpc : w.pc with
  | top => exact .inr rfl
  | timed b => exact .inl ⟨b, rfl⟩
  | _ => simp [hpc, takes] at htakes

/-- After the merges, what the worker takes and what it leaves is what was
there. -/
theorem Takes.taken {i : Input} (hs : Sound cfg.toKeyConfig p.keys) (h : Takes cfg i w p r) :
    r = ({ w with pc := .exited }, p) ∨
      ∃ p', mergeAll cfg i.now p.ingressQueue i.addrs p = some p' ∧ r.1.pc = .pop ∧
        (∀ x ∈ r.1.sealedRest, x.builder ∈ kept cfg p') ∧ ∀ b ∈ kept cfg r.2, b ∈ kept cfg p' := by
  obtain ⟨_, haveAny, haveIngress, _, hb⟩ := h
  unfold body at hb
  split at hb
  · exact .inl (Option.some.inj hb).symm
  · right
    obtain ⟨p', hm, hb⟩ := Option.bind_eq_some_iff.mp hb
    obtain rfl := Option.some.inj hb
    obtain ⟨_, hs', _⟩ := mergeAll_moves i.now _ i.addrs w p p' hs rfl hm
    have hkept : ∀ b ∈ kept cfg (sealAll cfg (p'.flushRequested || p'.stop) i.now2 (beginFlush p')),
        b ∈ kept cfg p' := sealAll_kept _ i.now2 (beginFlush p') hs'
    refine ⟨p', hm, rfl, fun x hx => hkept x.builder ?_, fun b hb => hkept b ?_⟩
    · rw [mem_kept]
      exact .inr (.inr ⟨x, hx, rfl⟩)
    · rw [mem_kept] at hb ⊢
      obtain hb | hb | ⟨x, hx, _⟩ := hb
      · exact .inl hb
      · exact .inr (.inl hb)
      · cases hx

/-- The builders that the worker has taken, and the one it has packed, have
the property. -/
structure Hands (cfg : Config) (R : Builder → Prop) (w : Worker) : Prop where
  rest : ∀ x ∈ w.sealedRest, R x.builder
  job : ∀ j, job w.pc = some j → j.builderBytes ≠ none → ∃ x : Sealed, R x.builder ∧
    SameBatch ⟨builderToSendTask cfg x, some x.builder.logsLen⟩ j

theorem SameBatch.trans {j₁ j₂ j₃ : Job} (h : SameBatch j₁ j₂) (h' : SameBatch j₂ j₃) :
    SameBatch j₁ j₃ := by
  refine ⟨h'.builderBytes.trans h.builderBytes, ?_⟩
  rw [h'.task, h.task]

variable {R : Builder → Prop}

theorem Hands.goesOn (h : Hands cfg R w) (j : Job) (hj : Worker.job w.pc = some j) (pc : Pc)
    (hpc : GoesOn j pc) : Hands cfg R { w with pc := pc } := by
  refine ⟨h.rest, fun j' hj' hb => ?_⟩
  obtain ⟨⟨j₂, hj₂, hsame⟩, _⟩ := hpc
  obtain rfl : j₂ = j' := Option.some.inj (hj₂.symm.trans hj')
  obtain ⟨x, hx, hbatch⟩ := h.job j hj (by rwa [← hsame.builderBytes])
  exact ⟨x, hx, hbatch.trans hsame⟩

theorem Hands.empty (h : Hands cfg R w) (pc : Pc) (hpc : Worker.job pc = none) :
    Hands cfg R { w with pc := pc } := by
  refine ⟨h.rest, fun j hj => ?_⟩
  rw [show Worker.job pc = some j from hj] at hpc
  cases hpc

theorem Turn.hands {i : Input} {w' : Worker} (ht : Turn cfg i w w') (h : Hands cfg R w) :
    Hands cfg R w' := by
  cases ht with
  | waits b => exact h.empty _ rfl
  | raw item =>
    refine ⟨h.rest, fun j hj hb => ?_⟩
    obtain rfl := Option.some.inj hj
    exact absurd rfl hb
  | next hpc =>
    unfold Worker.next
    split
    · exact h.empty _ rfl
    · rename_i x rest hrest
      have hall := h.rest
      rw [hrest] at hall
      refine ⟨fun y hy => hall y (List.mem_cons_of_mem x hy), fun j hj _ => ?_⟩
      obtain rfl := Option.some.inj hj
      exact ⟨x, hall x List.mem_cons_self, .refl _⟩
  | prepares j hpc => exact h.goesOn j (by rw [hpc]; rfl) _ (prepare_goesOn i j)
  | compresses j hpc => exact h.goesOn j (by rw [hpc]; rfl) _ (compressDone_goesOn i j)
  | keeps j pc hj hw hd hj' hp _ => exact h.goesOn j hj pc (goesOn_same j pc hj' hp)
  | drops j hpc =>
    unfold done
    split
    · exact h.empty _ rfl
    · exact h.empty _ rfl
  | pushes j start hpc =>
    unfold done
    split
    · exact h.empty _ rfl
    · exact h.empty _ rfl
  | finish hpc => exact h.empty _ rfl

/-- If the builders that a worker finds after its merges have the property,
so have those it works on. -/
theorem step_hands (i : Input) (hs : Sound cfg.toKeyConfig p.keys) (h : Hands cfg R w)
    (hmerged : (∃ b, w.pc = .timed b) ∨ w.pc = .top → ∀ p',
      mergeAll cfg i.now p.ingressQueue i.addrs p = some p' → ∀ b ∈ kept cfg p', R b)
    (hstep : step cfg i w p = some r) : Hands cfg R r.1 := by
  obtain ht | ht := step_cases i hs hstep
  · obtain rfl | ⟨p', hm, hr, hrest, _⟩ := ht.taken hs
    · exact h.empty _ rfl
    · refine ⟨fun x hx => hmerged ht.starts p' hm _ (hrest x hx), fun j hj => ?_⟩
      rw [hr] at hj
      cases hj
  · exact ht.2.1.hands h

end Worker

end VeTls
