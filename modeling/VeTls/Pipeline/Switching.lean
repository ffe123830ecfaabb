import VeTls.Pipeline.Flush
import VeTls.Pipeline.Leftovers

/-!
# Switching between producers

A thread has one batch, and an add to another producer frees it with the logs
it has. As long as a thread switches only with an empty batch, every accepted
log is in the batch of a thread or was published to the ingress queue.
-/

set_option autoImplicit false

namespace VeTls

open VeTls.Keys (Addr CStr KeyMap)

variable {cfg : Config}

namespace Writer

/-- The places in an add that goes through the thread's batch. -/
def batching : Pc → Bool
  | .idle | .tlsLock _ _ | .tlsWait _ _ _ | .tlsAppend _ _ | .flushLock _ _
  | .flushWait (.add _ _) _ | .pushWait (.add _ _) _ | .flushFail _ => true
  | _ => false

/-- The log is in the thread's batch for the producer, or published. -/
def Lodged (me : ℕ) (r : Writer × Producer) (id : ℤ) : Prop :=
  id ∈ ownIds me r.1 ∨ id ∈ r.2.published

/-- A step after which no log is in fewer places than before, and no more logs
are accepted than are in one. -/
structure Holds (me : ℕ) (w : Writer) (p : Producer) (r : Writer × Producer) : Prop where
  pc : batching r.1.pc = true
  published : ∀ id ∈ p.published, id ∈ r.2.published
  own : ∀ id ∈ ownIds me w, Lodged me r id
  accepted : ∀ id ∈ r.2.accepted, id ∈ p.accepted ∨ Lodged me r id

section Step

variable {me : ℕ} {w : Writer} {p : Producer}

theorem Holds.of_quiet {w' : Writer} {p' : Producer} (hpc : batching w'.pc = true)
    (hb : w'.batch = w.batch) (hq : Quiet p p') : Holds me w p (w', p') := by
  obtain ⟨f, n, k, l, _, _, rfl⟩ := hq
  refine ⟨hpc, fun id hid => hid, fun id hid => .inl ?_, fun id hid => .inl hid⟩
  rwa [ownIds_congr hb]

theorem Holds.after {p' : Producer} {r : Writer × Producer} (h : Holds me w p' r)
    (hq : Quiet p p') : Holds me w p r := by
  obtain ⟨f, n, k, l, _, _, rfl⟩ := hq
  exact ⟨h.pc, h.published, h.own, h.accepted⟩

/-- The add of a log that is in a place returns. -/
theorem Holds.accept {w' : Writer} {p' : Producer} (h : Holds me w p (w', p')) (id : ℤ)
    (hid : Lodged me (w', p') id) : Holds me w p (ret .ok w', VeTls.accept id p') := by
  refine ⟨rfl, h.published, h.own, ?_⟩
  intro x hx
  obtain hx | hx := List.mem_append.mp hx
  · exact h.accepted x hx
  · obtain rfl := List.mem_singleton.mp hx
    exact .inr hid

theorem admitted_holds (again : ℤ → Pc) (go : Producer → Writer × Producer) (need : ℕ)
    (x : Wait × Producer) (hx : Waited cfg p need false x)
    (hagain : ∀ d, batching (again d) = true) (hgo : Holds me w p (go p)) :
    Holds me w p (admitted w again go x) :=
  admitted_pair (Holds me w p) w again go p need x hx (fun _ _ hq => .of_quiet rfl rfl hq)
    (fun d _ hq => .of_quiet (hagain d) rfl hq) hgo

theorem enter_holds (i : Input) (bytes : ℕ) (again : ℤ → Pc) (go : Producer → Writer × Producer)
    (hagain : ∀ d, batching (again d) = true) (hgo : Holds me w p (go p)) :
    Holds me w p (enter cfg i bytes again go w p) :=
  enter_pair (Holds me w p) i bytes again go w p (fun _ _ hq => .of_quiet rfl rfl hq)
    (fun d _ hq => .of_quiet (hagain d) rfl hq) hgo

theorem tlsReserve_holds (kv : Wire.KvLog) (flush : Bool) :
    Holds me w p (tlsReserve kv flush w p) :=
  ⟨rfl, fun _ hid => hid, fun _ hid => .inl hid, fun _ hid => .inl hid⟩

/-- A log too long for the builder costs the batch. -/
theorem tlsAppend_holds (kv : Wire.KvLog) (flush : Bool) (hown : w.batch.producer = some me)
    (hroom : (logBuilderAddKvLens (tlsBuilder cfg w) p.nextId kv).isNone = true →
      ownIds me w = []) : Holds me w p (tlsAppend cfg kv flush w p) := by
  unfold tlsAppend
  dsimp only
  split
  · rename_i hadd
    have hempty := hroom (by rw [hadd]; rfl)
    refine ⟨rfl, fun id hid => hid, fun id hid => ?_, fun id hid => .inl hid⟩
    rw [hempty] at hid
    cases hid
  · rename_i b hadd
    have hids : ∀ pc, ownIds me { setBuilder (some b) w with pc := pc } =
        ownIds me w++[p.nextId] := by
      intro pc
      have hbefore : ownIds me w = (tlsBuilder cfg w).ids := ownIds_own hown
      have hafter : ownIds me { setBuilder (some b) w with pc := pc } =
          (tlsBuilder cfg { setBuilder (some b) w with pc := pc }).ids := ownIds_own hown
      rw [hbefore, hafter, ← ids_addKv _ b _ kv hadd]
      rfl
    have hstored : ∀ pc, batching pc = true → Holds me w p
        ({ setBuilder (some b) w with pc := pc }, settleTls (estimate kv)
          (b.logsLen-(tlsBuilder cfg w).logsLen) { p with nextId := p.nextId+1 }) := by
      intro pc hpc
      rw [settleTls_eq]
      refine ⟨hpc, fun id hid => hid, fun id hid => .inl ?_, fun id hid => .inl hid⟩
      rw [hids pc]
      exact List.mem_append_left _ hid
    split
    · exact hstored (.flushLock p.nextId flush) rfl
    · refine (hstored .idle rfl).accept p.nextId (.inl ?_)
      rw [hids .idle]
      exact List.mem_append_right _ (List.mem_singleton_self _)

theorem flushPush_holds (i : Input) (start id : ℤ) (flush : Bool)
    (hown : w.batch.producer = some me) (hid : id ∈ (tlsBuilder cfg w).ids) :
    Holds me w p (flushPush cfg i start (.add id flush) w p) := by
  unfold flushPush
  obtain he | ⟨x, hx, he⟩ := ingressQueuePushLocked_cases cfg p cfg.hashKey (tlsBuilder cfg w)
    (forceFlush (.add id flush)) (ingressWaitMs cfg) start i.now2
  · rw [he]
    have hall : ∀ x ∈ (tlsBuilder cfg w).ids, x ∈ p.published++(tlsBuilder cfg w).ids :=
      fun x hx => List.mem_append_right _ hx
    have hown' : ownIds me w = (tlsBuilder cfg w).ids := ownIds_own hown
    refine ⟨rfl, fun x hx => List.mem_append_left _ hx, fun x hx => .inr (hall x ?_), ?_⟩
    · rwa [hown'] at hx
    · intro x hx
      obtain hx | hx := List.mem_append.mp hx
      · exact .inl hx
      · obtain rfl := List.mem_singleton.mp hx
        exact .inr (.inr (hall x hid))
  · rw [he]
    cases x with
    | block start => exact .of_quiet rfl rfl (Quiet.refl p)
    | rc rc =>
      cases rc with
      | ok => exact absurd rfl hx
      | _ => exact .of_quiet rfl rfl (Quiet.refl p)

theorem flushAdmit_holds (i : Input) (id : ℤ) (flush : Bool) (need : ℕ) (x : Wait × Producer)
    (hx : Waited cfg p need false x) (hown : w.batch.producer = some me)
    (hid : id ∈ (tlsBuilder cfg w).ids) :
    Holds me w p (flushAdmit cfg i (.add id flush) w x) := by
  obtain ⟨res, p'⟩ := x
  cases res with
  | block d => exact .of_quiet rfl rfl hx.quiet
  | rc rc =>
    cases rc with
    | ok =>
      obtain ⟨rfl, _⟩ := hx.ok rfl
      exact flushPush_holds i i.now id flush hown hid
    | _ => exact .of_quiet rfl rfl hx.quiet

theorem tlsBatchFlushLocked_holds (i : Input) (id : ℤ) (flush : Bool)
    (hown : w.batch.producer = some me) (hid : id ∈ (tlsBuilder cfg w).ids) :
    Holds me w p (tlsBatchFlushLocked cfg i (.add id flush) w p) := by
  unfold tlsBatchFlushLocked
  split
  · have hstill : Holds me w p ({ w with pc := .idle }, p) := .of_quiet rfl rfl (Quiet.refl p)
    refine hstill.accept id (.inl ?_)
    have hown' : ownIds me w = (tlsBuilder cfg w).ids := ownIds_own hown
    show id ∈ ownIds me w
    rwa [hown']
  · exact flushAdmit_holds i id flush _ _
      (waitBufferSpaceLocked_waited p _ false i.now i.now2) hown hid

/-- The next step appends a log that the builder of the batch refuses. -/
def overflows (cfg : Config) (w : Writer) (p : Producer) : Bool :=
  match w.pc with
  | .tlsAppend kv _ => (logBuilderAddKvLens (tlsBuilder cfg w) p.nextId kv).isNone
  | _ => false

/-- A flush of the thread's batch was refused. -/
def refused : Pc → Bool
  | .flushFail _ => true
  | _ => false

/-- A step of an add keeps every accepted log in a place. -/
theorem go_holds (joined : Bool) (i : Input) (r : Writer × Producer) (hok : Ok cfg me w)
    (hpc : batching w.pc = true) (hrefused : refused w.pc = false)
    (hroom : overflows cfg w p = true → ownIds me w = []) (h : go cfg me joined i w p = some r) :
    Holds me w p r := by
  unfold go at h
  split at h
  · cases h
  · have hown := hok.own
    have hlog := hok.log
    unfold overflows at hroom
    generalize hw : w.pc = pc at h hpc hrefused hroom hown hlog
    cases pc with
    | idle => cases h
    | tlsLock kv flush =>
      obtain rfl := Option.some.inj h
      exact enter_holds i _ _ _ (fun _ => rfl) (tlsReserve_holds kv flush)
    | tlsWait kv flush deadline =>
      obtain rfl := Option.some.inj h
      exact admitted_holds _ _ _ _ (waitLoop_waited p _ false deadline i.now) (fun _ => rfl)
        (tlsReserve_holds kv flush)
    | tlsAppend kv flush =>
      obtain rfl := Option.some.inj h
      exact tlsAppend_holds kv flush (hown rfl) hroom
    | flushLock id flush =>
      obtain rfl := Option.some.inj h
      exact tlsBatchFlushLocked_holds i id flush (hown rfl) (hlog id rfl)
    | flushWait who deadline =>
      cases who with
      | add id flush =>
        obtain rfl := Option.some.inj h
        exact flushAdmit_holds i id flush _ _ (waitLoop_waited p _ false deadline i.now)
          (hown rfl) (hlog id rfl)
      | close timeoutMs => cases hpc
    | pushWait who start =>
      cases who with
      | add id flush =>
        obtain rfl := Option.some.inj h
        exact flushPush_holds i start id flush (hown rfl) (hlog id rfl)
      | close timeoutMs => cases hpc
    | flushFail rc => cases hrefused
    | _ => cases hpc

/-- An add without a hash key goes through the batch, which is not given up
when it is empty or one for this producer. -/
theorem call_holds (kv : Wire.KvLog) (flush : Bool) (r : Writer × Producer)
    (hordered : cfg.orderedSend = false)
    (h : call cfg me w p (.addKv kv [] flush) = some r) : Holds me w p r := by
  simp only [call, tlsPath, hordered] at h
  split at h
  · obtain rfl := Option.some.inj h
    exact .of_quiet rfl rfl (Quiet.refl p)
  · obtain rfl := Option.some.inj h
    refine ⟨rfl, fun _ hid => hid, fun id hid => .inl ?_, fun _ hid => .inl hid⟩
    by_cases hp : w.batch.producer = some me
    · rw [ownIds_congr (w := w) (if_pos hp)]
      exact hid
    · rw [ownIds_other hp] at hid
      cases hid

end Step

end Writer

/-- A move that accepts nothing and publishes nothing. -/
def Still (p p' : Producer) : Prop := p'.accepted = p.accepted ∧ p'.published = p.published

theorem Worker.Move.still {x y : Worker × Producer} (h : Worker.Move cfg x y) : Still x.2 y.2 := by
  cases h with
  | idle w w' p p' hq hsame =>
    obtain ⟨f, n, k, l, _, _, rfl⟩ := hq
    exact ⟨rfl, rfl⟩
  | merge w p p' t rest old b hin hf he =>
    obtain ⟨d, m, l, n, f, rfl⟩ := hf.frame
    exact ⟨rfl, rfl⟩
  | sealUp w p p' b hf =>
    obtain ⟨d, m, l, n, f, rfl⟩ := hf.frame
    exact ⟨rfl, rfl⟩
  | _ => exact ⟨rfl, rfl⟩

theorem Worker.Moves.still {x y : Worker × Producer} (h : Worker.Moves cfg x y) :
    Still x.2 y.2 := by
  induction h with
  | refl => exact ⟨rfl, rfl⟩
  | tail _ hm ih => exact ⟨hm.still.1.trans ih.1, hm.still.2.trans ih.2⟩

theorem Sender.Move.still {x y : Sender.Pc × Producer} (h : Sender.Move cfg x y) :
    Still x.2 y.2 := by
  cases h with
  | idle pc pc' p p' ha hsame =>
    obtain ⟨_, _, _, _, rfl⟩ := ha
    exact ⟨rfl, rfl⟩
  | _ => exact ⟨rfl, rfl⟩

theorem Sys.worker_still {st : Setup} (s s' : Sys) (j : ℕ) (input : Worker.Input)
    (hgood : Sys.Good st s) (h : Sys.step st s (.worker j input) = some s') :
    Still s.prod s'.prod := by
  simp only [Sys.step] at h
  split at h
  · obtain ⟨⟨w, p⟩, hr, rfl⟩ := Option.map_eq_some_iff.mp h
    obtain hm | ⟨job, start, _, he⟩ := Worker.step_moves input (s.workers j) w s.prod p
      (hgood.workers j) hgood.sound hr
    · exact hm.still
    · obtain ⟨rfl, rfl⟩ := Prod.mk.inj he
      exact ⟨rfl, rfl⟩
  · cases h

theorem Sys.sender_still {st : Setup} (s s' : Sys) (j : ℕ) (input : Sender.Input)
    (hgood : Sys.Good st s) (h : Sys.step st s (.sender j input) = some s') :
    Still s.prod s'.prod := by
  obtain ⟨_, r, _, hm, rfl⟩ := Sys.sender_move s s' j input hgood h
  exact hm.still

namespace Fleet

variable {n : ℕ} {f : Fleet}

/-- An accepted log of the producer `p` at `addr` is in the batch of a thread,
or it was published. -/
def Lodged (n addr : ℕ) (f : Fleet) (p : Producer) (id : ℤ) : Prop :=
  id ∈ p.published ∨ ∃ i < n, id ∈ Writer.ownIds addr (f.threads i).writer

structure Lodging (n : ℕ) (f : Fleet) : Prop where
  pcs : ∀ i, Writer.batching (f.threads i).writer.pc = true
  plain : ∀ addr h, f.mem addr = some h → h.cfg.orderedSend = false
  accepted : ∀ addr h, f.mem addr = some h → ∀ id ∈ h.prod.accepted, Lodged n addr f h.prod id

theorem Leaves.ownIds_other {addr other : ℕ} {w w' : Writer} (h : Leaves cfg addr w w')
    (hne : other ≠ addr) : ∀ id ∈ Writer.ownIds other w, id ∈ Writer.ownIds other w' := by
  intro id hid
  obtain he | ⟨he, _⟩ | ⟨hp, _⟩ := h
  · rwa [Writer.ownIds_congr he]
  · rw [Writer.ownIds_other (by rw [he]; nofun)] at hid
    cases hid
  · rw [Writer.ownIds_other] at hid
    · cases hid
    · rw [hp]
      exact fun ho => hne (Option.some.inj ho).symm

theorem ownIds_seen (addr : ℕ) (t : Thread) :
    Writer.ownIds addr (t.seen addr) = Writer.ownIds addr t.writer :=
  Writer.ownIds_congr (Thread.seen_batch addr t)

theorem ownIds_empty (addr : ℕ) (w : Writer) (h : Thread.heldLogs w = 0) :
    Writer.ownIds addr w = [] := by
  unfold Writer.ownIds
  split
  · unfold Thread.heldLogs at h
    cases hb : w.batch.builder with
    | none => rfl
    | some b =>
      rw [hb] at h
      have hlogs : b.logs = [] := List.length_eq_zero_iff.mp h
      show b.logs.map Log.id = []
      rw [hlogs]
      rfl
  · rfl

/-- A step of the call of the thread `i` that keeps its producer's logs. -/
theorem Lodging.threadStep (hL : Lodging n f) {addr i : ℕ} {h : Home} {r : Writer × Producer}
    (hi : i < n) (hm : f.mem addr = some h)
    (hr : Writer.Holds addr ((f.view addr h).writers i) h.prod r)
    (hleaves : Leaves h.cfg addr (f.threads i).writer r.1) :
    Lodging n ((f.setHome addr (some (h.after ((f.view addr h).setWriter i r)))).setThread i
      ((f.threads i).after addr h.birth r.1)) := by
  set f' := (f.setHome addr (some (h.after ((f.view addr h).setWriter i r)))).setThread i
    ((f.threads i).after addr h.birth r.1)
  have hself : (f'.threads i).writer = r.1 := by
    show (Function.update f.threads i _ i).writer = r.1
    rw [Function.update_self]
    rfl
  have hothers : ∀ j, j ≠ i → f'.threads j = f.threads j := fun j hj => Function.update_of_ne hj _ _
  have hfresh : ∀ id, Writer.Lodged addr r id → Lodged n addr f' r.2 id := by
    rintro id (hid | hid)
    · exact .inr ⟨i, hi, by rwa [hself]⟩
    · exact .inl hid
  refine ⟨?_, ?_, ?_⟩
  · intro j
    by_cases hj : j = i
    · rw [hj, hself]
      exact hr.pc
    · rw [hothers j hj]
      exact hL.pcs j
  · intro other h' hm'
    by_cases ho : other = addr
    · subst ho
      obtain rfl := Option.some.inj ((setHome_self other _).symm.trans hm')
      exact hL.plain other h hm
    · exact hL.plain other h' ((setHome_other addr other _ ho).symm.trans hm')
  · intro other h' hm' id hid
    by_cases ho : other = addr
    · subst ho
      obtain rfl := Option.some.inj ((setHome_self other _).symm.trans hm')
      obtain hold | hnew := hr.accepted id hid
      · obtain hp | ⟨j, hj, hid⟩ := hL.accepted other h hm id hold
        · exact .inl (hr.published id hp)
        · by_cases hji : j = i
          · subst hji
            refine hfresh id (hr.own id ?_)
            show id ∈ Writer.ownIds other ((f.threads j).seen other)
            rwa [ownIds_seen]
          · exact .inr ⟨j, hj, by rwa [hothers j hji]⟩
      · exact hfresh id hnew
    · have hm : f.mem other = some h' := (setHome_other addr other _ ho).symm.trans hm'
      obtain hp | ⟨j, hj, hid⟩ := hL.accepted other h' hm id hid
      · exact .inl hp
      · refine .inr ⟨j, hj, ?_⟩
        by_cases hji : j = i
        · subst hji
          rw [hself]
          exact hleaves.ownIds_other ho id hid
        · rwa [hothers j hji]

/-- The producers that were live still are, with what they had accepted and
published, and the batches were left alone. -/
theorem Lodging.homes {f' : Fleet} (hL : Lodging n f)
    (hthreads : ∀ i, (f'.threads i).writer.pc = (f.threads i).writer.pc ∧
      ∀ addr, Writer.ownIds addr (f'.threads i).writer = Writer.ownIds addr (f.threads i).writer)
    (hmem : ∀ addr h', f'.mem addr = some h' → h'.cfg.orderedSend = false ∧
      (h'.prod.accepted = [] ∨ ∃ h, f.mem addr = some h ∧ h'.prod.accepted = h.prod.accepted ∧
        h'.prod.published = h.prod.published)) : Lodging n f' := by
  refine ⟨?_, fun addr h' hm' => (hmem addr h' hm').1, ?_⟩
  · intro i
    rw [(hthreads i).1]
    exact hL.pcs i
  · intro addr h' hm' id hid
    obtain he | ⟨h, hm, ha, hp⟩ := (hmem addr h' hm').2
    · rw [he] at hid
      cases hid
    · rw [ha] at hid
      obtain hpub | ⟨i, hi, hown⟩ := hL.accepted addr h hm id hid
      · exact .inl (by rwa [hp])
      · exact .inr ⟨i, hi, by rwa [(hthreads i).2]⟩

/-- The thread has nothing in its batch, or none of another producer. -/
theorem Lodging.switch (hL : Lodging n f) (i addr normKey : ℕ)
    (hspare : ¬((f.threads i).writer.batch.producer = some addr ∧
      (f.threads i).normKey = some normKey) → Thread.heldLogs (f.threads i).writer = 0) :
    Lodging n (f.switch i addr normKey) := by
  unfold Fleet.switch
  split
  · exact hL
  · rename_i hne
    have hempty := hspare hne
    refine hL.homes ?_ ?_
    · intro j
      by_cases hj : j = i
      · subst hj
        simp only [setThread, Function.update_self, Thread.dropped]
        refine ⟨trivial, fun addr => ?_⟩
        rw [ownIds_empty addr _ hempty]
        exact ownIds_empty addr _ rfl
      · simp only [setThread, Function.update_of_ne hj, freeBatch_threads]
        exact ⟨trivial, fun _ => trivial⟩
    · intro other h' hm'
      have hfree : (f.freeBatch (f.threads i).writer.batch).mem other = some h' := hm'
      rw [freeBatch_mem] at hfree
      obtain ⟨h, hm, rfl⟩ := Option.map_eq_some_iff.mp hfree
      refine ⟨hL.plain other h hm, .inr ⟨h, hm, ?_⟩⟩
      dsimp only
      rw [Writer.leaveBatch_eq]
      exact ⟨rfl, rfl⟩

theorem Lodging.create (hL : Lodging n f) (addr : ℕ) (cfg : Config) (hashKey : ℕ)
    (hordered : cfg.orderedSend = false) :
    Lodging n { f.setHome addr (some (Home.create f.created cfg hashKey)) with
      created := f.created+1 } := by
  refine hL.homes (fun i => ⟨rfl, fun _ => rfl⟩) ?_
  intro other h' hm'
  by_cases ho : other = addr
  · subst ho
    obtain rfl := Option.some.inj ((setHome_self other _).symm.trans hm')
    exact ⟨hordered, .inl rfl⟩
  · have hm : f.mem other = some h' := (setHome_other addr other _ ho).symm.trans hm'
    exact ⟨hL.plain other h' hm, .inr ⟨h', hm, rfl, rfl⟩⟩

/-- The producer's own threads accept nothing and publish nothing. -/
theorem Lodging.own (hL : Lodging n f) {addr : ℕ} (a : VeTls.Act) (f' : Fleet)
    (hs : ownStep n addr a f = some f')
    (hstill : ∀ h s, f.mem addr = some h → Sys.step (h.setup n addr) (f.view addr h) a = some s →
      Still h.prod s.prod) : Lodging n f' := by
  obtain ⟨h, hm, hrest⟩ := Option.bind_eq_some_iff.mp hs
  obtain ⟨s, hstep, hf⟩ := Option.bind_eq_some_iff.mp hrest
  obtain rfl := Option.some.inj hf
  refine hL.homes (fun i => ⟨rfl, fun _ => rfl⟩) ?_
  intro other h' hm'
  by_cases ho : other = addr
  · subst ho
    obtain rfl := Option.some.inj ((setHome_self other _).symm.trans hm')
    exact ⟨hL.plain other h hm, .inr ⟨h, hm, hstill h s hm hstep⟩⟩
  · have hm : f.mem other = some h' := (setHome_other addr other _ ho).symm.trans hm'
    exact ⟨hL.plain other h' hm, .inr ⟨h', hm, rfl, rfl⟩⟩

/-- The runs in question: producers without `ordered_send` are created and stay,
threads add logs without a hash key, and no flush is refused. -/
def AddsOnly (f : Fleet) : Act → Prop
  | .create _ cfg _ => cfg.orderedSend = false
  | .call _ _ (.addKv _ hashKey _) => hashKey = []
  | .call _ _ _ | .destroy _ _ | .destroying _ => False
  | .writer i _ => Writer.refused (f.threads i).writer.pc = false
  | .worker _ _ _ | .sender _ _ _ => True

/-- The add frees the batch that the thread has. -/
def switches (f : Fleet) (i addr : ℕ) (c : Call) : Bool :=
  match f.mem addr with
  | none => false
  | some h => batches h.cfg c && !(decide ((f.threads i).writer.batch.producer = some addr) &&
      decide ((f.threads i).normKey = some h.normKey))

/-- The next step of the thread appends a log that its builder refuses. -/
def overflows (f : Fleet) (i : ℕ) : Bool :=
  match (f.threads i).doing with
  | .call addr => (f.mem addr).any fun h => Writer.overflows h.cfg (f.threads i).writer h.prod
  | _ => false

/-- A thread that frees its batch has no logs in it. -/
def Spares (f : Fleet) : Act → Prop
  | .call i addr c => f.switches i addr c = true → Thread.heldLogs (f.threads i).writer = 0
  | .writer i _ => f.overflows i = true → Thread.heldLogs (f.threads i).writer = 0
  | _ => True

theorem lodging_writer (hI : Inv n f) (hL : Lodging n f) {addr i : ℕ} (input : Input) (f' : Fleet)
    (hd : (f.threads i).doing = .call addr)
    (hrefused : Writer.refused (f.threads i).writer.pc = false)
    (hspare : f.overflows i = true → Thread.heldLogs (f.threads i).writer = 0)
    (hs : threadStep n i addr (.writer i input) f = some f') : Lodging n f' := by
  obtain ⟨h, hm, hrest⟩ := Option.bind_eq_some_iff.mp hs
  obtain ⟨s, hstep, hf⟩ := Option.bind_eq_some_iff.mp hrest
  obtain rfl := Option.some.inj hf
  simp only [Sys.step] at hstep
  split at hstep
  · rename_i hi
    obtain ⟨r, hr, rfl⟩ := Option.map_eq_some_iff.mp hstep
    have hok := (hI.homes addr h hm).good.writers i
    have hseen : (f.view addr h).writers i = (f.threads i).writer := if_pos hd
    have hw : ((f.view addr h).setWriter i r).writers i = r.1 := Function.update_self _ _ _
    rw [hw]
    refine hL.threadStep hi hm ?_ (go_leaves _ input _ r hd hok hr)
    refine Writer.go_holds _ input r hok ?_ ?_ ?_ hr
    · rw [hseen]
      exact hL.pcs i
    · rw [hseen]
      exact hrefused
    · intro hover
      rw [hseen] at hover ⊢
      refine ownIds_empty addr _ (hspare ?_)
      simp only [overflows, hd, hm, Option.any_some]
      exact hover
  · cases hstep

theorem lodging_call (hL : Lodging n f) {addr i : ℕ} (kv : Wire.KvLog) (flush : Bool)
    (f' : Fleet)
    (hbatch : ∀ h, f.mem addr = some h → batches h.cfg (.addKv kv [] flush) = true →
      (f.threads i).writer.batch = ⟨none, none⟩ ∨
        (f.threads i).writer.batch.producer = some addr)
    (hs : threadStep n i addr (.call i (.addKv kv [] flush)) f = some f') : Lodging n f' := by
  obtain ⟨h, hm, hrest⟩ := Option.bind_eq_some_iff.mp hs
  obtain ⟨s, hstep, hf⟩ := Option.bind_eq_some_iff.mp hrest
  obtain rfl := Option.some.inj hf
  simp only [Sys.step] at hstep
  split at hstep
  · rename_i hi
    obtain ⟨r, hr, rfl⟩ := Option.map_eq_some_iff.mp hstep
    have hw : ((f.view addr h).setWriter i r).writers i = r.1 := Function.update_self _ _ _
    rw [hw]
    exact hL.threadStep hi.1 hm (Writer.call_holds kv flush r (hL.plain addr h hm) hr)
      (call_leaves _ _ r rfl (hbatch h hm) hr)
  · cases hstep

theorem lodging_step (hI : Inv n f) (hL : Lodging n f) (a : Act) (hadds : AddsOnly f a)
    (hspare : Spares f a) (f' : Fleet) (hs : step n f a = some f') : Lodging n f' := by
  cases a with
  | create addr cfg hashKey =>
    simp only [step] at hs
    split at hs
    · cases hs
    · obtain rfl := Option.some.inj hs
      exact hL.create addr cfg hashKey hadds
  | call i addr c =>
    cases c with
    | addKv kv hashKey flush =>
      obtain rfl : hashKey = [] := hadds
      obtain ⟨h, hm, hrest⟩ := Option.bind_eq_some_iff.mp hs
      split at hrest
      · rename_i hready
        split at hrest
        · rename_i hb
          obtain ⟨_, _, hbatch⟩ := hI.switch hready.1 addr h.normKey hready.2.1
          refine lodging_call (hL.switch i addr h.normKey fun hne => hspare ?_) kv flush f'
            (fun _ _ _ => hbatch) hrest
          simp only [switches, hm, hb, Bool.true_and]
          simpa using not_and_or.mp hne
        · rename_i hno
          refine lodging_call hL kv flush f' ?_ hrest
          intro h' hm' hb
          rw [hm] at hm'
          obtain rfl := Option.some.inj hm'
          exact absurd hb hno
      · cases hrest
    | _ => exact absurd hadds not_false
  | writer i input =>
    simp only [step] at hs
    split at hs
    · rename_i addr hd
      exact lodging_writer hI hL input f' hd hadds hspare hs
    · cases hs
  | worker addr j input =>
    exact hL.own _ f' hs fun h s hm hstep =>
      Sys.worker_still _ s j input (hI.homes addr h hm).good hstep
  | sender addr j input =>
    exact hL.own _ f' hs fun h s hm hstep =>
      Sys.sender_still _ s j input (hI.homes addr h hm).good hstep
  | destroy i addr => exact absurd hadds not_false
  | destroying i => exact absurd hadds not_false

/-- Every accepted log is in a batch for its producer, was published to its
ingress queue, was reported, or is one of those counted as dropped. -/
def Accounted (n : ℕ) (f : Fleet) : Prop :=
  ∀ addr h, f.mem addr = some h → ∃ counted : List ℤ, counted.length ≤ h.prod.logsDroppedTotal ∧
    ∀ id ∈ h.prod.accepted,
      Lodged n addr f h.prod id ∨ (∃ r ∈ h.prod.done, id ∈ r.ids) ∨ id ∈ counted

theorem Lodging.accounted (hL : Lodging n f) : Accounted n f :=
  fun addr h hm => ⟨[], Nat.zero_le _, fun id hid => .inl (hL.accepted addr h hm id hid)⟩

theorem lodging_start (n : ℕ) : Lodging n start := by
  refine ⟨fun _ => rfl, ?_, ?_⟩
  · intro addr h hm
    cases hm
  · intro addr h hm
    cases hm

/-- Nothing is destroyed. -/
theorem AddsOnly.freesClean {a : Act} (h : AddsOnly f a) : FreesClean n f a := by
  cases a with
  | destroying i => exact absurd h not_false
  | _ => trivial

/-- In every run of adds in which a thread frees its batch only when that has
no logs, no accepted log disappears. -/
theorem run_accounted (n : ℕ) (acts : List Act) (f : Fleet)
    (hacts : Machine.Along (step n) (fun f a => AddsOnly f a ∧ Spares f a) acts start)
    (h : run n acts start = some f) : Accounted n f := by
  have hinv : Inv n f ∧ Lodging n f :=
    Machine.run_invariant (step n) (fun f => Inv n f ∧ Lodging n f)
      (fun f a => AddsOnly f a ∧ Spares f a)
      (fun _ a f' hI hc hs => ⟨step_inv hI.1 a hc.1.freesClean f' hs,
        lodging_step hI.1 hI.2 a hc.1 hc.2 f' hs⟩)
      acts start f ⟨inv_start n, lodging_start n⟩ hacts h
  exact hinv.2.accounted

instance decidableAddsOnly (f : Fleet) : ∀ a, Decidable (AddsOnly f a)
  | .create _ cfg _ => inferInstanceAs (Decidable (cfg.orderedSend = false))
  | .call _ _ (.addKv _ hashKey _) => inferInstanceAs (Decidable (hashKey = []))
  | .call _ _ (.addRaw _) | .call _ _ .flush | .call _ _ (.close _) | .call _ _ (.elsewhere _ _)
  | .destroy _ _ | .destroying _ => isFalse not_false
  | .writer i _ => inferInstanceAs (Decidable (Writer.refused (f.threads i).writer.pc = false))
  | .worker _ _ _ | .sender _ _ _ => isTrue trivial

instance decidableSpares (f : Fleet) : ∀ a, Decidable (Spares f a)
  | .call i addr c => inferInstanceAs (Decidable
      (f.switches i addr c = true → Thread.heldLogs (f.threads i).writer = 0))
  | .writer i _ => inferInstanceAs (Decidable
      (f.overflows i = true → Thread.heldLogs (f.threads i).writer = 0))
  | .create _ _ _ | .worker _ _ _ | .sender _ _ _ | .destroy _ _ | .destroying _ => isTrue trivial

/-- The thread adds a log to the producer at `addr`. -/
def addTo (addr : ℕ) : List Act :=
  [.call 0 addr (.addKv ⟨5, 0, false, [([65], [66])]⟩ [] false), .writer 0 ⟨1, 1, 9⟩,
    .writer 0 ⟨1, 1, 9⟩]

/-- The same, and flushes the batch. -/
def flushTo (addr : ℕ) : List Act :=
  [.call 0 addr (.addKv ⟨5, 0, false, [([65], [66])]⟩ [] true), .writer 0 ⟨1, 1, 9⟩,
    .writer 0 ⟨1, 1, 9⟩, .writer 0 ⟨1, 1, 9⟩]

def twoProducers : List Act := [.create 7 oneBucket 0, .create 8 oneBucket 0]

/-- The batch was flushed before the thread turns to the other producer. -/
theorem flushed_switch_accounted : ∃ f, run 1 (twoProducers++flushTo 7++addTo 8++addTo 8) start =
    some f ∧ (f.mem 7).map (fun h => h.prod.accepted) = some [1] ∧
    (f.mem 8).map (fun h => h.prod.accepted) = some [1, 2] ∧ Accounted 1 f :=
  ⟨_, rfl, by decide, by decide,
    run_accounted 1 (twoProducers++flushTo 7++addTo 8++addTo 8) _ (by decide) rfl⟩

theorem switch_run : ∃ f h, run 1 (twoProducers++addTo 7++addTo 8) start = some f ∧
    f.mem 7 = some h ∧ h.prod.accepted = [1] ∧ h.prod.published = [] ∧ h.prod.done = [] ∧
    h.prod.logsDroppedTotal = 0 ∧ (f.threads 0).writer.batch.producer = some 8 :=
  ⟨_, _, rfl, rfl, by decide, by decide, by decide, by decide, by decide⟩

/-- The batch still has the log of the first producer when it is freed. -/
theorem switch_not_accounted : ∃ f, run 1 (twoProducers++addTo 7++addTo 8) start = some f ∧
    Machine.Along (step 1) AddsOnly (twoProducers++addTo 7++addTo 8) start ∧
    ¬Accounted 1 f := by
  obtain ⟨f, h, hrun, hm, ha, hp, hd, hz, hb⟩ := switch_run
  refine ⟨f, hrun, by decide, fun hacc => ?_⟩
  obtain ⟨counted, hlen, hall⟩ := hacc 7 h hm
  obtain rfl : counted = [] := List.length_eq_zero_iff.mp (by omega)
  obtain hl | ⟨r, hr, _⟩ | hc := hall 1 (by rw [ha]; decide)
  · obtain hpub | ⟨i, hi, hown⟩ := hl
    · rw [hp] at hpub
      cases hpub
    · obtain rfl : i = 0 := by omega
      rw [Writer.ownIds_other (by rw [hb]; decide)] at hown
      cases hown
  · rw [hd] at hr
    cases hr
  · cases hc

end Fleet

end VeTls
