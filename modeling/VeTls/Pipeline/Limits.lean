import VeTls.Pipeline.Turns

/-!
# The limits of a request

A builder is sealed when it has reached a threshold, not before it would go
over one: a log, or the whole batch of a thread, is added first. Nothing on
this way reads `agg_max_log_group_logs`. What stays within the limits is a
run in which all that is put together in one builder fits together.
-/

set_option autoImplicit false

namespace VeTls

open VeTls.Keys (Addr CStr KeyMap)
open VeTls.Keys.KeyMap (Sound)

variable {cfg : Config} {most : ℕ}

/-- The number of logs a LogGroup may have. -/
def maxGroupLogs (aggMaxLogGroupLogs : ℤ) : ℕ := min aggMaxLogGroupLogs.toNat 10000

/-- The size of the body of a request with so many bytes of logs. -/
def rawBody (cfg : Config) (logsLen : ℕ) : ℕ :=
  1+Wire.varintU64Size (logsLen+cfg.groupSuffixLen)+(logsLen+cfg.groupSuffixLen)

/-- A request built from a builder is within the limits. -/
structure WithinLimits (cfg : Config) (most : ℕ) (t : SendTask) : Prop where
  logs : t.ids.length ≤ most
  raw : t.rawBodySize ≤ cfg.aggMaxRawBytesPerRequest.toNat

def Builder.Within (cfg : Config) (most : ℕ) (b : Builder) : Prop :=
  b.logCount ≤ most ∧ rawBody cfg b.logsLen ≤ cfg.aggMaxRawBytesPerRequest.toNat

/-- What the builder has and what comes to it fit in one request. -/
def together (cfg : Config) (most : ℕ) (old : Option Builder) (count len : ℕ) : Bool :=
  decide (old.elim 0 Builder.logCount+count ≤ most) &&
    decide (rawBody cfg (old.elim 0 Builder.logsLen+len) ≤ cfg.aggMaxRawBytesPerRequest.toNat)

theorem varintU64SizeGo_mono (k a b : ℕ) (h : a ≤ b) :
    Wire.varintU64SizeGo k a ≤ Wire.varintU64SizeGo k b := by
  induction k generalizing a b with
  | zero => exact le_rfl
  | succ k ih =>
    have hdiv : a/128 ≤ b/128 := Nat.div_le_div_right h
    unfold Wire.varintU64SizeGo
    split
    · split
      · exact le_rfl
      · omega
    · split
      · omega
      · have hrec := ih (a/128) (b/128) hdiv
        omega

theorem rawBody_mono (cfg : Config) (m n : ℕ) (h : m ≤ n) : rawBody cfg m ≤ rawBody cfg n := by
  have hv := varintU64SizeGo_mono 9 (m+cfg.groupSuffixLen) (n+cfg.groupSuffixLen) (by omega)
  unfold rawBody Wire.varintU64Size
  omega

theorem extends_within {old : Option Builder} {new : List Log} {len count : ℕ} {b : Builder}
    (h : together cfg most old count len = true) (he : Extends old new len count b) :
    b.Within cfg most := by
  obtain ⟨hc, hr⟩ := Bool.and_eq_true_iff.mp h
  constructor
  · rw [he.logCount]
    exact of_decide_eq_true hc
  · rw [he.logsLen]
    exact of_decide_eq_true hr

/-- With what was to come left out it fits as well. -/
theorem open_within {old : Option Builder} {len count : ℕ} {b : Builder}
    (h : together cfg most old count len = true) (he : Extends old [] 0 0 b) :
    b.Within cfg most := by
  obtain ⟨hc, hr⟩ := Bool.and_eq_true_iff.mp h
  have hcount := of_decide_eq_true hc
  have hraw := of_decide_eq_true hr
  constructor
  · rw [he.logCount]
    omega
  · rw [he.logsLen]
    exact (rawBody_mono cfg _ _ (by omega)).trans hraw

/-- All builders of the producer are within the limits. -/
def KeptWithin (cfg : Config) (most : ℕ) (p : Producer) : Prop :=
  ∀ b ∈ kept cfg p, b.Within cfg most

theorem KeptWithin.mono {p p' : Producer} (h : KeptWithin cfg most p)
    (hk : ∀ b ∈ kept cfg p', b ∈ kept cfg p) : KeptWithin cfg most p' :=
  fun b hb => h b (hk b hb)

theorem KeptWithin.congr {p p' : Producer} (h : KeptWithin cfg most p)
    (hd : p'.defaultBuilder = p.defaultBuilder) (hk : p'.keys = p.keys)
    (hl : p'.sealedList = p.sealedList) : KeptWithin cfg most p' := by
  refine h.mono ?_
  rw [kept_congr hd hk hl]
  exact fun b hb => hb

theorem KeptWithin.fill {p p' : Producer} {old : Option Builder} {b : Builder}
    (h : KeptWithin cfg most p) (hf : Fill cfg p p' old b) (hb : b.Within cfg most) :
    KeptWithin cfg most p' := by
  intro x hx
  obtain rfl | hx := hf.kept_cases x hx
  · exact hb
  · exact h x hx

namespace Writer

/-- The log fits in the builder of its key. -/
def addTogether (cfg : Config) (most : ℕ) (i : Input) (kv : Wire.KvLog) (hashKey : CStr)
    (p : Producer) : Bool :=
  let f := findSlot cfg p (cfg.fastBuilder && hashKey.isEmpty) (cfg.normalizeHashKey hashKey) i.addr
  f.1.all fun slot =>
    together cfg most (slotBuilder f.2 slot) 1 (storedLog p.nextId kv).size

/-- The log that the step puts in a builder. -/
def storing (cfg : Config) (i : Input) (w : Writer) (p : Producer) : Option (Wire.KvLog × CStr) :=
  match w.pc with
  | .kvLock kv hashKey _ =>
    if p.stop || !p.accepting || (ingressBreakerDropLocked cfg p (estimate kv) i.now).isSome then none
    else if (waitBufferSpaceLocked cfg p (estimate kv) false i.now i.now2).1 = .rc .ok then
      some (kv, hashKey)
    else none
  | .kvWait kv hashKey _ deadline =>
    if (waitLoop cfg p (estimate kv) false deadline i.now).1 = .rc .ok then some (kv, hashKey)
    else none
  | _ => none

theorem settleQueue_kept (estimated delta : ℕ) (p : Producer) :
    kept cfg (settleQueue estimated delta p) = kept cfg p := by
  unfold settleQueue
  split
  · rfl
  · split <;> rfl

theorem settleQueue_keys (estimated delta : ℕ) (p : Producer) :
    (settleQueue estimated delta p).keys = p.keys := by
  unfold settleQueue
  split
  · rfl
  · split <;> rfl

theorem kvRefuse_within (kv : Wire.KvLog) (id : ℤ) (w : Writer) (p : Producer)
    (h : KeptWithin cfg most p) : KeptWithin cfg most (kvRefuse cfg kv id w p).2 := by
  unfold kvRefuse
  dsimp only
  split
  · exact h.congr rfl rfl rfl
  · exact h.congr rfl rfl rfl

theorem kvStore_within (kv : Wire.KvLog) (id : ℤ) (key : CStr) (now : ℤ) (flush : Bool)
    (slot : Slot) (w : Writer) (p : Producer) (hs : Sound cfg.toKeyConfig p.keys)
    (hslot : SlotOk cfg p slot) (hbusy : SlotBusy p slot) (h : KeptWithin cfg most p)
    (hfit : together cfg most (slotBuilder p slot) 1 (storedLog id kv).size = true) :
    KeptWithin cfg most (kvStore cfg kv id flush slot (openBuilder p slot key now) w p).2 := by
  unfold kvStore
  split
  · have hopen := open_within hfit (openBuilder_extends p slot key now)
    have hset := h.fill (setSlot_fill p hs slot hslot hbusy (openBuilder p slot key now)) hopen
    exact hset.congr rfl rfl rfl
  · rename_i b hadd
    have hext := addKv_extends (slotBuilder p slot) _ b id kv ⟨rfl, rfl, rfl⟩ hadd
    generalize hq : settleQueue (estimate kv) _ p = q
    have hkeys : q.keys = p.keys := by
      rw [← hq]
      exact settleQueue_keys _ _ p
    have hkept : KeptWithin cfg most q := by
      rw [← hq]
      refine h.mono ?_
      rw [settleQueue_kept]
      exact fun b hb => hb
    have hfill := storeBuilder_fill flush slot b q (by rwa [hkeys])
      (by unfold SlotOk at hslot ⊢; rwa [hkeys]) (by unfold SlotBusy at hbusy ⊢; rwa [hkeys])
    exact (hkept.fill hfill (extends_within hfit hext)).congr rfl rfl rfl

theorem kvAdd_within (i : Input) (kv : Wire.KvLog) (hashKey : CStr) (flush : Bool) (w : Writer)
    (p : Producer) (hs : Sound cfg.toKeyConfig p.keys)
    (ha : i.addr ∉ KeyMap.live cfg.toKeyConfig p.keys) (h : KeptWithin cfg most p)
    (hfit : addTogether cfg most i kv hashKey p = true) :
    KeptWithin cfg most (kvAdd cfg i kv hashKey flush w p).2 := by
  obtain ⟨m, he, hk, hslot⟩ := findSlot_keeps p hs (cfg.fastBuilder && hashKey.isEmpty)
    (cfg.normalizeHashKey hashKey) i.addr ha
  have hm : KeptWithin cfg most (kvReserve kv { p with keys := m }) :=
    h.mono (kept_effect hk rfl rfl rfl)
  unfold addTogether at hfit
  unfold kvAdd
  dsimp only at hfit ⊢
  rw [findSlot_reserve, he]
  rw [he] at hfit
  cases hf : (findSlot cfg p (cfg.fastBuilder && hashKey.isEmpty)
      (cfg.normalizeHashKey hashKey) i.addr).1 with
  | none => exact kvRefuse_within kv p.nextId w _ hm
  | some slot =>
    rw [hf] at hfit
    have hq : slotBuilder (kvReserve kv { p with keys := m }) slot =
        slotBuilder { p with keys := m } slot := by cases slot <;> rfl
    exact kvStore_within kv p.nextId _ i.now2 flush slot w _ hk.sound (hslot slot hf).1
      (hslot slot hf).2 hm (by rw [hq]; exact hfit)

/-- The step of an add with a hash key. -/
theorem admitted_within (need : ℕ) (again : ℤ → Pc) (go : Producer → Writer × Producer) (w : Writer)
    (p : Producer) (x : Wait × Producer) (hx : Waited cfg p need false x)
    (h : KeptWithin cfg most p) (hgo : x.1 = .rc .ok → KeptWithin cfg most (go p).2) :
    KeptWithin cfg most (admitted w again go x).2 := by
  obtain ⟨res, p'⟩ := x
  have hq : KeptWithin cfg most p' := by
    obtain ⟨_, _, _, _, _, _, rfl⟩ := hx.quiet
    exact h.congr rfl rfl rfl
  cases res with
  | block d => exact hq
  | rc rc =>
    cases rc with
    | ok =>
      obtain rfl : p' = p := (hx.ok rfl).1
      exact hgo rfl
    | full => exact hq.congr rfl rfl rfl
    | closed => exact hq
    | timeout => exact hq.congr rfl rfl rfl

theorem enter_within (i : Input) (bytes : ℕ) (again : ℤ → Pc) (go : Producer → Writer × Producer)
    (w : Writer) (p : Producer) (h : KeptWithin cfg most p)
    (hgo : (p.stop || !p.accepting || (ingressBreakerDropLocked cfg p bytes i.now).isSome) = false →
      (waitBufferSpaceLocked cfg p bytes false i.now i.now2).1 = .rc .ok →
      KeptWithin cfg most (go p).2) : KeptWithin cfg most (enter cfg i bytes again go w p).2 := by
  unfold enter
  split
  · exact h
  · rename_i hopen
    split
    · rename_i p' hd
      obtain ⟨_, _, _, _, _, _, rfl⟩ := ingressBreakerDropLocked_quiet p p' bytes i.now hd
      exact h.congr rfl rfl rfl
    · rename_i hd
      refine admitted_within bytes again go w p _
        (waitBufferSpaceLocked_waited p bytes false i.now i.now2) h (hgo ?_)
      rw [hd, Bool.eq_false_iff.mpr hopen]
      rfl

theorem Move.kept {me : ℕ} {src : Pc} {a b : Writer × Producer} (h : Move cfg me src a b)
    (hsrc : keyedAdd src = false) : ∀ x ∈ VeTls.kept cfg b.2, x ∈ VeTls.kept cfg a.2 := by
  have of_eq : VeTls.kept cfg b.2 = VeTls.kept cfg a.2 →
      ∀ x ∈ VeTls.kept cfg b.2, x ∈ VeTls.kept cfg a.2 := by
    intro he
    rw [he]
    exact fun x hx => hx
  cases h with
  | quiet w w' p p' hq =>
    obtain ⟨_, _, _, _, _, _, rfl⟩ := hq
    exact of_eq rfl
  | append w w' p kv flush b =>
    dsimp only at of_eq ⊢
    rw [settleTls_eq] at of_eq ⊢
    exact of_eq rfl
  | keyed w p m hr hk hkey =>
    rw [hsrc] at hkey
    cases hkey
  | store w w' p p' kv old b hkv hb hr hr' hs hf he hkey =>
    rw [hsrc] at hkey
    cases hkey
  | openSlot w p p' old b hr hf he hkey =>
    rw [hsrc] at hkey
    cases hkey
  | _ => exact of_eq rfl

theorem Loss.kept {me : ℕ} {a b : Writer × Producer} (h : Loss cfg me a b) :
    VeTls.kept cfg b.2 = VeTls.kept cfg a.2 := by
  cases h with
  | leave w w' p =>
    dsimp only
    rw [leaveBatch_eq]
    rfl
  | overflow w w' p kv flush => rfl
  | discard w w' p rc => rfl

theorem moves_within {me : ℕ} {src : Pc} {a b : Writer × Producer} (hsrc : keyedAdd src = false)
    (hm : Moves cfg me src a b ∨ Loss cfg me a b) (h : KeptWithin cfg most a.2) :
    KeptWithin cfg most b.2 := by
  obtain hm | hl := hm
  · induction hm with
    | refl => exact h
    | tail _ hlast ih => exact ih.mono (hlast.kept hsrc)
  · refine h.mono ?_
    rw [hl.kept]
    exact fun x hx => hx

theorem go_within (me : ℕ) (joined : Bool) (i : Input) (w : Writer) (p : Producer)
    (r : Writer × Producer) (hok : Ok cfg me w) (hs : Sound cfg.toKeyConfig p.keys)
    (h : KeptWithin cfg most p)
    (hfit : (storing cfg i w p).all (fun x => addTogether cfg most i x.1 x.2 p) = true)
    (hgo : go cfg me joined i w p = some r) : KeptWithin cfg most r.2 := by
  cases hkey : keyedAdd w.pc with
  | false => exact moves_within hkey (go_moves joined i w r.1 p r.2 hok hs hgo) h
  | true =>
    unfold go at hgo
    split at hgo
    · cases hgo
    · rename_i ha
      cases hpc : w.pc with
      | kvLock kv hashKey flush =>
        simp only [hpc, Option.some.injEq] at hgo
        subst hgo
        refine enter_within i _ _ _ w p h fun hopen hok => ?_
        refine kvAdd_within i kv hashKey flush w p hs ha h ?_
        simpa [storing, hpc, hopen, hok] using hfit
      | kvWait kv hashKey flush deadline =>
        simp only [hpc, Option.some.injEq] at hgo
        subst hgo
        refine admitted_within _ _ _ w p _ (waitLoop_waited p _ false deadline i.now) h fun hok => ?_
        refine kvAdd_within i kv hashKey flush w p hs ha h ?_
        simpa [storing, hpc, hok] using hfit
      | _ => simp [hpc, keyedAdd] at hkey

end Writer

namespace Worker

/-- The batch fits in the builder it is merged into. -/
def mergeTogether (cfg : Config) (most : ℕ) (t : IngressTask) (addr : Addr) (p : Producer) : Bool :=
  let f := findSlot cfg p (mergeDefault cfg t.normKey) t.normKey addr
  decide (t.batch.logCount = 0 ∨ t.batch.logsLen = 0) ||
    f.1.all fun slot =>
      together cfg most (slotBuilder f.2 slot) t.batch.logCount t.batch.logsLen

/-- Each batch fits when its turn comes. -/
def allTogether (cfg : Config) (most : ℕ) (now : ℤ) : List IngressTask → List Addr → Producer → Bool
  | t::rest, a::addrs, p => mergeTogether cfg most t a p &&
      allTogether cfg most now rest addrs (mergeOne cfg now t rest a p)
  | _, _, _ => true

theorem kept_popped (flush : Bool) (slot : Slot) (b : Builder) (t : IngressTask)
    (rest : List IngressTask) (p : Producer) (n : ℕ) :
    kept cfg (storeBuilder cfg flush slot b
      { ingressQueuePopLocked t rest p with queueBytes := n }) =
      kept cfg (storeBuilder cfg flush slot b p) := by
  rw [storeBuilder_popped]
  rfl

theorem mergeOne_within (now : ℤ) (t : IngressTask) (rest : List IngressTask) (addr : Addr)
    (p : Producer) (hs : Sound cfg.toKeyConfig p.keys)
    (ha : addr ∉ KeyMap.live cfg.toKeyConfig p.keys) (h : KeptWithin cfg most p)
    (hfit : mergeTogether cfg most t addr p = true) :
    KeptWithin cfg most (mergeOne cfg now t rest addr p) := by
  have hmerge : KeptWithin cfg most
      (ingressTaskMergeLocked cfg t addr now (ingressQueuePopLocked t rest p)).2 := by
    unfold ingressTaskMergeLocked
    split
    · exact h.congr rfl rfl rfl
    · rename_i hne
      obtain ⟨m, he, hk, hslot⟩ := findSlot_keeps p hs (mergeDefault cfg t.normKey) t.normKey addr ha
      have hm : KeptWithin cfg most { p with keys := m } := h.mono (kept_effect hk rfl rfl rfl)
      have hfits := (Bool.or_eq_true _ _).mp hfit
      rw [findSlot_popped, he]
      rw [he] at hfits
      cases hf : (findSlot cfg p (mergeDefault cfg t.normKey) t.normKey addr).1 with
      | none => exact hm.congr rfl rfl rfl
      | some slot =>
        rw [hf] at hfits
        have htog := hfits.resolve_left fun hd => hne (of_decide_eq_true hd)
        have hopen : openBuilder (ingressQueuePopLocked t rest { p with keys := m }) slot t.normKey
            now = openBuilder { p with keys := m } slot t.normKey now := by cases slot <;> rfl
        unfold mergeInto
        dsimp only
        rw [hopen]
        cases happ : logBuilderAppend
            (stampFirst t now (openBuilder { p with keys := m } slot t.normKey now)) t.batch with
        | none =>
          obtain ⟨b, hb⟩ := append_some
            (stampFirst t now (openBuilder { p with keys := m } slot t.normKey now)) t.batch hne
          rw [hb] at happ
          cases happ
        | some b =>
          obtain ⟨hext, _⟩ := append_extends { p with keys := m } t slot t.normKey now b happ
          have hfill := storeBuilder_fill t.forceFlush slot b { p with keys := m } hk.sound
            (hslot slot hf).1 (hslot slot hf).2
          have hin := hm.fill hfill (extends_within htog hext)
          refine hin.mono fun x hx => ?_
          rw [← kept_popped t.forceFlush slot b t rest]
          exact hx
  unfold mergeOne
  split
  · rename_i p' hp
    rwa [hp] at hmerge
  · rename_i p' hp
    rw [hp] at hmerge
    exact hmerge.congr rfl rfl rfl

theorem mergeAll_within (now : ℤ) (l : List IngressTask) (addrs : List Addr) (p p' : Producer)
    (hs : Sound cfg.toKeyConfig p.keys) (hi : p.ingressQueue = l) (h : KeptWithin cfg most p)
    (hfit : allTogether cfg most now l addrs p = true) (hm : mergeAll cfg now l addrs p = some p') :
    KeptWithin cfg most p' := by
  induction l generalizing addrs p with
  | nil =>
    obtain rfl : p = p' := Option.some.inj hm
    exact h
  | cons t rest ih =>
    cases addrs with
    | nil => cases hm
    | cons a addrs =>
      rw [mergeAll] at hm
      split at hm
      · cases hm
      · rename_i ha
        obtain ⟨hfirst, hrest⟩ := Bool.and_eq_true_iff.mp hfit
        obtain ⟨_, hs', hi'⟩ := mergeOne_moves now t rest a start p hs ha hi
        exact ih addrs _ hs' hi' (mergeOne_within now t rest a p hs ha h hfirst) hrest hm

theorem Moves.contents {Q : List Log → ℕ → ℕ → Prop} {a b : Worker × Producer} (hQ : Additive Q)
    (h : Moves cfg a b) (hp : Upstream cfg Q a.2) : Upstream cfg Q b.2 := by
  induction h with
  | refl => exact hp
  | tail _ hm ih => exact hm.contents hQ ih

end Worker

/-- The task of a builder that is within the limits. -/
theorem task_within {x : Sealed} {t : SendTask} (hz : x.builder.Has Sized)
    (hx : x.builder.Within cfg most) (hids : t.ids = (builderToSendTask cfg x).ids)
    (hraw : t.rawBodySize = (builderToSendTask cfg x).rawBodySize) : WithinLimits cfg most t := by
  constructor
  · calc t.ids.length = x.builder.logs.length := by rw [hids]; exact List.length_map _
      _ = x.builder.logCount := hz.1.symm
      _ ≤ most := hx.1
  · calc t.rawBodySize = rawBody cfg x.builder.logsLen := hraw
      _ ≤ cfg.aggMaxRawBytesPerRequest.toNat := hx.2

namespace Sys

variable {st : Setup}

/-- What the step puts together in a builder fits in one request. -/
def stepTogether (st : Setup) (most : ℕ) (s : Sys) : Act → Bool
  | .writer i input => (Writer.storing st.cfg input (s.writers i) s.prod).all fun x =>
      Writer.addTogether st.cfg most input x.1 x.2 s.prod
  | .worker i input =>
    match (s.workers i).pc with
    | .top | .timed _ =>
      Worker.allTogether st.cfg most input.now s.prod.ingressQueue input.addrs s.prod
    | _ => true
  | _ => true

structure Measured (st : Setup) (most : ℕ) (s : Sys) : Prop where
  sized : Every st Sized s
  kept : KeptWithin st.cfg most s.prod
  hands : ∀ i, Worker.Hands st.cfg (fun b => b.Has Sized ∧ b.Within st.cfg most) (s.workers i)

theorem measured_start (st : Setup) (most : ℕ) : Measured st most (start st) := by
  refine ⟨every_start sized_additive st, ?_, fun i => ⟨nofun, nofun⟩⟩
  intro b hb
  rw [mem_kept] at hb
  obtain hb | hb | ⟨s, hs, _⟩ := hb
  · cases hb
  · simp [start, producerCreate, KeyMap.builders, KeyMap.live, KeyMap.empty] at hb
  · cases hs

theorem measured_step (s s' : Sys) (a : Act) (hgood : Good st s) (hi : Measured st most s)
    (hc : stepTogether st most s a = true) (h : step st s a = some s') : Measured st most s' := by
  have hsized := sized_step s s' a hgood hi.sized h
  cases a with
  | call i c =>
    simp only [step] at h
    split at h
    · rename_i hidle
      obtain ⟨r, hr, rfl⟩ := Option.map_eq_some_iff.mp h
      have hkey : Writer.keyedAdd (s.writers i).pc = false := by
        rw [hidle.2]
        rfl
      exact ⟨hsized, Writer.moves_within hkey (Writer.call_moves _ r.1 _ r.2 c hidle.2 hr) hi.kept,
        hi.hands⟩
    · cases h
  | writer i input =>
    simp only [step] at h
    split at h
    · obtain ⟨r, hr, rfl⟩ := Option.map_eq_some_iff.mp h
      exact ⟨hsized, Writer.go_within st.me _ input _ _ r (hgood.writers i) hgood.sound hi.kept hc hr,
        hi.hands⟩
    · cases h
  | worker i input =>
    simp only [step] at h
    split at h
    · obtain ⟨r, hr, rfl⟩ := Option.map_eq_some_iff.mp h
      have hmerged : (∃ b, (s.workers i).pc = .timed b) ∨ (s.workers i).pc = .top → ∀ p',
          Worker.mergeAll st.cfg input.now s.prod.ingressQueue input.addrs s.prod = some p' →
          KeptWithin st.cfg most p' := by
        intro hpc p' hm
        refine Worker.mergeAll_within input.now _ input.addrs s.prod p' hgood.sound rfl hi.kept ?_ hm
        obtain ⟨b, hpc⟩ | hpc := hpc
        · simpa [stepTogether, hpc] using hc
        · simpa [stepTogether, hpc] using hc
      refine ⟨hsized, ?_, ?_⟩
      · obtain ht | ht := Worker.step_cases input hgood.sound hr
        · obtain rfl | ⟨p', hm, _, _, hkept⟩ := ht.taken hgood.sound
          · exact hi.kept
          · exact (hmerged ht.starts p' hm).mono hkept
        · exact hi.kept.mono ht.2.2.kept
      · refine forall_update _ s.workers i r.1 hi.hands ?_
        refine Worker.step_hands input hgood.sound (hi.hands i) (fun hpc p' hm b hb => ?_) hr
        obtain ⟨hmoves, _, _⟩ := Worker.mergeAll_moves input.now _ input.addrs (s.workers i) s.prod
          p' hgood.sound rfl hm
        exact ⟨(hmoves.contents sized_additive hi.sized.upstream).kept b hb, hmerged hpc p' hm b hb⟩
    · cases h
  | sender i input =>
    obtain ⟨_, r, _, hm, rfl⟩ := sender_move s s' i input hgood h
    exact ⟨hsized, hi.kept.mono hm.rests.1.kept, hi.hands⟩

theorem Measured.within {s : Sys} (h : Measured st most s) (i : ℕ) (j : Job)
    (hj : Worker.job (s.workers i).pc = some j) (hb : j.builderBytes ≠ none) :
    WithinLimits st.cfg most j.task := by
  obtain ⟨x, ⟨hz, hx⟩, hsame⟩ := (h.hands i).job j hj hb
  apply task_within hz hx
  · rw [hsame.task]
  · rw [hsame.task]

/-- In every run in which all that is put together in one builder fits
together, every request that a worker builds from a builder is within the
limits. -/
theorem run_requests_within (st : Setup) (aggMaxLogGroupLogs : ℤ) (acts : List Act) (s : Sys)
    (h : run st acts (start st) = some s)
    (hc : Along st (fun s a => stepTogether st (maxGroupLogs aggMaxLogGroupLogs) s a = true) acts
      (start st)) (i : ℕ) (j : Job) (hj : Worker.job (s.workers i).pc = some j)
    (hb : j.builderBytes ≠ none) :
    WithinLimits st.cfg (maxGroupLogs aggMaxLogGroupLogs) j.task := by
  obtain ⟨_, hi⟩ := run_rule (Measured st (maxGroupLogs aggMaxLogGroupLogs)) _
    (fun s a s' hg hI ha hst => measured_step s s' a hg hI ha hst) acts (start st) s (good_start st)
    (measured_start st _) hc h
  exact hi.within i j hj hb

/-- A request of twenty bytes at most. -/
def tightSetup : Setup :=
  ⟨{ keyQueueBucketCount := 1, aggMaxRawBytesPerRequest := 20 }, 1, 0⟩

def shortLog : Wire.KvLog := ⟨5, 0, false, [([65], [66])]⟩

/-- An add of one thread: it reserves, appends and, if it is the flush or has
filled the batch, publishes. -/
def addShort (flush : Bool) (steps : ℕ) : List Act :=
  .call 0 (.addKv shortLog [] flush)::List.replicate steps (.writer 0 ⟨1, 1, 9⟩)

def work (steps : ℕ) : List Act := List.replicate steps (.worker 0 ⟨1, 1, [8], none, none⟩)

/-- Each of the two logs is published on its own and taken before the next. -/
def oneByOne : List Act := addShort true 3++work 7++addShort true 3++work 2

theorem oneByOne_within : ∃ s j, run tightSetup oneByOne (start tightSetup) = some s ∧
    (s.workers 0).pc = .prepare j ∧ j.task.ids = [2] ∧
    WithinLimits tightSetup.cfg (maxGroupLogs 1) j.task :=
  ⟨_, _, rfl, rfl, rfl, run_requests_within tightSetup 1 oneByOne _ rfl (by decide) 0 _ rfl nofun⟩

/-- The second log fills the batch, which is published with both. -/
def twoAtOnce : List Act := addShort false 2++addShort false 3++work 2

/-- Each log fits in a request of its own. -/
theorem twoAtOnce_over :
    rawBody tightSetup.cfg (storedLog 1 shortLog).size ≤ 20 ∧
    ∃ s j, run tightSetup twoAtOnce (start tightSetup) = some s ∧ (s.workers 0).pc = .prepare j ∧
      j.builderBytes ≠ none ∧ s.prod.accepted = [1, 2] ∧ j.task.ids.length = 2 ∧
      j.task.rawBodySize = 26 ∧ ¬ WithinLimits tightSetup.cfg (maxGroupLogs 1) j.task := by
  refine ⟨by decide, _, _, rfl, rfl, by decide, by decide, by decide, by decide, fun h => ?_⟩
  have hraw := h.raw
  revert hraw
  decide

end Sys

end VeTls
