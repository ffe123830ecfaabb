import VeTls.Lib.Intrusive
import VeTls.Lib.Machine

/-!
# The object pool

A stack of free objects whose first word is the pointer to the next one. A
step is one atomic load, store or compare-exchange, or the plain access to
that word. An object that a caller holds is the caller's memory: what was the
pointer may be overwritten. A weak compare-exchange may fail for no reason.
-/

set_option autoImplicit false

namespace VeTls

open VeTls.Intrusive (Path Reach path_pop path_update mem_of_reach)

/-- `ve_tls_obj_pool`, the memory of its objects, the objects that are
allocated and those in the hands of callers. -/
structure ObjPool where
  maxCached : UInt32
  cached : UInt32
  head : Option ℕ
  next : ℕ → Option ℕ
  live : ℕ → Bool
  held : List ℕ

namespace ObjPool

def init (maxCached : UInt32) : ObjPool :=
  ⟨maxCached, 0, none, fun _ => none, fun _ => false, []⟩

inductive Call where
  | get
  | put (obj : ℕ)
  | write (obj : ℕ) (word : Option ℕ)
  deriving DecidableEq, Repr

inductive Pc where
  | idle
  | getLoad
  | getMalloc
  | getNext (head : ℕ)
  | getCas (head : ℕ) (next : Option ℕ)
  | getSub (head : ℕ)
  | putCached (obj : ℕ)
  | putReserve (obj : ℕ) (cur : UInt32)
  | putHead (obj : ℕ)
  | putNext (obj : ℕ) (head : Option ℕ)
  | putCas (obj : ℕ) (head : Option ℕ)
  deriving DecidableEq, Repr

/-- What an idle caller does, whether a compare-exchange fails for no reason,
and what `ve_tls_malloc` gives. -/
structure Input where
  call : Call
  fails : Bool
  malloc : Option ℕ
  deriving DecidableEq, Repr

def free (obj : ℕ) (p : ObjPool) : ObjPool := { p with live := Function.update p.live obj false }

def setNext (obj : ℕ) (word : Option ℕ) (p : ObjPool) : ObjPool :=
  { p with next := Function.update p.next obj word }

def begin (i : Input) (p : ObjPool) : Option (Pc × ObjPool) :=
  match i.call with
  | .get => some (.getLoad, p)
  | .put obj =>
    if obj ∈ p.held then
      let p := { p with held := p.held.erase obj }
      some (if p.maxCached = 0 then (.idle, free obj p) else (.putCached obj, p))
    else none
  | .write obj word => if obj ∈ p.held then some (.idle, setNext obj word p) else none

/-- Memory that is in use is not given out. -/
def malloc (i : Input) (p : ObjPool) : Option (Pc × ObjPool) :=
  match i.malloc with
  | none => some (.idle, p)
  | some obj =>
    if p.live obj then none
    else some (.idle,
      { p with live := Function.update p.live obj true, held := obj::p.held })

def reserve (i : Input) (obj : ℕ) (cur : UInt32) (p : ObjPool) : Pc × ObjPool :=
  if cur ≥ p.maxCached then (.idle, free obj p)
  else if p.cached = cur ∧ ¬ i.fails then (.putHead obj, { p with cached := cur+1 })
  else (.putReserve obj p.cached, p)

def move (i : Input) (pc : Pc) (p : ObjPool) : Option (Pc × ObjPool) :=
  match pc with
  | .idle => begin i p
  | .getLoad => some (p.head.elim .getMalloc .getNext, p)
  | .getMalloc => malloc i p
  | .getNext head => some (.getCas head (p.next head), p)
  | .getCas head next =>
    some (if p.head = some head ∧ ¬ i.fails then (.getSub head, { p with head := next })
      else (.getLoad, p))
  | .getSub head => some (.idle, { p with cached := p.cached-1, held := head::p.held })
  | .putCached obj => some (.putReserve obj p.cached, p)
  | .putReserve obj cur => some (reserve i obj cur p)
  | .putHead obj => some (.putNext obj p.head, p)
  | .putNext obj head => some (.putCas obj head, setNext obj head p)
  | .putCas obj head =>
    some (if p.head = head ∧ ¬ i.fails then (.idle, { p with head := some obj })
      else (.putHead obj, p))

/-- No object has two holders, none that is held can be reached from the
head, and at rest the counter is the length of the free list. -/
def Owned (n : ℕ) (w : Machine.Crew Pc ObjPool) : Prop :=
  w.shared.held.Nodup ∧ (∀ a ∈ w.shared.held, ¬ Reach w.shared.next w.shared.head a) ∧
    ((∀ i < n, w.pc i = .idle) →
      ∃ l, Path w.shared.next w.shared.head l ∧ w.shared.cached.toNat = l.length)

/-- The pointer of the head is still what a get read from it when its
compare-exchange succeeds. -/
def Fresh (i : Input) (p : ObjPool) : Pc → Prop
  | .getCas head next => p.head = some head → i.fails = false → p.next head = next
  | _ => True

instance (i : Input) (p : ObjPool) (pc : Pc) : Decidable (Fresh i p pc) :=
  match pc with
  | .getCas head next =>
    inferInstanceAs (Decidable (p.head = some head → i.fails = false → p.next head = next))
  | .idle | .getLoad | .getMalloc | .getNext _ | .getSub _ | .putCached _ | .putReserve _ _
  | .putHead _ | .putNext _ _ | .putCas _ _ => isTrue trivial

def Meets (w : Machine.Crew Pc ObjPool) (a : ℕ × Input) : Prop := Fresh a.2 w.shared (w.pc a.1)

instance (w : Machine.Crew Pc ObjPool) (a : ℕ × Input) : Decidable (Meets w a) :=
  inferInstanceAs (Decidable (Fresh a.2 w.shared (w.pc a.1)))

/-- The object that a thread has taken from the pool or is giving back. -/
def Pc.object : Pc → Option ℕ
  | .getSub a | .putCached a | .putReserve a _ | .putHead a | .putNext a _ | .putCas a _ => some a
  | _ => none

def carries (a : ℕ) (pc : Pc) : ℕ := if pc.object = some a then 1 else 0

/-- The thread has counted an object that is not in the list. -/
def counts : Pc → ℕ
  | .getSub _ | .putHead _ | .putNext _ _ | .putCas _ _ => 1
  | _ => 0

/-- Every allocated object is in one place, and the counter is right. -/
structure Placed (n : ℕ) (pc : ℕ → Pc) (p : ObjPool) (l : List ℕ) : Prop where
  chain : Path p.next p.head l
  place : ∀ a, l.count a+p.held.count a+Threads.total n pc (carries a) = (p.live a).toNat
  count : p.cached.toNat = l.length+Threads.total n pc counts
  bound : p.cached ≤ p.maxCached
  linked : ∀ i < n, ∀ a head, pc i = .putCas a head → p.next a = head

variable {n : ℕ}

theorem Placed.update {pc : ℕ → Pc} {p : ObjPool} {l : List ℕ} (h : Placed n pc p l) (i : ℕ)
    (hi : i < n) (pc' : Pc) (p' : ObjPool) (l' : List ℕ) (hchain : Path p'.next p'.head l')
    (hplace : ∀ a, l'.count a+p'.held.count a+carries a pc'+(p.live a).toNat =
      l.count a+p.held.count a+carries a (pc i)+(p'.live a).toNat)
    (hcount : p'.cached.toNat+l.length+counts (pc i) = p.cached.toNat+l'.length+counts pc')
    (hbound : p'.cached ≤ p'.maxCached)
    (hothers : ∀ j < n, j ≠ i → ∀ a head, pc j = .putCas a head → p'.next a = p.next a)
    (hmine : ∀ a head, pc' = .putCas a head → p'.next a = head) :
    Placed n (Function.update pc i pc') p' l' := by
  constructor
  · exact hchain
  · intro a
    have htotal := Threads.total_update n i hi pc (carries a) pc'
    have hold := h.place a
    have hnew := hplace a
    omega
  · have htotal := Threads.total_update n i hi pc counts pc'
    have hold := h.count
    omega
  · exact hbound
  · intro j hj a head hpc
    by_cases hji : j = i
    · rw [hji, Function.update_self] at hpc
      exact hmine a head hpc
    · rw [Function.update_of_ne hji] at hpc
      rw [hothers j hj hji a head hpc]
      exact h.linked j hj a head hpc

/-- A move of a thread that leaves the pool alone. -/
theorem Placed.local {pc : ℕ → Pc} {p : ObjPool} {l : List ℕ} (h : Placed n pc p l) (i : ℕ)
    (hi : i < n) (pc' : Pc) (hobj : pc'.object = (pc i).object) (hcount : counts pc' = counts (pc i))
    (hmine : ∀ a head, pc' ≠ .putCas a head) : Placed n (Function.update pc i pc') p l := by
  apply h.update i hi pc' p l h.chain
  · intro a
    unfold carries
    rw [hobj]
  · rw [hcount]
  · exact h.bound
  · exact fun _ _ _ _ _ _ => rfl
  · exact fun a head hx => absurd hx (hmine a head)

/-- An object that a thread or a caller has is in no other place. -/
theorem Placed.lone {pc : ℕ → Pc} {p : ObjPool} {l : List ℕ} (h : Placed n pc p l) (a : ℕ) :
    l.count a+p.held.count a+Threads.total n pc (carries a) ≤ 1 := by
  rw [h.place a]
  exact Bool.toNat_le _

theorem carries_object (pc : Pc) {a : ℕ} (h : pc.object = some a) : carries a pc = 1 := if_pos h

theorem carries_other (pc : Pc) {a b : ℕ} (h : pc.object = some a) (hb : b ≠ a) :
    carries b pc = 0 := by
  unfold carries
  rw [h, if_neg fun hx => hb (Option.some.inj hx).symm]

theorem carries_none (pc : Pc) (h : pc.object = none) (a : ℕ) : carries a pc = 0 := by
  unfold carries
  rw [h, if_neg fun hx => nomatch hx]

theorem Placed.not_mem_of_object {pc : ℕ → Pc} {p : ObjPool} {l : List ℕ} (h : Placed n pc p l)
    (i : ℕ) (hi : i < n) (a : ℕ) (hobj : (pc i).object = some a) : a ∉ l := by
  have hcarry := Threads.le_total n i hi pc (carries a)
  have hone := carries_object _ hobj
  have hlone := h.lone a
  apply List.count_eq_zero.mp
  omega

theorem Placed.not_mem_of_held {pc : ℕ → Pc} {p : ObjPool} {l : List ℕ} (h : Placed n pc p l)
    (a : ℕ) (ha : a ∈ p.held) : a ∉ l := by
  have hpos := List.count_pos_iff.mpr ha
  have hlone := h.lone a
  apply List.count_eq_zero.mp
  omega

theorem Placed.object_ne_held {pc : ℕ → Pc} {p : ObjPool} {l : List ℕ} (h : Placed n pc p l)
    (j : ℕ) (hj : j < n) (a b : ℕ) (hobj : (pc j).object = some a) (hb : b ∈ p.held) : a ≠ b := by
  rintro rfl
  have hcarry := Threads.le_total n j hj pc (carries a)
  have hone := carries_object _ hobj
  have hpos := List.count_pos_iff.mpr hb
  have hlone := h.lone a
  omega

theorem Placed.object_inj {pc : ℕ → Pc} {p : ObjPool} {l : List ℕ} (h : Placed n pc p l)
    (i j : ℕ) (hi : i < n) (hj : j < n) (hij : j ≠ i) (a b : ℕ) (ha : (pc i).object = some a)
    (hb : (pc j).object = some b) : b ≠ a := by
  rintro rfl
  have hrest := Threads.total_update n i hi pc (carries b) .idle
  have hcarry := Threads.le_total n j hj (Function.update pc i .idle) (carries b)
  rw [Function.update_of_ne hij] at hcarry
  have hlone := h.lone b
  have hone := carries_object _ ha
  have hone' := carries_object _ hb
  have hidle : carries b .idle = 0 := rfl
  omega

/-- A store to the word of an object that is not in the list. -/
theorem Placed.setNext {pc : ℕ → Pc} {p : ObjPool} {l : List ℕ} (h : Placed n pc p l) (i : ℕ)
    (hi : i < n) (pc' : Pc) (a : ℕ) (word : Option ℕ) (ha : a ∉ l)
    (hobj : pc'.object = (pc i).object) (hcount : counts pc' = counts (pc i))
    (hothers : ∀ j < n, j ≠ i → ∀ b, (pc j).object = some b → b ≠ a)
    (hmine : ∀ b head, pc' = .putCas b head → b = a ∧ head = word) :
    Placed n (Function.update pc i pc') (setNext a word p) l := by
  apply h.update i hi pc' (ObjPool.setNext a word p) l
  · exact path_update p.next a word p.head l ha h.chain
  · intro b
    unfold carries
    rw [hobj]
    rfl
  · rw [hcount]
    rfl
  · exact h.bound
  · intro j hj hji b head hpc
    exact Function.update_of_ne (hothers j hj hji b (by rw [hpc]; rfl)) _ _
  · intro b head hpc
    obtain ⟨rfl, rfl⟩ := hmine b head hpc
    exact Function.update_self _ _ _

/-- An object that is given back to the allocator. -/
theorem Placed.free {pc : ℕ → Pc} {p : ObjPool} {l : List ℕ} (h : Placed n pc p l) (i : ℕ)
    (hi : i < n) (a : ℕ) (hobj : (pc i).object = some a) (hcount : counts (pc i) = 0) :
    Placed n (Function.update pc i .idle) (free a p) l := by
  have hlive : p.live a = true := by
    have hcarry := Threads.le_total n i hi pc (carries a)
    have hone := carries_object _ hobj
    have hplace := h.place a
    cases hl : p.live a with
    | true => rfl
    | false =>
      rw [hl, Bool.toNat_false] at hplace
      omega
  apply h.update i hi .idle (ObjPool.free a p) l h.chain
  · intro b
    rw [carries_none .idle rfl]
    by_cases hb : b = a
    · subst hb
      simp [ObjPool.free, carries_object _ hobj, hlive]
    · simp [ObjPool.free, carries_other _ hobj hb, hb]
  · rw [hcount]
    rfl
  · exact h.bound
  · exact fun _ _ _ _ _ _ => rfl
  · exact fun _ _ hx => nomatch hx

/-- A caller hands an object to `ve_tls_obj_pool_put`. -/
theorem Placed.handOver {pc : ℕ → Pc} {p : ObjPool} {l : List ℕ} (h : Placed n pc p l) (i : ℕ)
    (hi : i < n) (hidle : pc i = .idle) (obj : ℕ) (hheld : obj ∈ p.held) :
    Placed n (Function.update pc i (.putCached obj)) { p with held := p.held.erase obj } l := by
  have hpos := List.count_pos_iff.mpr hheld
  refine h.update i hi _ _ l h.chain ?_ ?_ h.bound (fun _ _ _ _ _ _ => rfl) fun _ _ hx => nomatch hx
  · intro b
    rw [hidle, carries_none .idle rfl]
    by_cases hb : b = obj
    · subst hb
      rw [carries_object (.putCached b) rfl, List.count_erase_self]
      dsimp only
      omega
    · rw [carries_other (.putCached obj) rfl hb, List.count_erase_of_ne hb]
  · rw [hidle]
    rfl

theorem Placed.begin {pc : ℕ → Pc} {p p' : ObjPool} {l : List ℕ} {pc' : Pc} (h : Placed n pc p l)
    (i : ℕ) (hi : i < n) (hidle : pc i = .idle) (a : Input)
    (hm : begin a p = some (pc', p')) : Placed n (Function.update pc i pc') p' l := by
  unfold ObjPool.begin at hm
  cases hc : a.call with
  | get =>
    simp only [hc, Option.some.injEq, Prod.mk.injEq] at hm
    obtain ⟨rfl, rfl⟩ := hm
    exact h.local i hi _ (by rw [hidle]; rfl) (by rw [hidle]; rfl) fun _ _ hx => nomatch hx
  | put obj =>
    simp only [hc] at hm
    split at hm
    case isFalse => cases hm
    case isTrue hheld =>
      have hgiven := h.handOver i hi hidle obj hheld
      split at hm
      case isTrue =>
        cases hm
        have hfreed := hgiven.free i hi obj (by rw [Function.update_self]; rfl)
          (by rw [Function.update_self]; rfl)
        rwa [Function.update_idem] at hfreed
      case isFalse =>
        cases hm
        exact hgiven
  | write obj word =>
    simp only [hc] at hm
    split at hm
    case isFalse => cases hm
    case isTrue hheld =>
      cases hm
      apply h.setNext i hi .idle obj word (h.not_mem_of_held obj hheld)
      · rw [hidle]
      · rw [hidle]
      · intro j hj _ b hb
        exact h.object_ne_held j hj b obj hb hheld
      · exact fun _ _ hx => nomatch hx

theorem Placed.malloc {pc : ℕ → Pc} {p p' : ObjPool} {l : List ℕ} {pc' : Pc}
    (h : Placed n pc p l) (i : ℕ) (hi : i < n) (hpc : pc i = .getMalloc) (a : Input)
    (hm : malloc a p = some (pc', p')) : Placed n (Function.update pc i pc') p' l := by
  unfold ObjPool.malloc at hm
  split at hm
  case h_1 =>
    cases hm
    exact h.local i hi _ (by rw [hpc]; rfl) (by rw [hpc]; rfl) fun _ _ hx => nomatch hx
  case h_2 obj _ =>
    split at hm
    case isTrue => cases hm
    case isFalse hlive =>
      cases hm
      refine h.update i hi _ _ l h.chain ?_ ?_ h.bound (fun _ _ _ _ _ _ => rfl)
        fun _ _ hx => nomatch hx
      · intro b
        rw [hpc, carries_none .getMalloc rfl, carries_none .idle rfl]
        by_cases hb : b = obj
        · subst hb
          simp [hlive]
          omega
        · simp [hb, List.count_cons_of_ne (Ne.symm hb)]
      · rw [hpc]
        rfl

theorem Placed.reserve {pc : ℕ → Pc} {p : ObjPool} {l : List ℕ} (h : Placed n pc p l) (i : ℕ)
    (hi : i < n) (obj : ℕ) (cur : UInt32) (hpc : pc i = .putReserve obj cur) (a : Input) :
    Placed n (Function.update pc i (reserve a obj cur p).1) (reserve a obj cur p).2 l := by
  have hobj : (pc i).object = some obj := by
    rw [hpc]
    rfl
  have hcount : counts (pc i) = 0 := by
    rw [hpc]
    rfl
  unfold ObjPool.reserve
  split
  case isTrue => exact h.free i hi obj hobj hcount
  case isFalse hroom =>
    split
    case isTrue hcas =>
      have hlt : cur.toNat < p.maxCached.toNat := by
        rw [← UInt32.lt_iff_toNat_lt]
        exact UInt32.not_le.mp hroom
      have hmax := p.maxCached.toNat_lt
      have hsucc : (cur+1).toNat = cur.toNat+1 := by
        rw [UInt32.toNat_add]
        exact Nat.mod_eq_of_lt (by simp; omega)
      apply h.update i hi (.putHead obj) { p with cached := cur+1 } l h.chain
      · intro b
        unfold carries
        rw [hobj]
        rfl
      · show (cur+1).toNat+l.length+counts (pc i) = p.cached.toNat+l.length+1
        rw [hsucc, hcas.1, hcount]
        omega
      · rw [UInt32.le_iff_toNat_le]
        show (cur+1).toNat ≤ p.maxCached.toNat
        omega
      · exact fun _ _ _ _ _ _ => rfl
      · exact fun _ _ hx => nomatch hx
    case isFalse => exact h.local i hi _ hobj.symm hcount.symm fun _ _ hx => nomatch hx

/-- The head is popped with the pointer that it has. -/
theorem Placed.pop {pc : ℕ → Pc} {p : ObjPool} {l : List ℕ} (h : Placed n pc p l) (i : ℕ)
    (hi : i < n) (head : ℕ) (hnone : (pc i).object = none) (hcount : counts (pc i) = 0)
    (hhead : p.head = some head) :
    ∃ m, Placed n (Function.update pc i (.getSub head)) { p with head := p.next head } m := by
  have hchain := h.chain
  rw [hhead] at hchain
  obtain ⟨m, rfl, hm⟩ := path_pop p.next head l hchain
  refine ⟨m, h.update i hi _ _ m hm ?_ ?_ h.bound (fun _ _ _ _ _ _ => rfl)
    fun _ _ hx => nomatch hx⟩
  · intro b
    rw [carries_none _ hnone]
    by_cases hb : b = head
    · subst hb
      rw [carries_object (.getSub b) rfl, List.count_cons_self]
      dsimp only
      omega
    · rw [carries_other (.getSub head) rfl hb, List.count_cons_of_ne (Ne.symm hb)]
  · rw [hcount]
    show p.cached.toNat+(m.length+1)+0 = p.cached.toNat+m.length+1
    omega

/-- The popped object is counted out and goes to the caller. -/
theorem Placed.return {pc : ℕ → Pc} {p : ObjPool} {l : List ℕ} (h : Placed n pc p l) (i : ℕ)
    (hi : i < n) (head : ℕ) (hpc : pc i = .getSub head) :
    Placed n (Function.update pc i .idle)
      { p with cached := p.cached-1, held := head::p.held } l := by
  have hpos : 1 ≤ p.cached.toNat := by
    have hle := Threads.le_total n i hi pc counts
    rw [hpc] at hle
    have hone : counts (.getSub head) = 1 := rfl
    have hcount := h.count
    omega
  have hsub : (p.cached-1).toNat = p.cached.toNat-1 := by
    rw [UInt32.toNat_sub_of_le]
    · rfl
    · rw [UInt32.le_iff_toNat_le]
      exact hpos
  refine h.update i hi _ _ l h.chain ?_ ?_ ?_ (fun _ _ _ _ _ _ => rfl) fun _ _ hx => nomatch hx
  · intro b
    rw [hpc, carries_none .idle rfl]
    by_cases hb : b = head
    · subst hb
      rw [carries_object (.getSub b) rfl, List.count_cons_self]
      dsimp only
      omega
    · rw [carries_other (.getSub head) rfl hb, List.count_cons_of_ne (Ne.symm hb)]
  · rw [hpc]
    show (p.cached-1).toNat+l.length+1 = p.cached.toNat+l.length+0
    omega
  · have hbound := UInt32.le_iff_toNat_le.mp h.bound
    rw [UInt32.le_iff_toNat_le]
    show (p.cached-1).toNat ≤ p.maxCached.toNat
    omega

/-- The object becomes the head, with the old head as its pointer. -/
theorem Placed.push {pc : ℕ → Pc} {p : ObjPool} {l : List ℕ} (h : Placed n pc p l) (i : ℕ)
    (hi : i < n) (obj : ℕ) (hpc : pc i = .putCas obj p.head) :
    Placed n (Function.update pc i .idle) { p with head := some obj } (obj::l) := by
  have hlink := h.linked i hi obj p.head hpc
  refine h.update i hi _ _ (obj::l) ⟨rfl, ?_⟩ ?_ ?_ h.bound (fun _ _ _ _ _ _ => rfl)
    fun _ _ hx => nomatch hx
  · show Path p.next (p.next obj) l
    rw [hlink]
    exact h.chain
  · intro b
    rw [hpc, carries_none .idle rfl]
    by_cases hb : b = obj
    · subst hb
      rw [carries_object (.putCas b p.head) rfl, List.count_cons_self]
      dsimp only
      omega
    · rw [carries_other (.putCas obj p.head) rfl hb, List.count_cons_of_ne (Ne.symm hb)]
  · rw [hpc]
    show p.cached.toNat+l.length+1 = p.cached.toNat+(l.length+1)+0
    omega

theorem placed_move (w : Machine.Crew Pc ObjPool) (i : ℕ) (a : Input) (pc' : Pc) (p' : ObjPool)
    (hi : i < n) (h : ∃ l, Placed n w.pc w.shared l) (hmeets : Meets w (i, a))
    (hm : move a (w.pc i) w.shared = some (pc', p')) :
    ∃ l, Placed n (Function.update w.pc i pc') p' l := by
  obtain ⟨l, h⟩ := h
  unfold Meets at hmeets
  unfold move at hm
  cases hpc : w.pc i with
  | idle =>
    simp only [hpc] at hm
    exact ⟨l, h.begin i hi hpc a hm⟩
  | getLoad =>
    simp only [hpc, Option.some.injEq, Prod.mk.injEq] at hm
    obtain ⟨rfl, rfl⟩ := hm
    cases hhead : w.shared.head with
    | none =>
      exact ⟨l, h.local i hi _ (by rw [hpc]; rfl) (by rw [hpc]; rfl) fun _ _ hx => nomatch hx⟩
    | some head =>
      exact ⟨l, h.local i hi _ (by rw [hpc]; rfl) (by rw [hpc]; rfl) fun _ _ hx => nomatch hx⟩
  | getMalloc =>
    simp only [hpc] at hm
    exact ⟨l, h.malloc i hi hpc a hm⟩
  | getNext head =>
    simp only [hpc, Option.some.injEq, Prod.mk.injEq] at hm
    obtain ⟨rfl, rfl⟩ := hm
    exact ⟨l, h.local i hi _ (by rw [hpc]; rfl) (by rw [hpc]; rfl) fun _ _ hx => nomatch hx⟩
  | getCas head next =>
    simp only [hpc, Option.some.injEq, Fresh] at hm hmeets
    split at hm
    case isTrue hcas =>
      cases hm
      have hnext := hmeets hcas.1 (by simpa using hcas.2)
      rw [← hnext]
      exact h.pop i hi head (by rw [hpc]; rfl) (by rw [hpc]; rfl) hcas.1
    case isFalse =>
      cases hm
      exact ⟨l, h.local i hi _ (by rw [hpc]; rfl) (by rw [hpc]; rfl) fun _ _ hx => nomatch hx⟩
  | getSub head =>
    simp only [hpc, Option.some.injEq, Prod.mk.injEq] at hm
    obtain ⟨rfl, rfl⟩ := hm
    exact ⟨l, h.return i hi head hpc⟩
  | putCached obj =>
    simp only [hpc, Option.some.injEq, Prod.mk.injEq] at hm
    obtain ⟨rfl, rfl⟩ := hm
    exact ⟨l, h.local i hi _ (by rw [hpc]; rfl) (by rw [hpc]; rfl) fun _ _ hx => nomatch hx⟩
  | putReserve obj cur =>
    simp only [hpc, Option.some.injEq] at hm
    have hres := h.reserve i hi obj cur hpc a
    rw [hm] at hres
    exact ⟨l, hres⟩
  | putHead obj =>
    simp only [hpc, Option.some.injEq, Prod.mk.injEq] at hm
    obtain ⟨rfl, rfl⟩ := hm
    exact ⟨l, h.local i hi _ (by rw [hpc]; rfl) (by rw [hpc]; rfl) fun _ _ hx => nomatch hx⟩
  | putNext obj head =>
    simp only [hpc, Option.some.injEq, Prod.mk.injEq] at hm
    obtain ⟨rfl, rfl⟩ := hm
    have hobj : (w.pc i).object = some obj := by
      rw [hpc]
      rfl
    refine ⟨l, h.setNext i hi _ obj head (h.not_mem_of_object i hi obj hobj) hobj.symm
      (by rw [hpc]; rfl) ?_ ?_⟩
    · intro j hj hji b hb
      exact h.object_inj i j hi hj hji obj b hobj hb
    · intro b head' hx
      cases hx
      exact ⟨rfl, rfl⟩
  | putCas obj head =>
    simp only [hpc, Option.some.injEq] at hm
    split at hm
    case isTrue hcas =>
      cases hm
      exact ⟨obj::l, h.push i hi obj (by rw [hpc, hcas.1])⟩
    case isFalse =>
      cases hm
      exact ⟨l, h.local i hi _ (by rw [hpc]; rfl) (by rw [hpc]; rfl) fun _ _ hx => nomatch hx⟩

theorem Placed.owned (w : Machine.Crew Pc ObjPool) (l : List ℕ) (h : Placed n w.pc w.shared l) :
    Owned n w := by
  refine ⟨?_, ?_, ?_⟩
  · apply List.nodup_iff_count_le_one.mpr
    intro a
    have hlone := h.lone a
    omega
  · intro a ha hreach
    exact h.not_mem_of_held a ha (mem_of_reach _ _ a l h.chain hreach)
  · intro hidle
    refine ⟨l, h.chain, ?_⟩
    rw [h.count]
    have hzero : Threads.total n w.pc counts = 0 := by
      apply Finset.sum_eq_zero
      intro i hi
      rw [hidle i (Finset.mem_range.mp hi)]
      rfl
    omega

def crew (maxCached : UInt32) : Machine.Crew Pc ObjPool := ⟨init maxCached, fun _ => .idle⟩

theorem placed_crew (maxCached : UInt32) :
    Placed n (crew maxCached).pc (crew maxCached).shared [] where
  chain := rfl
  place := fun a => by
    rw [Threads.total_eq_zero n (crew maxCached).pc (carries a) fun _ => rfl]
    rfl
  count := by
    rw [Threads.total_eq_zero n (crew maxCached).pc counts fun _ => rfl]
    rfl
  bound := by
    rw [UInt32.le_iff_toNat_le]
    exact Nat.zero_le _
  linked := fun _ _ _ _ hx => nomatch hx

/-- In a run of any number of threads where a get swaps the head only against
the pointer that the head still has, every object has one owner. -/
theorem run_pool_owned (n : ℕ) (maxCached : UInt32) (acts : List (ℕ × Input))
    (w : Machine.Crew Pc ObjPool)
    (hc : Machine.Along (Machine.Crew.step n move) Meets acts (crew maxCached))
    (h : Machine.run (Machine.Crew.step n move) acts (crew maxCached) = some w) : Owned n w := by
  obtain ⟨l, hplaced⟩ := Machine.Crew.run_rule n move (fun pc p => ∃ l, Placed n pc p l) Meets
    (fun v i a pc p hi hv hm hmove => placed_move v i a pc p hi hv hm hmove) acts (crew maxCached) w
    ⟨[], placed_crew maxCached⟩ hc h
  exact hplaced.owned w l

/-- Two objects are allocated and put back, so that 1 is the head and 0 its
successor; then a thread reads both and stops before its compare-exchange. -/
def readAhead : List (ℕ × Input) :=
  let go (i : ℕ) (c : Call) : ℕ × Input := (i, ⟨c, false, none⟩)
  [go 0 .get, go 0 .get, (0, ⟨.get, false, some 0⟩), go 0 .get, go 0 .get, (0, ⟨.get, false, some 1⟩)]
    ++(List.replicate 6 (go 0 (.put 0)))++(List.replicate 6 (go 0 (.put 1)))
    ++(List.replicate 3 (go 1 .get))

/-- Meanwhile another thread takes both and puts the first one back. -/
def recycle : List (ℕ × Input) :=
  let go (c : Call) : ℕ × Input := (0, ⟨c, false, none⟩)
  (List.replicate 5 (go .get))++(List.replicate 5 (go .get))++(List.replicate 6 (go (.put 1)))

def swap : List (ℕ × Input) := [(1, ⟨.get, false, none⟩)]

theorem readAhead_swap_owned :
    ∃ w, Machine.run (Machine.Crew.step 2 move) (readAhead++swap) (crew 8) = some w ∧
      w.pc 1 = .getSub 1 ∧ Owned 2 w :=
  ⟨_, rfl, rfl, run_pool_owned 2 8 (readAhead++swap) _ (by decide +kernel) rfl⟩

/-- The swap succeeds after the head was recycled, and an object in the hands
of a caller becomes the head. -/
theorem recycled_swap_not_owned :
    ∃ w, Machine.run (Machine.Crew.step 2 move) (readAhead++recycle++swap) (crew 8) = some w ∧
      ¬ Owned 2 w := by
  refine ⟨_, rfl, fun h => ?_⟩
  exact h.2.1 0 List.mem_cons_self (Reach.here 0)

end ObjPool

end VeTls
