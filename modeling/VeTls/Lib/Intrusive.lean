import Mathlib

/-!
# Intrusive doubly linked lists

The link fields of a list are two maps from node addresses to addresses,
with the head and tail pointers beside them. `Linked d l` says that the
pointers spell out the list `l` in both directions. `Path next s l` is the
same for a singly linked chain that starts at `s`.
-/

set_option autoImplicit false

namespace VeTls.Intrusive

structure DList (α : Type*) where
  head : Option α
  tail : Option α
  prev : α → Option α
  next : α → Option α

variable {α : Type*} [DecidableEq α]

/-- Write through the pointer that leads into a node from the left: the
`next` field of its predecessor, or the head when it has none. -/
def setNext (p x : Option α) (d : DList α) : DList α :=
  match p with
  | some a => { d with next := Function.update d.next a x }
  | none => { d with head := x }

def setPrev (n x : Option α) (d : DList α) : DList α :=
  match n with
  | some a => { d with prev := Function.update d.prev a x }
  | none => { d with tail := x }

def setNode (q : α) (p n : Option α) (d : DList α) : DList α :=
  { d with prev := Function.update d.prev q p, next := Function.update d.next q n }

def pushBack (q : α) (d : DList α) : DList α :=
  { setNext d.tail (some q) (setNode q d.tail none d) with tail := some q }

def remove (q : α) (d : DList α) : DList α :=
  setNode q none none (setPrev (d.next q) (d.prev q) (setNext (d.prev q) (d.next q) d))

def insertBefore (q cur : α) (d : DList α) : DList α :=
  setPrev (some cur) (some q) (setNext (d.prev cur) (some q) (setNode q (d.prev cur) (some cur) d))

/-- Unlink the node at the head, as a queue's pop does it. -/
def popFront (q : α) (d : DList α) : DList α :=
  setNode q none none (setPrev (d.next q) none { d with head := d.next q })

/-- The nodes of `l` are linked to each other, from a left neighbour `p` to
a right neighbour `n`. -/
def Seg (d : DList α) : Option α → List α → Option α → Prop
  | _, [], _ => True
  | p, a::l, n => d.prev a = p ∧ d.next a = l.head?.or n ∧ Seg d (some a) l n

structure Linked (d : DList α) (l : List α) : Prop where
  nodup : l.Nodup
  head : d.head = l.head?
  tail : d.tail = l.getLast?
  seg : Seg d none l none

def empty : DList α := ⟨none, none, fun _ => none, fun _ => none⟩

omit [DecidableEq α] in
theorem empty_linked : Linked (empty : DList α) [] := ⟨List.nodup_nil, rfl, rfl, trivial⟩

omit [DecidableEq α] in
theorem seg_append (d : DList α) (p : Option α) (l m : List α) (n : Option α) :
    Seg d p (l++m) n ↔ Seg d p l (m.head?.or n) ∧ Seg d (l.getLast?.or p) m n := by
  induction l generalizing p with
  | nil => simp [Seg]
  | cons a l ih =>
    have hlast : ((a::l).getLast?).or p = l.getLast?.or (some a) := by
      cases l with
      | nil => rfl
      | cons b l => simp [List.getLast?_eq_some_getLast]
    simp only [List.cons_append, Seg, ih, hlast, List.head?_append, Option.or_assoc]
    tauto

omit [DecidableEq α] in
theorem seg_congr (d e : DList α) (p : Option α) (l : List α) (n : Option α)
    (h : ∀ a ∈ l, e.prev a = d.prev a ∧ e.next a = d.next a) (hs : Seg d p l n) :
    Seg e p l n := by
  induction l generalizing p with
  | nil => trivial
  | cons a l ih =>
    obtain ⟨hp, hn, hr⟩ := hs
    obtain ⟨hp', hn'⟩ := h a (by simp)
    exact ⟨hp'.trans hp, hn'.trans hn, ih _ (fun b hb => h b (by simp [hb])) hr⟩

theorem seg_setNode (d : DList α) (q : α) (x y p : Option α) (l : List α) (n : Option α)
    (hq : q ∉ l) (hs : Seg d p l n) : Seg (setNode q x y d) p l n := by
  apply seg_congr d _ p l n _ hs
  intro a ha
  have hne : a ≠ q := fun h => hq (h ▸ ha)
  simp [setNode, hne]

theorem seg_setNext_of (d : DList α) (q x p : Option α) (l : List α) (n : Option α)
    (hq : ∀ a ∈ l, q ≠ some a) (hs : Seg d p l n) : Seg (setNext q x d) p l n := by
  apply seg_congr d _ p l n _ hs
  intro a ha
  cases q with
  | none => exact ⟨rfl, rfl⟩
  | some b =>
    have hne : a ≠ b := fun h => hq a ha (by rw [h])
    simp [setNext, hne]

theorem seg_setPrev_of (d : DList α) (q x p : Option α) (l : List α) (n : Option α)
    (hq : ∀ a ∈ l, q ≠ some a) (hs : Seg d p l n) : Seg (setPrev q x d) p l n := by
  apply seg_congr d _ p l n _ hs
  intro a ha
  cases q with
  | none => exact ⟨rfl, rfl⟩
  | some b =>
    have hne : a ≠ b := fun h => hq a ha (by rw [h])
    simp [setPrev, hne]

/-- Redirecting the pointer out of the last node moves the right neighbour. -/
theorem seg_setNext_last (d : DList α) (p : Option α) (l : List α) (n x : Option α)
    (hl : l.Nodup) (hs : Seg d p l n) : Seg (setNext l.getLast? x d) p l x := by
  induction l using List.reverseRecOn with
  | nil => trivial
  | append_singleton l a _ =>
    rw [List.nodup_append] at hl
    have ha : ∀ b ∈ l, (some a : Option α) ≠ some b := fun b hb h =>
      hl.2.2 b hb a (by simp) (Option.some.inj h).symm
    rw [seg_append] at hs ⊢
    rw [List.getLast?_concat]
    refine ⟨seg_setNext_of d _ _ p l _ ha (by simpa using hs.1), ?_⟩
    simpa [Seg, setNext] using hs.2.1

theorem seg_setPrev_head (d : DList α) (p : Option α) (l : List α) (n x : Option α)
    (hl : l.Nodup) (hs : Seg d p l n) : Seg (setPrev l.head? x d) x l n := by
  cases l with
  | nil => trivial
  | cons a l =>
    obtain ⟨ha, hl'⟩ := List.nodup_cons.mp hl
    obtain ⟨hp, hn, hr⟩ := hs
    refine ⟨by simp [setPrev], hn, ?_⟩
    exact seg_setPrev_of d _ _ _ l n (fun b hb h => ha (by simpa using (Option.some.inj h) ▸ hb)) hr

omit [DecidableEq α] in
theorem seg_node (d : DList α) (l m : List α) (q : α) (h : Seg d none (l++q::m) none) :
    d.prev q = l.getLast? ∧ d.next q = m.head? ∧ Seg d none l (some q) ∧ Seg d (some q) m none := by
  rw [seg_append] at h
  obtain ⟨h1, hp, hn, h2⟩ := h
  exact ⟨by simpa using hp, by simpa using hn, by simpa using h1, h2⟩

@[simp] theorem setNext_tail (p x : Option α) (d : DList α) : (setNext p x d).tail = d.tail := by
  cases p <;> rfl

@[simp] theorem setPrev_head (n x : Option α) (d : DList α) : (setPrev n x d).head = d.head := by
  cases n <;> rfl

@[simp] theorem setNode_head (q : α) (p n : Option α) (d : DList α) :
    (setNode q p n d).head = d.head := rfl

@[simp] theorem setNode_tail (q : α) (p n : Option α) (d : DList α) :
    (setNode q p n d).tail = d.tail := rfl

theorem setNext_head (p x : Option α) (d : DList α) :
    (setNext p x d).head = if p = none then x else d.head := by
  cases p <;> simp [setNext]

theorem setPrev_tail (n x : Option α) (d : DList α) :
    (setPrev n x d).tail = if n = none then x else d.tail := by
  cases n <;> simp [setPrev]

theorem pushBack_linked (q : α) (d : DList α) (l : List α) (h : Linked d l) (hq : q ∉ l) :
    Linked (pushBack q d) (l++[q]) := by
  have hlast : ∀ a ∈ [q], l.getLast? ≠ some a := by
    intro a ha he
    rw [List.mem_singleton] at ha
    exact hq (ha ▸ List.mem_of_getLast? he)
  refine ⟨?_, ?_, by simp [pushBack], ?_⟩
  · rw [List.nodup_append]
    exact ⟨h.nodup, List.nodup_singleton q, fun a ha b hb he => hq (by simp_all)⟩
  · change (setNext d.tail (some q) (setNode q d.tail none d)).head = _
    rw [setNext_head, h.tail, setNode_head, h.head]
    cases l with
    | nil => rfl
    | cons a l => simp [List.getLast?_eq_some_getLast]
  · apply seg_congr (setNext d.tail (some q) (setNode q d.tail none d)) (pushBack q d) _ _ _
      (fun _ _ => ⟨rfl, rfl⟩)
    rw [seg_append, h.tail]
    constructor
    · exact seg_setNext_last _ _ l _ _ h.nodup (seg_setNode d q _ _ _ l none hq h.seg)
    · apply seg_setNext_of _ _ _ _ _ _ hlast
      simp [Seg, setNode]

theorem remove_linked (q : α) (d : DList α) (l m : List α) (h : Linked d (l++q::m)) :
    Linked (remove q d) (l++m) := by
  obtain ⟨hp, hn, h1, h2⟩ := seg_node d l m q h.seg
  have hnd := h.nodup
  rw [List.nodup_append, List.nodup_cons] at hnd
  obtain ⟨hl, ⟨hqm, hm⟩, hdis⟩ := hnd
  have hql : q ∉ l := fun hq => hdis q hq q (by simp) rfl
  have hlm : ∀ a ∈ m, l.getLast? ≠ some a := fun a ha he =>
    hdis a (List.mem_of_getLast? he) a (by simp [ha]) rfl
  have hml : ∀ a ∈ l, m.head? ≠ some a := fun a ha he =>
    hdis a ha a (by simp [List.mem_of_head? he]) rfl
  refine ⟨?_, ?_, ?_, ?_⟩
  · rw [List.nodup_append]
    exact ⟨hl, hm, fun a ha b hb => hdis a ha b (by simp [hb])⟩
  · simp only [remove, setNode_head, setPrev_head, setNext_head, hp, hn, h.head]
    cases l <;> simp [List.getLast?_eq_some_getLast]
  · simp only [remove, setNode_tail, setPrev_tail, setNext_tail, hp, hn, h.tail]
    cases m with
    | nil => simp
    | cons a m => simp [List.getLast?_append, List.getLast?_cons_cons]
  · simp only [remove, hp, hn]
    apply seg_setNode _ _ _ _ _ _ _ (by simp [hql, hqm])
    rw [seg_append]
    constructor
    · apply seg_setPrev_of _ _ _ _ _ _ hml
      simpa using seg_setNext_last d none l _ m.head? hl h1
    · have hs := seg_setNext_of d l.getLast? m.head? _ m none hlm h2
      simpa using seg_setPrev_head _ _ m none l.getLast? hm hs

theorem popFront_linked (q : α) (d : DList α) (l : List α) (h : Linked d (q::l)) :
    Linked (popFront q d) l := by
  have hr := remove_linked q d [] l h
  have hp : d.prev q = none := h.seg.1
  simpa [remove, popFront, hp, setNext] using hr

theorem insertBefore_linked (q cur : α) (d : DList α) (l m : List α)
    (h : Linked d (l++cur::m)) (hq : q ∉ l++cur::m) :
    Linked (insertBefore q cur d) (l++q::cur::m) := by
  obtain ⟨hp, hn, h1, h2⟩ := seg_node d l m cur h.seg
  have hnd := h.nodup
  rw [List.nodup_append, List.nodup_cons] at hnd
  obtain ⟨hl, ⟨hcm, hm⟩, hdis⟩ := hnd
  simp only [List.mem_append, List.mem_cons, not_or] at hq
  obtain ⟨hql, hqc, hqm⟩ := hq
  have hlast : ∀ a ∈ q::cur::m, l.getLast? ≠ some a := by
    intro a ha he
    have hal := List.mem_of_getLast? he
    rcases List.mem_cons.mp ha with rfl | ha
    · exact hql hal
    · exact hdis a hal a ha rfl
  have hcur : ∀ a ∈ l, (some cur : Option α) ≠ some a := fun a ha he =>
    hdis a ha cur (by simp) (Option.some.inj he).symm
  refine ⟨?_, ?_, ?_, ?_⟩
  · have hperm : (l++q::cur::m).Perm (q::(l++cur::m)) := List.perm_middle
    rw [hperm.nodup_iff, List.nodup_cons]
    exact ⟨by simp [hql, hqc, hqm], h.nodup⟩
  · simp only [insertBefore, setPrev_head, setNext_head, setNode_head, hp, h.head]
    cases l <;> simp [List.getLast?_eq_some_getLast]
  · simp only [insertBefore, setPrev_tail, setNext_tail, setNode_tail, h.tail]
    simp [List.getLast?_append, List.getLast?_cons_cons]
  · simp only [insertBefore, hp]
    rw [seg_append]
    constructor
    · apply seg_setPrev_of _ _ _ _ _ _ hcur
      exact seg_setNext_last _ _ l _ _ hl (seg_setNode d q _ _ _ l _ hql h1)
    · have hrest : Seg d l.getLast? (cur::m) none := ⟨hp, by simpa using hn, h2⟩
      rw [Option.or_none]
      apply (seg_append _ _ [q] (cur::m) none).mpr
      constructor
      · apply seg_setPrev_of _ _ _ _ _ _ (by simp [Ne.symm hqc])
        apply seg_setNext_of _ _ _ _ _ _ (fun a ha => hlast a (by simp_all))
        simp [Seg, setNode]
      · apply seg_setPrev_head _ l.getLast? (cur::m) none (some q) (List.nodup_cons.mpr ⟨hcm, hm⟩)
        apply seg_setNext_of _ _ _ _ _ _ (fun a ha => hlast a (by simp_all))
        exact seg_setNode d q _ _ _ _ _ (by simp [hqc, hqm]) hrest

def Path (next : α → Option α) : Option α → List α → Prop
  | s, [] => s = none
  | s, a::l => s = some a ∧ Path next (next a) l

omit [DecidableEq α] in
theorem path_congr (next next' : α → Option α) (s : Option α) (l : List α)
    (h : ∀ a ∈ l, next' a = next a) (hp : Path next s l) : Path next' s l := by
  induction l generalizing s with
  | nil => exact hp
  | cons a l ih =>
    refine ⟨hp.1, ?_⟩
    rw [h a (by simp)]
    exact ih _ (fun b hb => h b (by simp [hb])) hp.2

theorem path_update (next : α → Option α) (q : α) (x s : Option α) (l : List α) (hq : q ∉ l)
    (hp : Path next s l) : Path (Function.update next q x) s l :=
  path_congr next _ s l (fun a ha => Function.update_of_ne (fun h : a = q => hq (h ▸ ha)) _ _) hp

theorem path_push (next : α → Option α) (q : α) (s : Option α) (l : List α) (hq : q ∉ l)
    (hp : Path next s l) : Path (Function.update next q s) (some q) (q::l) := by
  refine ⟨rfl, ?_⟩
  rw [Function.update_self]
  exact path_update next q s s l hq hp

/-- Bridging over a node takes it out of the chain. -/
theorem path_bridge (next : α → Option α) (q p : α) (s : Option α) (l m : List α)
    (hnd : (l++p::q::m).Nodup) (hp : Path next s (l++p::q::m)) :
    Path (Function.update next p (next q)) s (l++p::m) := by
  induction l generalizing s with
  | nil =>
    obtain ⟨hs, hn, hm⟩ := hp
    refine ⟨hs, ?_⟩
    rw [Function.update_self]
    have hpm : p ∉ m := by
      simp only [List.nil_append, List.nodup_cons, List.mem_cons, not_or] at hnd
      exact hnd.1.2
    exact path_update next p _ _ m hpm hm
  | cons a l ih =>
    have hap : a ≠ p := by
      intro he
      simp [he] at hnd
    refine ⟨hp.1, ?_⟩
    rw [Function.update_of_ne hap]
    exact ih _ (List.nodup_cons.mp hnd).2 hp.2

omit [DecidableEq α] in
theorem path_pop (next : α → Option α) (q : α) (l : List α) (hp : Path next (some q) l) :
    ∃ m, l = q::m ∧ Path next (next q) m := by
  cases l with
  | nil => cases hp
  | cons a m =>
    cases hp.1
    exact ⟨m, rfl, hp.2⟩

/-- What the pointers from `s` lead to, whether or not they ever end. -/
inductive Reach (next : α → Option α) : Option α → α → Prop
  | here (a : α) : Reach next (some a) a
  | there (a b : α) (h : Reach next (next a) b) : Reach next (some a) b

omit [DecidableEq α] in
theorem mem_of_reach (next : α → Option α) (s : Option α) (a : α) (l : List α)
    (hp : Path next s l) (h : Reach next s a) : a ∈ l := by
  induction h generalizing l with
  | here a =>
    obtain ⟨m, rfl, _⟩ := path_pop next a l hp
    exact List.mem_cons_self
  | there a b _ ih =>
    obtain ⟨m, rfl, hm⟩ := path_pop next a l hp
    exact List.mem_cons_of_mem _ (ih m hm)

end VeTls.Intrusive
