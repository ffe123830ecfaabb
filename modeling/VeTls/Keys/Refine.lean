import VeTls.Keys.Heap
import VeTls.Keys.Steps

/-!
# The heap refines the key map

Every operation on the pointer structures returns, and what it leaves in
memory is the result of the same operation on lists.
-/

set_option autoImplicit false

namespace VeTls.Keys

open VeTls.Intrusive VeTls.RingBuffer

variable {τ β : Type}

structure Refines (cfg : KeyConfig) (h : KeyHeap τ β) (m : KeyMap τ β) : Prop where
  info : h.info = m.info
  ring : ∀ a, Holds (h.ring a) (m.tasks a)
  chain : ∀ i, Path h.hnext (h.keyBuckets i) (m.buckets i)
  ready : Linked h.ready m.ready
  delayed : Linked h.delayed m.delayed
  idle : Linked h.idle m.idle
  count : h.keyQueueCount = m.keyQueueCount
  allocated : ∀ a, h.allocated a = true ↔ a ∈ KeyMap.live cfg m
  freed : h.freed = m.freed

theorem empty_refines (cfg : KeyConfig) :
    Refines cfg (KeyHeap.empty : KeyHeap τ β) KeyMap.empty :=
  ⟨rfl, fun _ => empty_holds, fun _ => rfl, empty_linked, empty_linked, empty_linked, rfl,
    fun a => by simp [KeyHeap.empty, KeyMap.live, KeyMap.empty], rfl⟩

variable {cfg : KeyConfig} {h : KeyHeap τ β} {m : KeyMap τ β}

theorem Refines.count_eq (hr : Refines cfg h m) (q : Addr) :
    KeyHeap.count q h = (m.tasks q).length := (hr.ring q).count

theorem Refines.count_zero (hr : Refines cfg h m) (q : Addr) :
    (KeyHeap.count q h == 0) = (m.tasks q).isEmpty := by
  rw [hr.count_eq q]
  cases m.tasks q <;> rfl

theorem setInfo_refines (hr : Refines cfg h m) (q : Addr) (f : Info β → Info β) :
    Refines cfg (KeyHeap.setInfo q f h) (KeyMap.setInfo q f m) :=
  ⟨by simp [KeyHeap.setInfo, KeyMap.setInfo, hr.info], hr.ring, hr.chain, hr.ready, hr.delayed,
    hr.idle, hr.count, hr.allocated, hr.freed⟩

theorem setReady_refines (hr : Refines cfg h m) (d : DList Addr) (l : List Addr)
    (hd : Linked d l) : Refines cfg { h with ready := d } { m with ready := l } :=
  ⟨hr.info, hr.ring, hr.chain, hd, hr.delayed, hr.idle, hr.count, hr.allocated, hr.freed⟩

theorem setDelayed_refines (hr : Refines cfg h m) (d : DList Addr) (l : List Addr)
    (hd : Linked d l) : Refines cfg { h with delayed := d } { m with delayed := l } :=
  ⟨hr.info, hr.ring, hr.chain, hr.ready, hd, hr.idle, hr.count, hr.allocated, hr.freed⟩

theorem setIdle_refines (hr : Refines cfg h m) (d : DList Addr) (l : List Addr)
    (hd : Linked d l) : Refines cfg { h with idle := d } { m with idle := l } :=
  ⟨hr.info, hr.ring, hr.chain, hr.ready, hr.delayed, hd, hr.count, hr.allocated, hr.freed⟩

theorem setRing_refines (hr : Refines cfg h m) (q : Addr) (r : RingBuffer.Ring τ) (l : List τ)
    (hh : Holds r l) : Refines cfg { h with ring := Function.update h.ring q r }
      { m with tasks := Function.update m.tasks q l } := by
  refine ⟨hr.info, ?_, hr.chain, hr.ready, hr.delayed, hr.idle, hr.count, hr.allocated, hr.freed⟩
  intro a
  by_cases ha : a = q
  · subst ha
    simpa using hh
  · simpa [ha] using hr.ring a

theorem erase_linked (d : DList Addr) (l : List Addr) (q : Addr) (hd : Linked d l) (hq : q ∈ l) :
    Linked (remove q d) (l.erase q) := by
  obtain ⟨l₁, l₂, rfl⟩ := List.append_of_mem hq
  have hnd := hd.nodup
  rw [List.nodup_append] at hnd
  have hn : q ∉ l₁ := fun hm => hnd.2.2 q hm q (by simp) rfl
  rw [List.erase_append_right _ hn, List.erase_cons_head]
  exact remove_linked q d l₁ l₂ hd

theorem readyAdd_refines (hr : Refines cfg h m) (hl : KeyMap.Listed m) (q : Addr) :
    Refines cfg (KeyHeap.readyAdd q h) (KeyMap.readyAdd q m) := by
  unfold KeyHeap.readyAdd KeyMap.readyAdd
  rw [congrFun hr.info q, hr.count_zero q]
  split
  · exact hr
  · rename_i hg
    simp only [Bool.or_eq_true, not_or, Bool.not_eq_true] at hg
    have hq : q ∉ m.ready := by simp [hl.ready, hg.1.1.1]
    exact setInfo_refines (setReady_refines hr _ _ (pushBack_linked q _ _ hr.ready hq)) q _

theorem idleAdd_refines (hr : Refines cfg h m) (hl : KeyMap.Listed m) (q : Addr) (now : ℤ) :
    Refines cfg (KeyHeap.idleAdd q now h) (KeyMap.idleAdd q now m) := by
  unfold KeyHeap.idleAdd KeyMap.idleAdd
  rw [bne, congrFun hr.info q, hr.count_zero q]
  split
  · exact hr
  · rename_i hg
    simp only [Bool.or_eq_true, not_or, Bool.not_eq_true] at hg
    have hq : q ∉ m.idle := by simp [hl.idle, hg.1.1]
    exact setInfo_refines (setIdle_refines hr _ _ (pushBack_linked q _ _ hr.idle hq)) q _

theorem readyRemove_refines (hr : Refines cfg h m) (hl : KeyMap.Listed m) (q : Addr) :
    Refines cfg (KeyHeap.readyRemove q h) (KeyMap.readyRemove q m) := by
  unfold KeyHeap.readyRemove KeyMap.readyRemove
  rw [congrFun hr.info q]
  split
  · exact hr
  · rename_i hg
    have hq : q ∈ m.ready := by simpa [hl.ready] using hg
    exact setInfo_refines (setReady_refines hr _ _ (erase_linked _ _ q hr.ready hq)) q _

theorem idleRemove_refines (hr : Refines cfg h m) (hl : KeyMap.Listed m) (q : Addr) :
    Refines cfg (KeyHeap.idleRemove q h) (KeyMap.idleRemove q m) := by
  unfold KeyHeap.idleRemove KeyMap.idleRemove
  rw [congrFun hr.info q]
  split
  · exact hr
  · rename_i hg
    have hq : q ∈ m.idle := by simpa [hl.idle] using hg
    exact setInfo_refines (setIdle_refines hr _ _ (erase_linked _ _ q hr.idle hq)) q _

theorem delayedRemove_refines (hr : Refines cfg h m) (hl : KeyMap.Listed m) (q : Addr) :
    Refines cfg (KeyHeap.delayedRemove q h) (KeyMap.delayedRemove q m) := by
  unfold KeyHeap.delayedRemove KeyMap.delayedRemove
  rw [congrFun hr.info q]
  split
  · exact hr
  · rename_i hg
    have hq : q ∈ m.delayed := by simpa [hl.delayed] using hg
    exact setInfo_refines (setDelayed_refines hr _ _ (erase_linked _ _ q hr.delayed hq)) q _

theorem unlist_refines (hr : Refines cfg h m) (hl : KeyMap.Listed m) (q : Addr) :
    Refines cfg (KeyHeap.unlist q h) (KeyMap.unlist q m) :=
  delayedRemove_refines (idleRemove_refines (readyRemove_refines hr hl q)
    (KeyMap.readyRemove_listed q hl) q)
    (KeyMap.idleRemove_listed q (KeyMap.readyRemove_listed q hl)) q

/-- The scan of the delayed list stops at the first node due later. -/
theorem scanDelayed_eq (next : ℤ) (h : KeyHeap τ β) (k : ℕ) (p : Option Addr) (l : List Addr)
    (hs : Seg h.delayed p l none) (hk : l.length ≤ k) :
    KeyHeap.scanDelayed next h k l.head? =
      some (l.dropWhile fun a => decide ((h.info a).nextReadyMs ≤ next)).head? := by
  induction l generalizing k p with
  | nil => cases k <;> rfl
  | cons a l ih =>
    obtain ⟨_, hn, hs'⟩ := hs
    cases k with
    | zero => simp at hk
    | succ k =>
      simp only [List.head?_cons, KeyHeap.scanDelayed, List.dropWhile_cons, decide_eq_true_eq]
      rw [Option.or_none] at hn
      split
      · rw [hn]
        exact ih k _ hs' (by simpa using hk)
      · rfl

theorem takeWhile_congr {α : Type} (p q : α → Bool) (l : List α) (h : ∀ a ∈ l, p a = q a) :
    l.takeWhile p = l.takeWhile q ∧ l.dropWhile p = l.dropWhile q := by
  induction l with
  | nil => exact ⟨rfl, rfl⟩
  | cons a l ih =>
    have ha := h a (by simp)
    obtain ⟨h1, h2⟩ := ih fun b hb => h b (by simp [hb])
    simp [List.takeWhile_cons, List.dropWhile_cons, ha, h1, h2]

/-- Sorted insertion into the linked list, in the three cases of the source:
into the empty list, at the end and before a node. -/
theorem insertDelayed_refines (hr : Refines cfg h m) (q : Addr) (next : ℤ) (hq : q ∉ m.delayed)
    (hlen : m.delayed.length ≤ m.keyQueueCount) :
    ∃ h', KeyHeap.insertDelayed q next h = some h' ∧
      Refines cfg h' (KeyMap.insertDelayed q next m) := by
  have hset := setInfo_refines hr q (fun i => { i with delayed := true, nextReadyMs := next })
  have hinfo : ∀ a ∈ m.delayed, ((KeyHeap.setInfo q
      (fun i => { i with delayed := true, nextReadyMs := next }) h).info a).nextReadyMs =
      (m.info a).nextReadyMs := by
    intro a ha
    have hne : a ≠ q := fun he => hq (he ▸ ha)
    rw [hset.info, KeyMap.setInfo_other q a _ m hne]
  have hscan := scanDelayed_eq next (KeyHeap.setInfo q
    (fun i => { i with delayed := true, nextReadyMs := next }) h) h.keyQueueCount none m.delayed
    hr.delayed.seg (hr.count ▸ hlen)
  rw [(takeWhile_congr _ (fun a => decide ((m.info a).nextReadyMs ≤ next)) m.delayed
    fun a ha => by rw [hinfo a ha]).2] at hscan
  have hhead : (KeyHeap.setInfo q (fun i => { i with delayed := true, nextReadyMs := next })
    h).delayed.head = m.delayed.head? := hr.delayed.head
  have hsplit := List.takeWhile_append_dropWhile
    (p := fun a => decide ((m.info a).nextReadyMs ≤ next)) (l := m.delayed)
  have hmk : ∀ d, Linked d (KeyMap.insertDelayed q next m).delayed → Refines cfg
      { KeyHeap.setInfo q (fun i => { i with delayed := true, nextReadyMs := next }) h with
        delayed := d } (KeyMap.insertDelayed q next m) := fun d hd => setDelayed_refines hset d _ hd
  unfold KeyHeap.insertDelayed
  dsimp only
  rw [hhead]
  cases hm : m.delayed with
  | nil =>
    refine ⟨_, rfl, hmk _ ?_⟩
    rw [KeyMap.insertDelayed_delayed, hm]
    exact ⟨List.nodup_singleton q, rfl, rfl, by simp [Seg, setNode, KeyHeap.setInfo]⟩
  | cons b l =>
    rw [← hm]
    have hb : m.delayed.head? = some b := by simp [hm]
    have hcount : (KeyHeap.setInfo q (fun i => { i with delayed := true, nextReadyMs := next })
      h).keyQueueCount = h.keyQueueCount := rfl
    rw [hb] at hscan ⊢
    dsimp only
    rw [hcount, hscan]
    cases hd : m.delayed.dropWhile fun a => decide ((m.info a).nextReadyMs ≤ next) with
    | nil =>
      refine ⟨_, rfl, hmk _ ?_⟩
      rw [hd, List.append_nil] at hsplit
      rw [KeyMap.insertDelayed_delayed, hd, hsplit]
      exact pushBack_linked q _ _ hr.delayed hq
    | cons c l' =>
      refine ⟨_, rfl, hmk _ ?_⟩
      rw [hd] at hsplit
      rw [KeyMap.insertDelayed_delayed, hd]
      refine insertBefore_linked q c _ _ l' ?_ ?_
      · rw [hsplit]
        exact hr.delayed
      · rw [hsplit]
        exact hq

theorem delayedAddSorted_refines (hr : Refines cfg h m) (hl : KeyMap.Listed m) (q : Addr)
    (next : ℤ) (hlen : m.delayed.length ≤ m.keyQueueCount) :
    ∃ h', KeyHeap.delayedAddSorted q next h = some h' ∧
      Refines cfg h' (KeyMap.delayedAddSorted q next m) := by
  have hnot : q ∉ (KeyMap.unlist q m).delayed := by
    rw [(KeyMap.unlist_listed q hl).delayed, (KeyMap.unlist_free q m).delayed]
    simp
  refine insertDelayed_refines (unlist_refines hr hl q) q next hnot ?_
  rw [(KeyMap.unlist_touches q m).count]
  refine le_trans ?_ hlen
  exact (KeyMap.unlist_delayed q m).length_le

theorem promote_refines (hr : Refines cfg h m) (hl : KeyMap.Listed m) (q : Addr) :
    Refines cfg (KeyHeap.promote q h) (KeyMap.promote q m) := by
  have hdec : decide (KeyHeap.count q h > 0) = !(m.tasks q).isEmpty := by
    rw [hr.count_eq q]
    cases m.tasks q <;> rfl
  unfold KeyHeap.promote KeyMap.promote
  rw [congrFun hr.info q, hdec]
  split
  · exact readyAdd_refines (delayedRemove_refines hr hl q) (KeyMap.delayedRemove_listed q hl) q
  · exact delayedRemove_refines hr hl q

theorem readyAdd_delayed (q : Addr) (m : KeyMap τ β) :
    (KeyMap.readyAdd q m).delayed = m.delayed := by
  unfold KeyMap.readyAdd
  split <;> rfl

theorem promote_cons (q : Addr) (l : List Addr) (hl : KeyMap.Listed m) (hm : m.delayed = q::l) :
    (KeyMap.promote q m).delayed = l := by
  have hq : (m.info q).delayed = true := (hl.delayed q).mp (by simp [hm])
  have hrem : (KeyMap.delayedRemove q m).delayed = l := by simp [KeyMap.delayedRemove, hq, hm]
  unfold KeyMap.promote
  split
  · rw [readyAdd_delayed, hrem]
  · exact hrem

theorem promote_listed (q : Addr) (hl : KeyMap.Listed m) : KeyMap.Listed (KeyMap.promote q m) := by
  unfold KeyMap.promote
  split
  · exact KeyMap.readyAdd_listed q (KeyMap.delayedRemove_listed q hl)
  · exact KeyMap.delayedRemove_listed q hl

/-- The loop always stands at the head of what is left of the list. -/
theorem promoteGo_refines (now : ℤ) (l : List Addr) (k : ℕ) (h : KeyHeap τ β) (m : KeyMap τ β)
    (hr : Refines cfg h m) (hl : KeyMap.Listed m) (hm : m.delayed = l) (hk : l.length ≤ k) :
    ∃ h', KeyHeap.promoteGo now k l.head? h = some h' ∧
      Refines cfg h' (KeyMap.promoteGo now l m) := by
  induction l generalizing k h m with
  | nil => exact ⟨h, by cases k <;> rfl, hr⟩
  | cons q l ih =>
    cases k with
    | zero => simp at hk
    | succ k =>
      have hseg : Seg h.delayed none (q::l) none := hm ▸ hr.delayed.seg
      have hnext : h.delayed.next q = l.head? := by simpa using hseg.2.1
      simp only [List.head?_cons, KeyHeap.promoteGo, KeyMap.promoteGo, hnext, congrFun hr.info q]
      split
      · exact ⟨h, rfl, hr⟩
      · exact ih k _ _ (promote_refines hr hl q) (promote_listed q hl) (promote_cons q l hl hm)
          (by simpa using hk)

theorem delayedPromoteDue_refines (hr : Refines cfg h m) (hl : KeyMap.Listed m) (now : ℤ)
    (hlen : m.delayed.length ≤ m.keyQueueCount) :
    ∃ h', KeyHeap.delayedPromoteDue now h = some h' ∧
      Refines cfg h' (KeyMap.delayedPromoteDue now m) := by
  unfold KeyHeap.delayedPromoteDue
  rw [hr.delayed.head]
  exact promoteGo_refines now m.delayed _ h m hr hl rfl (hr.count ▸ hlen)

/-- The walk reaches the queue and bridges over it; the node before it is
the last of the part already passed. -/
theorem unchain_eq (q : Addr) (idx : ℕ) (k : ℕ) (pre post : List Addr) (rest : List Addr)
    (h : KeyHeap τ β) (p : Option Addr) (hp : Path h.hnext p (rest++q::post))
    (hq : q ∉ rest) (hk : rest.length < k) :
    KeyHeap.unchain q idx k pre.getLast? p h = some (match (pre++rest).getLast? with
      | some a => { h with hnext := Function.update h.hnext a (h.hnext q) }
      | none => { h with keyBuckets := Function.update h.keyBuckets idx (h.hnext q) }) := by
  induction rest generalizing k pre p with
  | nil =>
    cases k with
    | zero => simp at hk
    | succ k =>
      obtain ⟨rfl, _⟩ := hp
      simp only [KeyHeap.unchain, if_true, List.append_nil]
      cases pre.getLast? <;> rfl
  | cons a rest ih =>
    cases k with
    | zero => simp at hk
    | succ k =>
      obtain ⟨rfl, hp⟩ := hp
      have hne : a ≠ q := fun he => hq (by simp [he])
      have hstep := ih k (pre++[a]) (h.hnext a) hp (fun hm => hq (by simp [hm])) (by simpa using hk)
      rw [List.getLast?_concat, List.append_assoc, List.singleton_append] at hstep
      simp only [KeyHeap.unchain, if_neg hne]
      exact hstep

/-- Taking a queue out of its chain leaves the other chains alone. -/
theorem unchain_refines (hr : Refines cfg h m) (hh : KeyMap.Hashed cfg m) (q : Addr)
    (hq : q ∈ KeyMap.live cfg m) (k : ℕ)
    (hk : (m.buckets (bucketIndex cfg (m.info q).hash)).length ≤ k) :
    ∃ h', KeyHeap.unchain q (bucketIndex cfg (m.info q).hash) k none
        (h.keyBuckets (bucketIndex cfg (m.info q).hash)) h = some h' ∧
      h' = { h with hnext := h'.hnext, keyBuckets := h'.keyBuckets } ∧
      ∀ i, Path h'.hnext (h'.keyBuckets i) (Function.update m.buckets
        (bucketIndex cfg (m.info q).hash)
        ((m.buckets (bucketIndex cfg (m.info q).hash)).erase q) i) := by
  have hb := hh.mem_bucket cfg m q hq
  obtain ⟨rest, post, he⟩ := List.append_of_mem hb
  have hnd := hh.nodup (bucketIndex cfg (m.info q).hash)
  rw [he] at hnd
  have hnr : q ∉ rest := by
    rw [List.nodup_append] at hnd
    exact fun hm => hnd.2.2 q hm q (by simp) rfl
  have hpath := hr.chain (bucketIndex cfg (m.info q).hash)
  rw [he] at hpath hk
  have heq := unchain_eq q (bucketIndex cfg (m.info q).hash) k [] post rest h _ hpath hnr
    (by simp at hk; omega)
  rw [List.getLast?_nil, List.nil_append] at heq
  rw [he, List.erase_append_right _ hnr, List.erase_cons_head, heq]
  -- the other chains do not contain the node whose link is written
  have hdisj : ∀ i, i ≠ bucketIndex cfg (m.info q).hash → ∀ a ∈ m.buckets i,
      a ∉ m.buckets (bucketIndex cfg (m.info q).hash) := by
    intro i hi a ha hm
    exact hi ((hh.index i a ha).symm.trans (hh.index _ a hm))
  cases hrest : rest.getLast? with
  | none =>
    rw [List.getLast?_eq_none_iff] at hrest
    subst hrest
    refine ⟨_, rfl, rfl, ?_⟩
    intro i
    by_cases hi : i = bucketIndex cfg (m.info q).hash
    · subst hi
      simpa using hpath.2
    · simpa [hi] using hr.chain i
  | some a =>
    obtain ⟨rest', rfl⟩ := List.getLast?_eq_some_iff.mp hrest
    refine ⟨_, rfl, rfl, ?_⟩
    intro i
    by_cases hi : i = bucketIndex cfg (m.info q).hash
    · subst hi
      simp only [Function.update_self, List.append_assoc, List.singleton_append] at hnd hpath ⊢
      exact path_bridge h.hnext q a _ rest' post hnd hpath
    · simp only [Function.update_of_ne hi]
      refine path_update h.hnext a _ _ _ ?_ (hr.chain i)
      intro ha
      exact hdisj i hi a ha (by rw [he]; simp)

theorem bucket_length_le (hh : KeyMap.Hashed cfg m) (i : ℕ) (hi : i < keyBucketCount cfg) :
    (m.buckets i).length ≤ m.keyQueueCount := by
  rw [hh.count, KeyMap.live, List.length_flatMap]
  exact List.single_le_sum (by simp) _ (List.mem_map_of_mem (List.mem_range.mpr hi))

theorem keyQueueRemoveAndFree_refines (hr : Refines cfg h m) (hl : KeyMap.Listed m)
    (hh : KeyMap.Hashed cfg m) (q : Addr) (hq : q ∈ KeyMap.live cfg m) :
    ∃ h', KeyHeap.keyQueueRemoveAndFree cfg q h = some h' ∧
      Refines cfg h' (KeyMap.keyQueueRemoveAndFree cfg q m) := by
  have ht := KeyMap.unlist_touches q m
  have hru := unlist_refines hr hl q
  have hhu := hh.touch ht
  have hqu : q ∈ KeyMap.live cfg (KeyMap.unlist q m) := by rwa [ht.live cfg]
  obtain ⟨h', he, hfields, hchain⟩ := unchain_refines hru hhu q hqu
    (KeyHeap.unlist q h).keyQueueCount
    (hru.count ▸ bucket_length_le hhu _ (bucketIndex_lt cfg _))
  rw [ht.hash, ht.buckets] at hchain
  rw [ht.hash] at he
  refine ⟨_, by simp only [KeyHeap.keyQueueRemoveAndFree, hr.info, he]; rfl, ?_⟩
  rw [hfields]
  have hfreed : (KeyHeap.unlist q h).freed = m.freed := by
    rw [hru.freed, KeyMap.unlist_freed]
  refine ⟨hru.info, hru.ring, hchain, hru.ready, hru.delayed, hru.idle, ?_, ?_, ?_⟩
  · change (KeyHeap.unlist q h).keyQueueCount-1 = m.keyQueueCount-1
    rw [hru.count, ht.count]
  · intro a
    have hperm := KeyMap.keyQueueRemoveAndFree_live cfg q hh hq
    have hnd := List.nodup_cons.mp (hperm.nodup_iff.mp hh.live_nodup)
    by_cases ha : a = q
    · subst ha
      simpa using hnd.1
    · have halloc : (KeyHeap.unlist q h).allocated a = true ↔ a ∈ KeyMap.live cfg m := by
        rw [hru.allocated, ht.live cfg]
      simp [ha, halloc, hperm.mem_iff]
  · change (KeyHeap.unlist q h).freed++[m.info q] = m.freed++[m.info q]
    rw [hfreed]

theorem idleRemove_idle_list (q : Addr) (m : KeyMap τ β) (hq : (m.info q).idle = true) :
    (KeyMap.idleRemove q m).idle = m.idle.erase q := by simp [KeyMap.idleRemove, hq]

theorem cleanup_refines (hr : Refines cfg h m) (hs : KeyMap.Sound cfg m) (now : ℤ) (q : Addr) :
    ∃ h', KeyHeap.cleanup cfg now q h = some h' ∧
      Refines cfg h' (KeyMap.cleanup cfg now q m) := by
  unfold KeyHeap.cleanup KeyMap.cleanup
  rw [congrFun hr.info q, hr.count_zero q]
  split
  · rename_i hg
    simp only [Bool.and_eq_true] at hg
    have hq : q ∈ KeyMap.live cfg m := by
      by_contra hn
      simp [(hs.dead q hn).idle] at hg
    have ht := KeyMap.idleRemove_touches q m
    exact keyQueueRemoveAndFree_refines (idleRemove_refines hr hs.listed q)
      (KeyMap.idleRemove_listed q hs.listed) (hs.hashed.touch ht) q (by rwa [ht.live cfg])
  · exact ⟨h, rfl, hr⟩

/-- A visit to a node of the idle list either keeps the list or takes the
node out of it. -/
theorem cleanup_idle (now : ℤ) (q : Addr) (m : KeyMap τ β) :
    (KeyMap.cleanup cfg now q m).idle = m.idle ∨
      (KeyMap.cleanup cfg now q m).idle = m.idle.erase q := by
  unfold KeyMap.cleanup
  split
  · rename_i hg
    simp only [Bool.and_eq_true] at hg
    refine Or.inr ?_
    have hu : (KeyMap.unlist q (KeyMap.idleRemove q m)).idle = (KeyMap.idleRemove q m).idle :=
      KeyMap.unlist_idle q _ (KeyMap.idleRemove_idle q m)
    rw [← idleRemove_idle_list q m hg.1.1.1]
    exact hu
  · exact Or.inl rfl

theorem cleanupGo_refines (now : ℤ) (l pre : List Addr) (k : ℕ) (h : KeyHeap τ β)
    (m : KeyMap τ β) (hr : Refines cfg h m) (hs : KeyMap.Sound cfg m) (hm : m.idle = pre++l)
    (hk : l.length ≤ k) :
    ∃ h', KeyHeap.cleanupGo cfg now k l.head? h = some h' ∧
      Refines cfg h' (l.foldl (fun m q => KeyMap.cleanup cfg now q m) m) := by
  induction l generalizing pre k h m with
  | nil => exact ⟨h, by cases k <;> rfl, hr⟩
  | cons q l ih =>
    cases k with
    | zero => simp at hk
    | succ k =>
      have hnext : h.idle.next q = l.head? := (seg_node h.idle pre l q (hm ▸ hr.idle.seg)).2.1
      have hnd : (pre++q::l).Nodup := hm ▸ hs.listed.idleNodup
      have hqp : q ∉ pre := by
        rw [List.nodup_append] at hnd
        exact fun hp => hnd.2.2 q hp q (by simp) rfl
      obtain ⟨h₁, he, hr₁⟩ := cleanup_refines hr hs now q
      have hs₁ := KeyMap.cleanup_sound hs now q
      simp only [List.head?_cons, KeyHeap.cleanupGo, hnext, he, Option.bind_eq_bind,
        Option.bind_some, List.foldl_cons]
      rcases cleanup_idle now q m with hi | hi
      · exact ih (pre++[q]) k h₁ _ hr₁ hs₁ (by rw [hi, hm]; simp) (by simpa using hk)
      · refine ih pre k h₁ _ hr₁ hs₁ ?_ (by simpa using hk)
        rw [hi, hm, List.erase_append_right _ hqp, List.erase_cons_head]

theorem idleCleanup_refines (hr : Refines cfg h m) (hs : KeyMap.Sound cfg m) (now : ℤ)
    (hlen : m.idle.length ≤ m.keyQueueCount) :
    ∃ h', KeyHeap.idleCleanup cfg now h = some h' ∧
      Refines cfg h' (KeyMap.idleCleanup cfg now m) := by
  unfold KeyHeap.idleCleanup KeyMap.idleCleanup
  split
  · exact ⟨h, rfl, hr⟩
  · rw [hr.idle.head]
    exact cleanupGo_refines now m.idle [] _ h m hr hs rfl (hr.count ▸ hlen)

theorem readyPop_refines (hr : Refines cfg h m) :
    (KeyHeap.readyPop h = none ∧ KeyMap.readyPop m = none) ∨
      ∃ q h' m', KeyHeap.readyPop h = some (q, h') ∧ KeyMap.readyPop m = some (q, m') ∧
        Refines cfg h' m' := by
  unfold KeyHeap.readyPop KeyMap.readyPop
  rw [hr.ready.head]
  cases hm : m.ready with
  | nil => exact Or.inl ⟨rfl, rfl⟩
  | cons q l =>
    have hl := popFront_linked q h.ready l (hm ▸ hr.ready)
    exact Or.inr ⟨q, _, _, rfl, rfl, setInfo_refines (setReady_refines hr _ _ hl) q _⟩

theorem lookupGo_eq (key : CStr) (h : KeyHeap τ β) (k : ℕ) (p : Option Addr) (l : List Addr)
    (hp : Path h.hnext p l) (hk : l.length ≤ k) :
    KeyHeap.lookupGo key h k p =
      some (l.find? fun a => (h.info a).hash == hash32Fnv1a key && (h.info a).key == key) := by
  induction l generalizing k p with
  | nil =>
    have hnone : p = none := hp
    subst hnone
    cases k <;> rfl
  | cons a l ih =>
    obtain ⟨rfl, hp⟩ := hp
    cases k with
    | zero => simp at hk
    | succ k =>
      simp only [KeyHeap.lookupGo, List.find?_cons]
      cases hc : ((h.info a).hash == hash32Fnv1a key && (h.info a).key == key) with
      | true => rfl
      | false => exact ih k _ hp (by simpa using hk)

theorem setNode_linked (d : DList Addr) (l : List Addr) (q : Addr) (hd : Linked d l)
    (hq : q ∉ l) : Linked (setNode q none none d) l :=
  ⟨hd.nodup, hd.head, hd.tail, seg_setNode d q none none none l none hq hd.seg⟩

theorem create_refines (hr : Refines cfg h m) (hs : KeyMap.Sound cfg m) (q : Addr) (key : CStr)
    (hq : q ∉ KeyMap.live cfg m) :
    Refines cfg (KeyHeap.create cfg q key h) (KeyMap.create cfg q key m) := by
  have hfree := hs.dead q hq
  have hnr : q ∉ m.ready := by simp [hs.listed.ready, hfree.ready]
  have hnd : q ∉ m.delayed := by simp [hs.listed.delayed, hfree.delayed]
  have hni : q ∉ m.idle := by simp [hs.listed.idle, hfree.idle]
  have hnob : ∀ i, q ∉ m.buckets i := fun i hi => hq (hs.hashed.mem_live cfg m i q hi)
  refine ⟨by simp [KeyHeap.create, KeyMap.create, hr.info], ?_, ?_, ?_, ?_, ?_, ?_, ?_, hr.freed⟩
  · intro a
    by_cases ha : a = q
    · subst ha
      simpa [KeyHeap.create, KeyMap.create] using empty_holds
    · simpa [KeyHeap.create, KeyMap.create, ha] using hr.ring a
  · intro i
    by_cases hi : i = bucketIndex cfg (hash32Fnv1a key)
    · subst hi
      simpa [KeyHeap.create, KeyMap.create] using
        path_push h.hnext q _ _ (hnob _) (hr.chain (bucketIndex cfg (hash32Fnv1a key)))
    · simpa [KeyHeap.create, KeyMap.create, hi] using
        path_update h.hnext q _ _ _ (hnob i) (hr.chain i)
  · exact setNode_linked _ _ q hr.ready hnr
  · exact setNode_linked _ _ q hr.delayed hnd
  · exact setNode_linked _ _ q hr.idle hni
  · change h.keyQueueCount+1 = m.keyQueueCount+1
    rw [hr.count]
  · intro a
    rw [(KeyMap.create_live cfg q key m).mem_iff]
    by_cases ha : a = q
    · subst ha
      simp [KeyHeap.create]
    · simp [KeyHeap.create, ha, hr.allocated a]

theorem keyQueueGetOrCreate_refines (hr : Refines cfg h m) (hs : KeyMap.Sound cfg m)
    (addr : Addr) (key : CStr) (ha : addr ∉ KeyMap.live cfg m) :
    ∃ h', KeyHeap.keyQueueGetOrCreate cfg addr key h =
        some ((KeyMap.keyQueueGetOrCreate cfg addr key m).1, h') ∧
      Refines cfg h' (KeyMap.keyQueueGetOrCreate cfg addr key m).2 := by
  have hlook := lookupGo_eq key h h.keyQueueCount _ _
    (hr.chain (bucketIndex cfg (hash32Fnv1a key)))
    (hr.count ▸ bucket_length_le hs.hashed _ (bucketIndex_lt cfg _))
  have hfind : KeyHeap.lookupGo key h h.keyQueueCount
      (h.keyBuckets (bucketIndex cfg (hash32Fnv1a key))) = some (KeyMap.lookup cfg key m) := by
    rw [hlook, KeyMap.lookup, hr.info]
  have hlim : KeyHeap.atLimit cfg h = KeyMap.atLimit cfg m := by
    simp [KeyHeap.atLimit, KeyMap.atLimit, hr.count]
  unfold KeyHeap.keyQueueGetOrCreate KeyMap.keyQueueGetOrCreate
  simp only [hfind, Option.bind_eq_bind, Option.bind_some, hlim]
  cases KeyMap.lookup cfg key m with
  | some p => exact ⟨_, rfl, idleRemove_refines hr hs.listed p⟩
  | none =>
    dsimp only
    split
    · exact ⟨_, rfl, hr⟩
    · exact ⟨_, rfl, create_refines hr hs addr key ha⟩

theorem pushBackTask_refines (hr : Refines cfg h m) (q : Addr) (t : τ) :
    Refines cfg (KeyHeap.pushBackTask q t h) (KeyMap.pushBackTask q t m) :=
  setRing_refines hr q _ _ (push_holds KeyHeap.keyQueueInitCap (by decide) t _ _ (hr.ring q)).2

theorem enqueue_refines (hr : Refines cfg h m) (hl : KeyMap.Listed m) (q : Addr) (t : τ) :
    Refines cfg (KeyHeap.enqueue q t h) (KeyMap.enqueue q t m) := by
  unfold KeyHeap.enqueue KeyMap.enqueue
  rw [congrFun hr.info q, hr.count_zero q]
  split
  · exact readyAdd_refines (pushBackTask_refines hr q t) (KeyMap.pushBackTask_listed q t hl) q
  · exact pushBackTask_refines hr q t

theorem keyQueuePushTask_refines (hr : Refines cfg h m) (hs : KeyMap.Sound cfg m) (addr : Addr)
    (key : CStr) (t : τ) (ha : addr ∉ KeyMap.live cfg m) :
    ∃ h', KeyHeap.keyQueuePushTask cfg addr key t h =
        some ((KeyMap.keyQueuePushTask cfg addr key t m).1, h') ∧
      Refines cfg h' (KeyMap.keyQueuePushTask cfg addr key t m).2 := by
  obtain ⟨h', he, hr'⟩ := keyQueueGetOrCreate_refines hr hs addr key ha
  have hs' := (KeyMap.keyQueueGetOrCreate_spec hs addr key ha).1
  unfold KeyHeap.keyQueuePushTask KeyMap.keyQueuePushTask
  cases hg : KeyMap.keyQueueGetOrCreate cfg addr key m with
  | mk o m' =>
    rw [hg] at he hr' hs'
    simp only [he, Option.bind_eq_bind, Option.bind_some]
    cases o with
    | none => exact ⟨h', rfl, hr'⟩
    | some q => exact ⟨_, rfl, enqueue_refines hr' hs'.listed q t⟩

theorem keyQueueReserve_refines (hr : Refines cfg h m) (hs : KeyMap.Sound cfg m) (addr : Addr)
    (key : CStr) (ha : addr ∉ KeyMap.live cfg m) :
    ∃ h', KeyHeap.keyQueueReserve cfg addr key h =
        some ((KeyMap.keyQueueReserve cfg addr key m).1, h') ∧
      Refines cfg h' (KeyMap.keyQueueReserve cfg addr key m).2 := by
  obtain ⟨h', he, hr'⟩ := keyQueueGetOrCreate_refines hr hs addr key ha
  exact ⟨h', by simp [KeyHeap.keyQueueReserve, he, KeyMap.keyQueueReserve], hr'⟩

theorem keyQueuePushFrontTask_refines (hr : Refines cfg h m) (q : Addr) (t : τ) :
    Refines cfg (KeyHeap.keyQueuePushFrontTask q t h) (KeyMap.keyQueuePushFrontTask q t m) :=
  setRing_refines hr q _ _
    (pushFront_holds KeyHeap.keyQueueInitCap (by decide) t _ _ (hr.ring q)).2

theorem keyQueuePopTask_refines (hr : Refines cfg h m) (q : Addr) :
    (KeyHeap.keyQueuePopTask q h).1 = (KeyMap.keyQueuePopTask q m).1 ∧
      Refines cfg (KeyHeap.keyQueuePopTask q h).2 (KeyMap.keyQueuePopTask q m).2 := by
  have hring := hr.ring q
  unfold KeyHeap.keyQueuePopTask KeyMap.keyQueuePopTask
  cases hm : m.tasks q with
  | nil =>
    rw [hm] at hring
    rw [pop_nil _ hring]
    exact ⟨rfl, hr⟩
  | cons t l =>
    rw [hm] at hring
    obtain ⟨r, he, hh⟩ := pop_holds t _ l hring
    rw [he]
    exact ⟨rfl, setRing_refines hr q r l hh⟩

theorem gateRequeue_refines (hr : Refines cfg h m) (hl : KeyMap.Listed m) (q : Addr) (t : τ)
    (next : ℤ) (hlen : m.delayed.length ≤ m.keyQueueCount) :
    ∃ h', KeyHeap.gateRequeue q t next h = some h' ∧
      Refines cfg h' (KeyMap.gateRequeue q t next m) := by
  have hl' : KeyMap.Listed (KeyMap.keyQueuePushFrontTask q t m) :=
    ⟨hl.ready, hl.delayed, hl.idle, hl.readyNodup, hl.delayedNodup, hl.idleNodup⟩
  exact delayedAddSorted_refines (setInfo_refines (keyQueuePushFrontTask_refines hr q t) q _)
    (hl'.setInfo q _ rfl rfl rfl) q next hlen

theorem keyQueueFinish_refines (hr : Refines cfg h m) (hs : KeyMap.Sound cfg m) (now : ℤ)
    (q : Addr) (hq : q ∈ KeyMap.live cfg m) (hlen : m.delayed.length ≤ m.keyQueueCount) :
    ∃ h', KeyHeap.keyQueueFinish cfg now q h = some h' ∧
      Refines cfg h' (KeyMap.keyQueueFinish cfg now q m) := by
  have hset := setInfo_refines hr q (fun i => { i with inflight := false })
  have hl : KeyMap.Listed (KeyMap.setInfo q (fun i => { i with inflight := false }) m) :=
    hs.listed.setInfo q _ rfl rfl rfl
  have hcount := hset.count_eq q
  have hiff : KeyHeap.count q (KeyHeap.setInfo q (fun i => { i with inflight := false }) h) > 0 ↔
      (!(m.tasks q).isEmpty) = true := by
    rw [hcount, KeyMap.setInfo_tasks]
    cases m.tasks q <;> simp
  unfold KeyHeap.keyQueueFinish KeyMap.keyQueueFinish
  simp only [hiff, KeyMap.setInfo_tasks, hset.info]
  split
  · split
    · exact delayedAddSorted_refines hset hl q _ hlen
    · exact ⟨_, rfl, readyAdd_refines hset hl q⟩
  · split
    · exact ⟨_, rfl, idleAdd_refines hset hl q now⟩
    · exact keyQueueRemoveAndFree_refines hset hl (hs.hashed.touch
        (KeyMap.release_touches q m m (KeyMap.Touches.refl q m))) q hq

end VeTls.Keys
