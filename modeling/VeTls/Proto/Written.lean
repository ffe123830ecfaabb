import VeTls.Pipeline.Oversize
import VeTls.Proto.Merged

/-!
# Which records are written

The export writes a record for every raw item and for every builder with
logs that is not sealed, if their number and sizes allow it. What it writes
has all logs that the producer keeps when none of them is in a sealed builder
and no record is cut.
-/

set_option autoImplicit false

namespace VeTls.Export

open VeTls.Keys (CStr KeyMap)
open VeTls.Keys.KeyMap (Sound)
open VeTls.Wire (Bytes)
open VeTls.Proto (sizeCap)

variable {cfg : Config}

/-- The builders apart from the one of the default key. -/
def others (cfg : Config) (p : Producer) : List Builder :=
  (shelf cfg p).diff (homeBuilder cfg p).toList

/-- The length of the key, and the bytes of the logs, of a builder that is
written. -/
def outline (b : Builder) : ℕ × ℕ := (b.normKey.length, b.logsLen)

def recordSize (keyLen size : ℕ) : ℕ := 29+uint32 keyLen+uint32 size

/-- Neither the number of records nor any size is too large. -/
def Fits (suffix : Bytes) (raws : List RawItem) (builders : List (ℕ × ℕ)) : Prop :=
  raws.length+builders.length < 2^32 ∧ (∀ x ∈ builders, groupSize suffix x.2 < sizeCap) ∧
    20+(raws.map fun i => recordSize i.hashKey.length i.data.length).sum+
      (builders.map fun x => recordSize x.1 (groupSize suffix x.2)).sum < 2^64

instance decidableFits (suffix : Bytes) (raws : List RawItem) (builders : List (ℕ × ℕ)) :
    Decidable (Fits suffix raws builders) := inferInstanceAs (Decidable (_ ∧ _ ∧ _))

section Writing

/-- The item of a builder whose body is not too large. -/
def bodyItem (suffix : Bytes) (b : Builder) : RawItem :=
  ⟨0, b.endId, b.lastTimeMs, b.lastTimeNs, b.lastHasTimeNs, groupBody suffix b.logs, b.normKey⟩

theorem builderItem_eq (suffix : Bytes) (b : Builder) (hw : b.Has Weighed) :
    builderItem suffix b =
      if groupSize suffix b.logsLen < sizeCap then some (bodyItem suffix b) else none := by
  have hlen : b.logsLen = b.bytes.length := hw.trans (flatMap_bytes_length b.logs).symm
  have hgroup : groupSize suffix b.logsLen = (groupBody suffix b.logs).length := by
    rw [groupBody_length]
    exact congrArg (groupSize suffix) hw
  rw [hgroup, builderItem]
  split
  case isTrue hroom =>
    rw [Proto.builderBody_eq suffix b hlen hroom]
    rfl
  case isFalse hroom =>
    rw [Option.map_eq_none_iff]
    by_contra hsome
    obtain ⟨body, hbody⟩ := Option.ne_none_iff_exists'.mp hsome
    have hb := Proto.builderBody_some suffix body b hlen hbody
    rw [Proto.builderBody_start] at hbody
    dsimp only at hbody
    split at hbody
    case isTrue hfit =>
      rw [Option.some.inj hbody, hb] at hfit
      exact hroom hfit
    case isFalse => cases hbody

theorem mapM_builderItem (suffix : Bytes) (l : List Builder) (hw : ∀ b ∈ l, b.Has Weighed) :
    l.mapM (builderItem suffix) =
      if ∀ b ∈ l, groupSize suffix b.logsLen < sizeCap then some (l.map (bodyItem suffix))
      else none := by
  induction l with
  | nil => simp
  | cons b l ih =>
    rw [List.mapM_cons, builderItem_eq suffix b (hw b List.mem_cons_self),
      ih fun x hx => hw x (List.mem_cons_of_mem b hx)]
    simp only [List.forall_mem_cons]
    by_cases hb : groupSize suffix b.logsLen < sizeCap
    · by_cases hl : ∀ x ∈ l, groupSize suffix x.logsLen < sizeCap
      · rw [if_pos hb, if_pos hl, if_pos ⟨hb, hl⟩]
        rfl
      · rw [if_pos hb, if_neg hl, if_neg fun h : _ ∧ _ => hl h.2]
        rfl
    · rw [if_neg hb, if_neg fun h : _ ∧ _ => hb h.1]
      rfl

theorem recBytes_length (i : RawItem) :
    (recBytes i).length = recordSize i.hashKey.length i.data.length := by
  have hkey := uint32_le i.hashKey.length
  have hdata := uint32_le i.data.length
  simp only [recBytes, List.length_append, VeTls.Bytes.leBytes_length, List.length_take,
    List.length_cons, List.length_nil, recordSize]
  omega

theorem bufferBytes_length (nextId : ℤ) (items : List RawItem) :
    (bufferBytes nextId items).length =
      20+(items.map fun i => recordSize i.hashKey.length i.data.length).sum := by
  have hrecs : (items.flatMap recBytes).length =
      (items.map fun i => recordSize i.hashKey.length i.data.length).sum := by
    rw [List.length_flatMap]
    exact congrArg List.sum (List.map_congr_left fun i _ => recBytes_length i)
  simp only [bufferBytes, magic, List.length_append, VeTls.Bytes.leBytes_length, hrecs,
    List.length_cons, List.length_nil]

theorem bodyItem_size (suffix : Bytes) (b : Builder) (hw : b.Has Weighed) :
    (bodyItem suffix b).data.length = groupSize suffix b.logsLen :=
  (groupBody_length suffix b.logs).trans (congrArg (groupSize suffix) hw.symm)

/-- The records are written exactly when they fit. -/
theorem exportRecords_spec (suffix : Bytes) (p : Producer)
    (hw : ∀ b ∈ fullBuilders cfg p, b.Has Weighed) :
    (Fits suffix p.queue ((fullBuilders cfg p).map outline) ∧ exportRecords cfg suffix p =
        (.ok, bufferBytes p.nextId (p.queue++(fullBuilders cfg p).map (bodyItem suffix)))) ∨
      ¬ Fits suffix p.queue ((fullBuilders cfg p).map outline) ∧
        exportRecords cfg suffix p = (.dropError, []) := by
  have hlen : ((fullBuilders cfg p).map outline).length = (fullBuilders cfg p).length :=
    List.length_map outline
  have hsize : (bufferBytes p.nextId (p.queue++(fullBuilders cfg p).map (bodyItem suffix))).length =
      20+(p.queue.map fun i => recordSize i.hashKey.length i.data.length).sum+
        (((fullBuilders cfg p).map outline).map fun x =>
          recordSize x.1 (groupSize suffix x.2)).sum := by
    rw [bufferBytes_length, List.map_append, List.sum_append, List.map_map, List.map_map, add_assoc]
    congr 3
    apply List.map_congr_left
    intro b hb
    exact congrArg (recordSize b.normKey.length) (bodyItem_size suffix b (hw b hb))
  have hbodies : (∀ x ∈ (fullBuilders cfg p).map outline, groupSize suffix x.2 < sizeCap) ↔
      ∀ b ∈ fullBuilders cfg p, groupSize suffix b.logsLen < sizeCap := List.forall_mem_map
  rw [Fits, hlen, hbodies, ← hsize, exportRecords, exportItems, mapM_builderItem suffix _ hw]
  by_cases hcount : p.queue.length+(fullBuilders cfg p).length < 2^32
  · rw [if_neg (by omega)]
    by_cases hall : ∀ b ∈ fullBuilders cfg p, groupSize suffix b.logsLen < sizeCap
    · rw [if_pos hall, Option.map_some]
      dsimp only
      split
      case isTrue hlarge => exact Or.inr ⟨fun hf => by have := hf.2.2; omega, rfl⟩
      case isFalse hsmall => exact Or.inl ⟨⟨hcount, hall, by omega⟩, rfl⟩
    · rw [if_neg hall]
      exact Or.inr ⟨fun hf => hall hf.2.1, rfl⟩
  · rw [if_pos (by omega)]
    exact Or.inr ⟨fun hf => hcount hf.1, rfl⟩

theorem Fits.perm {suffix : Bytes} {raws : List RawItem} {l l' : List (ℕ × ℕ)} (hp : l.Perm l') :
    Fits suffix raws l ↔ Fits suffix raws l' := by
  unfold Fits
  rw [hp.length_eq, (hp.map _).sum_eq]
  exact and_congr_right fun _ => and_congr_left fun _ => forall_congr' fun x => by rw [hp.mem_iff]

end Writing

section Recorded

theorem flatMap_full (l : List Builder) (hz : ∀ b ∈ l, b.Has Sized) :
    (l.filter fun b => decide (b.logCount > 0)).flatMap Builder.logs = l.flatMap Builder.logs := by
  induction l with
  | nil => rfl
  | cons b l ih =>
    have hrest := ih fun x hx => hz x (List.mem_cons_of_mem b hx)
    rw [List.flatMap_cons, List.filter_cons]
    split
    case isTrue => rw [List.flatMap_cons, hrest]
    case isFalse hb =>
      have hempty := (hz b List.mem_cons_self).empty (Or.inl (by simpa using hb))
      rw [hempty, hrest, List.nil_append]

/-- Every log has at least one byte. -/
theorem length_le_logBytes (l : List Builder) (hz : ∀ b ∈ l, b.Has Sized)
    (hw : ∀ b ∈ l, b.Has Weighed) :
    (l.flatMap Builder.logs).length ≤ logBytes (l.flatMap Builder.logs) := by
  induction l with
  | nil => exact le_rfl
  | cons b l ih =>
    have hrest := ih (fun x hx => hz x (List.mem_cons_of_mem b hx))
      fun x hx => hw x (List.mem_cons_of_mem b hx)
    obtain ⟨-, hlen⟩ := hz b List.mem_cons_self
    have hbytes : b.logsLen = logBytes b.logs := hw b List.mem_cons_self
    rw [List.flatMap_cons, logBytes_append, List.length_append]
    omega

/-- A buffer has all logs that were held when there were none in the sealed
list and no record was cut. -/
theorem contains_written (suffix : Bytes) (p : Producer) (logs : List Log)
    (hz : ∀ b ∈ kept cfg p, b.Has Sized) (hw : ∀ b ∈ kept cfg p, b.Has Weighed)
    (hlogs : logs.Perm (keptLogs cfg p))
    (hfit : Fits suffix p.queue ((fullBuilders cfg p).map outline)) :
    Contains suffix (bufferBytes p.nextId (p.queue++(fullBuilders cfg p).map (bodyItem suffix)))
        p.queue logs ↔
      sealedLogs p = [] ∧ (∀ i ∈ p.queue, i.data.length < 2^32) ∧
        ∀ x ∈ (fullBuilders cfg p).map outline, groupSize suffix x.2 < 2^32 := by
  have hshelf : ∀ b ∈ shelf cfg p, b ∈ kept cfg p := fun b hb => List.mem_append_left _ hb
  have hfull : ∀ b ∈ fullBuilders cfg p, b ∈ shelf cfg p := fun b hb => (List.mem_filter.mp hb).1
  have hkept : keptLogs cfg p = (fullBuilders cfg p).flatMap Builder.logs++sealedLogs p := by
    have hfilter := flatMap_full (shelf cfg p) fun b hb => hz b (hshelf b hb)
    rw [keptLogs, kept, List.flatMap_append, List.flatMap_map]
    exact congrArg (·++sealedLogs p) hfilter.symm
  have hsealed : sealedLogs p ≠ [] → 0 < logBytes (sealedLogs p) := by
    intro hne
    have hmem : ∀ b ∈ p.sealedList.map Sealed.builder, b ∈ kept cfg p :=
      fun b hb => List.mem_append_right _ hb
    have hlen := length_le_logBytes (p.sealedList.map Sealed.builder) (fun b hb => hz b (hmem b hb))
      fun b hb => hw b (hmem b hb)
    rw [List.flatMap_map] at hlen
    exact lt_of_lt_of_le (List.length_pos_iff.mpr hne) hlen
  have hdata : ∀ x ∈ (fullBuilders cfg p).map fun b => (bodyItem suffix b, b.logs),
      x.1.data = groupBody suffix x.2 ∧ 0 < logBytes x.2 := by
    intro x hx
    obtain ⟨b, hb, rfl⟩ := List.mem_map.mp hx
    refine ⟨rfl, ?_⟩
    obtain ⟨hcount, hlen⟩ := hz b (hshelf b (hfull b hb))
    have hbytes : b.logsLen = logBytes b.logs := hw b (hshelf b (hfull b hb))
    have hpos : b.logCount > 0 := of_decide_eq_true (List.mem_filter.mp hb).2
    dsimp only
    omega
  have hitems : ((fullBuilders cfg p).map fun b => (bodyItem suffix b, b.logs)).map Prod.fst =
      (fullBuilders cfg p).map (bodyItem suffix) := by
    rw [List.map_map]
    rfl
  have hspread : ((fullBuilders cfg p).map fun b => (bodyItem suffix b, b.logs)).flatMap Prod.snd =
      (fullBuilders cfg p).flatMap Builder.logs := List.flatMap_map _ _ _
  have hiff := contains_iff suffix p.nextId p.queue _ logs (sealedLogs p)
    (by
      rw [hitems, List.length_append, List.length_map]
      have := hfit.1
      rwa [List.length_map] at this)
    hdata (by rw [hspread, ← hkept]; exact hlogs) hsealed
  rw [hitems] at hiff
  rw [hiff, List.forall_mem_map, List.forall_mem_map]
  refine and_congr_right fun _ => and_congr_right fun _ => forall₂_congr fun b hb => ?_
  rw [bodyItem_size suffix b (hw b (hshelf b (hfull b hb)))]
  rfl

theorem homeBuilder_mem (p : Producer) (b : Builder) (hs : Sound cfg.toKeyConfig p.keys)
    (h : homeBuilder cfg p = some b) : b ∈ shelf cfg p := by
  have hjoin : homeOf cfg p = some (some b) := Option.join_eq_some_iff.mp h
  unfold homeOf at hjoin
  split at hjoin
  · have hb : p.defaultBuilder = some b := Option.some.inj hjoin
    exact List.mem_append_left _ (by rw [hb]; exact List.mem_singleton.mpr rfl)
  · obtain ⟨q, hq, hb⟩ := Option.map_eq_some_iff.mp hjoin
    obtain ⟨hlive, -⟩ := KeyMap.lookup_some hs.hashed cfg.hashKey q hq
    exact List.mem_append_right _ (List.mem_filterMap.mpr ⟨q, hlive, hb⟩)

theorem shelf_others (p : Producer) (hs : Sound cfg.toKeyConfig p.keys) :
    (shelf cfg p).Perm ((homeBuilder cfg p).toList++others cfg p) := by
  unfold others
  cases hb : homeBuilder cfg p with
  | none => exact List.Perm.refl _
  | some b =>
    rw [Option.toList_some, List.diff_cons, List.diff_nil]
    exact List.perm_cons_erase (homeBuilder_mem p b hs hb)

theorem homeOutline (p : Producer) :
    (((homeBuilder cfg p).toList).filter fun b => decide (b.logCount > 0)).map outline =
      (((homeSizes cfg p).join.filter fun x => decide (x.1 > 0)).map
        fun x => ((homeKey cfg p).length, x.2)).toList := by
  rw [homeSizes_join, homeKey]
  cases homeBuilder cfg p with
  | none => rfl
  | some b =>
    by_cases hb : b.logCount > 0
    · simp [Option.filter, sizes, outline, hb]
    · simp [Option.filter, sizes, hb]

end Recorded

end VeTls.Export
