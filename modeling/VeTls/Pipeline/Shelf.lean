import VeTls.Keys.Contents
import VeTls.System

/-!
# Builders on the shelf

The builders a producer keeps: the default one, those of the keys, and the
sealed list. `Fill` is the exchange of one of them for a fuller one, which
is all that an add or a merge does to them.
-/

set_option autoImplicit false

namespace VeTls

open VeTls.Keys (Addr CStr KeyMap)
open VeTls.Keys.KeyMap (Keeps Effect Sound Held)

variable {cfg : Config}

def kept (cfg : Config) (p : Producer) : List Builder :=
  p.defaultBuilder.toList++KeyMap.builders cfg.toKeyConfig p.keys++
    p.sealedList.map Sealed.builder

/-- The key map apart from its builders is as before. -/
structure Shelved (cfg : Config) (m m' : KeyMap SendTask Builder) : Prop where
  sound : Sound cfg.toKeyConfig m'
  held : ∀ a, Held cfg.toKeyConfig m' a ↔ Held cfg.toKeyConfig m a
  key : ∀ a, Held cfg.toKeyConfig m a → (m'.info a).key = (m.info a).key
  ring : ∀ k, KeyMap.ring cfg.toKeyConfig m' k = KeyMap.ring cfg.toKeyConfig m k
  freed : m'.freed = m.freed
  idle : ∀ a, (m'.info a).idle = true → (m.info a).idle = true ∧
    ((m'.info a).builder = (m.info a).builder ∨ (m'.info a).builder = none)

/-- The builder `old`, or none, was exchanged for `b`, which may be sealed. -/
structure Fill (cfg : Config) (p p' : Producer) (old : Option Builder) (b : Builder) : Prop where
  kept : ∃ rest, (kept cfg p).Perm (old.toList++rest) ∧ (kept cfg p').Perm (b::rest)
  sealedList : p'.sealedList = p.sealedList ∧ p'.sealNo = p.sealNo ∨
    p'.sealedList = p.sealedList++[⟨p.sealNo, b⟩] ∧ p'.sealNo = p.sealNo+1
  keys : Shelved cfg p.keys p'.keys
  frame : ∃ d m l n f, p' = { p with
    defaultBuilder := d, keys := m, sealedList := l, sealNo := n, flushRequested := f }

theorem Shelved.refl {m : KeyMap SendTask Builder} (h : Sound cfg.toKeyConfig m) :
    Shelved cfg m m :=
  ⟨h, fun _ => Iff.rfl, fun _ _ => rfl, fun _ => rfl, rfl, fun _ ha => ⟨ha, Or.inl rfl⟩⟩

/-- The queue of the slot is in the map. -/
def SlotOk (cfg : Config) (p : Producer) : Slot → Prop
  | .default => True
  | .key q => q ∈ KeyMap.live cfg.toKeyConfig p.keys

/-- The queue of the slot is not waiting to be freed. -/
def SlotBusy (p : Producer) : Slot → Prop
  | .default => True
  | .key q => (p.keys.info q).idle = false

theorem setBuilder_shelved {m : KeyMap SendTask Builder} (h : Sound cfg.toKeyConfig m) (q : Addr)
    (b : Option Builder) (hb : b = none ∨ (m.info q).idle = false) :
    Shelved cfg m (KeyMap.setInfo q (fun i => { i with builder := b }) m) := by
  have ht := KeyMap.setInfo_touches q (fun i : Keys.Info Builder => { i with builder := b }) m m
    rfl rfl rfl rfl fun _ => ⟨rfl, rfl⟩
  refine ⟨KeyMap.setInfo_sound h q _ fun _ => ⟨rfl, rfl, rfl, rfl, rfl, rfl, rfl⟩, ?_, ?_, ?_, rfl,
    ?_⟩
  · exact ht.held (by simp)
  · exact fun a _ => KeyMap.touch_key ht a
  · exact KeyMap.ring_congr (ht.live _) (KeyMap.touch_key ht) rfl
  · intro a ha
    by_cases he : a = q
    · subst he
      simp only [KeyMap.setInfo_self] at ha ⊢
      exact ⟨ha, Or.inr (hb.resolve_right (by simp [ha]))⟩
    · rw [KeyMap.setInfo_other q a _ m he] at ha ⊢
      exact ⟨ha, Or.inl rfl⟩

theorem setSlot_shelved (p : Producer) (h : Sound cfg.toKeyConfig p.keys) (slot : Slot)
    (b : Option Builder) (hb : b = none ∨ SlotBusy p slot) :
    Shelved cfg p.keys (setSlot b p slot).keys := by
  cases slot with
  | default => exact Shelved.refl h
  | key q => exact setBuilder_shelved h q b hb

/-- The builder of a slot is among those that are kept. -/
theorem setSlot_kept (p : Producer) (h : Sound cfg.toKeyConfig p.keys) (slot : Slot)
    (hs : SlotOk cfg p slot) (b : Option Builder) :
    ∃ rest, (kept cfg p).Perm ((slotBuilder p slot).toList++rest) ∧
      (kept cfg (setSlot b p slot)).Perm (b.toList++rest) := by
  cases slot with
  | default =>
    refine ⟨KeyMap.builders cfg.toKeyConfig p.keys++p.sealedList.map Sealed.builder, ?_, ?_⟩
    · simp [kept, slotBuilder]
    · simp [kept, setSlot]
  | key q =>
    obtain ⟨rest, hp, hp'⟩ := KeyMap.setBuilder_builders h.hashed q hs b
    refine ⟨p.defaultBuilder.toList++rest++p.sealedList.map Sealed.builder, ?_, ?_⟩
    · have hmid := (hp.append_left p.defaultBuilder.toList).append_right
        (p.sealedList.map Sealed.builder)
      refine hmid.trans ?_
      simp only [slotBuilder, ← List.append_assoc]
      exact (List.perm_append_comm.append_right rest).append_right _
    · have hmid := (hp'.append_left p.defaultBuilder.toList).append_right
        (p.sealedList.map Sealed.builder)
      refine hmid.trans ?_
      simp only [← List.append_assoc]
      exact (List.perm_append_comm.append_right rest).append_right _

theorem setSlot_fill (p : Producer) (h : Sound cfg.toKeyConfig p.keys) (slot : Slot)
    (hs : SlotOk cfg p slot) (hb : SlotBusy p slot) (b : Builder) :
    Fill cfg p (setSlot (some b) p slot) (slotBuilder p slot) b := by
  refine ⟨setSlot_kept p h slot hs (some b), ?_, setSlot_shelved p h slot _ (Or.inr hb), ?_⟩
  · cases slot <;> exact Or.inl ⟨rfl, rfl⟩
  · cases slot with
    | default => exact ⟨some b, p.keys, p.sealedList, p.sealNo, p.flushRequested, rfl⟩
    | key q => exact ⟨p.defaultBuilder, _, p.sealedList, p.sealNo, p.flushRequested, rfl⟩

theorem sealSlot_fill (p : Producer) (h : Sound cfg.toKeyConfig p.keys) (slot : Slot)
    (hs : SlotOk cfg p slot) (b : Builder) :
    Fill cfg p (sealSlot slot b p) (slotBuilder p slot) b := by
  obtain ⟨rest, hp, hp'⟩ := setSlot_kept p h slot hs none
  have hsealed : (setSlot none p slot).sealedList = p.sealedList := by cases slot <;> rfl
  refine ⟨⟨rest, hp, ?_⟩, Or.inr ⟨rfl, rfl⟩, ?_, ?_⟩
  · have hk : kept cfg (sealSlot slot b p) = kept cfg (setSlot none p slot)++[b] := by
      simp [kept, sealSlot, hsealed]
    rw [hk]
    exact (hp'.append_right [b]).trans List.perm_append_comm
  · exact setSlot_shelved p h slot none (Or.inl rfl)
  · cases slot with
    | default => exact ⟨none, p.keys, _, _, p.flushRequested, rfl⟩
    | key q => exact ⟨p.defaultBuilder, _, _, _, p.flushRequested, rfl⟩

/-- `flushRequested` is not looked at by `Fill`. -/
theorem Fill.flush {p p' : Producer} {old : Option Builder} {b : Builder}
    (h : Fill cfg p p' old b) (f : Bool) : Fill cfg p { p' with flushRequested := f } old b := by
  obtain ⟨d, m, l, n, _, he⟩ := h.frame
  exact ⟨h.kept, h.sealedList, h.keys, d, m, l, n, f, by rw [he]⟩

theorem storeBuilder_fill (flush : Bool) (slot : Slot) (b : Builder) (p : Producer)
    (h : Sound cfg.toKeyConfig p.keys) (hs : SlotOk cfg p slot) (hb : SlotBusy p slot) :
    Fill cfg p (storeBuilder cfg flush slot b p) (slotBuilder p slot) b := by
  unfold storeBuilder
  split
  · exact (sealSlot_fill p h slot hs b).flush true
  · exact setSlot_fill p h slot hs hb b

/-- The slot of a key, once found, is a slot of the map. -/
theorem findSlot_keeps (p : Producer) (h : Sound cfg.toKeyConfig p.keys) (useDefault : Bool)
    (normKey : CStr) (addr : Addr) (ha : addr ∉ KeyMap.live cfg.toKeyConfig p.keys) :
    ∃ m, (findSlot cfg p useDefault normKey addr).2 = { p with keys := m } ∧
      Keeps cfg.toKeyConfig p.keys m ∧
      ∀ slot, (findSlot cfg p useDefault normKey addr).1 = some slot →
        SlotOk cfg { p with keys := m } slot ∧ SlotBusy { p with keys := m } slot := by
  unfold findSlot
  split
  · refine ⟨p.keys, rfl, KeyMap.keeps_refl h, ?_⟩
    intro slot he
    obtain rfl := Option.some.inj he
    exact ⟨trivial, trivial⟩
  · refine ⟨_, rfl, KeyMap.keyQueueGetOrCreate_keeps h addr normKey ha, ?_⟩
    intro slot he
    obtain ⟨q, hq, rfl⟩ := Option.map_eq_some_iff.mp he
    obtain ⟨hlive, hidle, _⟩ := (KeyMap.keyQueueGetOrCreate_spec h addr normKey ha).2 q hq
    exact ⟨hlive, hidle⟩

end VeTls
