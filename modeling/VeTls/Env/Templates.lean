import VeTls.Lib.Allocator
import VeTls.Env.Lengths

/-!
# Log templates

A template copies the keys of its logs and the hash key once; each add then
brings the values alone. The add with explicit lengths brings everything in
each call. Both hand the log on to the same function, and both may need an
array for more than 16 pairs.
-/

set_option autoImplicit false

namespace VeTls.Templates

open VeTls.Keys (CStr)
open VeTls.Wire (Bytes KvLog)
open VeTls.Lengths (Memory copied textAt)
open VeTls.Allocator (Ledger Owns calloc freeAll)

/-- A pointer to bytes and their number. -/
structure Span where
  p : ℕ
  n : ℕ
  deriving DecidableEq, Repr

/-- A null pointer goes with the length 0 only. -/
def Span.dangling (s : Span) : Bool := decide (s.p = 0) && decide (s.n ≠ 0)

def Span.text (mem : Memory) (s : Span) : Bytes := copied mem s.p s.n

/-- The time of a call, and what the clocks say in it. -/
structure When where
  timeMs : ℤ
  timeNs : ℕ
  hasTimeNs : Bool
  now : ℤ
  nowNs : Option ℤ
  deriving DecidableEq, Repr

/-- Without a time the clock is read, to the nanosecond if it can be. -/
def timeParts (enableTimeNs : Bool) (w : When) : ℤ × ℕ × Bool :=
  if w.timeMs > 0 then (w.timeMs, if w.hasTimeNs then w.timeNs else 0, w.hasTimeNs)
  else
    match if enableTimeNs then w.nowNs else none with
    | some ns => if ns/1000000 > 0 then (ns/1000000, (ns % 1000000).toNat, true)
        else (w.now, 0, false)
    | none => (w.now, 0, false)

structure TemplateKey where
  block : ℕ
  text : Bytes
  deriving DecidableEq, Repr

structure LogTemplate where
  self : ℕ
  keysBlock : ℕ
  keyLensBlock : ℕ
  keys : List TemplateKey
  hashKey : Option (ℕ × CStr)
  deriving DecidableEq, Repr

def LogTemplate.blocks (t : LogTemplate) : List ℕ :=
  t.keys.map TemplateKey.block++([t.keysBlock, t.keyLensBlock]++
    ((t.hashKey.map Prod.fst).toList++[t.self]))

def memdup0 (mem : Memory) (s : Span) (h : Ledger) : Option TemplateKey × Ledger :=
  if s.n = 2^64-1 then (none, h)
  else
    match calloc h with
    | (none, h) => (none, h)
    | (some a, h) => (some ⟨a, s.text mem⟩, h)

/-- The loop over the keys; `done` are those copied before. -/
def dupKeys (mem : Memory) : List Span → List TemplateKey → Ledger →
    Option (List TemplateKey) × Ledger
  | [], done, h => (some done, h)
  | s::rest, done, h =>
    if s.dangling then (none, freeAll (done.map TemplateKey.block) h)
    else
      match memdup0 mem s h with
      | (none, h) => (none, freeAll (done.map TemplateKey.block) h)
      | (some k, h) => dupKeys mem rest (done++[k]) h

/-- An empty hash key is as none. -/
def dupHashKey (mem : Memory) (s : ℕ) (h : Ledger) : Option (Option (ℕ × CStr)) × Ledger :=
  if s = 0 ∨ (mem s).headD 0 = 0 then (some none, h)
  else
    match calloc h with
    | (none, h) => (none, h)
    | (some a, h) => (some (some (a, textAt mem s)), h)

structure CreateArgs where
  mem : Memory
  keys : List Span
  hashKey : ℕ

def templateCreate (x : CreateArgs) (h : Ledger) : Option LogTemplate × Ledger :=
  if x.keys = [] ∨ x.keys.length > (2^64-1)/8 then (none, h)
  else
    match calloc h with
    | (none, h) => (none, h)
    | (some self, h) =>
      let keys := calloc h
      let keyLens := calloc keys.2
      match keys.1, keyLens.1 with
      | some keysBlock, some keyLensBlock =>
        match dupKeys x.mem x.keys [] keyLens.2 with
        | (none, h) => (none, freeAll [keysBlock, keyLensBlock, self] h)
        | (some keys, h) =>
          match dupHashKey x.mem x.hashKey h with
          | (none, h) => (none, freeAll (keys.map TemplateKey.block++
              [keysBlock, keyLensBlock, self]) h)
          | (some hashKey, h) => (some ⟨self, keysBlock, keyLensBlock, keys, hashKey⟩, h)
      | keysBlock, keyLensBlock =>
        (none, freeAll (keysBlock.toList++(keyLensBlock.toList++[self])) keyLens.2)

def templateDestroy (t : LogTemplate) (h : Ledger) : Ledger := freeAll t.blocks h

/-- The array of a call with more than 16 pairs: what is to be freed after it. -/
def kvsArray (count : ℕ) (h : Ledger) : Option (List ℕ) × Ledger :=
  if count ≤ 16 then (some [], h)
  else if count > (2^64-1)/16 then (none, h)
  else
    match calloc h with
    | (none, h) => (none, h)
    | (some a, h) => (some [a], h)

structure AddValues where
  mem : Memory
  time : When
  values : List Span

/-- The hash key and the log that go on to be added, or the result of a call
that adds none. -/
def templateAddValues (enableTimeNs : Bool) (t : LogTemplate) (x : AddValues) (h : Ledger) :
    Except Result (CStr × KvLog) × Ledger :=
  if x.values.length ≠ t.keys.length then (.error .invalid, h)
  else
    match kvsArray t.keys.length h with
    | (none, h) => (.error .dropError, h)
    | (some array, h) =>
      if x.values.any Span.dangling then (.error .invalid, freeAll array h)
      else
        let time := timeParts enableTimeNs x.time
        (.ok ((t.hashKey.map Prod.snd).getD [], ⟨time.1, time.2.1, time.2.2,
          (t.keys.map TemplateKey.text).zip (x.values.map (Span.text x.mem))⟩), freeAll array h)

structure AddWithLen where
  mem : Memory
  time : When
  hashKey : ℕ
  pairs : List (Span × Span)

def addLogWithLenTimePartsHashkey (enableTimeNs : Bool) (x : AddWithLen) (h : Ledger) :
    Except Result (CStr × KvLog) × Ledger :=
  if x.pairs = [] then (.error .invalid, h)
  else
    match kvsArray x.pairs.length h with
    | (none, h) => (.error .dropError, h)
    | (some array, h) =>
      if x.pairs.any fun e => e.1.dangling || e.2.dangling then
        (.error .invalid, freeAll array h)
      else
        let time := timeParts enableTimeNs x.time
        (.ok (textAt x.mem x.hashKey, ⟨time.1, time.2.1, time.2.2,
          x.pairs.map fun e => (e.1.text x.mem, e.2.text x.mem)⟩), freeAll array h)

/-- The adds of a template, one after the other. -/
def addAll (enableTimeNs : Bool) (t : LogTemplate) :
    List AddValues → Ledger → List (Except Result (CStr × KvLog)) × Ledger
  | [], h => ([], h)
  | x::xs, h =>
    let r := templateAddValues enableTimeNs t x h
    (r.1::(addAll enableTimeNs t xs r.2).1, (addAll enableTimeNs t xs r.2).2)

/-- The same add without the template. -/
def AddValues.withKeys (c : CreateArgs) (x : AddValues) : AddWithLen :=
  ⟨x.mem, x.time, c.hashKey, c.keys.zip x.values⟩

def withLenAll (enableTimeNs : Bool) (c : CreateArgs) :
    List AddValues → Ledger → List (Except Result (CStr × KvLog)) × Ledger
  | [], h => ([], h)
  | x::xs, h =>
    let r := addLogWithLenTimePartsHashkey enableTimeNs (x.withKeys c) h
    (r.1::(withLenAll enableTimeNs c xs r.2).1, (withLenAll enableTimeNs c xs r.2).2)

/-- The life of a template: it is made, used and destroyed. -/
def serve (enableTimeNs : Bool) (c : CreateArgs) (xs : List AddValues) (h : Ledger) : Ledger :=
  match templateCreate c h with
  | (none, h) => h
  | (some t, h) => templateDestroy t (addAll enableTimeNs t xs h).2

/-- A value for each key, and the keys are where and what they were when the
template was made. -/
structure AddValues.Steady (c : CreateArgs) (x : AddValues) : Prop where
  length : x.values.length = c.keys.length
  keys : ∀ s ∈ c.keys, s.text x.mem = s.text c.mem
  hashKey : textAt x.mem c.hashKey = textAt c.mem c.hashKey

section Ledgers

variable {h : Ledger} {own base : List ℕ}

theorem memdup0_owns (mem : Memory) (s : Span) (ho : Owns h own base) :
    Owns (memdup0 mem s h).2 (((memdup0 mem s h).1.map TemplateKey.block).toList++own) base := by
  unfold memdup0
  split
  · exact ho
  · split
    · rename_i h' he
      exact ho.calloc_none he
    · rename_i a h' he
      exact ho.calloc_some he

/-- A loop that fails has freed the keys it copied, and one that succeeds
owns all of them. -/
theorem dupKeys_owns (mem : Memory) (l : List Span) (done : List TemplateKey) (h : Ledger)
    (ho : Owns h (done.map TemplateKey.block++own) base) :
    Owns (dupKeys mem l done h).2
      (((dupKeys mem l done h).1.getD []).map TemplateKey.block++own) base := by
  induction l generalizing done h with
  | nil => exact ho
  | cons s rest ih =>
    rw [dupKeys]
    split
    · exact Owns.freeAll _ _ ho
    · have hd := memdup0_owns mem s ho
      split
      · rename_i h' he
        rw [he] at hd
        exact Owns.freeAll _ _ hd
      · rename_i k h' he
        rw [he] at hd
        refine ih _ _ (hd.perm ?_)
        rw [List.map_append, List.append_assoc]
        show (k.block::(done.map TemplateKey.block++own)).Perm
          (done.map TemplateKey.block++k.block::own)
        exact List.perm_middle.symm

theorem dupHashKey_owns (mem : Memory) (s : ℕ) (ho : Owns h own base) :
    Owns (dupHashKey mem s h).2
      ((((dupHashKey mem s h).1.getD none).map Prod.fst).toList++own) base := by
  unfold dupHashKey
  split
  · exact ho
  · split
    · rename_i h' he
      exact ho.calloc_none he
    · rename_i a h' he
      exact ho.calloc_some he

/-- A template owns its blocks; without one nothing is left behind. -/
theorem templateCreate_owns (x : CreateArgs) (ho : Owns h [] base) :
    Owns (templateCreate x h).2 (((templateCreate x h).1.map LogTemplate.blocks).getD []) base := by
  unfold templateCreate
  split
  · exact ho
  · split
    · rename_i h₁ he
      exact ho.calloc_none he
    · rename_i self h₁ he
      have hkeys := (ho.calloc_some he).calloc
      have hlens := hkeys.calloc
      dsimp only
      split
      · rename_i keysBlock keyLensBlock hk hl
        rw [hk, hl] at hlens
        have hown : Owns (calloc (calloc h₁).2).2 (([] : List TemplateKey).map TemplateKey.block++
            [keysBlock, keyLensBlock, self]) base := hlens.perm (List.Perm.swap _ _ _)
        have hdup := dupKeys_owns x.mem x.keys [] _ hown
        split
        · rename_i h₃ hd
          rw [hd] at hdup
          exact Owns.freeAll _ _ (hdup.perm (.of_eq (List.append_nil _).symm))
        · rename_i keys h₃ hd
          rw [hd] at hdup
          have hhash := dupHashKey_owns x.mem x.hashKey hdup
          split
          · rename_i h₄ hx
            rw [hx] at hhash
            exact Owns.freeAll _ _ (hhash.perm (.of_eq (List.append_nil _).symm))
          · rename_i hashKey h₄ hx
            rw [hx] at hhash
            refine hhash.perm ?_
            show ((hashKey.map Prod.fst).toList++(keys.map TemplateKey.block++
              [keysBlock, keyLensBlock, self])).Perm (keys.map TemplateKey.block++
                ([keysBlock, keyLensBlock]++((hashKey.map Prod.fst).toList++[self])))
            refine List.perm_append_comm_assoc _ _ _ |>.trans (List.Perm.append_left _ ?_)
            exact List.perm_append_comm_assoc _ [keysBlock, keyLensBlock] [self]
      · refine Owns.freeAll _ _ (hlens.perm ?_)
        exact (List.perm_append_comm_assoc _ _ _).trans (.of_eq (List.append_nil _).symm)

theorem kvsArray_owns (count : ℕ) (ho : Owns h own base) :
    Owns (kvsArray count h).2 ((kvsArray count h).1.getD []++own) base := by
  unfold kvsArray
  split
  · exact ho
  · split
    · exact ho
    · split
      · rename_i h' he
        exact ho.calloc_none he
      · rename_i a h' he
        exact ho.calloc_some he

/-- An add gives back the array it needed, whatever its result is. -/
theorem templateAddValues_owns (enableTimeNs : Bool) (t : LogTemplate) (x : AddValues)
    (ho : Owns h own base) : Owns (templateAddValues enableTimeNs t x h).2 own base := by
  have ha := kvsArray_owns t.keys.length ho
  unfold templateAddValues
  split
  · exact ho
  · split
    · rename_i h' he
      rw [he] at ha
      exact ha
    · rename_i array h' he
      rw [he] at ha
      split
      · exact Owns.freeAll _ _ ha
      · exact Owns.freeAll _ _ ha

theorem addAll_owns (enableTimeNs : Bool) (t : LogTemplate) (xs : List AddValues) (h : Ledger)
    (ho : Owns h own base) : Owns (addAll enableTimeNs t xs h).2 own base := by
  induction xs generalizing h with
  | nil => exact ho
  | cons x xs ih => exact ih _ (templateAddValues_owns enableTimeNs t x ho)

/-- Whatever the allocator answers, and wherever the creation or an add
fails, the life of a template frees each of its blocks once, and no other. -/
theorem serve_balanced (enableTimeNs : Bool) (c : CreateArgs) (xs : List AddValues) (h : Ledger)
    (hs : h.sound = true) : (serve enableTimeNs c xs h).blocks.Perm h.blocks ∧
      (serve enableTimeNs c xs h).sound = true := by
  have hcreate := templateCreate_owns c (Allocator.owns_nil hs)
  have hserve : Owns (serve enableTimeNs c xs h) [] h.blocks := by
    unfold serve
    split
    · rename_i h' he
      rw [he] at hcreate
      exact hcreate
    · rename_i t h' he
      rw [he] at hcreate
      have hadds := addAll_owns enableTimeNs t xs h' hcreate
      exact Owns.freeAll _ _ (hadds.perm (.of_eq (List.append_nil _).symm))
  exact ⟨hserve.blocks, hserve.sound⟩

end Ledgers

/-- One key, "a", whose memory holds something else in the second call. -/
def oneKey : CreateArgs := ⟨fun _ => [97, 0], [⟨8, 1⟩], 0⟩

def twoValues : List AddValues :=
  [⟨fun _ => [97, 0], ⟨5, 0, false, 9, none⟩, [⟨16, 1⟩]⟩,
    ⟨fun _ => [98, 0], ⟨0, 0, false, 9, none⟩, [⟨16, 1⟩]⟩]

def fourBlocks : Ledger := ⟨[some 1, some 2, some 3, some 4], [7], true⟩

theorem serve_balanced_oneKey : (serve false oneKey twoValues fourBlocks).blocks.Perm [7] ∧
    (serve false oneKey twoValues fourBlocks).sound = true :=
  serve_balanced false oneKey twoValues fourBlocks rfl

section Logs

variable {c : CreateArgs} {t : LogTemplate} {h h' : Ledger}

theorem memdup0_text (mem : Memory) (s : Span) (k : TemplateKey)
    (he : memdup0 mem s h = (some k, h')) : k.text = s.text mem := by
  unfold memdup0 at he
  split at he
  · cases he
  · split at he
    · cases he
    · obtain rfl := Option.some.inj (Prod.mk.inj he).1
      rfl

theorem dupKeys_text (mem : Memory) (l : List Span) (done ks : List TemplateKey) (h : Ledger)
    (he : dupKeys mem l done h = (some ks, h')) :
    ks.map TemplateKey.text = done.map TemplateKey.text++l.map (Span.text mem) ∧
      ∀ s ∈ l, s.dangling = false := by
  induction l generalizing done h with
  | nil =>
    obtain rfl := Option.some.inj (Prod.mk.inj he).1
    exact ⟨(List.append_nil _).symm, fun s hs => absurd hs List.not_mem_nil⟩
  | cons s rest ih =>
    rw [dupKeys] at he
    split at he
    · cases he
    · rename_i hd
      split at he
      · cases he
      · rename_i k h₁ hk
        obtain ⟨htext, hrest⟩ := ih _ _ he
        refine ⟨?_, fun x hx => ?_⟩
        · rw [htext, List.map_append, List.append_assoc]
          show _++(k.text::rest.map (Span.text mem)) = _++(s.text mem::rest.map (Span.text mem))
          rw [memdup0_text mem s k hk]
        · rcases List.mem_cons.mp hx with rfl | hx
          · exact Bool.eq_false_iff.mpr hd
          · exact hrest x hx

theorem dupHashKey_text (mem : Memory) (s : ℕ) (k : Option (ℕ × CStr))
    (he : dupHashKey mem s h = (some k, h')) : (k.map Prod.snd).getD [] = textAt mem s := by
  unfold dupHashKey at he
  split at he
  · rename_i hempty
    obtain rfl := Option.some.inj (Prod.mk.inj he).1
    exact (List.eq_nil_of_length_eq_zero ((Lengths.textAt_empty mem s).mpr hempty)).symm
  · split at he
    · cases he
    · obtain rfl := Option.some.inj (Prod.mk.inj he).1
      rfl

/-- What a template has copied. -/
structure Copied (c : CreateArgs) (t : LogTemplate) : Prop where
  some : c.keys ≠ []
  keys : t.keys.map TemplateKey.text = c.keys.map (Span.text c.mem)
  dangling : ∀ s ∈ c.keys, s.dangling = false
  hashKey : (t.hashKey.map Prod.snd).getD [] = textAt c.mem c.hashKey

theorem templateCreate_copied (he : templateCreate c h = (some t, h')) : Copied c t := by
  unfold templateCreate at he
  split at he
  · cases he
  · rename_i hsome
    split at he
    · cases he
    · dsimp only at he
      split at he
      · split at he
        · cases he
        · rename_i keys h₁ hkeys
          split at he
          · cases he
          · rename_i hashKey h₂ hhash
            obtain rfl := Option.some.inj (Prod.mk.inj he).1
            obtain ⟨htext, hdangling⟩ := dupKeys_text _ _ _ _ _ hkeys
            exact ⟨fun hnil => hsome (.inl hnil), htext, hdangling, dupHashKey_text _ _ _ hhash⟩
      · cases he

theorem Copied.length (hc : Copied c t) : t.keys.length = c.keys.length := by
  have hlen := congrArg List.length hc.keys
  rwa [List.length_map, List.length_map] at hlen

/-- Every log has the keys of the creation, however the memory has changed. -/
theorem templateAddValues_keys (hc : Copied c t) (enableTimeNs : Bool) (x : AddValues)
    (h : Ledger) (key : CStr) (log : KvLog)
    (he : (templateAddValues enableTimeNs t x h).1 = .ok (key, log)) :
    key = textAt c.mem c.hashKey ∧ log.kvs.map Prod.fst = c.keys.map (Span.text c.mem) := by
  unfold templateAddValues at he
  split at he
  · cases he
  · rename_i hlen
    split at he
    · cases he
    · split at he
      · cases he
      · obtain ⟨rfl, rfl⟩ := Prod.mk.inj (Except.ok.inj he)
        refine ⟨hc.hashKey, ?_⟩
        dsimp only
        rw [List.map_fst_zip, hc.keys]
        rw [List.length_map, List.length_map]
        omega

/-- With the keys still in memory an add through the template is the add with
explicit lengths. -/
theorem templateAddValues_eq (hc : Copied c t) (enableTimeNs : Bool) (x : AddValues)
    (hx : x.Steady c) (h : Ledger) : templateAddValues enableTimeNs t x h =
      addLogWithLenTimePartsHashkey enableTimeNs (x.withKeys c) h := by
  have hlen : (c.keys.zip x.values).length = t.keys.length := by
    rw [List.length_zip, hx.length, hc.length, Nat.min_self]
  have hne : c.keys.zip x.values ≠ [] := by
    intro hnil
    rw [hnil, hc.length] at hlen
    exact hc.some (List.eq_nil_of_length_eq_zero hlen.symm)
  have hdangling : (c.keys.zip x.values).any (fun e => e.1.dangling || e.2.dangling) =
      x.values.any Span.dangling := by
    have hmap : (c.keys.zip x.values).map (fun e => e.1.dangling || e.2.dangling) =
        ((c.keys.zip x.values).map Prod.snd).map Span.dangling := by
      rw [List.map_map]
      refine List.map_congr_left fun e hmem => ?_
      rw [hc.dangling e.1 (List.of_mem_zip hmem).1]
      rfl
    rw [List.map_snd_zip hx.length.le] at hmap
    have hany := congrArg (fun l => l.any id) hmap
    rwa [List.any_map, List.any_map] at hany
  have hpairs : (c.keys.zip x.values).map (fun e => (e.1.text x.mem, e.2.text x.mem)) =
      (t.keys.map TemplateKey.text).zip (x.values.map (Span.text x.mem)) := by
    have hkeys : c.keys.map (Span.text x.mem) = t.keys.map TemplateKey.text := by
      rw [hc.keys]
      exact List.map_congr_left hx.keys
    rw [← hkeys, List.zip_map]
    rfl
  unfold templateAddValues addLogWithLenTimePartsHashkey AddValues.withKeys
  dsimp only
  rw [if_neg (not_not.mpr (hx.length.trans hc.length.symm)), if_neg hne, hlen, hdangling, hpairs,
    hc.hashKey, hx.hashKey]

end Logs

/-- Every log that a template hands on has the keys and the hash key of its
creation. While they are still in memory its adds are those with explicit
lengths, in their results and in what they allocate. -/
theorem template_agrees (enableTimeNs : Bool) (c : CreateArgs) (t : LogTemplate) (h₀ h₁ : Ledger)
    (he : templateCreate c h₀ = (some t, h₁)) (xs : List AddValues) (h : Ledger) :
    (∀ key log, .ok (key, log) ∈ (addAll enableTimeNs t xs h).1 →
      key = textAt c.mem c.hashKey ∧ log.kvs.map Prod.fst = c.keys.map (Span.text c.mem)) ∧
    ((∀ x ∈ xs, x.Steady c) → addAll enableTimeNs t xs h = withLenAll enableTimeNs c xs h) := by
  have hc := templateCreate_copied he
  induction xs generalizing h with
  | nil => exact ⟨fun key log hin => absurd hin List.not_mem_nil, fun _ => rfl⟩
  | cons x xs ih =>
    obtain ⟨hkeys, hsame⟩ := ih (templateAddValues enableTimeNs t x h).2
    refine ⟨fun key log hin => ?_, fun hsteady => ?_⟩
    · rcases List.mem_cons.mp hin with hfirst | hrest
      · exact templateAddValues_keys hc enableTimeNs x h key log hfirst.symm
      · exact hkeys key log hrest
    · have hx := templateAddValues_eq hc enableTimeNs x (hsteady x List.mem_cons_self) h
      have hrest := hsame fun y hy => hsteady y (List.mem_cons_of_mem x hy)
      rw [addAll, withLenAll, hrest, hx]

def oneKeyTemplate : LogTemplate := ⟨1, 2, 3, [⟨4, [97]⟩], none⟩

theorem template_agrees_oneKey :
    (∀ key log, .ok (key, log) ∈ (addAll false oneKeyTemplate twoValues ⟨[], [7], true⟩).1 →
      key = textAt oneKey.mem 0 ∧ log.kvs.map Prod.fst = [[97]]) ∧
    ((∀ x ∈ twoValues, x.Steady oneKey) → addAll false oneKeyTemplate twoValues ⟨[], [7], true⟩ =
      withLenAll false oneKey twoValues ⟨[], [7], true⟩) :=
  template_agrees false oneKey oneKeyTemplate fourBlocks ⟨[], [4, 3, 2, 1, 7], true⟩ rfl twoValues
    ⟨[], [7], true⟩

end VeTls.Templates
