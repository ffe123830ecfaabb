import VeTls.Proto.ImportBudget
import VeTls.Pipeline.Limits

/-!
# The records of a raw buffer

The data of the records as a reader finds it in the buffer, and what it
means that logs are in it: the raw items are records, and so are the bodies
of some groups that the other logs were put into.
-/

set_option autoImplicit false

namespace VeTls.Export

open VeTls.Keys (CStr)
open VeTls.Wire (Bytes)
open VeTls.Bytes (leBytes leValue readLe leBytes_length leValue_leBytes)
open VeTls.Protobuf (Field)

/-- The data of the first `n` records, if they are complete. -/
def readRecords (version : ℕ) : ℕ → Bytes → Option (List Bytes)
  | 0, _ => some []
  | n+1, b =>
    match readHeader version b with
    | none => none
    | some (h, b) =>
      let b := b.drop h.hkLen
      if b.length < h.dataSize then none
      else (readRecords version n (b.drop h.dataSize)).map (b.take h.dataSize::·)

def exportedData (buf : Bytes) : Option (List Bytes) :=
  readRecords (versionOf buf) (countOf buf) (buf.drop 20)

/-- The body of a request with these logs. -/
def groupBody (suffix : Bytes) (logs : List Log) : Bytes :=
  Field.encode ⟨1, .bytes (logs.flatMap Log.bytes++suffix)⟩

/-- Its length, from the bytes of the logs. -/
def groupSize (suffix : Bytes) (logsLen : ℕ) : ℕ :=
  1+Wire.varintU64Size (logsLen+suffix.length)+(logsLen+suffix.length)

def logBytes (logs : List Log) : ℕ := (logs.map Log.size).sum

/-- The items are records of the buffer, and so are the bodies of groups that
the logs are in; no record and no log is counted twice. -/
def Contains (suffix buf : Bytes) (raws : List RawItem) (logs : List Log) : Prop :=
  ∃ data, exportedData buf = some data ∧ ∃ groups : List (List Log),
    (raws.map RawItem.data++groups.map (groupBody suffix)).Subperm data ∧
      logs.Subperm groups.flatten

section Reader

/-- What is left of an item's data when its length is cast to 32 bits. -/
def writtenData (i : RawItem) : Bytes := i.data.take (uint32 i.data.length)

theorem readLe_append (k : ℕ) (b rest : Bytes) (h : b.length = k) :
    readLe k (b++rest) = some (leValue b, rest) := by
  subst h
  rw [readLe, if_neg (by rw [List.length_append]; omega), List.take_left, List.drop_left]

theorem leValue_uint32 (n : ℕ) : leValue (leBytes 4 (uint32 n)) = uint32 n :=
  leValue_leBytes 4 (uint32 n) (Nat.mod_lt n (by decide))

theorem uint32_le (n : ℕ) : uint32 n ≤ n := Nat.mod_le n _

theorem writtenData_length (i : RawItem) : (writtenData i).length = uint32 i.data.length := by
  rw [writtenData, List.length_take]
  exact min_eq_left (uint32_le _)

theorem readHeader_written (i : RawItem) (rest : Bytes) : ∃ h,
    readHeader 3 (recBytes i++rest) =
        some (h, i.hashKey.take (uint32 i.hashKey.length)++(writtenData i++rest)) ∧
      h.hkLen = uint32 i.hashKey.length ∧ h.dataSize = uint32 i.data.length := by
  rw [recBytes, readHeader]
  simp only [List.append_assoc]
  rw [readLe_append 8 _ _ (leBytes_length 8 _), Option.bind_some,
    readLe_append 8 _ _ (leBytes_length 8 _), Option.bind_some, readLe_append 1 _ _ rfl,
    Option.bind_some, readLe_append 4 _ _ (leBytes_length 4 _), Option.bind_some,
    if_pos (by decide), readLe_append 4 _ _ (leBytes_length 4 _), Option.bind_some,
    readLe_append 4 _ _ (leBytes_length 4 _), Option.map_some]
  exact ⟨_, rfl, leValue_uint32 _, leValue_uint32 _⟩

theorem readRecords_written (items : List RawItem) :
    readRecords 3 items.length (items.flatMap recBytes) = some (items.map writtenData) := by
  induction items with
  | nil => rfl
  | cons i items ih =>
    obtain ⟨h, hread, hkey, hdata⟩ := readHeader_written i (items.flatMap recBytes)
    have hklen : (i.hashKey.take (uint32 i.hashKey.length)).length = h.hkLen := by
      rw [hkey, List.length_take]
      exact min_eq_left (uint32_le _)
    have hdlen : (writtenData i).length = h.dataSize := by rw [hdata, writtenData_length]
    rw [List.length_cons, List.flatMap_cons, readRecords, hread]
    dsimp only
    rw [← hklen, List.drop_left, if_neg (by rw [List.length_append]; omega), ← hdlen,
      List.drop_left, List.take_left, ih]
    rfl

/-- A reader finds the data of every item, cut to the length that was
written. -/
theorem exportedData_bufferBytes (nextId : ℤ) (items : List RawItem) (h : items.length < 2^32) :
    exportedData (bufferBytes nextId items) = some (items.map writtenData) := by
  obtain ⟨-, hversion, hcount, -, hrecs, -⟩ := bufferBytes_slices nextId items
  rw [exportedData, versionOf, countOf, hversion, hcount, hrecs, leValue_leBytes 4 3 (by decide),
    leValue_leBytes 4 _ (by omega)]
  exact readRecords_written items

end Reader

section Sizes

theorem flatMap_bytes_length (logs : List Log) : (logs.flatMap Log.bytes).length = logBytes logs :=
  List.length_flatMap

theorem groupBody_length (suffix : Bytes) (logs : List Log) :
    (groupBody suffix logs).length = groupSize suffix (logBytes logs) := by
  have hvarint : ∀ n, (Protobuf.varint n).length = Wire.varintU64Size n := by
    intro n
    rw [Protobuf.varint, ← Proto.varintU64PackGo_eq, ← Wire.varintU64Size_pack, Wire.varintU64Size]
  rw [groupBody, Field.encode, Protobuf.Value.encode, List.length_append, List.length_append,
    hvarint, hvarint, List.length_append, flatMap_bytes_length, ← add_assoc]
  rfl

theorem groupSize_strictMono (suffix : Bytes) : StrictMono (groupSize suffix) := by
  intro m n h
  have hv := varintU64SizeGo_mono 9 (m+suffix.length) (n+suffix.length) (by omega)
  unfold groupSize Wire.varintU64Size
  omega

/-- The most bytes of logs that a body of `size` bytes can have. -/
def load (suffix : Bytes) (size : ℕ) : ℕ :=
  Nat.findGreatest (fun n => groupSize suffix n ≤ size) size

theorem load_groupSize (suffix : Bytes) (n : ℕ) : load suffix (groupSize suffix n) = n := by
  have hmono := groupSize_strictMono suffix
  rw [load, Nat.findGreatest_eq_iff]
  exact ⟨hmono.le_apply, fun _ => le_rfl, fun m hm _ => (hmono hm).not_ge⟩

theorem load_lt (suffix : Bytes) (size n : ℕ) (hn : 0 < n) (h : size < groupSize suffix n) :
    load suffix size < n := by
  by_contra hle
  have hload : groupSize suffix (load suffix size) ≤ size :=
    Nat.findGreatest_of_ne_zero (P := fun n => groupSize suffix n ≤ size) rfl (by omega)
  have := (groupSize_strictMono suffix).monotone (not_lt.mp hle)
  omega

theorem sum_le_of_subperm {α : Type} {l l' : List α} (h : l.Subperm l') (f : α → ℕ) :
    (l.map f).sum ≤ (l'.map f).sum := by
  obtain ⟨m, hperm, hsub⟩ := h
  rw [← (hperm.map f).sum_eq]
  exact (hsub.map f).sum_le_sum fun _ _ => Nat.zero_le _

theorem logBytes_perm {l l' : List Log} (h : l.Perm l') : logBytes l = logBytes l' :=
  (h.map Log.size).sum_eq

theorem logBytes_append (l l' : List Log) : logBytes (l++l') = logBytes l+logBytes l' := by
  rw [logBytes, List.map_append, List.sum_append]
  rfl

theorem logBytes_flatten (groups : List (List Log)) :
    logBytes groups.flatten = (groups.map logBytes).sum := by
  induction groups with
  | nil => rfl
  | cons g groups ih => rw [List.flatten_cons, logBytes_append, ih, List.map_cons, List.sum_cons]

end Sizes

section Exactness

variable (suffix : Bytes)

/-- A record cannot have more bytes of logs than its builder, and has as many
only if it was not cut. -/
theorem load_written (i : RawItem) (logs : List Log) (hdata : i.data = groupBody suffix logs)
    (hpos : 0 < logBytes logs) :
    load suffix (writtenData i).length ≤ logBytes logs ∧
      (load suffix (writtenData i).length = logBytes logs → i.data.length < 2^32) := by
  have hlen : i.data.length = groupSize suffix (logBytes logs) := by
    rw [hdata, groupBody_length]
  rw [writtenData_length]
  by_cases hsize : i.data.length < 2^32
  · rw [uint32, Nat.mod_eq_of_lt hsize, hlen, load_groupSize]
    exact ⟨le_rfl, fun _ => hlen ▸ hsize⟩
  · have hcut : uint32 i.data.length < groupSize suffix (logBytes logs) := by
      have := Nat.mod_lt i.data.length (show 0 < 2^32 by decide)
      rw [← hlen]
      exact lt_of_lt_of_le this (not_lt.mp hsize)
    have := load_lt suffix _ _ hpos hcut
    exact ⟨this.le, fun he => absurd he this.ne⟩

theorem writtenData_eq (i : RawItem) (h : i.data.length < 2^32) : writtenData i = i.data := by
  rw [writtenData, uint32, Nat.mod_eq_of_lt h, List.take_length]

/-- The bodies of groups that are among the records have no more bytes of
logs than the builders; as many only if no record was cut. -/
theorem groups_le (bodies : List (RawItem × List Log)) (groups : List (List Log))
    (hdata : ∀ x ∈ bodies, x.1.data = groupBody suffix x.2 ∧ 0 < logBytes x.2)
    (h : (groups.map (groupBody suffix)).Subperm (bodies.map fun x => writtenData x.1)) :
    (groups.map logBytes).sum ≤ (bodies.map fun x => logBytes x.2).sum ∧
      ((groups.map logBytes).sum = (bodies.map fun x => logBytes x.2).sum →
        ∀ x ∈ bodies, x.1.data.length < 2^32) := by
  have hgroups : groups.map logBytes =
      (groups.map (groupBody suffix)).map fun d => load suffix d.length := by
    rw [List.map_map]
    apply List.map_congr_left
    intro g _
    simp only [Function.comp_apply, groupBody_length, load_groupSize]
  have hsum := sum_le_of_subperm h fun d => load suffix d.length
  rw [← hgroups, List.map_map] at hsum
  have hbodies : ∀ l : List (RawItem × List Log), (∀ x ∈ l, x ∈ bodies) →
      (l.map ((fun d => load suffix d.length) ∘ fun x => writtenData x.1)).sum ≤
          (l.map fun x => logBytes x.2).sum ∧
        ((l.map ((fun d => load suffix d.length) ∘ fun x => writtenData x.1)).sum =
          (l.map fun x => logBytes x.2).sum → ∀ x ∈ l, x.1.data.length < 2^32) := by
    intro l hl
    induction l with
    | nil => exact ⟨le_rfl, fun _ x hx => absurd hx List.not_mem_nil⟩
    | cons x l ih =>
      obtain ⟨hle, heq⟩ := ih fun y hy => hl y (List.mem_cons_of_mem x hy)
      obtain ⟨hd, hpos⟩ := hdata x (hl x List.mem_cons_self)
      obtain ⟨hxle, hxeq⟩ := load_written suffix x.1 x.2 hd hpos
      simp only [List.map_cons, List.sum_cons, Function.comp_apply] at hle heq ⊢
      refine ⟨by omega, ?_⟩
      intro hall y hy
      rcases List.mem_cons.mp hy with rfl | hy
      · exact hxeq (by omega)
      · exact heq (by omega) y hy
  obtain ⟨hle, heq⟩ := hbodies bodies fun _ hx => hx
  exact ⟨hsum.trans hle, fun he => heq (by omega)⟩

/-- A buffer that was written for some raw items and for builders, but not
for the logs `extra`, has all of them exactly when there are no such logs and
nothing was cut. -/
theorem contains_iff (nextId : ℤ) (raws : List RawItem) (bodies : List (RawItem × List Log))
    (logs extra : List Log) (hcount : (raws++bodies.map Prod.fst).length < 2^32)
    (hdata : ∀ x ∈ bodies, x.1.data = groupBody suffix x.2 ∧ 0 < logBytes x.2)
    (hlogs : logs.Perm (bodies.flatMap Prod.snd++extra)) (hextra : extra ≠ [] → 0 < logBytes extra) :
    Contains suffix (bufferBytes nextId (raws++bodies.map Prod.fst)) raws logs ↔
      extra = [] ∧ (∀ i ∈ raws, i.data.length < 2^32) ∧
        ∀ x ∈ bodies, x.1.data.length < 2^32 := by
  have hread := exportedData_bufferBytes nextId (raws++bodies.map Prod.fst) hcount
  have htotal : logBytes logs = (bodies.map fun x => logBytes x.2).sum+logBytes extra := by
    rw [logBytes_perm hlogs, logBytes_append, List.flatMap_def, logBytes_flatten, List.map_map]
    rfl
  rw [List.map_append, List.map_map] at hread
  constructor
  · rintro ⟨data, hd, groups, hsub, hin⟩
    obtain rfl := Option.some.inj (hread.symm.trans hd)
    have hraws : ∀ i ∈ raws, i.data.length < 2^32 := by
      intro i hi
      have hmem := hsub.subset (List.mem_append_left _ (List.mem_map_of_mem hi))
      have hshort : ∀ j : RawItem, (writtenData j).length < 2^32 := by
        intro j
        rw [writtenData_length]
        exact Nat.mod_lt _ (by decide)
      rcases List.mem_append.mp hmem with hm | hm
      · obtain ⟨j, -, hj⟩ := List.mem_map.mp hm
        rw [← hj]
        exact hshort j
      · obtain ⟨x, -, hx⟩ := List.mem_map.mp hm
        rw [← hx]
        exact hshort x.1
    rw [List.map_congr_left fun i hi => writtenData_eq i (hraws i hi),
      List.subperm_append_left] at hsub
    obtain ⟨hle, heq⟩ := groups_le suffix bodies groups hdata hsub
    have hbytes := sum_le_of_subperm hin Log.size
    change logBytes logs ≤ logBytes groups.flatten at hbytes
    rw [logBytes_flatten, htotal] at hbytes
    have hnone : extra = [] := by
      by_contra hne
      have := hextra hne
      omega
    exact ⟨hnone, hraws, heq (by omega)⟩
  · rintro ⟨rfl, hraws, hbodies⟩
    refine ⟨_, hread, bodies.map Prod.snd, ?_, ?_⟩
    · rw [List.map_congr_left fun i hi => writtenData_eq i (hraws i hi), List.map_map]
      have hsame : bodies.map (groupBody suffix ∘ Prod.snd) = bodies.map (writtenData ∘ Prod.fst) := by
        apply List.map_congr_left
        intro x hx
        simp only [Function.comp_apply]
        rw [writtenData_eq x.1 (hbodies x hx), (hdata x hx).1]
      rw [hsame]
    · rw [List.append_nil] at hlogs
      exact hlogs.subperm

end Exactness

end VeTls.Export
