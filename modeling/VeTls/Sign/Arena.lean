import VeTls.Sign.Order

/-!
# The memory of the parsed headers

The pairs and their strings live in one block, sized by a first pass over
the lines and filled by a second one. Signing adds up to four pairs behind
those that were parsed. Writes are the indices of pairs and the offsets of
bytes. A pair has 24 bytes.
-/

set_option autoImplicit false

namespace VeTls.Sign

open VeTls.Wire (Bytes)

def sizeMax : ℕ := 2^64-1

def keyLen (line : Bytes) : ℕ := (lineKey line).length

def valueLen (line : Bytes) : ℕ := (trim (cut 58 line).2).length

/-- `none` when a sum is not a `size_t`. -/
def countHeaders : List Bytes → ℕ → ℕ → Option (ℕ × ℕ)
  | [], pairCount, arenaNeed => some (pairCount, arenaNeed)
  | line::lines, pairCount, arenaNeed =>
    if line.contains 58 then
      let k := keyLen line
      let v := valueLen line
      if arenaNeed > sizeMax-(k+1) ∨ arenaNeed+k+1 > sizeMax-(v+1) then none
      else countHeaders lines (pairCount+1) (arenaNeed+(k+1)+(v+1))
    else countHeaders lines pairCount arenaNeed

structure Filled where
  idx : ℕ
  pairWrites : List ℕ
  arenaWrites : List ℕ
  deriving DecidableEq, Repr

/-- The key of a line is written before it is looked at, and it stays there
to be written over when the line is left out. -/
def fillHeaders : List Bytes → ℕ → ℕ → Filled
  | [], idx, _ => ⟨idx, [], []⟩
  | line::lines, idx, dst =>
    if line.contains 58 then
      let k := keyLen line
      let v := valueLen line
      let key := List.range' dst (k+1)
      if isSdkManagedHeaderLower (lineKey line) then
        let f := fillHeaders lines idx dst
        ⟨f.idx, idx::f.pairWrites, key++f.arenaWrites⟩
      else
        let f := fillHeaders lines (idx+1) (dst+(k+1)+(v+1))
        ⟨f.idx, idx::f.pairWrites, key++(List.range' (dst+(k+1)) (v+1)++f.arenaWrites)⟩
    else fillHeaders lines idx dst

structure HeaderBlock where
  slots : ℕ
  arenaBytes : ℕ
  filled : Filled
  deriving DecidableEq, Repr

/-- Without a block the list of pairs is the null pointer. -/
def HeaderBlock.null : HeaderBlock := ⟨0, 0, ⟨0, [], []⟩⟩

def parseHeadersBlock (headers : Option Bytes) (reservePairs : ℕ) (mem : Bool) :
    Option HeaderBlock :=
  let lines := pieces 10 (headers.getD [])
  if headers.getD [] = [] then some .null
  else
    (countHeaders lines 0 0).bind fun (pairCount, arenaNeed) =>
      if pairCount = 0 ∧ reservePairs = 0 then some .null
      else if pairCount > sizeMax-reservePairs then none
      else
        let slotCount := pairCount+reservePairs
        let arenaBytes := if arenaNeed > 0 then arenaNeed else 1
        if slotCount > sizeMax/24 then none
        else if slotCount*24 > sizeMax-arenaBytes then none
        else if mem then some ⟨slotCount, arenaBytes, fillHeaders lines 0 0⟩
        else none

/-- The pairs that signing writes behind the parsed ones. -/
def signPairWrites (securityToken : Option Bytes) (pairLen : ℕ) : List ℕ :=
  List.range' pairLen (if securityToken.getD [] ≠ [] then 4 else 3)

structure Inside (securityToken : Option Bytes) (b : HeaderBlock) : Prop where
  reserved : b.filled.idx+4 ≤ b.slots
  pairs : ∀ i ∈ b.filled.pairWrites++signPairWrites securityToken b.filled.idx, i < b.slots
  arena : ∀ o ∈ b.filled.arenaWrites, o < b.arenaBytes

section Passes

/-- The second pass stays behind the first one. -/
theorem fillHeaders_within (lines : List Bytes) (pairCount arenaNeed idx dst : ℕ)
    (hidx : idx ≤ pairCount) (hdst : dst ≤ arenaNeed) (total : ℕ × ℕ)
    (h : countHeaders lines pairCount arenaNeed = some total) :
    (pairCount ≤ total.1 ∧ arenaNeed ≤ total.2) ∧
      (fillHeaders lines idx dst).idx ≤ total.1 ∧
      (∀ i ∈ (fillHeaders lines idx dst).pairWrites, i < total.1) ∧
      ∀ o ∈ (fillHeaders lines idx dst).arenaWrites, o < total.2 := by
  induction lines generalizing pairCount arenaNeed idx dst with
  | nil =>
    obtain rfl := Option.some.inj h
    exact ⟨⟨le_rfl, le_rfl⟩, hidx, by simp [fillHeaders], by simp [fillHeaders]⟩
  | cons line lines ih =>
    rw [countHeaders] at h
    rw [fillHeaders]
    by_cases hcolon : line.contains 58 = true
    · rw [if_pos hcolon] at h ⊢
      dsimp only at h ⊢
      split at h
      · cases h
      · by_cases hmanaged : isSdkManagedHeaderLower (lineKey line) = true
        · obtain ⟨⟨hn, ha⟩, hf, hp, ho⟩ := ih (pairCount+1)
            (arenaNeed+(keyLen line+1)+(valueLen line+1)) idx dst (by omega) (by omega) h
          rw [if_pos hmanaged]
          refine ⟨⟨by omega, by omega⟩, hf, ?_, ?_⟩
          · intro i hi
            obtain rfl | hi := List.mem_cons.mp hi
            · omega
            · exact hp i hi
          · intro o hmem
            obtain hkey | hmem := List.mem_append.mp hmem
            · have := List.mem_range'_1.mp hkey
              omega
            · exact ho o hmem
        · obtain ⟨⟨hn, ha⟩, hf, hp, ho⟩ := ih (pairCount+1)
            (arenaNeed+(keyLen line+1)+(valueLen line+1)) (idx+1)
            (dst+(keyLen line+1)+(valueLen line+1)) (by omega) (by omega) h
          rw [if_neg hmanaged]
          refine ⟨⟨by omega, by omega⟩, hf, ?_, ?_⟩
          · intro i hi
            obtain rfl | hi := List.mem_cons.mp hi
            · omega
            · exact hp i hi
          · intro o hmem
            obtain hkey | hmem := List.mem_append.mp hmem
            · have := List.mem_range'_1.mp hkey
              omega
            · obtain hvalue | hmem := List.mem_append.mp hmem
              · have := List.mem_range'_1.mp hvalue
                omega
              · exact ho o hmem
    · rw [if_neg hcolon] at h ⊢
      exact ih pairCount arenaNeed idx dst hidx hdst h

/-- The slots that are filled are the parsed headers. -/
theorem fillHeaders_idx (lines : List Bytes) (idx dst : ℕ) :
    (fillHeaders lines idx dst).idx =
      idx+((lines.flatMap linePairs).filter fun p => !isSdkManagedHeaderLower p.1).length := by
  induction lines generalizing idx dst with
  | nil => rfl
  | cons line lines ih =>
    rw [fillHeaders, List.flatMap_cons, List.filter_append, List.length_append, linePairs]
    split
    · split
      · rename_i hmanaged
        rw [ih]
        simp [hmanaged]
      · rename_i hmanaged
        rw [ih]
        simp [hmanaged]
        omega
    · rw [ih]
      simp

/-- The block of headers that are not empty. -/
theorem parseHeadersBlock_some (headers : Option Bytes) (mem : Bool) (b : HeaderBlock)
    (hne : headers.getD [] ≠ []) (h : parseHeadersBlock headers 4 mem = some b) :
    ∃ total, countHeaders (pieces 10 (headers.getD [])) 0 0 = some total ∧
      b = ⟨total.1+4, if total.2 > 0 then total.2 else 1,
        fillHeaders (pieces 10 (headers.getD [])) 0 0⟩ := by
  unfold parseHeadersBlock at h
  rw [if_neg hne] at h
  obtain ⟨total, htotal, h⟩ := Option.bind_eq_some_iff.mp h
  refine ⟨total, htotal, ?_⟩
  dsimp only at h
  grind

theorem parseHeadersBlock_idx (headers : Option Bytes) (mem : Bool) (b : HeaderBlock)
    (h : parseHeadersBlock headers 4 mem = some b) :
    b.filled.idx = (parseHeaders (headers.getD [])).length := by
  by_cases hne : headers.getD [] = []
  · rw [parseHeadersBlock, if_pos hne] at h
    obtain rfl := Option.some.inj h
    rw [hne]
    rfl
  · obtain ⟨total, -, rfl⟩ := parseHeadersBlock_some headers mem b hne h
    rw [fillHeaders_idx, Nat.zero_add, parseHeaders_eq]
    rfl

theorem mem_signPairWrites (securityToken : Option Bytes) (pairLen i : ℕ)
    (h : i ∈ signPairWrites securityToken pairLen) : i < pairLen+4 := by
  have hi := List.mem_range'_1.mp h
  split at hi <;> omega

end Passes

/-- A parse that succeeds leaves room for what signing adds, and every write
stays inside the block, exactly when the caller has headers: without them
there is no block. -/
theorem sign_writes_inside_iff (headers securityToken : Option Bytes) (mem : Bool)
    (b : HeaderBlock) (h : parseHeadersBlock headers 4 mem = some b) :
    Inside securityToken b ↔ headers.getD [] ≠ [] := by
  constructor
  · intro hb hempty
    rw [parseHeadersBlock, if_pos hempty] at h
    obtain rfl := Option.some.inj h
    exact absurd hb.reserved (by decide)
  · intro hne
    obtain ⟨total, htotal, rfl⟩ := parseHeadersBlock_some headers mem b hne h
    obtain ⟨-, hidx, hpairs, harena⟩ :=
      fillHeaders_within _ 0 0 0 0 le_rfl le_rfl total htotal
    constructor
    · exact Nat.add_le_add_right hidx 4
    · intro i hi
      obtain hi | hi := List.mem_append.mp hi
      · exact (hpairs i hi).trans_le (Nat.le_add_right _ 4)
      · exact (mem_signPairWrites _ _ i hi).trans_le (Nat.add_le_add_right hidx 4)
    · intro o ho
      have hlt := harena o ho
      dsimp only
      rw [if_pos (by omega)]
      exact hlt

/-- A header, one that signing sets itself, and a line without a colon. -/
def threeLines : Option Bytes := some (headerText [text "x-a: 1", text "Host: h", text "none"])

theorem threeLines_inside :
    parseHeadersBlock threeLines 4 true =
        some ⟨6, 13, ⟨1, [0, 1], [0, 1, 2, 3, 4, 5, 6, 7, 8, 9, 10]⟩⟩ ∧
      (Inside (some (text "tok")) ⟨6, 13, ⟨1, [0, 1], [0, 1, 2, 3, 4, 5, 6, 7, 8, 9, 10]⟩⟩ ↔
        threeLines.getD [] ≠ []) :=
  ⟨by decide +kernel, sign_writes_inside_iff threeLines (some (text "tok")) true _
    (by decide +kernel)⟩

theorem noHeaders_outside : ¬ ∀ (headers securityToken : Option Bytes) (mem : Bool)
    (b : HeaderBlock), parseHeadersBlock headers 4 mem = some b → Inside securityToken b := by
  intro h
  exact absurd (h none none true .null rfl).reserved (by decide)

end VeTls.Sign
