import VeTls.Lib.Checked
import VeTls.Lib.Lz4Block

/-!
# The block compressor

`LZ4_compress_generic` without a dictionary, on a little-endian 64-bit
machine. The table starts with zeros and holds positions. The labels of the
source are the states of a machine: the top of the main loop, `_next_match`
and `_last_literals`.
-/

set_option autoImplicit false

namespace VeTls.Lz4

open VeTls.Checked

def minMatch : ℕ := 4

def lastLiterals : ℕ := 5

def mfLimit : ℕ := 12

def minLength : ℕ := mfLimit+1

def maxDistance : ℕ := 65535

def runMask : ℕ := 15

def mlMask : ℕ := 15

def skipTrigger : ℕ := 6

def hashLog : ℕ := 12

def limit64K : ℕ := 65536+(mfLimit-1)

def maxInputSize : ℕ := 0x7E000000

def compressBound (isize : ℕ) : ℕ :=
  if isize > maxInputSize then 0 else isize+isize/255+16

/-- The source, `maxOutputSize`, and the choices made from them. -/
structure Params where
  src : List UInt8
  maxOutputSize : ℕ
  outputLimited : Bool
  byU16 : Bool
  acceleration : ℕ

abbrev Table := ℕ → ℕ

section Hash

def ctzll : ℕ → ℕ → ℕ
  | 0, _ => 0
  | k+1, v => if v % 2 = 1 then 0 else ctzll k (v/2)+1

def nbCommonBytes (diff : ℕ) : ℕ := ctzll 64 diff >>> 3

def hashSequence64 (byU16 : Bool) (sequence : ℕ) : ℕ :=
  let log := if byU16 then hashLog+1 else hashLog
  ((sequence*889523592379 % 2^64) >>> (40-log)) % 2^log

def hashPosition (c : Params) (p : ℕ) : Run ℕ :=
  return hashSequence64 c.byU16 (← read c.src p 8)

def putPositionOnHash (c : Params) (p h : ℕ) (t : Table) : Table :=
  Function.update t h (p % 2^(if c.byU16 then 16 else 32))

def getPositionOnHash (h : ℕ) (t : Table) : ℕ := t h

def putPosition (c : Params) (p : ℕ) (t : Table) : Run Table :=
  return putPositionOnHash c p (← hashPosition c p) t

def getPosition (c : Params) (p : ℕ) (t : Table) : Run ℕ :=
  return getPositionOnHash (← hashPosition c p) t

end Hash

section Match

def sameBytes (src : List UInt8) (p q n : ℕ) : Run Bool := do
  return (← read src p n) == (← read src q n)

/-- `if (pIn < limit-(n-1) && *pMatch == *pIn) pIn += n`, after `k` bytes. -/
def countPiece (src : List UInt8) (pInLimit pIn pMatch n k : ℕ) : Run ℕ :=
  if pIn+k < pInLimit-(n-1) then do
    return if ← sameBytes src (pMatch+k) (pIn+k) n then k+n else k
  else pure k

/-- The rest of the count below eight bytes. -/
def countTail (src : List UInt8) (pInLimit pIn pMatch : ℕ) : Run ℕ := do
  let a ← countPiece src pInLimit pIn pMatch 4 0
  let b ← countPiece src pInLimit pIn pMatch 2 a
  countPiece src pInLimit pIn pMatch 1 b

/-- `LZ4_count`, eight bytes a round. -/
def count (src : List UInt8) (pInLimit : ℕ) : ℕ → ℕ → ℕ → Run ℕ
  | 0, _, _ => .error .rounds
  | k+1, pIn, pMatch =>
    if pIn < pInLimit-7 then do
      let diff := (← read src pMatch 8) ^^^ (← read src pIn 8)
      if diff = 0 then return (← count src pInLimit k (pIn+8) (pMatch+8))+8
      else return nbCommonBytes diff
    else countTail src pInLimit pIn pMatch

/-- The search for a match; `none` is `goto _last_literals`. -/
def search (c : Params) :
    ℕ → ℕ → ℕ → ℕ → ℕ → Table → Run (Option (ℕ × ℕ × Table))
  | 0, _, _, _, _, _ => .error .rounds
  | k+1, forwardIp, step, searchMatchNb, forwardH, t => do
    let h := forwardH
    let ip := forwardIp
    let forwardIp := forwardIp+step
    let step := searchMatchNb >>> skipTrigger
    let searchMatchNb := searchMatchNb+1
    if forwardIp > c.src.length-mfLimit then return none
    let m := getPositionOnHash h t
    let forwardH ← hashPosition c forwardIp
    let t := putPositionOnHash c ip h t
    if !c.byU16 && m+maxDistance < ip then search c k forwardIp step searchMatchNb forwardH t
    else if ← sameBytes c.src m ip 4 then return some (ip, m, t)
    else search c k forwardIp step searchMatchNb forwardH t

/-- The match is made longer to the left, down to `anchor` or the start. -/
def catchUp (src : List UInt8) (anchor : ℕ) : ℕ → ℕ → Run (ℕ × ℕ)
  | ip, 0 => pure (ip, 0)
  | ip, m+1 =>
    if ip > anchor then do
      if ← sameBytes src (ip-1) m 1 then catchUp src anchor (ip-1) m
      else return (ip, m+1)
    else pure (ip, m+1)

end Match

section Emit

/-- `for (; len >= 255; len -= 255) *op++ = 255; *op++ = len;` -/
def putRun : ℕ → List UInt8 → ℕ → ℕ → Run (List UInt8 × ℕ)
  | 0, _, _, _ => .error .rounds
  | k+1, dst, op, len =>
    if len ≥ 255 then do putRun k (← write dst op [255]) (op+1) (len-255)
    else return (← write dst op [UInt8.ofNat len], op+1)

/-- The same with two bytes a round. -/
def putMatchRun : ℕ → List UInt8 → ℕ → ℕ → Run (List UInt8 × ℕ)
  | 0, _, _, _ => .error .rounds
  | k+1, dst, op, len =>
    if len ≥ 510 then do
      let dst ← write dst op [255]
      putMatchRun k (← write dst (op+1) [255]) (op+2) (len-510)
    else if len ≥ 255 then do
      let dst ← write dst op [255]
      return (← write dst (op+1) [UInt8.ofNat (len-255)], op+2)
    else return (← write dst op [UInt8.ofNat len], op+1)

/-- The token and what follows it before the literals. -/
def putLiteralLength (dst : List UInt8) (token op litLength : ℕ) : Run (List UInt8 × ℕ) :=
  if litLength ≥ runMask then do
    putRun (litLength+1) (← write dst token [UInt8.ofNat (runMask*16)]) op (litLength-runMask)
  else return (← write dst token [UInt8.ofNat (litLength*16)], op)

def addToToken (dst : List UInt8) (token n : ℕ) : Run (List UInt8) := do
  write dst token [UInt8.ofNat ((← read dst token 1)+n)]

def putMatchLength (dst : List UInt8) (token op matchLength : ℕ) : Run (List UInt8 × ℕ) :=
  if matchLength ≥ mlMask then do
    putMatchRun (matchLength+1) (← addToToken dst token mlMask) op (matchLength-mlMask)
  else return (← addToToken dst token matchLength, op)

end Emit

section Machine

inductive Label where
  | mainLoop (ip forwardH : ℕ)
  | nextMatch (ip m token : ℕ)
  | lastLiterals
  deriving DecidableEq, Repr

structure Frame where
  anchor : ℕ
  op : ℕ
  table : Table
  dst : List UInt8

/-- Where a step ends: at a label, or with the value returned and the
destination as it was left. -/
inductive Next where
  | goto (l : Label) (f : Frame)
  | ret (rc : ℕ) (dst : List UInt8)

/-- The literals of a sequence, up to `_next_match`. -/
def putLiterals (c : Params) (ip m : ℕ) (f : Frame) : Run Next :=
  let litLength := ip-f.anchor
  let token := f.op
  let op := f.op+1
  if c.outputLimited && op+litLength+(2+1+lastLiterals)+litLength/255 > c.maxOutputSize then
    pure (.ret 0 f.dst)
  else do
    let (dst, op) ← putLiteralLength f.dst token op litLength
    let dst ← wildCopy c.src (litLength+1) dst op f.anchor (op+litLength)
    return .goto (.nextMatch ip m token) { f with op := op+litLength, dst := dst }

/-- From the top of the main loop to `_next_match`. -/
def mainLoop (c : Params) (ip forwardH : ℕ) (f : Frame) : Run Next := do
  match ← search c c.src.length ip 1 (c.acceleration <<< skipTrigger) forwardH f.table with
  | none => return .goto .lastLiterals f
  | some (ip, m, table) =>
    let (ip, m) ← catchUp c.src f.anchor ip m
    putLiterals c ip m { f with table := table }

/-- From the end of a match to the next label. -/
def testNext (c : Params) (ip : ℕ) (f : Frame) : Run Next :=
  if ip > c.src.length-mfLimit then pure (.goto .lastLiterals f)
  else do
    let table ← putPosition c (ip-2) f.table
    let m ← getPosition c ip table
    let table ← putPosition c ip table
    let near ← if m+maxDistance ≥ ip then sameBytes c.src m ip 4 else pure false
    if near then
      let dst ← write f.dst f.op [0]
      return .goto (.nextMatch ip m f.op) ⟨f.anchor, f.op+1, table, dst⟩
    else return .goto (.mainLoop (ip+1) (← hashPosition c (ip+1))) { f with table := table }

def nextMatch (c : Params) (ip m token : ℕ) (f : Frame) : Run Next := do
  let dst ← write f.dst f.op (VeTls.Bytes.leBytes 2 (ip-m))
  let op := f.op+2
  let matchLength ← count c.src (c.src.length-lastLiterals) c.src.length (ip+minMatch) (m+minMatch)
  let ip := ip+minMatch+matchLength
  if c.outputLimited && op+(1+lastLiterals)+matchLength >>> 8 > c.maxOutputSize then
    return .ret 0 dst
  else
    let (dst, op) ← putMatchLength dst token op matchLength
    testNext c ip ⟨ip, op, f.table, dst⟩

def lastLiteralsStep (c : Params) (f : Frame) : Run Next :=
  let lastRun := c.src.length-f.anchor
  if c.outputLimited && f.op+lastRun+1+(lastRun+255-runMask)/255 > c.maxOutputSize then
    pure (.ret 0 f.dst)
  else do
    let (dst, op) ← putLiteralLength f.dst f.op (f.op+1) lastRun
    let dst ← write dst op (← load c.src f.anchor lastRun)
    return .ret (op+lastRun) dst

def step (c : Params) : Label → Frame → Run Next
  | .mainLoop ip forwardH, f => mainLoop c ip forwardH f
  | .nextMatch ip m token, f => nextMatch c ip m token f
  | .lastLiterals, f => lastLiteralsStep c f

def loop (c : Params) : ℕ → Label → Frame → Run (ℕ × List UInt8)
  | 0, _, _ => .error .rounds
  | k+1, l, f => do
    match ← step c l f with
    | .goto l f => loop c k l f
    | .ret rc dst => return (rc, dst)

def compressGeneric (c : Params) (dst : List UInt8) : Run (ℕ × List UInt8) :=
  let start : Frame := ⟨0, 0, fun _ => 0, dst⟩
  if c.src.length > maxInputSize then pure (0, dst)
  else if c.byU16 && c.src.length ≥ limit64K then pure (0, dst)
  else if c.src.length < minLength then loop c 1 .lastLiterals start
  else do
    let table ← putPosition c 0 start.table
    loop c (2*c.src.length+2) (.mainLoop 1 (← hashPosition c 1)) { start with table := table }

end Machine

def compressFastExtState (src dst : List UInt8) (maxOutputSize acceleration : ℕ) :
    Run (ℕ × List UInt8) :=
  let acceleration := if acceleration < 1 then 1 else acceleration
  if maxOutputSize ≥ compressBound src.length then
    compressGeneric ⟨src, 0, false, src.length < limit64K, acceleration⟩ dst
  else compressGeneric ⟨src, maxOutputSize, true, src.length < limit64K, acceleration⟩ dst

/-- What `LZ4_compress_default` returns and leaves at the destination. -/
def compressDefault (src dst : List UInt8) (maxOutputSize : ℕ) : Run (ℕ × List UInt8) :=
  compressFastExtState src dst maxOutputSize 1

end VeTls.Lz4
