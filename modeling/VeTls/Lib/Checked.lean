import VeTls.Lib.Bytes

/-!
# Programs on buffers that may leave their bounds

A buffer is a list of bytes. A read or a write outside of it is a fault, and
so is a loop that takes more rounds than it was given. `Meets` says which
faults may happen and what holds of a result; it composes along `bind`.
`Holds` says that the first `op` bytes of a buffer are known.
-/

set_option autoImplicit false

namespace VeTls.Checked

open VeTls.Bytes (leValue)

inductive Fault where
  | read
  | write
  | rounds
  deriving DecidableEq, Repr

abbrev Run := Except Fault

section Rules

variable {α β : Type}

/-- Only allowed faults happen, and a result has the property. -/
def Meets (allowed : Fault → Prop) (x : Run α) (P : α → Prop) : Prop :=
  match x with
  | .ok a => P a
  | .error e => allowed e

@[simp] theorem ok_bind (a : α) (f : α → Run β) : ((.ok a : Run α) >>= f) = f a := rfl

variable {allowed : Fault → Prop}

@[simp] theorem meets_ok (a : α) (P : α → Prop) : Meets allowed (.ok a) P ↔ P a := Iff.rfl

@[simp] theorem meets_pure (a : α) (P : α → Prop) : Meets allowed (pure a) P ↔ P a := Iff.rfl

@[simp] theorem meets_error (e : Fault) (P : α → Prop) :
    Meets allowed (.error e) P ↔ allowed e := Iff.rfl

theorem Meets.bind {x : Run α} {f : α → Run β} {P : α → Prop} {Q : β → Prop}
    (hx : Meets allowed x P) (hf : ∀ a, P a → Meets allowed (f a) Q) :
    Meets allowed (x >>= f) Q := by
  cases x with
  | ok a => exact hf a hx
  | error e => exact hx

theorem Meets.mono {x : Run α} {P Q : α → Prop} (hx : Meets allowed x P)
    (h : ∀ a, P a → Q a) : Meets allowed x Q := by
  cases x with
  | ok a => exact h a hx
  | error e => exact hx

/-- Where no fault is allowed there is a result. -/
theorem Meets.result {x : Run α} {P : α → Prop} (hx : Meets allowed x P)
    (h : ∀ e, ¬ allowed e) : ∃ a, x = .ok a ∧ P a := by
  cases x with
  | ok a => exact ⟨a, rfl, hx⟩
  | error e => exact absurd hx (h e)

theorem Meets.of_ok {x : Run α} {P : α → Prop} {a : α} (hx : Meets allowed x P)
    (h : x = .ok a) : P a := by
  subst h
  exact hx

end Rules

/-- `n` bytes from `p` on. -/
def load (mem : List UInt8) (p n : ℕ) : Run (List UInt8) :=
  if p+n ≤ mem.length then .ok ((mem.drop p).take n) else .error .read

/-- `n` bytes from `p` on as a little-endian number. -/
def read (mem : List UInt8) (p n : ℕ) : Run ℕ := (load mem p n).map leValue

def write (mem : List UInt8) (p : ℕ) (b : List UInt8) : Run (List UInt8) :=
  if p+b.length ≤ mem.length then .ok (mem.take p++b++mem.drop (p+b.length)) else .error .write

/-- The first `op` bytes of the buffer are `out`. -/
def Holds (mem : List UInt8) (op : ℕ) (out : List UInt8) : Prop :=
  out.length = op ∧ out <+: mem

section Access

variable {mem out b : List UInt8} {p n op : ℕ}

theorem load_eq (h : p+n ≤ mem.length) : load mem p n = .ok ((mem.drop p).take n) := if_pos h

theorem read_eq (h : p+n ≤ mem.length) :
    read mem p n = .ok (leValue ((mem.drop p).take n)) := by
  rw [read, load_eq h]
  rfl

theorem Holds.le (h : Holds mem op out) : op ≤ mem.length := h.1 ▸ h.2.length_le

theorem Holds.take (h : Holds mem op out) : mem.take op = out := by
  rw [← h.1]
  exact (List.prefix_iff_eq_take.mp h.2).symm

theorem holds_zero (mem : List UInt8) : Holds mem 0 [] := ⟨rfl, List.nil_prefix⟩

variable {allowed : Fault → Prop}

theorem write_meets (h : Holds mem op out) (hroom : ¬ op+b.length ≤ mem.length → allowed .write) :
    Meets allowed (write mem op b)
      (fun mem' => Holds mem' (op+b.length) (out++b) ∧ mem'.length = mem.length) := by
  unfold write
  split
  · next hin =>
    have hlen := h.1
    refine ⟨⟨by rw [List.length_append, hlen], ?_⟩, ?_⟩
    · rw [h.take]
      exact List.prefix_append _ _
    · rw [List.length_append, List.length_append, List.length_take, List.length_drop]
      omega
  · next hout => exact hroom hout

/-- A byte that was put out is put out anew. -/
theorem write_inside {a r : List UInt8} (x c : UInt8) (h : Holds mem op (a++x::r)) :
    Meets allowed (write mem a.length [c])
      (fun mem' => Holds mem' op (a++c::r) ∧ mem'.length = mem.length) := by
  obtain ⟨hlen, tail, rfl⟩ := h
  have hin : a.length+[c].length ≤ (a++x::r++tail).length := by simp
  have htake : (a++x::r++tail).take a.length = a := by simp
  have hdrop : (a++x::r++tail).drop (a.length+[c].length) = r++tail := by simp
  rw [write, if_pos hin, htake, hdrop]
  refine ⟨⟨?_, ?_⟩, ?_⟩
  · simpa using hlen
  · exact ⟨tail, by simp⟩
  · simp

theorem read_inside {a r : List UInt8} {c : UInt8} (h : Holds mem op (a++c::r)) :
    read mem a.length 1 = .ok c.toNat := by
  obtain ⟨-, tail, rfl⟩ := h
  have hdrop : (a++c::r++tail).drop a.length = c::(r++tail) := by simp
  rw [read_eq (by simp), hdrop]
  simp [leValue]

end Access

section Compare

/-- The `k` bytes at `p` and at `m` are the same. -/
def Same (mem : List UInt8) (p m k : ℕ) : Prop := ∀ j < k, mem[p+j]? = mem[m+j]?

variable {mem : List UInt8} {p m k : ℕ}

theorem same_zero (mem : List UInt8) (p m : ℕ) : Same mem p m 0 := by
  intro j hj
  omega

theorem Same.add {k' : ℕ} (h : Same mem p m k) (h' : Same mem (p+k) (m+k) k') :
    Same mem p m (k+k') := by
  intro j hj
  by_cases hjk : j < k
  · exact h j hjk
  · have hrest := h' (j-k) (by omega)
    rwa [show p+k+(j-k) = p+j by omega, show m+k+(j-k) = m+j by omega] at hrest

theorem Same.mono {k' : ℕ} (h : Same mem p m k) (hk : k' ≤ k) : Same mem p m k' :=
  fun j hj => h j (by omega)

theorem leValue_inj (a b : List UInt8) (h : a.length = b.length) : leValue a = leValue b ↔ a = b := by
  constructor
  · intro heq
    induction a generalizing b with
    | nil => exact (List.length_eq_zero_iff.mp h.symm).symm
    | cons c a ih =>
      obtain ⟨d, b, rfl⟩ := List.exists_cons_of_length_eq_add_one h.symm
      have hc := UInt8.toNat_lt c
      have hd := UInt8.toNat_lt d
      simp only [leValue] at heq
      have hcd : c = d := UInt8.toNat_inj.mp (by omega)
      rw [hcd, ih b (by simpa using h) (by omega)]
  · intro heq
    rw [heq]

theorem window_eq_iff :
    (mem.drop p).take k = (mem.drop m).take k ↔ Same mem p m k := by
  constructor
  · intro h j hj
    have hget := congrArg (fun l => l[j]?) h
    simpa [List.getElem?_take_of_lt hj] using hget
  · intro h
    apply List.ext_getElem?
    intro j
    by_cases hj : j < k
    · simpa [List.getElem?_take_of_lt hj] using h j hj
    · rw [List.getElem?_eq_none (by simp; omega), List.getElem?_eq_none (by simp; omega)]

theorem read_same (hp : p+k ≤ mem.length) (hm : m+k ≤ mem.length) :
    leValue ((mem.drop p).take k) = leValue ((mem.drop m).take k) ↔ Same mem p m k := by
  rw [leValue_inj _ _ (by simp; omega), window_eq_iff]

end Compare

section Copy

def copy8 (src dst : List UInt8) (d s : ℕ) : Run (List UInt8) := do
  write dst d (← load src s 8)

/-- Eight bytes at a time, at least once, until `e` is reached. -/
def wildCopy (src : List UInt8) : ℕ → List UInt8 → ℕ → ℕ → ℕ → Run (List UInt8)
  | 0, _, _, _, _ => .error .rounds
  | k+1, dst, d, s, e => do
    let dst ← copy8 src dst d s
    if d+8 < e then wildCopy src k dst (d+8) (s+8) e else pure dst

variable {allowed : Fault → Prop} {src : List UInt8}

theorem copy8_meets {dst out : List UInt8} {d s : ℕ} (h : Holds dst d out)
    (hs : s+8 ≤ src.length) (hroom : ¬ d+8 ≤ dst.length → allowed .write) :
    Meets allowed (copy8 src dst d s)
      (fun dst' => Holds dst' (d+8) (out++(src.drop s).take 8) ∧ dst'.length = dst.length) := by
  have hlen : ((src.drop s).take 8).length = 8 := by
    rw [List.length_take, List.length_drop]
    omega
  have hw := write_meets (b := (src.drop s).take 8) h (by rwa [hlen])
  rw [hlen] at hw
  rw [copy8, load_eq hs]
  exact hw

/-- The bytes arrive; up to seven more are written behind them, or eight
where none is asked for. -/
theorem wildCopy_meets (src : List UInt8) (k : ℕ) (dst out : List UInt8) (d s e : ℕ) (h : Holds dst d out)
    (hde : d ≤ e) (hs : s+(e-d)+8 ≤ src.length) (hk : e-d < 8*k)
    (hroom : ¬ (d+8 ≤ dst.length ∧ e+7 ≤ dst.length) → allowed .write) :
    Meets allowed (wildCopy src k dst d s e)
      (fun dst' => Holds dst' e (out++(src.drop s).take (e-d)) ∧ dst'.length = dst.length) := by
  induction k generalizing dst out d s with
  | zero => omega
  | succ k ih =>
    rw [wildCopy]
    apply Meets.bind (copy8_meets h (by omega) (fun hno => hroom (by omega)))
    rintro dst' ⟨hdst, hlen⟩
    split
    · next hmore =>
      have hrest := ih dst' (out++(src.drop s).take 8) (d+8) (s+8) hdst (by omega) (by omega)
        (by omega) (fun hno => hroom (by omega))
      have hjoin : (src.drop s).take (e-d) =
          (src.drop s).take 8++(src.drop (s+8)).take (e-(d+8)) := by
        rw [show e-d = 8+(e-(d+8)) by omega, List.take_add, List.drop_drop]
      rw [hjoin, ← List.append_assoc]
      exact hrest.mono fun mem' hmem => ⟨hmem.1, hmem.2.trans hlen⟩
    · next hlast =>
      refine ⟨⟨?_, ?_⟩, hlen⟩
      · rw [List.length_append, h.1, List.length_take, List.length_drop]
        omega
      · have hpre : (src.drop s).take (e-d) <+: (src.drop s).take 8 :=
          List.take_prefix_take_left (by omega)
        exact ((List.prefix_append_right_inj out).mpr hpre).trans hdst.2

end Copy

end VeTls.Checked
