import VeTls.Keys.Contents

/-!
# What waits under all keys

The sum of a weight over the tasks in the map. Queues are created, freed and
listed anew without any effect on it: it depends only on what waits under
each key.
-/

set_option autoImplicit false

namespace VeTls.Keys.KeyMap

variable {τ β : Type} {cfg : KeyConfig}

def weight (g : τ → ℕ) (l : List τ) : ℕ := (l.map g).sum

def load (cfg : KeyConfig) (g : τ → ℕ) (m : KeyMap τ β) : ℕ :=
  ((live cfg m).map fun q => weight g (m.tasks q)).sum

/-- The keys of the queues in the map. -/
def keySet (cfg : KeyConfig) (m : KeyMap τ β) : Finset CStr :=
  ((live cfg m).map fun q => (m.info q).key).toFinset

theorem ring_empty (m : KeyMap τ β) (k : CStr) (hk : k ∉ keySet cfg m) : ring cfg m k = [] := by
  rcases ring_cases cfg m k with hn | ⟨q, hq, hkey, _⟩
  · exact hn
  · exfalso
    apply hk
    simp only [keySet, List.mem_toFinset, List.mem_map]
    exact ⟨q, hq, hkey⟩

/-- The sum over the queues is a sum over any set with all keys. -/
theorem load_eq_sum {m : KeyMap τ β} (h : Hashed cfg m) (g : τ → ℕ) (S : Finset CStr)
    (hS : keySet cfg m ⊆ S) : load cfg g m = ∑ k ∈ S, weight g (ring cfg m k) := by
  have hqueues : load cfg g m = ∑ q ∈ (live cfg m).toFinset, weight g (m.tasks q) :=
    (List.sum_toFinset _ h.live_nodup).symm
  have hinj : ∀ a ∈ (live cfg m).toFinset, ∀ b ∈ (live cfg m).toFinset,
      (m.info a).key = (m.info b).key → a = b := by
    intro a ha b hb hk
    exact h.key a b (List.mem_toFinset.mp ha) (List.mem_toFinset.mp hb) hk
  have himage : (live cfg m).toFinset.image (fun q => (m.info q).key) = keySet cfg m := by
    ext k
    simp [keySet]
  rw [hqueues, ← Finset.sum_subset hS fun k _ hk => by simp [ring_empty m k hk, weight], ← himage,
    Finset.sum_image hinj]
  apply Finset.sum_congr rfl
  intro q hq
  rw [ring_self h q (List.mem_toFinset.mp hq)]

/-- What waits changes under the key `k` only. -/
theorem load_change {m m' : KeyMap τ β} (h : Hashed cfg m) (h' : Hashed cfg m') (g : τ → ℕ)
    (k : CStr) (edit : List τ → List τ)
    (hr : ∀ x, ring cfg m' x = if x = k then edit (ring cfg m x) else ring cfg m x) :
    load cfg g m'+weight g (ring cfg m k) = load cfg g m+weight g (edit (ring cfg m k)) := by
  have hk : k ∈ insert k (keySet cfg m ∪ keySet cfg m') := Finset.mem_insert_self _ _
  rw [load_eq_sum h g (insert k (keySet cfg m ∪ keySet cfg m'))
      (fun x hx => Finset.mem_insert_of_mem (Finset.mem_union_left _ hx)),
    load_eq_sum h' g (insert k (keySet cfg m ∪ keySet cfg m'))
      (fun x hx => Finset.mem_insert_of_mem (Finset.mem_union_right _ hx)),
    ← Finset.add_sum_erase _ _ hk, ← Finset.add_sum_erase _ _ hk, hr k, if_pos rfl]
  have hrest : ∀ x ∈ (insert k (keySet cfg m ∪ keySet cfg m')).erase k,
      weight g (ring cfg m' x) = weight g (ring cfg m x) := by
    intro x hx
    rw [hr x, if_neg (Finset.ne_of_mem_erase hx)]
  rw [Finset.sum_congr rfl hrest]
  omega

theorem load_same {m m' : KeyMap τ β} (h : Hashed cfg m) (h' : Hashed cfg m') (g : τ → ℕ)
    (hr : ∀ x, ring cfg m' x = ring cfg m x) : load cfg g m' = load cfg g m := by
  have hc := load_change h h' g [] id fun x => by
    rw [hr]
    split <;> rfl
  rw [id] at hc
  omega

end VeTls.Keys.KeyMap
