import Mathlib

/-!
# Byte memories

A memory gives a byte for each address. `load` and `store` are runs of bytes, `get` and
`put` little-endian fields of `w` bytes, and `bit`, `setBit` and `clearBit` the bits of one
byte, with the masks that C code uses for them. What reads some addresses depends on those
only (`load_congr`, `get_congr`), so two fields that share no address are independent.
-/

namespace Bytes

/-- A byte. -/
abbrev Byte := BitVec 8

/-- The byte at each address. -/
abbrev Mem := ℕ → Byte

variable {m m' : Mem} {a b w v x : ℕ} {l : List Byte}

/-! ## Runs of bytes -/

/-- The `w` bytes from the address `a` on. -/
def load (m : Mem) (a w : ℕ) : List Byte :=
  (List.range w).map fun k => m (a + k)

/-- The bytes `l` at the addresses from `a` on. -/
def store (m : Mem) (a : ℕ) (l : List Byte) : Mem := fun x =>
  if a ≤ x then (l[x - a]?).getD (m x) else m x

@[simp]
theorem length_load : (load m a w).length = w := by
  simp [load]

theorem load_congr (h : ∀ x, a ≤ x → x < a + w → m x = m' x) : load m a w = load m' a w := by
  refine List.map_congr_left fun k hk => h _ (Nat.le_add_right a k) ?_
  have := List.mem_range.1 hk
  omega

theorem store_of_outside (h : x < a ∨ a + l.length ≤ x) : store m a l x = m x := by
  unfold store
  rcases h with h | h
  · rw [if_neg (by omega)]
  · split
    · rw [List.getElem?_eq_none (by omega), Option.getD_none]
    · rfl

theorem store_add {k : ℕ} (hk : k < l.length) : store m a l (a + k) = l[k] := by
  unfold store
  rw [if_pos (Nat.le_add_right a k), Nat.add_sub_cancel_left, List.getElem?_eq_getElem hk,
    Option.getD_some]

@[simp]
theorem load_store : load (store m a l) a l.length = l := by
  refine List.ext_getElem length_load fun k hk hk' => ?_
  simp only [load, List.getElem_map, List.getElem_range]
  exact store_add hk'

@[simp]
theorem store_nil : store m a [] = m := by
  funext x
  refine store_of_outside ?_
  simp only [List.length_nil]
  omega

/-- Two runs of bytes, the second where the first ends. -/
theorem store_append (m : Mem) (a : ℕ) (l l' : List Byte) :
    store (store m a l) (a + l.length) l' = store m a (l ++ l') := by
  funext x
  unfold store
  by_cases h₁ : a ≤ x
  · by_cases h₂ : a + l.length ≤ x
    · rw [if_pos h₂, if_pos h₁, if_pos h₁, List.getElem?_append_right (by omega),
        List.getElem?_eq_none (l := l) (by omega), Nat.sub_sub, Option.getD_none]
    · rw [if_neg h₂, if_pos h₁, if_pos h₁, List.getElem?_append_left (by omega)]
  · rw [if_neg (by omega), if_neg h₁, if_neg h₁]

/-! ## Little-endian fields -/

/-- The number with the bytes `l`, the least significant first. -/
def ofBytes : List Byte → ℕ
  | [] => 0
  | b :: l => b.toNat + 256 * ofBytes l

/-- The `w` least significant bytes of `v`. -/
def toBytes : ℕ → ℕ → List Byte
  | 0, _ => []
  | w + 1, v => BitVec.ofNat 8 v :: toBytes w (v / 256)

/-- The field of `w` bytes at `a`. -/
def get (m : Mem) (a w : ℕ) : ℕ :=
  ofBytes (load m a w)

/-- `v` in the field of `w` bytes at `a`. -/
def put (m : Mem) (a w v : ℕ) : Mem :=
  store m a (toBytes w v)

@[simp]
theorem length_toBytes : (toBytes w v).length = w := by
  induction w generalizing v with
  | zero => rfl
  | succ w ih => simp only [toBytes, List.length_cons, ih]

theorem length_flatMap_toBytes (w : ℕ) (l : List ℕ) :
    (l.flatMap (toBytes w)).length = l.length * w := by
  induction l with
  | nil => simp
  | cons a l ih =>
    rw [List.flatMap_cons, List.length_append, length_toBytes, ih, List.length_cons, Nat.succ_mul,
      Nat.add_comm]

theorem ofBytes_toBytes : ofBytes (toBytes w v) = v % 256 ^ w := by
  induction w generalizing v with
  | zero => rw [toBytes, ofBytes, pow_zero, Nat.mod_one]
  | succ w ih =>
    rw [toBytes, ofBytes, ih, BitVec.toNat_ofNat, show 2 ^ 8 = 256 from rfl, Nat.pow_succ',
      Nat.mod_mul]

theorem ofBytes_lt : ofBytes l < 256 ^ l.length := by
  induction l with
  | nil => exact Nat.one_pos
  | cons b l ih =>
    have hb : b.toNat < 256 := b.isLt
    rw [ofBytes, List.length_cons, pow_succ]
    omega

theorem ofBytes_eq_zero (h : ∀ b ∈ l, b = 0) : ofBytes l = 0 := by
  induction l with
  | nil => rfl
  | cons b l ih =>
    rw [ofBytes, h b List.mem_cons_self, ih fun c hc => h c (List.mem_cons_of_mem b hc)]
    rfl

theorem get_lt : get m a w < 256 ^ w := by
  have h := ofBytes_lt (l := load m a w)
  rwa [length_load] at h

theorem get_congr (h : ∀ x, a ≤ x → x < a + w → m x = m' x) : get m a w = get m' a w :=
  congrArg ofBytes (load_congr h)

theorem get_eq_zero (h : ∀ x, a ≤ x → x < a + w → m x = 0) : get m a w = 0 := by
  refine ofBytes_eq_zero fun b hb => ?_
  obtain ⟨k, hk, rfl⟩ := List.mem_map.1 hb
  exact h _ (Nat.le_add_right a k) (Nat.add_lt_add_left (List.mem_range.1 hk) a)

theorem put_of_outside (h : x < a ∨ a + w ≤ x) : put m a w v x = m x :=
  store_of_outside (by rwa [length_toBytes])

theorem get_put : get (put m a w v) a w = v % 256 ^ w := by
  have h := load_store (m := m) (a := a) (l := toBytes w v)
  rw [length_toBytes] at h
  rw [get, put, h, ofBytes_toBytes]

theorem get_put_of_lt (h : v < 256 ^ w) : get (put m a w v) a w = v := by
  rw [get_put, Nat.mod_eq_of_lt h]

theorem get_put_of_disjoint {w' : ℕ} (h : b + w' ≤ a ∨ a + w ≤ b) :
    get (put m a w v) b w' = get m b w' := by
  refine get_congr fun x h₁ h₂ => put_of_outside ?_
  omega

/-- The fields of an array of `n` fields of `w` bytes at `a`. -/
def putArray {n : ℕ} (m : Mem) (a w : ℕ) (v : Fin n → ℕ) : Mem :=
  (List.finRange n).foldl (fun m (k : Fin n) => put m (a + k * w) w (v k)) m

section Array

variable {n : ℕ} {f : Fin n → ℕ}

theorem putArray_of_outside (h : x < a ∨ a + n * w ≤ x) : putArray m a w f x = m x := by
  have hks : ∀ (ks : List (Fin n)) (m : Mem),
      ks.foldl (fun m (k : Fin n) => put m (a + k * w) w (f k)) m x = m x := by
    intro ks
    induction ks with
    | nil => exact fun m => rfl
    | cons k ks ih =>
      intro m
      have hk : (k : ℕ) * w + w ≤ n * w := by
        rw [← Nat.succ_mul]
        exact Nat.mul_le_mul_right w k.isLt
      rw [List.foldl_cons, ih]
      refine put_of_outside ?_
      omega
  exact hks _ m

/-- Two fields of an array share no address. -/
theorem array_disjoint {i k : Fin n} (h : i ≠ k) :
    a + i * w + w ≤ a + k * w ∨ a + k * w + w ≤ a + i * w := by
  rcases lt_or_gt_of_ne (Fin.val_ne_of_ne h) with hik | hki
  · have := Nat.mul_le_mul_right w hik
    rw [Nat.succ_mul] at this
    exact .inl (by omega)
  · have := Nat.mul_le_mul_right w hki
    rw [Nat.succ_mul] at this
    exact .inr (by omega)

theorem get_putArray (i : Fin n) (h : f i < 256 ^ w) :
    get (putArray m a w f) (a + i * w) w = f i := by
  -- a field that was written keeps its value, as the others do not overlap it
  have hks : ∀ (ks : List (Fin n)) (m : Mem), i ∈ ks ∨ get m (a + i * w) w = f i →
      get (ks.foldl (fun m (k : Fin n) => put m (a + k * w) w (f k)) m) (a + i * w) w = f i := by
    intro ks
    induction ks with
    | nil => exact fun m hm => hm.resolve_left List.not_mem_nil
    | cons k ks ih =>
      intro m hm
      rw [List.foldl_cons]
      refine ih _ ?_
      by_cases hik : i = k
      · subst hik
        exact .inr (get_put_of_lt h)
      · rw [get_put_of_disjoint (array_disjoint hik)]
        exact hm.imp (fun hi => (List.mem_cons.1 hi).resolve_left hik) id
  exact hks _ m (.inl (List.mem_finRange i))

end Array

/-! ## Bits -/

/-- The bit `i` of the byte at `a`. -/
def bit (m : Mem) (a i : ℕ) : Bool :=
  m a &&& 1#8 <<< i != 0

/-- The bit `i` of the byte at `a` is set. -/
def setBit (m : Mem) (a i : ℕ) : Mem :=
  Function.update m a (m a ||| 1#8 <<< i)

/-- The bit `i` of the byte at `a` is cleared. -/
def clearBit (m : Mem) (a i : ℕ) : Mem :=
  Function.update m a (m a &&& ~~~(1#8 <<< i))

theorem bit_eq {i : ℕ} (hi : i < 8) : bit m a i = (m a).getLsbD i := by
  rw [bit, ← BitVec.twoPow_eq, BitVec.and_twoPow]
  cases (m a).getLsbD i with
  | false => rfl
  | true =>
    have h : BitVec.twoPow 8 i ≠ 0 := by
      intro h0
      have hbit := congrArg (fun b => b.getLsbD i) h0
      simp [hi] at hbit
    exact bne_iff_ne.2 h

theorem bit_congr {i : ℕ} (h : m a = m' a) : bit m a i = bit m' a i := by
  rw [bit, bit, h]

theorem setBit_of_ne {i : ℕ} (h : x ≠ a) : setBit m a i x = m x :=
  Function.update_of_ne h _ _

theorem clearBit_of_ne {i : ℕ} (h : x ≠ a) : clearBit m a i x = m x :=
  Function.update_of_ne h _ _

theorem bit_setBit {i j : ℕ} (hi : i < 8) (hj : j < 8) :
    bit (setBit m a i) b j = (bit m b j || decide (b = a ∧ j = i)) := by
  rw [bit_eq hj, bit_eq hj, setBit]
  by_cases hb : b = a
  · subst hb
    have hij : i = j ↔ j = i := eq_comm
    simp [← BitVec.twoPow_eq, BitVec.getLsbD_twoPow, hi, hij]
  · simp [hb]

theorem bit_clearBit {i j : ℕ} (hj : j < 8) :
    bit (clearBit m a i) b j = (bit m b j && !decide (b = a ∧ j = i)) := by
  rw [bit_eq hj, bit_eq hj, clearBit]
  by_cases hb : b = a
  · subst hb
    simp [← BitVec.twoPow_eq, hj]
  · simp [hb]

end Bytes
