import Mathlib.Algebra.Order.Ring.Nat
import Mathlib.Logic.Function.Basic
import Mathlib.Tactic.Common

/-!
# Bytes in memory

A buffer is the function of its bytes. What a program keeps in it are little-endian numbers, arrays
of them, bits and runs of bytes.

* `le n b o` is the number in the `n` bytes from `o` on, and `put n b o v` stores one; `le_put` and
  `le_put_of_disjoint` are what a load finds after a store.
* `puts` stores an array of numbers.
* `bit`, `setBit` and `clearBit` treat the buffer as a bit map.
* `slice` and `blit` copy bytes out of a buffer and into it.
-/

namespace OsLabs.Bytes

/-- The bytes of a buffer. -/
abbrev Buf := ℕ → UInt8

variable {b b' : Buf} {n o v x : ℕ}

/-! ## Numbers -/

/-- The number in the `n` bytes from `o` on, the least significant byte first. -/
def le : ℕ → Buf → ℕ → ℕ
  | 0, _, _ => 0
  | n + 1, b, o => (b o).toNat + 256 * le n b (o + 1)

/-- Store the `n` lowest bytes of `v` from `o` on. -/
def put (n : ℕ) (b : Buf) (o v : ℕ) : Buf := fun x =>
  if o ≤ x ∧ x < o + n then UInt8.ofNat (v / 256 ^ (x - o)) else b x

theorem put_of_lt (h : x < o) : put n b o v x = b x := if_neg (by omega)

theorem put_of_ge (h : o + n ≤ x) : put n b o v x = b x := if_neg (by omega)

theorem le_zero : ∀ n o : ℕ, le n (fun _ => 0) o = 0
  | 0, _ => rfl
  | n + 1, o => by simp [le, le_zero n]

/-- A load looks at its own bytes only. -/
theorem le_congr (h : ∀ x, o ≤ x → x < o + n → b' x = b x) : le n b' o = le n b o := by
  induction n generalizing o with
  | zero => rfl
  | succ n ih =>
    rw [le, le, h o (Nat.le_refl o) (by omega), ih fun x h₁ h₂ => h x (by omega) (by omega)]

theorem le_put_of_disjoint {m a : ℕ} (h : a + m ≤ o ∨ o + n ≤ a) :
    le m (put n b o v) a = le m b a := by
  apply le_congr
  intro x h₁ h₂
  rcases h with h | h
  · exact put_of_lt (by omega)
  · exact put_of_ge (by omega)

theorem le_eq_mod (h : ∀ i < n, b (o + i) = UInt8.ofNat (v / 256 ^ i)) :
    le n b o = v % 256 ^ n := by
  induction n generalizing o v with
  | zero => rw [le, Nat.pow_zero, Nat.mod_one]
  | succ n ih =>
    have hrest : le n b (o + 1) = v / 256 % 256 ^ n := ih fun i hi => by
      rw [Nat.add_right_comm, Nat.add_assoc, h (i + 1) (by omega), Nat.div_div_eq_div_mul,
        Nat.pow_succ']
    have hfirst : b o = UInt8.ofNat v := by simpa using h 0 (by omega)
    rw [le, hrest, hfirst, Nat.pow_succ', Nat.mod_mul]
    simp

/-- A load finds what was stored. -/
theorem le_put (h : v < 256 ^ n) : le n (put n b o v) o = v := by
  rw [le_eq_mod (v := v), Nat.mod_eq_of_lt h]
  intro i hi
  rw [put, if_pos (by omega), Nat.add_sub_cancel_left]

/-! ## Arrays of numbers -/

/-- Store the numbers `f 0`, ..., `f (k - 1)`, of `n` bytes each, from `o` on. -/
def puts (n : ℕ) (b : Buf) (o : ℕ) (f : ℕ → ℕ) : ℕ → Buf
  | 0 => b
  | k + 1 => put n (puts n b o f k) (o + n * k) (f k)

variable {f : ℕ → ℕ} {k i : ℕ}

theorem puts_of_lt (h : x < o) : puts n b o f k x = b x := by
  induction k with
  | zero => rfl
  | succ k ih => rw [puts, put_of_lt (by omega), ih]

theorem puts_of_ge (h : o + n * k ≤ x) : puts n b o f k x = b x := by
  induction k with
  | zero => rfl
  | succ k ih =>
    rw [Nat.mul_succ] at h
    rw [puts, put_of_ge (by omega), ih (by omega)]

theorem le_puts_of_disjoint {m a : ℕ} (h : a + m ≤ o ∨ o + n * k ≤ a) :
    le m (puts n b o f k) a = le m b a := by
  apply le_congr
  intro x h₁ h₂
  rcases h with h | h
  · exact puts_of_lt (by omega)
  · exact puts_of_ge (by omega)

theorem le_puts (hi : i < k) (h : f i < 256 ^ n) : le n (puts n b o f k) (o + n * i) = f i := by
  induction k with
  | zero => exact absurd hi (Nat.not_lt_zero i)
  | succ k ih =>
    rw [puts]
    rcases Nat.lt_succ_iff_lt_or_eq.mp hi with hlt | rfl
    · have hle : n * (i + 1) ≤ n * k := Nat.mul_le_mul_left n hlt
      rw [Nat.mul_succ] at hle
      rw [le_put_of_disjoint (Or.inl (by omega)), ih hlt]
    · exact le_put h

/-! ## Bits -/

/-- The mask of bit `i` within its byte. -/
def mask (i : ℕ) : UInt8 := 1 <<< UInt8.ofNat (i % 8)

/-- Whether bit `i` is set. -/
def bit (b : Buf) (i : ℕ) : Bool := b (i / 8) &&& mask i ≠ 0

def setBit (b : Buf) (i : ℕ) : Buf := Function.update b (i / 8) (b (i / 8) ||| mask i)

def clearBit (b : Buf) (i : ℕ) : Buf := Function.update b (i / 8) (b (i / 8) &&& ~~~mask i)

theorem mask_and_mask (i j : ℕ) : mask i &&& mask j = if i % 8 = j % 8 then mask i else 0 := by
  have h : ∀ k l : Fin 8, (1 <<< UInt8.ofNat k : UInt8) &&& 1 <<< UInt8.ofNat l =
      if (k : ℕ) = l then 1 <<< UInt8.ofNat k else 0 := by decide
  exact h ⟨i % 8, Nat.mod_lt _ (by decide)⟩ ⟨j % 8, Nat.mod_lt _ (by decide)⟩

theorem not_mask_and_mask (i j : ℕ) :
    ~~~mask i &&& mask j = if i % 8 = j % 8 then 0 else mask j := by
  have h : ∀ k l : Fin 8, ~~~(1 <<< UInt8.ofNat k : UInt8) &&& (1 <<< UInt8.ofNat l : UInt8) =
      if (k : ℕ) = l then (0 : UInt8) else 1 <<< UInt8.ofNat l := by decide
  exact h ⟨i % 8, Nat.mod_lt _ (by decide)⟩ ⟨j % 8, Nat.mod_lt _ (by decide)⟩

theorem mask_ne_zero (i : ℕ) : mask i ≠ 0 := by
  have h : ∀ k : Fin 8, (1 <<< UInt8.ofNat k : UInt8) ≠ 0 := by decide
  exact h ⟨i % 8, Nat.mod_lt _ (by decide)⟩

theorem or_and_mask (a : UInt8) (i j : ℕ) :
    (a ||| mask i) &&& mask j ≠ 0 ↔ a &&& mask j ≠ 0 ∨ i % 8 = j % 8 := by
  have hdist : (a ||| mask i) &&& mask j = (a &&& mask j) ||| (mask i &&& mask j) := by
    apply UInt8.toBitVec_inj.mp
    ext k hk
    simp [Bool.and_or_distrib_right]
  rw [hdist, ne_eq, UInt8.or_eq_zero_iff, not_and_or, mask_and_mask]
  split
  · rename_i h
    simp [h, mask_ne_zero]
  · rename_i h
    simp [h]

theorem bit_setBit (b : Buf) (i j : ℕ) : bit (setBit b i) j = (bit b j || j == i) := by
  unfold setBit bit
  rw [Bool.eq_iff_iff, Bool.or_eq_true, decide_eq_true_iff, decide_eq_true_iff, beq_iff_eq]
  by_cases h : j / 8 = i / 8
  · rw [h, Function.update_self, or_and_mask]
    have hij : i % 8 = j % 8 ↔ j = i := by omega
    rw [hij]
  · rw [Function.update_of_ne h]
    have hij : j ≠ i := fun e => h (by rw [e])
    simp [hij]

theorem bit_foldl_setBit {b : Buf} {l : List ℕ} {j : ℕ} :
    bit (l.foldl setBit b) j = true ↔ bit b j = true ∨ j ∈ l := by
  induction l generalizing b with
  | nil => simp
  | cons i l ih =>
    rw [List.foldl_cons, ih, bit_setBit, Bool.or_eq_true, beq_iff_eq, List.mem_cons, or_assoc]

theorem bit_zero (j : ℕ) : bit (fun _ => 0) j = false := by simp [bit]

theorem bit_clearBit (b : Buf) (i j : ℕ) : bit (clearBit b i) j = (bit b j && j != i) := by
  unfold clearBit bit
  rw [Bool.eq_iff_iff, Bool.and_eq_true, decide_eq_true_iff, decide_eq_true_iff, bne_iff_ne]
  by_cases h : j / 8 = i / 8
  · rw [h, Function.update_self, UInt8.and_assoc, not_mask_and_mask]
    split
    · rename_i e
      have hij : j = i := by omega
      simp [hij]
    · rename_i e
      have hij : j ≠ i := fun hij => e (by rw [hij])
      simp [hij]
  · rw [Function.update_of_ne h]
    have hij : j ≠ i := fun e => h (by rw [e])
    simp [hij]

/-! ## Runs of bytes -/

/-- The `n` bytes from `o` on. -/
def slice (b : Buf) (o n : ℕ) : List UInt8 := (List.range n).map fun i => b (o + i)

/-- Copy `src` into the buffer, to `o` and on. -/
def blit (b : Buf) (o : ℕ) (src : List UInt8) : Buf := fun x =>
  if o ≤ x then src.getD (x - o) (b x) else b x

@[simp] theorem length_slice : (slice b o n).length = n := by simp [slice]

end OsLabs.Bytes
