import Mathlib.Data.Nat.Bitwise
import Mathlib.Tactic.Ring

/-!
# Fixed-width integers as wrapped naturals

Counters, sizes and indices of a C++ program are naturals; the places where the program's own type
would wrap carry the wrap explicitly.  This file fixes the three wraps the development needs and the
few facts every proof about them uses:

* `u32`, `u64` — the value an unsigned 32- or 64-bit variable holds after a store, and `u32Pred`
  after a decrement;
* `i32` — the value a two's complement 32-bit variable holds after a narrowing cast;
* `nextPowerOfTwo` — the classic bit-smearing round-up on 32 bits, with
  `nextPowerOfTwo_spec`: up to `2 ^ 31` it returns a power of two that is at least its argument.
-/

namespace Batchgen.MachineInt

variable {n x : ℕ}

variable {k m : ℕ}

/-- The value of a 32-bit unsigned variable after storing `n`. -/
def u32 (n : ℕ) : ℕ := n % 2 ^ 32

/-- The value of a 64-bit unsigned variable after storing `n`. -/
def u64 (n : ℕ) : ℕ := n % 2 ^ 64

/-- The value of a 32-bit two's complement variable after storing `n`. -/
def i32 (n : ℕ) : ℤ := Int.bmod n (2 ^ 32)

/-- A 32-bit unsigned variable after `--`. -/
def u32Pred (n : ℕ) : ℕ := if n = 0 then 2 ^ 32 - 1 else n - 1

theorem u32_of_lt (h : n < 2 ^ 32) : u32 n = n := Nat.mod_eq_of_lt h

theorem u32_lt (n : ℕ) : u32 n < 2 ^ 32 := Nat.mod_lt _ (by norm_num)


/-- A counter that wraps counts modulo the width. -/
theorem u32_u32_add (m n : ℕ) : u32 (u32 m + n) = u32 (m + n) := Nat.mod_add_mod m _ n

theorem u32Pred_succ (n : ℕ) : u32Pred (n + 1) = n := by
  simp [u32Pred]

theorem u32Pred_u32_succ (n : ℕ) : u32Pred (u32 (n + 1)) = u32 n := by
  unfold u32Pred u32
  split <;> omega

theorem u64_of_lt (h : n < 2 ^ 64) : u64 n = n := Nat.mod_eq_of_lt h

theorem i32_of_lt (h : n < 2 ^ 31) : i32 n = n := by
  unfold i32
  rw [Int.bmod_eq_of_le (by omega) (by omega)]

/-- A 32-bit signed variable never reaches `2 ^ 31`, whatever is stored. -/
theorem i32_lt (n : ℕ) : i32 n < 2 ^ 31 := by
  have h := Int.bmod_lt (x := (n : ℤ)) (m := 2 ^ 32) (by norm_num)
  unfold i32
  norm_num at h ⊢
  omega

/-! ### Rounding up to a power of two -/

/-- `NextPowerOfTwo` on 32 bits: smear the top bit of `value - 1` downwards, then add one. -/
def nextPowerOfTwo (value : ℕ) : ℕ :=
  if value ≤ 1 then 1
  else
    let v := value - 1
    let v := v ||| v >>> 1
    let v := v ||| v >>> 2
    let v := v ||| v >>> 4
    let v := v ||| v >>> 8
    let v := v ||| v >>> 16
    u32 (v + 1)

/-- The top `m` bits of the `k + 1` low bits of `x` are set, and no higher one is. -/
def Smeared (x k m : ℕ) : Prop :=
  x < 2 ^ (k + 1) ∧ ∀ i, i ≤ k → k < i + m → x.testBit i = true

theorem smeared_log (hx : x ≠ 0) : Smeared x (Nat.log2 x) 1 := by
  refine ⟨Nat.lt_log2_self, fun i hi hk => ?_⟩
  have h : i = Nat.log2 x := by omega
  subst h
  exact Nat.testBit_log2 hx

/-- Or-ing in a copy shifted by `m` doubles the run of set bits. -/
theorem Smeared.double (h : Smeared x k m) : Smeared (x ||| x >>> m) k (m + m) := by
  refine ⟨Nat.or_lt_two_pow h.1 (lt_of_le_of_lt (Nat.shiftRight_le x m) h.1), fun i hi hk => ?_⟩
  rw [Nat.testBit_or, Nat.testBit_shiftRight, Bool.or_eq_true]
  by_cases hm : k < i + m
  · exact Or.inl (h.2 i hi hm)
  · exact Or.inr (h.2 (m + i) (by omega) (by omega))

theorem Smeared.eq_pow (h : Smeared x k m) (hm : k < m) : x + 1 = 2 ^ (k + 1) := by
  have hx : x = 2 ^ (k + 1) - 1 := by
    apply Nat.eq_of_testBit_eq
    intro i
    rw [Nat.testBit_two_pow_sub_one]
    by_cases hi : i < k + 1
    · rw [h.2 i (by omega) (by omega), decide_eq_true hi]
    · rw [decide_eq_false hi]
      exact Nat.testBit_lt_two_pow (lt_of_lt_of_le h.1 (Nat.pow_le_pow_right (by norm_num) (by omega)))
  have hpos : 0 < 2 ^ (k + 1) := Nat.two_pow_pos _
  omega

/-- **The round-up is right below `2 ^ 31`.**  It is a power of two, at least the argument, and it
still fits the 32-bit variable. -/
theorem nextPowerOfTwo_spec {value : ℕ} (h : value ≤ 2 ^ 31) :
    ∃ k, k ≤ 31 ∧ nextPowerOfTwo value = 2 ^ k ∧ value ≤ 2 ^ k := by
  by_cases h1 : value ≤ 1
  · exact ⟨0, by omega, by simp [nextPowerOfTwo, h1], by simpa using h1⟩
  have hv : value - 1 ≠ 0 := by omega
  have hlog : Nat.log2 (value - 1) < 31 := (Nat.log2_lt hv).mpr (by omega)
  have h32 := (smeared_log hv).double.double.double.double.double
  have heq := h32.eq_pow (by omega)
  refine ⟨Nat.log2 (value - 1) + 1, by omega, ?_, ?_⟩
  · simp only [nextPowerOfTwo, if_neg h1]
    rw [heq]
    exact u32_of_lt (Nat.pow_lt_pow_right (by norm_num) (by omega))
  · have hlt : value - 1 < 2 ^ (Nat.log2 (value - 1) + 1) := Nat.lt_log2_self
    omega

end Batchgen.MachineInt
