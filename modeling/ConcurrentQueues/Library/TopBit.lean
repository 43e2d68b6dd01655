import Mathlib.Algebra.Ring.Nat
import Mathlib.Data.Nat.Bitwise
import Mathlib.Tactic.Common

/-!
# Words with a flag in the top bit

A word of 64 bits that packs a flag in its top bit and a number in the other 63.
-/

namespace TopBit

/-- The top bit. -/
def bit : ℕ := 1 <<< 63

/-- The other bits. -/
def mask : ℕ := 2 ^ 64 - 1 - bit

/-- The flag of a word. -/
def flag (w : ℕ) : Bool := decide (w &&& bit ≠ 0)

/-- The number in a word. -/
def body (w : ℕ) : ℕ := w &&& mask

/-- The word with flag `b` and number `e`. -/
def pack (b : Bool) (e : ℕ) : ℕ := (b.toNat <<< 63) ||| (e &&& mask)

variable {b : Bool} {w e : ℕ}

theorem mask_eq :
  mask = 2 ^ 63 - 1
  := by decide

theorem body_eq (w : ℕ) :
  body w = w % 2 ^ 63
  := by
  rw [body, mask_eq, Nat.and_two_pow_sub_one_eq_mod]

theorem flag_eq (hw : w < 2 ^ 64) :
  flag w = decide (2 ^ 63 ≤ w)
  := by
  have hbit : bit = 2 ^ 63 := by decide
  have htest : w.testBit 63 = decide (2 ^ 63 ≤ w) := by
    rw [Nat.testBit_eq_decide_div_mod_eq]
    apply decide_eq_decide.mpr
    omega
  rw [flag, hbit, Nat.and_two_pow, htest]
  by_cases hle : 2 ^ 63 ≤ w
  · rw [decide_eq_true hle]
    rfl
  · rw [decide_eq_false hle]
    rfl

theorem pack_eq (b : Bool) (e : ℕ) :
  pack b e = b.toNat * 2 ^ 63 + e % 2 ^ 63
  := by
  have hlt : e % 2 ^ 63 < 2 ^ 63 := Nat.mod_lt _ (by decide)
  rw [pack, mask_eq, Nat.and_two_pow_sub_one_eq_mod, Nat.shiftLeft_eq, ← Nat.shiftLeft_eq,
    Nat.shiftLeft_add_eq_or_of_lt hlt]

theorem pack_lt (b : Bool) (e : ℕ) :
  pack b e < 2 ^ 64
  := by
  rw [pack_eq]
  cases b <;> simp <;> omega

@[simp]
theorem flag_pack (b : Bool) (e : ℕ) :
  flag (pack b e) = b
  := by
  rw [flag_eq (pack_lt b e), pack_eq]
  have hlt : e % 2 ^ 63 < 2 ^ 63 := Nat.mod_lt _ (by decide)
  cases b with
  | false => simpa using hlt
  | true => simp

theorem body_pack (he : e < 2 ^ 63) :
  body (pack b e) = e
  := by
  rw [body_eq, pack_eq, Nat.mul_add_mod_self_right, Nat.mod_mod, Nat.mod_eq_of_lt he]

theorem body_lt (w : ℕ) :
  body w < 2 ^ 63
  := by
  rw [body_eq]
  exact Nat.mod_lt _ (by decide)

/-- A word is determined by its flag and its number. -/
theorem pack_flag_body (hw : w < 2 ^ 64) :
  pack (flag w) (body w) = w
  := by
  rw [pack_eq, flag_eq hw, body_eq, Nat.mod_mod]
  by_cases hle : 2 ^ 63 ≤ w
  · simp only [hle, decide_true, Bool.toNat_true, one_mul]
    omega
  · simp only [hle, decide_false, Bool.toNat_false, zero_mul]
    omega

theorem ext {w' : ℕ} (hw : w < 2 ^ 64) (hw' : w' < 2 ^ 64) (hf : flag w = flag w')
    (hb : body w = body w') :
  w = w'
  := by
  rw [← pack_flag_body hw, ← pack_flag_body hw', hf, hb]

/-- Counting up a number that has room. -/
theorem succ_mod (hw : w < 2 ^ 64) (hroom : body w + 1 < 2 ^ 63) :
  (w + 1) % 2 ^ 64 < 2 ^ 64 ∧ body ((w + 1) % 2 ^ 64) = body w + 1 ∧
    flag ((w + 1) % 2 ^ 64) = flag w
  := by
  have hlt : (w + 1) % 2 ^ 64 < 2 ^ 64 := Nat.mod_lt _ (by decide)
  rw [flag_eq hlt, flag_eq hw]
  rw [body_eq] at hroom
  rw [body_eq, body_eq]
  refine ⟨hlt, by omega, ?_⟩
  apply decide_eq_decide.mpr
  omega

/-- Setting the flag. -/
theorem or_bit (hw : w < 2 ^ 64) :
  (w ||| bit) < 2 ^ 64 ∧ body (w ||| bit) = body w ∧ flag (w ||| bit) = true
  := by
  have hb : bit = 2 ^ 63 := by decide
  have hlt : (w ||| bit) < 2 ^ 64 := Nat.or_lt_two_pow hw (by decide)
  refine ⟨hlt, ?_, ?_⟩
  · apply Nat.eq_of_testBit_eq
    intro i
    rw [body, body, mask_eq, Nat.testBit_and, Nat.testBit_and, Nat.testBit_or, hb,
      Nat.testBit_two_pow, Nat.testBit_two_pow_sub_one]
    by_cases hi : i < 63
    · simp [hi, show ¬ 63 = i by omega]
    · simp [hi]
  · rw [flag_eq hlt]
    apply decide_eq_true
    rw [hb]
    exact Nat.right_le_or

/-- Without the flag, a word is the number in it. -/
theorem pack_false (he : e < 2 ^ 63) :
  pack false e = e
  := by
  rw [pack_eq, Nat.mod_eq_of_lt he, Bool.toNat_false, Nat.zero_mul, Nat.zero_add]

/-- With the flag, a word is large. -/
theorem le_pack_true (e : ℕ) :
  2 ^ 63 ≤ pack true e
  := by
  rw [pack_eq, Bool.toNat_true, Nat.one_mul]
  exact Nat.le_add_right _ _

theorem pack_succ (b : Bool) (he : e + 1 < 2 ^ 63) :
  (pack b e + 1) % 2 ^ 64 = pack b (e + 1)
  := by
  have hbody : body (pack b e) = e := body_pack (by omega)
  obtain ⟨hlt, hnext, hflag⟩ := succ_mod (pack_lt b e) (by rwa [hbody])
  apply ext hlt (pack_lt b (e + 1))
  · rw [hflag, flag_pack, flag_pack]
  · rw [hnext, hbody, body_pack he]

theorem pack_or_bit (b : Bool) (he : e < 2 ^ 63) :
  pack b e ||| bit = pack true e
  := by
  obtain ⟨hlt, hbody, hflag⟩ := or_bit (pack_lt b e)
  apply ext hlt (pack_lt true e)
  · rw [hflag, flag_pack]
  · rw [hbody, body_pack he, body_pack he]

end TopBit
