import Mathlib.Logic.Function.Basic
import Recompose.Hash.Mix

/-!
Nothing is lost when a word is mixed in or spread: taking a word in is undone by the same word, a
fold by folding once more, and the factors are odd, so each has an inverse modulo the word size.
-/

namespace Recompose.Hash

theorem fold33_involutive : Function.Involutive fold33 := by
  intro w
  have gone : w >>> 33 >>> 33 = 0 := by
    apply UInt64.toNat_inj.mp
    simp only [UInt64.toNat_shiftRight, Nat.shiftRight_eq_div_pow, Nat.div_div_eq_div_mul]
    exact Nat.div_eq_of_lt (Nat.lt_trans w.toNat_lt (by decide))
  rw [fold33, fold33, UInt64.shiftRight_xor, gone, UInt64.xor_zero, UInt64.xor_assoc,
    UInt64.xor_self, UInt64.xor_zero]

/-- A factor with an inverse can be taken back. -/
theorem mul_injective {factor inverse : UInt64} (h : factor * inverse = 1) :
    Function.Injective (· * factor) := by
  intro a b same
  have taken : a * factor * inverse = b * factor * inverse := congrArg (· * inverse) same
  rwa [UInt64.mul_assoc, UInt64.mul_assoc, h, UInt64.mul_one, UInt64.mul_one] at taken

theorem prime_injective : Function.Injective (· * prime) :=
  have unit : prime * 0xCE965057AFF6957B = 1 := by decide
  mul_injective unit

theorem spreadFactor_injective : Function.Injective (· * spreadFactor) :=
  have unit : spreadFactor * 0x4F74430C22A54005 = 1 := by decide
  mul_injective unit

theorem finalFactor_injective : Function.Injective (· * finalFactor) :=
  have unit : finalFactor * 0x9CB4B2F8129337DB = 1 := by decide
  mul_injective unit

/-- **Spreading loses nothing.** -/
theorem avalanche_injective : Function.Injective avalanche :=
  fold33_involutive.injective.comp <| finalFactor_injective.comp <|
    fold33_involutive.injective.comp <| spreadFactor_injective.comp fold33_involutive.injective

/-! ## Mixing -/

theorem xor_involutive (w : UInt64) : Function.Involutive (· ^^^ w) := by
  intro h
  show h ^^^ w ^^^ w = h
  rw [UInt64.xor_assoc, UInt64.xor_self, UInt64.xor_zero]

/-- **Mixing loses nothing of the state.** -/
theorem mix_injective_state (w : UInt64) : Function.Injective (mix · w) :=
  fold33_involutive.injective.comp <| spreadFactor_injective.comp <|
    fold33_involutive.injective.comp <| prime_injective.comp (xor_involutive w).injective

/-- **Mixing loses nothing of the word.** -/
theorem mix_injective_word (h : Hash) : Function.Injective (mix h) := by
  have swap (w : UInt64) : mix h w = mix w h := by
    rw [mix, mix, UInt64.xor_comm]
  intro w w' same
  rw [swap, swap] at same
  exact mix_injective_state h same

theorem mixAll_append (h : Hash) (front back : List UInt64) :
    mixAll h (front ++ back) = mixAll (mixAll h front) back :=
  List.foldl_append

/-- Whatever is mixed in afterwards, different states stay different. -/
theorem mixAll_injective (words : List UInt64) : Function.Injective (mixAll · words) := by
  induction words with
  | nil => exact Function.injective_id
  | cons w words ih => exact ih.comp (mix_injective_state w)

end Recompose.Hash
