import Mathlib.Algebra.Field.ZMod
import Mathlib.Algebra.Module.Basic
import Mathlib.Data.Nat.Prime.Factorial
import Nonassoc.PrimeField

/-!
# Residues as field elements

Trial division decides primality (`prime_of_isPrime`), so that `ZMod f.prime` is a field for every
`PrimeField`. The scalars of a program stand for its elements: the operations on scalars are those
of the field (`cast_add`, `cast_mul`, `cast_ofInt`), and a scalar below the prime is zero exactly if
its field element is (`cast_eq_zero_iff`).
-/

namespace Nonassoc

/-- No number from `d` on whose square is at most `p` divides `p`, if the search finds none and may
go far enough. -/
theorem not_dvd_of_noDivisorFrom {p steps d : Nat} (h : noDivisorFrom p steps d = true)
    (hfar : p < (d + steps) * (d + steps)) {k : Nat} (hk : d ≤ k) (hkp : k * k ≤ p) : ¬ k ∣ p := by
  induction steps generalizing d with
  | zero => exact absurd (Nat.mul_le_mul hk hk) (Nat.not_le.2 (hkp.trans_lt hfar))
  | succ steps ih =>
    rw [noDivisorFrom] at h
    split at h
    · rename_i hlt
      exact absurd (Nat.mul_le_mul hk hk) (Nat.not_le.2 (hkp.trans_lt hlt))
    · split at h
      · cases h
      · rename_i hmod
        rcases Nat.eq_or_lt_of_le hk with rfl | hk
        · exact fun hdvd => hmod (Nat.mod_eq_zero_of_dvd hdvd)
        · rw [← Nat.add_assoc, Nat.add_right_comm] at hfar
          exact ih h hfar hk

theorem prime_of_isPrime {p : Nat} (h : isPrime p = true) : p.Prime := by
  rw [isPrime, Bool.and_eq_true, decide_eq_true_eq] at h
  refine Nat.prime_def_le_sqrt.2 ⟨h.1, fun k hk hle => ?_⟩
  refine not_dvd_of_noDivisorFrom h.2 ?_ hk (Nat.le_sqrt.1 hle)
  calc p < 2 + p := Nat.lt_add_of_pos_left Nat.two_pos
    _ ≤ (2 + p) * (2 + p) := Nat.le_mul_self _

namespace PrimeField

variable (f : PrimeField)

instance : Fact f.prime.Prime := ⟨prime_of_isPrime f.isPrime_prime⟩

theorem cast_add (a b : Scalar) : ((f.add a b : Nat) : ZMod f.prime) = a + b := by
  rw [add, ZMod.natCast_mod, Nat.cast_add]

theorem cast_mul (a b : Scalar) : ((f.mul a b : Nat) : ZMod f.prime) = a * b := by
  rw [mul, ZMod.natCast_mod, Nat.cast_mul]

theorem cast_ofInt (x : Int) : ((f.ofInt x : Nat) : ZMod f.prime) = x := by
  have hpos : (f.prime : Int) ≠ 0 := Int.natCast_ne_zero.2 (NeZero.ne f.prime)
  rw [ofInt, ← Int.cast_natCast, Int.toNat_of_nonneg (Int.emod_nonneg x hpos), ZMod.intCast_mod]

/-- A residue that is not zero. -/
def IsUnit (x : Scalar) : Prop := x ≠ 0 ∧ x < f.prime

variable {f}

theorem cast_eq_zero_iff {x : Scalar} (h : x < f.prime) : (x : ZMod f.prime) = 0 ↔ x = 0 := by
  rw [ZMod.natCast_eq_zero_iff]
  exact ⟨fun hdvd => Nat.eq_zero_of_dvd_of_lt hdvd h, fun h => h ▸ Nat.dvd_zero _⟩

theorem eq_of_cast {x y : Scalar} (hx : x < f.prime) (hy : y < f.prime)
    (h : (x : ZMod f.prime) = y) : x = y := by
  rwa [ZMod.natCast_eq_natCast_iff', Nat.mod_eq_of_lt hx, Nat.mod_eq_of_lt hy] at h

theorem mul_lt (x y : Scalar) : f.mul x y < f.prime := Nat.mod_lt _ (NeZero.pos f.prime)

theorem mul_swap (x y z : Scalar) : f.mul (f.mul x y) z = f.mul (f.mul x z) y := by
  refine eq_of_cast (mul_lt _ _) (mul_lt _ _) ?_
  rw [cast_mul, cast_mul, cast_mul, cast_mul, mul_right_comm]

theorem ofInt_lt (x : Int) : f.ofInt x < f.prime := by
  have hpos : 0 < (f.prime : Int) := Int.natCast_pos.2 (NeZero.pos f.prime)
  exact (Int.toNat_lt (Int.emod_nonneg x hpos.ne')).2 (Int.emod_lt_of_pos x hpos)

theorem ofInt_mul (x y : Int) : f.ofInt (x * y) = f.mul (f.ofInt x) (f.ofInt y) := by
  refine eq_of_cast (ofInt_lt _) (mul_lt _ _) ?_
  rw [cast_mul, cast_ofInt, cast_ofInt, cast_ofInt, Int.cast_mul]

theorem ofInt_eq_zero_iff {x : Int} : f.ofInt x = 0 ↔ (f.prime : Int) ∣ x := by
  have hpos : (f.prime : Int) ≠ 0 := Int.natCast_ne_zero.2 (NeZero.ne f.prime)
  have hnonneg := Int.emod_nonneg x hpos
  rw [ofInt, Int.toNat_eq_zero, Int.dvd_iff_emod_eq_zero]
  omega

theorem mul_one {x : Scalar} (h : x < f.prime) : f.mul x 1 = x := by
  rw [mul, Nat.mul_one, Nat.mod_eq_of_lt h]

/-- There are no zero divisors. -/
theorem mul_eq_zero_iff {x y : Scalar} (hx : x < f.prime) (hy : y < f.prime) :
    f.mul x y = 0 ↔ x = 0 ∨ y = 0 := by
  rw [← cast_eq_zero_iff (mul_lt x y), cast_mul, mul_eq_zero, cast_eq_zero_iff hx,
    cast_eq_zero_iff hy]

theorem IsUnit.mul {x y : Scalar} (hx : f.IsUnit x) (hy : f.IsUnit y) : f.IsUnit (f.mul x y) :=
  ⟨fun h => ((mul_eq_zero_iff hx.2 hy.2).1 h).elim hx.1 hy.1, mul_lt x y⟩

/-- Factorials of numbers below the prime can be cancelled. -/
theorem eq_zero_of_factorial_smul {W : Type} [AddCommGroup W] [Module (ZMod f.prime) W] {d : Nat}
    (hd : d < f.prime) {w : W} (h : d.factorial • w = 0) : w = 0 := by
  have hne : (d.factorial : ZMod f.prime) ≠ 0 := by
    rw [Ne, ZMod.natCast_eq_zero_iff, Nat.Prime.dvd_factorial Fact.out]
    exact Nat.not_le.2 hd
  rw [← Nat.cast_smul_eq_nsmul (ZMod f.prime)] at h
  rw [← inv_smul_smul₀ hne w, h, smul_zero]

theorem isUnit_one : f.IsUnit 1 := ⟨Nat.one_ne_zero, (Fact.out : f.prime.Prime).one_lt⟩

end PrimeField

end Nonassoc
