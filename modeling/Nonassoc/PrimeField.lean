/-!
# Small prime fields

The integers modulo a prime below 256. A scalar is its residue. Main definitions:
`PrimeField.ofCharacteristic`, the operations on residues, and `PrimeField.inverse?`, computed as a
power.
-/

namespace Nonassoc

/-- Whether no number from `d` on whose square is at most `p` divides `p`; `steps` bounds the
search. -/
def noDivisorFrom (p : Nat) : (steps d : Nat) → Bool
  | 0, _ => true
  | steps + 1, d =>
    if p < d * d then true else if p % d = 0 then false else noDivisorFrom p steps (d + 1)

/-- Primality by trial division. -/
def isPrime (p : Nat) : Bool := 2 ≤ p && noDivisorFrom p p 2

/-- The characteristic of a field that fits a byte. -/
structure PrimeField where
  prime : Nat
  isPrime_prime : isPrime prime = true
  prime_lt : prime < 256

/-- Why a characteristic is refused. -/
inductive FieldError where
  | tooLarge (characteristic : Nat)
  | notPrime (characteristic : Nat)
  deriving DecidableEq

/-- The wording of an error. -/
def FieldError.message : FieldError → String
  | tooLarge p => "characteristic " ++ toString p ++ " does not fit in a byte"
  | notPrime p => "characteristic " ++ toString p ++ " is not prime"

/-- An element of a prime field: its residue. -/
abbrev Scalar := Nat

namespace PrimeField

/-- The field of the given characteristic. -/
def ofCharacteristic (p : Nat) : Except FieldError PrimeField :=
  if hlt : p < 256 then
    if h : isPrime p = true then .ok ⟨p, h, hlt⟩ else .error (.notPrime p)
  else .error (.tooLarge p)

/-- The characteristic that is used if none is given. -/
def standard : PrimeField := ⟨251, by decide, by decide⟩

/-- The residue of an integer. -/
def ofInt (f : PrimeField) (x : Int) : Scalar := (x % (f.prime : Int)).toNat

/-- The sum of two residues. -/
def add (f : PrimeField) (a b : Scalar) : Scalar := (a + b) % f.prime

/-- The residue that adds up to zero with `a`. -/
def neg (f : PrimeField) (a : Scalar) : Scalar := if a = 0 then 0 else f.prime - a

/-- The difference of two residues. -/
def sub (f : PrimeField) (a b : Scalar) : Scalar := f.add a (f.neg b)

/-- The product of two residues. -/
def mul (f : PrimeField) (a b : Scalar) : Scalar := (a * b) % f.prime

/-- A power of a residue. -/
def power (f : PrimeField) (a : Scalar) : Nat → Scalar
  | 0 => 1
  | n + 1 => f.mul (f.power a n) a

/-- The inverse of a nonzero residue, by Fermat its power with exponent `prime - 2`. -/
def inverse? (f : PrimeField) (a : Scalar) : Option Scalar :=
  if a = 0 then none else some (f.power a (f.prime - 2))

theorem add_lt (f : PrimeField) (a b : Scalar) : f.add a b < f.prime :=
  Nat.mod_lt _ (Nat.pos_of_ne_zero fun h => by
    have := f.isPrime_prime
    rw [h] at this
    exact absurd this (by decide))

end PrimeField

end Nonassoc
