import Nonassoc.Capacity
import Nonassoc.Total

/-!
# Multidegrees

A multidegree tells how often each generator occurs, in generator order; a multiplicity is a byte.
Main definitions: `Multidegree.degree`, the order `Multidegree.le` by components (between
multidegrees over the same generators), and addition and subtraction, which fail rather than wrap.
-/

namespace Nonassoc

/-- The multiplicity of each generator. -/
structure Multidegree where
  components : List UInt8
  deriving DecidableEq, Hashable

/-- Why there is no multidegree, or no table of them. -/
inductive MultidegreeError where
  | noGenerators
  | unreadable (text : String)
  | notInTable (t : Multidegree)
  deriving DecidableEq

/-- A call that its caller must not make: an index outside a table, arithmetic that leaves a byte or a
word or goes below zero, lists that should have the same length and have not, or a list that is
longer than any memory. -/
inductive Fault where
  | index
  | arithmetic
  | lengths
  | memory
  deriving DecidableEq

/-- The wording of a fault. -/
def Fault.message : Fault → String
  | index => "index out of range"
  | arithmetic => "arithmetic out of range"
  | lengths => "lists of different lengths"
  | memory => "list longer than memory"

/-! ## Checked arithmetic on bytes -/

/-- The sum of two bytes, if it is a byte. -/
def addByte? (a b : UInt8) : Option UInt8 := if a.toNat + b.toNat < 256 then some (a + b) else none

/-- The difference of two bytes, if it is not negative. -/
def subByte? (a b : UInt8) : Option UInt8 := if b ≤ a then some (a - b) else none

theorem toNat_of_addByte? {a b c : UInt8} (h : addByte? a b = some c) :
    c.toNat = a.toNat + b.toNat := by
  unfold addByte? at h
  split at h
  · cases h
    rw [UInt8.toNat_add]
    omega
  · cases h

theorem toNat_of_subByte? {a b c : UInt8} (h : subByte? a b = some c) :
    b.toNat + c.toNat = a.toNat := by
  unfold subByte? at h
  split at h
  · rename_i hle
    cases h
    have := UInt8.le_iff_toNat_le.1 hle
    rw [UInt8.toNat_sub_of_le _ _ hle]
    omega
  · cases h

namespace Multidegree

/-- The number of generators. -/
def generators (t : Multidegree) : Nat := t.components.length

/-- The generators that occur, ascending. -/
def support (t : Multidegree) : List Nat :=
  t.components.zipIdx.filterMap fun (x, g) => if x = 0 then none else some g

/-- The sum of the multiplicities. -/
def degree (t : Multidegree) : Nat := total (t.components.map UInt8.toNat)

/-- Component by component at most, over the same generators. -/
def le (a b : Multidegree) : Bool :=
  a.generators == b.generators && (a.components.zip b.components).all fun (x, y) => x ≤ y

/-- Combines components in pairs, as far as both lists go and the operation succeeds. -/
def zipComponents? (op : UInt8 → UInt8 → Option UInt8) :
    List UInt8 → List UInt8 → Option (List UInt8)
  | x :: xs, y :: ys =>
    match op x y with
    | none => none
    | some z => (zipComponents? op xs ys).map (z :: ·)
  | _, _ => some []

/-- The sum by components. -/
def add? (a b : Multidegree) : Option Multidegree :=
  (zipComponents? addByte? a.components b.components).map mk

/-- The difference by components. -/
def sub? (a b : Multidegree) : Option Multidegree :=
  (zipComponents? subByte? a.components b.components).map mk

/-- The multidegree of one generator among several, for each of which there has to be a byte. -/
def unit (generators generator : Nat) : Except Fault Multidegree :=
  if byteCapacity < generators then .error .memory
  else if generator < generators then
    .ok ⟨(List.replicate generators 0).set generator 1⟩
  else .error .index

/-- Lexicographic order, the first generator most significant; a beginning comes before the whole. -/
def compare (a b : Multidegree) : Ordering := go a.components b.components
where
  /-- The same for lists of multiplicities. -/
  go : List UInt8 → List UInt8 → Ordering
    | [], [] => .eq
    | [], _ :: _ => .lt
    | _ :: _, [] => .gt
    | x :: xs, y :: ys => if x < y then .lt else if y < x then .gt else go xs ys

/-- The written form, `(3,2,1)`. -/
def text (t : Multidegree) : String :=
  "(" ++ String.intercalate "," (t.components.map fun x => toString x.toNat) ++ ")"

end Multidegree

end Nonassoc
