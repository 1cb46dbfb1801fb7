import Nonassoc.ProductTable

/-!
# Failures of a run

Why a search or a generation stops before its end. Running out of branches is not a failure.
-/

namespace Nonassoc

/-- What memory can run out for. A list of equations is taken to find room whenever it grows, so that
no function here fails with `equationList`: of that failure only the wording is kept. -/
inductive Resource where
  | permutationList
  | equationList
  deriving DecidableEq

/-- How a message names it. -/
def Resource.text : Resource → String
  | permutationList => "permutation list"
  | equationList => "equation list"

/-- Why a run stopped. -/
inductive Failure where
  | cancelled
  | exhausted (what : Resource)
  | unknownTarget (name : Multidegree.Name)
  | algebra (e : AlgebraError)
  | multidegree (e : MultidegreeError)
  | fault (f : Fault)
  deriving DecidableEq

/-- The wording of a failure. -/
def Failure.message : Failure → String
  | cancelled => "generation was cancelled"
  | exhausted what => "out of memory while growing the " ++ what.text
  | unknownTarget name => "target " ++ name.text ++ " is not in the type table"
  | algebra e => e.message
  | multidegree e => e.message
  | fault f => f.message

end Nonassoc
