import Nonassoc.Multidegree
import Nonassoc.Token

/-!
# Shared tokens

Several handles may refer to one token, and each sees what is done through the others. A pool holds
the tokens and, for each handle, the token it refers to. Main definitions: `Pool.new`, `Pool.share`,
`Pool.poll`.
-/

namespace Nonassoc.Token

/-- The tokens, and the place of the token of each handle. -/
structure Pool where
  tokens : Array Token
  handles : Array Nat

namespace Pool

/-- No token and no handle. -/
def empty : Pool := ⟨#[], #[]⟩

/-- The token of a handle, with its place. -/
def get (p : Pool) (handle : Nat) : Except Fault (Nat × Token) :=
  match p.handles[handle]? with
  | none => .error .index
  | some place =>
    match p.tokens[place]? with
    | none => .error .index
    | some token => .ok (place, token)

/-- A handle to a new token. -/
def new (p : Pool) (token : Token) : Nat × Pool :=
  (p.handles.size, ⟨p.tokens.push token, p.handles.push p.tokens.size⟩)

/-- A new handle to the token of another one. -/
def share (p : Pool) (handle : Nat) : Except Fault (Nat × Pool) := do
  let (place, _) ← p.get handle
  return (p.handles.size, { p with handles := p.handles.push place })

/-- Polls the token of a handle. -/
def poll (p : Pool) (handle : Nat) : Except Fault (Bool × Pool) := do
  let (place, token) ← p.get handle
  let (granted, token) := token.poll
  return (granted, { p with tokens := p.tokens.setIfInBounds place token })

/-- Cancels the token of a handle. -/
def cancel (p : Pool) (handle : Nat) : Except Fault Pool := do
  let (place, token) ← p.get handle
  return { p with tokens := p.tokens.setIfInBounds place token.cancel }

/-- Whether the token of a handle was cancelled. -/
def isCancelled (p : Pool) (handle : Nat) : Except Fault Bool := do
  return (← p.get handle).2.cancelled

end Pool

end Nonassoc.Token
