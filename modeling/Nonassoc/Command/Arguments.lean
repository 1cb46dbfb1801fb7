import Nonassoc.Generation
import Nonassoc.Multidegree.Reader

/-!
# Arguments of the command

Arguments are read from left to right. A long option is written `--name value` or `--name=value`; a
short one `-n value`, `-nvalue` or `-n=value`, and short switches may be joined before it. After
`--` every argument is an identity, and so is before it every argument that does not start with a
dash, or is the dash alone. A value that is an argument of its own cannot start with a dash. Every
option but `--verbose` may be given once. Main definition: `Request.read`.
-/

namespace Nonassoc.Command

/-- An option with a value. -/
inductive Setting where
  | input
  | output
  | target
  | field
  | threads
  | batchSize
  deriving DecidableEq

/-- An option without a value. -/
inductive Switch where
  | sequential
  | basis
  | quiet
  | verbose
  | help
  | version
  deriving DecidableEq

/-- An option of either kind. -/
inductive Flag where
  | setting (s : Setting)
  | switch (s : Switch)
  deriving DecidableEq

/-- The options by their long names. -/
def longFlags : List (String × Flag) :=
  [("input", .setting .input), ("output", .setting .output), ("type", .setting .target),
    ("field", .setting .field), ("threads", .setting .threads),
    ("batch-size", .setting .batchSize), ("sequential", .switch .sequential),
    ("basis", .switch .basis), ("quiet", .switch .quiet), ("verbose", .switch .verbose),
    ("help", .switch .help), ("version", .switch .version)]

/-- The options by their short names. -/
def shortFlags : List (Char × Flag) :=
  [('i', .setting .input), ('o', .setting .output), ('t', .setting .target),
    ('q', .switch .quiet), ('v', .switch .verbose), ('h', .switch .help), ('V', .switch .version)]

/-- Why the arguments do not ask for a run: they are wrong, or they ask for something else. -/
inductive Refusal where
  | usage
  | help
  | version
  deriving DecidableEq

/-- What has been read so far. -/
structure Options where
  identities : List String
  input : Option String
  output : Option String
  target : Option Multidegree
  field : Option Nat
  threads : Option Nat
  batchSize : Option Nat
  sequential : Bool
  basis : Bool
  quiet : Bool

namespace Options

/-- Nothing read. -/
def none : Options :=
  ⟨[], .none, .none, .none, .none, .none, .none, false, false, false⟩

end Options

/-! ## Values -/

/-- The number that digits denote, perhaps after a plus sign, if it is at most `largest`. -/
def number? (largest : Nat) (value : String) : Option Nat :=
  let digits := match value.toList with
    | '+' :: rest => rest
    | l => l
  if !digits.isEmpty && digits.all Char.isDigit && Text.decimal digits ≤ largest then
    some (Text.decimal digits)
  else none

/-- The number that a characteristic denotes: at most a word of 32 bits, and a minus sign only before
zero. -/
def characteristic? (value : String) : Option Nat :=
  match value.toList with
  | '-' :: '+' :: _ => none
  | '-' :: digits => number? 0 (String.ofList digits)
  | _ => number? 4294967295 value

/-- A path has to name something. -/
def path? (value : String) : Option String := if value.isEmpty then none else some value

/-- Keeps the value of an option that had none; a second or an unreadable value is refused. -/
def once {α : Type} (old new : Option α) : Except Refusal (Option α) :=
  match old, new with
  | none, some x => .ok (some x)
  | _, _ => .error .usage

/-- Turns a switch on that is not on yet. -/
def onceOn (old : Bool) : Except Refusal Bool := if old then .error .usage else .ok true

namespace Options

/-- Reads the value of an option. -/
def set (o : Options) (value : String) : Setting → Except Refusal Options
  | .input => do return { o with input := ← once o.input (path? value) }
  | .output => do return { o with output := ← once o.output (path? value) }
  | .target => do
    return { o with target := ← once o.target (Multidegree.parse value).toOption }
  | .field => do return { o with field := ← once o.field (characteristic? value) }
  | .threads => do return { o with threads := ← once o.threads (number? maximalCount value) }
  | .batchSize => do
    return { o with batchSize := ← once o.batchSize (number? maximalCount value) }

/-- Turns a switch on. The switches that ask for something else than a run end the reading. -/
def turnOn (o : Options) : Switch → Except Refusal Options
  | .sequential => do return { o with sequential := ← onceOn o.sequential }
  | .basis => do return { o with basis := ← onceOn o.basis }
  | .quiet => do return { o with quiet := ← onceOn o.quiet }
  | .verbose => .ok o
  | .help => .error .help
  | .version => .error .version

/-! ## Reading -/

/-- Reads short options joined in one argument. The last one may be waiting for its value. -/
def readShort (o : Options) : List Char → Except Refusal (Options × Option Setting)
  | [] => .ok (o, .none)
  | c :: rest =>
    match shortFlags.lookup c with
    | some (.switch s) => do (← o.turnOn s).readShort rest
    | some (.setting s) =>
      match rest with
      | [] => .ok (o, some s)
      | '=' :: value => do return (← o.set (String.ofList value) s, .none)
      | value => do return (← o.set (String.ofList value) s, .none)
    | .none => .error .usage

/-- Reads a long option, whose value may follow an equals sign. -/
def readLong (o : Options) (arg : List Char) : Except Refusal (Options × Option Setting) :=
  let name := arg.takeWhile (· ≠ '=')
  match longFlags.lookup (String.ofList name), arg.drop name.length with
  | some (.switch s), [] => do return (← o.turnOn s, .none)
  | some (.switch _), _ :: _ => .error .usage
  | some (.setting s), [] => .ok (o, some s)
  | some (.setting s), _ :: value => do return (← o.set (String.ofList value) s, .none)
  | .none, _ => .error .usage

/-- Reads the arguments, the first of which may be the value of an option that waits for it. -/
def readFrom (waiting : Option Setting) (o : Options) : List String → Except Refusal Options
  | [] => if waiting.isSome then .error .usage else .ok o
  | arg :: rest =>
    match waiting, arg.toList with
    | some _, '-' :: _ :: _ => .error .usage
    | some s, _ => do (← o.set arg s).readFrom .none rest
    | .none, ['-', '-'] => .ok { o with identities := o.identities ++ rest }
    | .none, '-' :: '-' :: long => do
      let (o, waiting) ← o.readLong long
      o.readFrom waiting rest
    | .none, '-' :: c :: short => do
      let (o, waiting) ← o.readShort (c :: short)
      o.readFrom waiting rest
    | .none, _ => { o with identities := o.identities ++ [arg] }.readFrom .none rest

end Options

/-- Where the identities are written. -/
inductive Source where
  | arguments (texts : List String)
  | file (path : String)
  | standardInput
  deriving DecidableEq

/-- What the command is asked to do. -/
structure Request where
  source : Source
  output : Option String
  target : Multidegree
  characteristic : Nat
  batchSize : Nat
  basis : Bool
  quiet : Bool

namespace Request

/-- The request that options make; there has to be a target. -/
def ofOptions (o : Options) : Except Refusal Request :=
  match o.target with
  | none => .error .usage
  | some target =>
    .ok {
      source :=
        if o.identities.isEmpty then
          match o.input with
          | some path => .file path
          | none => .standardInput
        else .arguments o.identities
      output := o.output
      target
      characteristic := o.field.getD PrimeField.standard.prime
      batchSize := o.batchSize.getD Config.standard.batchSize
      basis := o.basis
      quiet := o.quiet }

/-- The request that arguments make. -/
def read (args : List String) : Except Refusal Request := do
  ofOptions (← Options.none.readFrom none args)

end Request

end Nonassoc.Command
