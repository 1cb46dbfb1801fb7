import Nonassoc.Command.Arguments
import Nonassoc.PartialAlgebra.Free

/-!
# What the command answers

The command reads identities, one a line, and generates their equations over the free algebra one
degree below the target. Its report lists the basis if asked, the equations unless told not to, and
the counts. If an identity cannot be read, if there is none, or if there is no such field, there is
no report at all. Main definitions: `Request.report` and `Response.ofRequest`.
-/

namespace Nonassoc.Command

/-! ## Sources -/

/-- The lines of a text; a line ends with a line feed, perhaps after a carriage return. -/
def lines (text : String) : List (List Char) :=
  (Text.pieces '\n' text.toList).map fun line =>
    if line.getLast? = some '\r' then line.dropLast else line

/-- Whether a trimmed line holds an identity: it is not blank and not a comment. -/
def holdsIdentity : List Char → Bool
  | [] => false
  | c :: _ => c != ';' && c != '#'

/-- The identities written in a text, one a line. -/
def identityLines (text : String) : List String :=
  (((lines text).map Text.trim).filter holdsIdentity).map String.ofList

/-- Why a file cannot be read or written. -/
inductive FileError where
  | missing
  | notFolder
  | isFolder
  | noSpace
  | nameTooLong
  | notText
  | other (reason : String)
  deriving DecidableEq

/-- The wording of an error; those of the system carry its number. -/
def FileError.message : FileError → String
  | missing => "No such file or directory (os error 2)"
  | notFolder => "Not a directory (os error 20)"
  | isFolder => "Is a directory (os error 21)"
  | noSpace => "No space left on device (os error 28)"
  | nameTooLong => "File name too long (os error 36)"
  | notText => "stream did not contain valid UTF-8"
  | other reason => reason

/-- What a source holds, given its bytes. -/
def decode (bytes : ByteArray) : Except FileError String :=
  match String.fromUTF8? bytes with
  | some text => .ok text
  | none => .error .notText

/-- Why there is no report. -/
inductive Error where
  | unreadable (e : FileError)
  | badIdentity (text : String) (e : Identity.ReadError)
  | noIdentities
  | field (e : FieldError)
  | algebra (e : AlgebraError)

/-- The wording of an error. -/
def Error.message : Error → String
  | unreadable e => e.message
  | badIdentity text e => Text.quoteString text ++ ": " ++ e.message
  | noIdentities => "no identities given"
  | field e => e.message
  | algebra e => e.message

/-- Reads identities, the first unreadable one being reported. -/
def readIdentities (texts : List String) : Except Error (List Identity) :=
  texts.mapM fun text => (Identity.parse text).mapError (.badIdentity text)

/-! ## Reports -/

/-- A line for a basis element. -/
def basisLine (a : PartialAlgebra) (b : BasisId) : Except Fault String := do
  let e ← a.basis.entry b
  let m ← a.table.entry e.name
  return match e.factors with
    | some (l, r) => "; " ++ b.text ++ " = " ++ l.text ++ "*" ++ r.text ++ " " ++ m.text
    | none => "; " ++ b.text ++ " generator " ++ m.text

/-- The lines for the whole basis. -/
def basisLines (a : PartialAlgebra) : List String :=
  (List.range a.basis.size).filterMap fun b => (basisLine a b).toOption

/-- The lines for equations, numbered from zero. -/
def equationLines (equations : List Equation) : List String :=
  equations.zipIdx.map fun (e, i) => toString i ++ ": " ++ e.text ++ " = 0"

/-- The report on an outcome, and how the run ended. -/
structure Report where
  lines : List String
  status : Status

namespace Report

/-- The report as text, every line ended by a line feed. -/
def text (r : Report) : String := String.join (r.lines.map (· ++ "\n"))

/-- The message about a run that did not finish. -/
def complaint? (r : Report) : Option String :=
  match r.status with
  | .complete | .empty => none
  | .cancelled => some "cancelled"
  | .failed e => some ("error: " ++ e.message)

end Report

namespace Request

/-- The texts of the identities, given what the source file or standard input holds. -/
def texts (r : Request) (content : Except FileError String) : Except Error (List String) :=
  match r.source with
  | .arguments texts => .ok texts
  | .file _ | .standardInput =>
    match content with
    | .ok text => .ok (identityLines text)
    | .error e => .error (.unreadable e)

/-- The report on the identities of the source, given what it holds. -/
def report (r : Request) (content : Except FileError String) : Except Error Report := do
  let identities ← readIdentities (← r.texts content)
  if identities.isEmpty then throw .noIdentities
  let field ← (PrimeField.ofCharacteristic r.characteristic).mapError .field
  let a ← (PartialAlgebra.free field r.target (r.target.degree - 1)).mapError .algebra
  let (outcome, _) := generateAll identities a.table.targetName a ⟨r.batchSize⟩ .unlimited
  return {
    lines := (if r.basis then basisLines a else []) ++
      (if r.quiet then [] else equationLines outcome.equations) ++ ["; " ++ outcome.stats.text]
    status := outcome.status }

end Request

/-! ## Responses -/

/-- What the command does in the end: what it writes, to a file or to standard output, what it
complains about, and its exit code. -/
structure Response where
  code : Nat
  written : String
  file : Option String
  complaint : Option String

namespace Response

/-- Nothing written, and a complaint. -/
def ofComplaint (code : Nat) (complaint : String) : Response := ⟨code, "", none, some complaint⟩

/-- What the command prints when it is asked for its version. -/
def versionText : String := "albert 0.1.0\n"

/-- What the command prints when it is asked for help. -/
def helpText : String := "Usage: albert [OPTIONS] --type <TYPE> [IDENTITIES]...\n"

/-- The response to arguments that do not ask for a run. -/
def ofRefusal : Refusal → Response
  | .usage => ofComplaint 2 ("error: invalid arguments\n\n" ++ helpText)
  | .help => ⟨0, helpText, none, none⟩
  | .version => ⟨0, versionText, none, none⟩

/-- The response to a request, given what its source holds. -/
def ofRequest (r : Request) (content : Except FileError String) : Response :=
  match r.report content with
  | .error e => ofComplaint 1 ("error: " ++ e.message)
  | .ok report =>
    let complaint := report.complaint?
    ⟨if complaint.isSome then 1 else 0, report.text, r.output, complaint⟩

/-- The response once its file, if it names one, has been written or could not be. What went into the
file is not printed, and a file that could not be written is all that is complained about. -/
def delivered (r : Response) (outcome : Except FileError Unit) : Response :=
  match r.file, outcome with
  | none, _ => r
  | some _, .ok () => { r with written := "" }
  | some _, .error e => ofComplaint 1 ("error: " ++ e.message)

end Response

end Nonassoc.Command
