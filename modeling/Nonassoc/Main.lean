import Nonassoc.Command.Report

/-!
# The command line

Reads the arguments and the source of the identities, and writes the response.
-/

open Nonassoc.Command

/-- The number of a system error, which is reported with either sign. -/
def errorNumber (code : UInt32) : Nat := min code.toNat (-code).toNat

/-- Why the operating system refused. -/
def fileError (e : IO.Error) : FileError :=
  match e with
  | .noFileOrDirectory .. => .missing
  | .inappropriateType _ code _ => if errorNumber code = 20 then .notFolder else .isFolder
  | .invalidArgument _ code _ =>
    if errorNumber code = 36 then .nameTooLong else .other (toString e)
  | .resourceExhausted _ code _ => if errorNumber code = 28 then .noSpace else .other (toString e)
  | _ => .other (toString e)

/-- What a source holds. -/
def readSource : Source → IO (Except FileError String)
  | .arguments _ => return .ok ""
  | .file path => do
    try return decode (← IO.FS.readBinFile path)
    catch e => return .error (fileError e)
  | .standardInput => do
    try return decode (← (← IO.getStdin).readBinToEnd)
    catch e => return .error (fileError e)

/-- Writes the file of a response, if it names one. -/
def writeOutput (r : Response) : IO (Except FileError Unit) := do
  match r.file with
  | none => return .ok ()
  | some path =>
    try
      IO.FS.writeFile path r.written
      return .ok ()
    catch e => return .error (fileError e)

/-- Writes a response, and gives the exit code. -/
def writeResponse (r : Response) : IO UInt32 := do
  let r := r.delivered (← writeOutput r)
  (← IO.getStdout).putStr r.written
  if let some complaint := r.complaint then IO.eprintln complaint
  return UInt32.ofNat r.code

/-- Runs the command. -/
def main (args : List String) : IO UInt32 := do
  match Request.read args with
  | .error refusal => writeResponse (.ofRefusal refusal)
  | .ok request => writeResponse (.ofRequest request (← readSource request.source))
