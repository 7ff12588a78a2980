import Replay.Script
/-!
The command line.

Reading the arguments and saying what the program prints are plain functions.  Only the texts that
the arguments point to come from outside.
-/

namespace Replay
namespace CommandLine

inductive Source where
  | inline (text : String)
  | file (path : String)
  | standardInput
deriving DecidableEq

structure Options where
  source : Source
  maxDepth : Nat
deriving DecidableEq

inductive Request where
  | run (options : Options)
  | version
  | help
  | misuse
deriving DecidableEq

/-! ## Arguments -/

/-- The arguments seen so far. -/
structure Seen where
  file : Bool
  maxDepth : Option Nat
  contents : Option String

def Seen.nothing : Seen := ⟨false, none, none⟩

/-- What an argument leads to: more arguments, or an answer that needs no more of them. -/
inductive Progress where
  | seen (s : Seen)
  | answer (r : Request)

/-- A row of digits, possibly behind a plus sign, of a number that 64 bits can hold. -/
def count? (text : String) : Option Nat :=
  let digits := match text.toList with
    | '+' :: cs => cs
    | cs => cs
  match digits with
  | [] => none
  | _ =>
    match Lexer.natOfDigits? 10 digits with
    | some n => if n < 1 <<< 64 then some n else none
    | none => none

def Seen.setFile (s : Seen) : Progress :=
  if s.file then .answer .misuse else .seen { s with file := true }

def Seen.setMaxDepth (s : Seen) (text : String) : Progress :=
  match s.maxDepth, count? text with
  | none, some n => .seen { s with maxDepth := some n }
  | _, _ => .answer .misuse

def Seen.setContents (s : Seen) (text : String) : Progress :=
  match s.contents with
  | none => .seen { s with contents := some text }
  | some _ => .answer .misuse

/-- One-letter options may share a dash. -/
def shortOptions (s : Seen) : List Char → Progress
  | [] => .seen s
  | 'f' :: cs =>
    match s.setFile with
    | .seen s => shortOptions s cs
    | .answer r => .answer r
  | 'v' :: cs => shortOptions s cs
  | 'V' :: _ => .answer .version
  | 'h' :: _ => .answer .help
  | _ => .answer .misuse

/-- An option with two dashes that takes no separate value. -/
def longOption (s : Seen) (name : List Char) : Progress :=
  if name = "file".toList then s.setFile
  else if name = "verbose".toList then .seen s
  else if name = "version".toList then .answer .version
  else if name = "help".toList then .answer .help
  else
    match "max-call-depth=".toList.isPrefixOf name, name.drop "max-call-depth=".length with
    | true, value => s.setMaxDepth (String.ofList value)
    | false, _ => .answer .misuse

/-- A dash alone is not an option. -/
def isOption (argument : String) : Bool :=
  match argument.toList with
  | '-' :: _ :: _ => true
  | _ => false

def positionals (s : Seen) : List String → Progress
  | [] => .seen s
  | argument :: rest =>
    match s.setContents argument with
    | .seen s => positionals s rest
    | .answer r => .answer r

/-- Reads the arguments from left to right, so an option that answers at once does so unless there
is a mistake before it.  The value of an option may stand in the next argument unless that looks
like an option. -/
def scan (s : Seen) : List String → Progress
  | [] => .seen s
  | "--" :: rest => positionals s rest
  | "--max-call-depth" :: rest =>
    match rest with
    | [] => .answer .misuse
    | value :: rest =>
      if isOption value then .answer .misuse
      else
        match s.setMaxDepth value with
        | .seen s => scan s rest
        | .answer r => .answer r
  | argument :: rest =>
    let progress :=
      match argument.toList with
      | '-' :: '-' :: name => longOption s name
      | '-' :: c :: cs => shortOptions s (c :: cs)
      | _ => s.setContents argument
    match progress with
    | .seen s => scan s rest
    | .answer r => .answer r

/-- Without contents the script comes from standard input; a file needs a path. -/
def Seen.request (s : Seen) : Request :=
  let maxDepth := s.maxDepth.getD CallStack.defaultMaxDepth
  match s.contents, s.file with
  | some path, true => .run ⟨.file path, maxDepth⟩
  | some text, false => .run ⟨.inline text, maxDepth⟩
  | none, false => .run ⟨.standardInput, maxDepth⟩
  | none, true => .misuse

def request (arguments : List String) : Request :=
  match scan .nothing arguments with
  | .seen s => s.request
  | .answer r => r

/-! ## Answers -/

structure Answer where
  exitCode : UInt32
  stdout : String
  stderr : String

inductive ReadFailure where
  | missing
  | notText
  | other (text : String)

def ReadFailure.describe : ReadFailure → String
  | missing => "No such file or directory (os error 2)"
  | notText => "stream did not contain valid UTF-8"
  | other text => text

def decode (bytes : ByteArray) : Except ReadFailure String :=
  match String.fromUTF8? bytes with
  | some text => .ok text
  | none => .error .notText

def versionAnswer : Answer := ⟨0, "retread 0.1.0\n", ""⟩

def usage : String :=
  "Usage: retread [-f] [-v]... [--max-call-depth <N>] [CONTENTS]\n"

def helpAnswer : Answer := ⟨0, usage, ""⟩

def misuseAnswer : Answer := ⟨2, "", usage⟩

def readFailureAnswer (failure : ReadFailure) : Answer :=
  ⟨1, "", "Failed to read the script: " ++ failure.describe ++ "\n"⟩

/-- Prints what the script prints, and the error that ends it, if any. -/
def runAnswer (fuel maxDepth : Nat) (script : String) : Option Answer :=
  (Script.run fuel script maxDepth Sink.unlimited).map fun report =>
    match report.result with
    | .ok () => ⟨0, report.out.text, ""⟩
    | .error e => ⟨e.exitCode, report.out.text, e.message ++ "\n"⟩

end CommandLine
end Replay
