import FetchExecute.Profile

/-!
# Command-line arguments

Flags, and options that take the argument after them as their value. A later
value replaces an earlier one. Asking for help settles the request at once; any
error before it wins.
-/

namespace FetchExecute.Console

structure Options where
  architecture : Option Architecture := none
  /-- The program of the catalog, counted from zero. -/
  program : Option Nat := none
  auto : Bool := false
  list : Bool := false
  /-- A log of the steps is wanted; logging is no part of the dialogue. -/
  verbose : Bool := false
deriving DecidableEq, Repr

inductive Request where
  | run (options : Options)
  | help
deriving DecidableEq, Repr

inductive ArgumentError where
  | missingValue (option : String)
  | unknownProfile (key : String)
  | invalidProgram (text : String)
  | unknownOption (text : String)
  | programWithoutProfile
deriving DecidableEq, Repr

def ArgumentError.message : ArgumentError → String
  | .missingValue option => "missing value for " ++ option
  | .unknownProfile key => "unknown profile: " ++ key
  | .invalidProgram text => "invalid program number: " ++ text
  | .unknownOption text => "unknown option: " ++ text
  | .programWithoutProfile => "--program requires --profile"

/-- What an argument stands for. -/
inductive Flag where
  | help
  | auto
  | list
  | verbose
  | profile
  | program
deriving DecidableEq, Repr

def Flag.ofText? : String → Option Flag
  | "--help" | "-h" => some .help
  | "--auto" | "-a" => some .auto
  | "--list" | "-l" => some .list
  | "--verbose" | "-v" => some .verbose
  | "--profile" | "-p" => some .profile
  | "--program" | "-n" => some .program
  | _ => none

/-- A place in a list, from its number counted from one. -/
def ofNumber? (text : String) : Option Nat :=
  match Numeral.ofDecimal? text with
  | some (n + 1) => some n
  | _ => none

namespace Request

/-- Reads the arguments that are left, given what the earlier ones have set. -/
def parseFrom (options : Options) : List String → Except ArgumentError Request
  | [] =>
    if options.program.isSome ∧ options.architecture.isNone then .error .programWithoutProfile
    else .ok (.run options)
  | arg :: rest =>
    match Flag.ofText? arg with
    | none => .error (.unknownOption arg)
    | some .help => .ok .help
    | some .auto => parseFrom { options with auto := true } rest
    | some .list => parseFrom { options with list := true } rest
    | some .verbose => parseFrom { options with verbose := true } rest
    | some .profile =>
      match rest with
      | [] => .error (.missingValue arg)
      | value :: rest =>
        match Architecture.ofKey? value with
        | some a => parseFrom { options with architecture := some a } rest
        | none => .error (.unknownProfile value)
    | some .program =>
      match rest with
      | [] => .error (.missingValue arg)
      | value :: rest =>
        match ofNumber? value with
        | some n => parseFrom { options with program := some n } rest
        | none => .error (.invalidProgram value)

def parse (args : List String) : Except ArgumentError Request := parseFrom {} args

end Request

/-- The help text, an empty line at its end. -/
def usage : List String :=
  ["Usage: microcycle [options]",
   "",
   "Options:",
   "  -p, --profile <name>  Machine profile: hypothetical | ias",
   "  -n, --program <n>     Program number within the profile (see --list)",
   "  -a, --auto            Run every step without waiting for ENTER",
   "  -l, --list            List profiles and programs, then exit",
   "  -v, --verbose         Log every micro-step to stderr",
   "  -h, --help            Show this help message",
   "",
   "While stepping: ENTER advances, 'r' resets, 'q' quits.",
   "",
   "Examples:",
   "  microcycle --list",
   "  microcycle --profile ias --program 2",
   "  microcycle -p hypothetical -n 2 --auto",
   ""]

end FetchExecute.Console
