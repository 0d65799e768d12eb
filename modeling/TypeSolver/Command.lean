import TypeSolver.Config.Decode
import TypeSolver.Environment.Decode
import TypeSolver.Files
import TypeSolver.Json.Printer
import TypeSolver.Report

/-!
# TypeSolver.Command

The command line as a function of its arguments and the files it reads. It prints the types of a
module, or the diagnostics of its errors.
-/

namespace TypeSolver
namespace Command

inductive Request where
  | help
  | check (modulePath : String) (configPath : Option String)

inductive Failure where
  | badCommand (reason : String)
  | unreadable (e : FileError)
  | badConfig (path : String)
  | badInput
  | outOfFuel
  | infer (e : InferError)

def Failure.message : Failure → String
  | .badCommand reason => "invalid command: " ++ reason
  | .unreadable e => "IO error: " ++ e.message
  | .badConfig path => "invalid configuration: failed to parse " ++ path
  | .badInput => "invalid input: not a module"
  | .outOfFuel => "internal error: out of fuel"
  | .infer e => e.message

structure Output where
  code : UInt32
  stdout : String := ""
  stderr : String := ""
deriving DecidableEq

def helpText : String :=
  "typeinfer\n\nUSAGE:\n  typeinfer <COMMAND>\n\nCOMMANDS:\n  check <module.json> [--config <infer.toml>]\n\n  -h, --help\n\nLogging is controlled by RUST_LOG, e.g. RUST_LOG=typeinfer::solve=debug"

/-- The arguments of `check`: one module, and a configuration, where the last one given counts. -/
def checkArguments : List String → Option String → Option String → Except Failure Request
  | [], none, _ => .ok .help
  | [], some modulePath, configPath => .ok (.check modulePath configPath)
  | ["--config"], _, _ => .error (.badCommand "--config expects a path")
  | "--config" :: path :: args, modulePath, _ => checkArguments args modulePath (some path)
  | arg :: args, modulePath, configPath =>
    if !arg.startsWith "-" && modulePath.isNone then checkArguments args (some arg) configPath
    else .error (.badCommand ("unexpected check argument " ++ arg))

def request : List String → Except Failure Request
  | [] => .ok .help
  | "-h" :: _ => .ok .help
  | "--help" :: _ => .ok .help
  | "check" :: args => checkArguments args none none
  | command :: _ => .error (.badCommand ("unknown command " ++ command))

def paths (args : List String) : List String :=
  match request args with
  | .ok (.check modulePath configPath) => configPath.toList ++ [modulePath]
  | _ => []

/-- The configuration in a file; without one, the default. -/
def readConfig (files : Files) : Option String → Except Failure Config
  | none => .ok {}
  | some path =>
    match files path with
    | .error e => .error (.unreadable e)
    | .ok text =>
      match Config.read text with
      | some config => .ok config
      | none => .error (.badConfig path)

def readModule (files : Files) (path : String) : Except Failure Module :=
  match files path with
  | .error e => .error (.unreadable e)
  | .ok text =>
    match Module.read text with
    | some m => .ok m
    | none => .error .badInput

/-- Infer the types of the module in a file. The configuration is read first. -/
def check (fuel : Nat) (files : Files) (modulePath : String) (configPath : Option String) :
    Except Failure TypedProgram :=
  match readConfig files configPath with
  | .error f => .error f
  | .ok config =>
    match readModule files modulePath with
    | .error f => .error f
    | .ok m =>
      match inferModule fuel m config with
      | none => .error .outOfFuel
      | some (.error e) => .error (.infer e)
      | some (.ok typed) => .ok typed

def line (text : String) : String := text ++ "\n"

/-- How many errors were left out, if any were. -/
def suppressedNote (n : Nat) : String :=
  if n = 0 then "" else line (toString n ++ " more type error(s) not shown (solver.max_errors)")

/-- Type errors are printed as diagnostics, every other failure by its message. -/
def Failure.output : Failure → Output
  | .infer (.types errors suppressed) =>
    { code := 1
      stdout := line (Json.pretty 0 (.array (errors.map fun e => e.diagnostic.toJson)))
      stderr := suppressedNote suppressed }
  | f => { code := 1, stderr := line f.message }

def run (fuel : Nat) (files : Files) (args : List String) : Output :=
  match request args with
  | .error f => f.output
  | .ok .help => { code := 0, stdout := line helpText }
  | .ok (.check modulePath configPath) =>
    match check fuel files modulePath configPath with
    | .error f => f.output
    | .ok typed => { code := 0, stdout := line (Json.pretty 0 typed.toJson) }

end Command
end TypeSolver
