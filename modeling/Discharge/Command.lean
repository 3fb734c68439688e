import Discharge.Engine.Output
import Discharge.Settings

/-!
Command lines: a verb, paths, and flags among them. The first argument that is no flag is the verb
if it is one; without a verb the paths are proved. A flag has its value behind an equality sign or
in the next argument.
-/

namespace Discharge

inductive Verb where
  | prove
  | watch
  | theorems
  | init
  deriving DecidableEq, Repr, Inhabited

def Verb.named? : String → Option Verb
  | "prove" => some prove
  | "watch" => some watch
  | "theorems" => some theorems
  | "init" => some init
  | _ => none

structure Command where
  verb : Option Verb := none
  paths : List Text := []
  help : Bool := false
  settingsPath : Text := Settings.standardPath
  timeout : Int := 1800000000000
  verbose : Bool := false
  flags : List Settings.Flag := []
  display : Display := {}
  metricsPath : Text := ""
  deriving Inhabited

namespace Command

inductive Misuse where
  | unknownFlag (flag : String)
  | missingValue (flag : String)
  | badValue (flag value : Text) (reason : Settings.Flag.Unfit)
  | noPaths
  | onePath (found : Nat)
  deriving DecidableEq, Repr, Inhabited

def Misuse.message : Misuse → Text
  | unknownFlag flag => "unknown flag: " ++ flag
  | missingValue flag => "flag needs an argument: " ++ flag
  | badValue flag value reason => (Settings.Flag.Misuse.badValue flag value reason).message
  | noPaths => "Please provide file or directory paths"
  | onePath found => "accepts 1 arg(s), received " ++ toString found

/-- The flags that say yes if they stand without a value. -/
def switches : List String :=
  ["help", "verbose", "allow-new-symbols", "no-proof-file", "json", "diff", "no-progress"]

def longName : Char → String
  | 'h' => "help"
  | 'v' => "verbose"
  | 'o' => "output"
  | c => c.toString

def splitValue (arg : List Char) : String × Option String :=
  (String.ofList (arg.takeWhile (· != '=')),
    match arg.dropWhile (· != '=') with
    | [] => none
    | _ :: value => some (String.ofList value))

def flagOf? (arg : String) : Option (String × Option String) :=
  match arg.toList with
  | '-' :: '-' :: rest => some (splitValue rest)
  | '-' :: c :: '=' :: value => some (longName c, some (String.ofList value))
  | ['-', c] => some (longName c, none)
  | '-' :: c :: rest =>
    some (longName c, if switches.contains (longName c) then none else some (String.ofList rest))
  | _ => none

def apply (c : Command) : Settings.Flag → Command
  | .json b => { c with display.json := b }
  | .diff b => { c with display.diff := b }
  | .output path => { c with display.target := path }
  | .metrics path => { c with metricsPath := path }
  | f => { c with flags := c.flags ++ [f] }

/-- The command with a flag set, if it is one of this command. There are flags of proving alone. -/
def set? (c : Command) (name value : String) : Option (Except Settings.Flag.Unfit Command) :=
  match name with
  | "help" => some ((Settings.Flag.readBool value).map fun b => { c with help := b })
  | "config" => some (.ok { c with settingsPath := value })
  | "timeout" => some ((Settings.Flag.readDuration value).map fun n => { c with timeout := n })
  | "verbose" => some ((Settings.Flag.readBool value).map fun b => { c with verbose := b })
  | _ =>
    if c.verb == some .prove then (Settings.Flag.read? name value).map fun f => f.map c.apply
    else none

def knows (c : Command) (name : String) : Bool := (c.set? name "").isSome

def set (c : Command) (name value : String) : Except Misuse Command :=
  match c.set? name value with
  | some c => c.mapError (.badValue name value)
  | none => .error (.unknownFlag ("--" ++ name))

def add (c : Command) (arg : String) : Command :=
  match c.verb, c.paths, Verb.named? arg with
  | none, [], some v => { c with verb := some v }
  | _, _, _ => { c with paths := c.paths ++ [Text.ofString arg] }

/-- Reads arguments in turn. After two dashes alone there are no more flags. -/
def readOn : List String → Command → Except Misuse Command
  | [], c => .ok c
  | arg :: rest, c =>
    if arg == "--" then .ok { c with paths := c.paths ++ rest.map Text.ofString }
    else match flagOf? arg with
      | none => readOn rest (c.add arg)
      | some (name, some value) => do readOn rest (← c.set name value)
      | some (name, none) =>
        if switches.contains name then do readOn rest (← c.set name "true")
        else if !c.knows name then .error (.unknownFlag arg)
        else match rest with
          | [] => .error (.missingValue arg)
          | value :: rest => do readOn rest (← c.set name value)

def read (args : List String) : Except Misuse Command := readOn args {}

inductive Request where
  | help
  | prove (paths : List Text)
  | watch (paths : List Text)
  | listTheorems (path : Text)
  | writeSettings
  deriving DecidableEq, Repr, Inhabited

def request (c : Command) : Except Misuse Request :=
  if c.help then .ok .help
  else match c.verb, c.paths with
    | none, [] => .ok .help
    | none, paths => .ok (.prove paths)
    | some .prove, [] => .error .noPaths
    | some .prove, paths => .ok (.prove paths)
    | some .watch, [] => .ok (.watch ["."])
    | some .watch, paths => .ok (.watch paths)
    | some .theorems, [path] => .ok (.listTheorems path)
    | some .theorems, paths => .error (.onePath paths.length)
    | some .init, _ => .ok .writeSettings

def usage : String :=
  "vcprove - an automated congruence closure prover for verification conditions\n\n" ++
  "Usage:\n" ++
  "  vcprove [paths...]\n" ++
  "  vcprove prove [paths...]    Prove the VCs of module files or directories\n" ++
  "  vcprove watch [dirs...]     Prove module files again whenever they change\n" ++
  "  vcprove theorems <file>     List the rules the prover derives for a module\n" ++
  "  vcprove init                Initialize a new prover configuration file\n\n" ++
  "Flags:\n" ++
  "      --config string         Path to the configuration file\n" ++
  "  -h, --help                  Show this text\n" ++
  "      --timeout duration      Timeout for the whole run\n" ++
  "  -v, --verbose               Log every applied theorem\n\n" ++
  "Flags of prove:\n" ++
  "      --allow-new-symbols     Let theorems introduce symbols that are not in the VC\n" ++
  "      --cache-dir string      Directory of the proof cache (disabled when empty)\n" ++
  "      --diff                  Show how each proof file changed since the last run\n" ++
  "      --jobs int              Number of VCs proved at once\n" ++
  "      --json                  Output results in JSON format\n" ++
  "      --metrics-out string    Write metrics of the run to this file\n" ++
  "      --no-progress           Do not draw a progress bar\n" ++
  "      --no-proof-file         Do not write .proof files\n" ++
  "  -o, --output string         Output path (when using JSON)\n" ++
  "      --tries int             Skip the remaining VCs after this many are not proved\n" ++
  "      --vc-timeout duration   Time budget of a single VC\n"

end Command

def Engine.ofSettings (s : Settings) (run : Text) (clock : Int) (files : Tree) : Engine where
  run
  config := s.search
  writesProofs := !s.noProofFile
  clock
  files
  library := { defaults := s.defaultImports }
  cache := if s.cacheDirectory.isEmpty then none else some {}

end Discharge
