import Discharge.Document.Field
import Discharge.Files.Tree
import Discharge.Search.Attempt

namespace Discharge

open Document.Filler

structure Settings where
  name : Text := "vcprove"
  search : Search.Config := {}
  cacheDirectory : Text := ""
  noProofFile : Bool := false
  defaultImports : List Text := ["Boolean_Theory"]
  deriving DecidableEq, Repr, Inhabited

namespace Settings

def standardPath : Text := ".vcprove.yaml"

def fields : List (FieldReader Settings) :=
  [.of "name" readText fun s name => { s with name },
    .of "timeout" readDuration fun s n => { s with search.timeout := n },
    .of "tries" readInt fun s n => { s with search.tries := n },
    .of "jobs" readInt fun s n => { s with search.jobs := n },
    .of "allow_new_symbols" readBool fun s b => { s with search.allowNew := b },
    .of "show_results_if_not_proved" readBool fun s b => { s with search.showResults := b },
    .of "print_vc_each_step" readBool fun s b => { s with search.printEachStep := b },
    .of "cache_dir" readText fun s path => { s with cacheDirectory := path },
    .of "no_proof_file" readBool fun s b => { s with noProofFile := b },
    .of "default_imports" (readList readText) fun s names => { s with defaultImports := names }]

def ofText (text : Text) : Except Refused Settings :=
  match Document.read (readForm (record fields false) none {}) text with
  | .error (.error (.because .endOfInput)) => .ok {}
  | .error r => .error r
  | .ok s => .ok (s.getD {})

def ofFile (files : Tree) (path : Text) : Except Refused Settings :=
  if path.isEmpty then .ok {}
  else match files.lookup path with
    | .error .notFound => .ok {}
    | .error fault => .error (.ofCause (.file "open" path fault))
    | .ok (.directory _) => .error (.ofCause .document)
    | .ok (.file text) => ofText text

def flagText (b : Bool) : Text := if b then "true" else "false"

def standardText : Text :=
  let s : Settings := {}
  "name: " ++ s.name ++ "\n" ++
  "timeout: " ++ Time.durationText s.search.timeout ++ "\n" ++
  "tries: " ++ toString s.search.tries ++ "\n" ++
  "jobs: " ++ toString s.search.jobs ++ "\n" ++
  "allow_new_symbols: " ++ flagText s.search.allowNew ++ "\n" ++
  "show_results_if_not_proved: " ++ flagText s.search.showResults ++ "\n" ++
  "print_vc_each_step: " ++ flagText s.search.printEachStep ++ "\n" ++
  "cache_dir: \"" ++ s.cacheDirectory ++ "\"\n" ++
  "no_proof_file: " ++ flagText s.noProofFile ++ "\n" ++
  "default_imports:\n" ++ Text.join (s.defaultImports.map fun name => "    - " ++ name ++ "\n")

def writeStandard (files : Tree) (path : Text) : Except Error Tree :=
  let path := if path.isEmpty then standardPath else path
  match files.write path standardText with
  | .ok files => .ok files
  | .error fault => .error (.because (.file "open" path fault))

inductive Flag where
  | timeout (nanoseconds : Int)
  | tries (n : Int)
  | jobs (n : Int)
  | allowNew (b : Bool)
  | cacheDirectory (path : Text)
  | noProofFile (b : Bool)
  | json (b : Bool)
  | diff (b : Bool)
  | noProgress (b : Bool)
  | output (path : Text)
  | metrics (path : Text)
  deriving DecidableEq, Repr, Inhabited

namespace Flag

inductive Unfit where
  | truth
  | number (fault : Decimal.NumeralFault)
  | duration (fault : Time.DurationFault)
  deriving DecidableEq, Repr, Inhabited

def Unfit.message (value : Text) : Unfit → Text
  | truth => "strconv.ParseBool: parsing " ++ Text.quoted value ++ ": invalid syntax"
  | number fault =>
    "strconv.ParseInt: parsing " ++ Text.quoted value ++ ": " ++
      match fault with
      | .malformed => "invalid syntax"
      | .outOfRange => "value out of range"
  | duration fault => fault.message value.toString

inductive Misuse where
  | unknown (name : Text)
  | badValue (name value : Text) (reason : Unfit)
  deriving DecidableEq, Repr, Inhabited

def Misuse.message : Misuse → Text
  | unknown name => "no such flag -" ++ name
  | badValue name value reason =>
    "invalid argument " ++ Text.quoted value ++ " for " ++ Text.quoted ("--" ++ name) ++
      " flag: " ++ reason.message value

def readBool (value : Text) : Except Unfit Bool :=
  if value.isOneOf ["1", "t", "T", "true", "True", "TRUE"] then .ok true
  else if value.isOneOf ["0", "f", "F", "false", "False", "FALSE"] then .ok false
  else .error .truth

def readInt (value : Text) : Except Unfit Int := (Decimal.readWord value.chars).mapError .number

def readDuration (value : Text) : Except Unfit Int :=
  (Time.readDuration value.toString).mapError .duration

def read? (name value : Text) : Option (Except Unfit Flag) :=
  match name.toString with
  | "vc-timeout" => some ((readDuration value).map timeout)
  | "tries" => some ((readInt value).map tries)
  | "jobs" => some ((readInt value).map jobs)
  | "allow-new-symbols" => some ((readBool value).map allowNew)
  | "cache-dir" => some (.ok (cacheDirectory value))
  | "no-proof-file" => some ((readBool value).map noProofFile)
  | "json" => some ((readBool value).map json)
  | "diff" => some ((readBool value).map diff)
  | "no-progress" => some ((readBool value).map noProgress)
  | "output" => some (.ok (output value))
  | "metrics-out" => some (.ok (metrics value))
  | _ => none

def read (name value : Text) : Except Misuse Flag :=
  match read? name value with
  | some f => f.mapError (.badValue name value)
  | none => .error (.unknown name)

end Flag

def set (s : Settings) : Flag → Settings
  | .timeout n => { s with search.timeout := n }
  | .tries n => { s with search.tries := n }
  | .jobs n => { s with search.jobs := n }
  | .allowNew b => { s with search.allowNew := b }
  | .cacheDirectory path => { s with cacheDirectory := path }
  | .noProofFile b => { s with noProofFile := b }
  | .json _ | .diff _ | .noProgress _ | .output _ | .metrics _ => s

end Settings

end Discharge
