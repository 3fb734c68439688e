import Discharge.Formula.Reading

namespace Discharge

inductive Interruption where
  | canceled
  | deadline
  deriving DecidableEq, Repr, Inhabited

def Interruption.message : Interruption → Text
  | canceled => "context canceled"
  | deadline => "context deadline exceeded"

inductive FileFault where
  | notFound
  | notDirectory
  | isDirectory
  | alreadyThere
  | invalidPath
  | nameTooLong
  deriving DecidableEq, Repr, Inhabited

def FileFault.message : FileFault → Text
  | notFound => "no such file or directory"
  | notDirectory => "not a directory"
  | isDirectory => "is a directory"
  | alreadyThere => "file exists"
  | invalidPath => "invalid argument"
  | nameTooLong => "file name too long"

inductive Cause where
  | formula (source : Text) (refusal : Formula.Refusal)
  | document
  | endOfInput
  | noSuchModule (name : Text)
  | missingImport (name importer : Text)
  | missingAssertion (module theoremName : Text)
  | shadowedTheorem (name kept dropped : Text)
  | repeatedTheorem (name : Text)
  | repeatedCondition (id : Int)
  | misnamedModule (path declared expected : Text)
  | file (operation path : Text) (fault : FileFault)
  | rename (source target : Text) (fault : FileFault)
  | interrupted (i : Interruption)
  | unknownStatus (text : Text)
  | alreadyWatching
  | other (text : Text)
  deriving DecidableEq, Repr, Inhabited

/-- What the program was doing when it failed. -/
inductive Stage where
  | openingModule
  | decoding (path : Text)
  | importing (name : Text)
  | inFile (path : Text)
  | inTheorem (name : Text)
  | inCondition (id : Int)
  | loadingModule
  | preparingSearch
  | searching (module : Text)
  | creatingProofFile
  | renamingProofFile
  | accessing (path : Text)
  | walking (path : Text)
  | watching
  deriving DecidableEq, Repr, Inhabited

inductive Error where
  | because (cause : Cause)
  | during (stage : Stage) (error : Error)
  | all (errors : List Error)
  deriving Inhabited

def Cause.message : Cause → Text
  | formula source refusal => "parse " ++ Text.quoted source ++ ": " ++ refusal.message
  | document => "<yaml>"
  | endOfInput => "EOF"
  | noSuchModule name => Text.quoted name ++ ": no such module"
  | missingImport name importer =>
    Text.quoted name ++ " imported by " ++ Text.quoted importer ++ ": no such module"
  | missingAssertion module name => "theorem " ++ module ++ "." ++ name ++ ": unexpected symbol"
  | shadowedTheorem name kept dropped =>
    "theorem " ++ name ++ " in " ++ Text.quoted kept ++ " and " ++ Text.quoted dropped ++
      ": duplicate symbol"
  | repeatedTheorem name => "theorem " ++ name ++ ": duplicate symbol"
  | repeatedCondition id => "vc " ++ toString id ++ ": duplicate symbol"
  | misnamedModule path declared expected =>
    "file " ++ path ++ " declares module " ++ Text.quoted declared ++ ", expected " ++
      Text.quoted expected
  | file operation path fault => operation ++ " " ++ path ++ ": " ++ fault.message
  | rename source target fault => "rename " ++ source ++ " " ++ target ++ ": " ++ fault.message
  | interrupted i => i.message
  | unknownStatus text => "unknown status " ++ Text.quoted text
  | alreadyWatching => "already watching"
  | other text => text

def Stage.label : Stage → Text
  | openingModule => "error opening module file"
  | decoding path => "error decoding " ++ path
  | importing name => "import " ++ name
  | inFile path => path
  | inTheorem name => "theorem " ++ name
  | inCondition id => "vc " ++ toString id
  | loadingModule => "error loading module"
  | preparingSearch => "error preparing prover"
  | searching module => "proof run of " ++ module ++ " interrupted"
  | creatingProofFile => "error creating temp proof file"
  | renamingProofFile => "error renaming proof file"
  | accessing path => "error accessing " ++ path
  | walking path => "error walking directory " ++ path
  | watching => "error adding directory to watcher"

namespace Error

mutual

def message : Error → Text
  | because cause => cause.message
  | during stage error => stage.label ++ ": " ++ error.message
  | all errors => Text.intercalate "\n" (messages errors)

def messages : List Error → List Text
  | [] => []
  | e :: rest => e.message :: messages rest

end

mutual

def causes : Error → List Cause
  | because cause => [cause]
  | during _ error => error.causes
  | all errors => causesAll errors

def causesAll : List Error → List Cause
  | [] => []
  | e :: rest => e.causes ++ causesAll rest

end

def join : List Error → Option Error
  | [] => none
  | errors => some (all errors)

end Error

/-- A request that no caller may make. -/
inductive Fault where
  | notBinary (term : Text)
  | unknownSymbol (name : Text)
  | outOfRange (index : Int) (size : Nat)
  | noSuchIndex
  | unfitKey
  deriving DecidableEq, Repr, Inhabited

def Fault.message : Fault → Text
  | notBinary term => "mathexp: " ++ Text.quoted term ++ " is not a binary call form"
  | unknownSymbol name => "congruence: unknown symbol " ++ Text.quoted name
  | outOfRange index size =>
    "congruence: index " ++ toString index ++ " out of range [0, " ++ toString size ++ ")"
  | noSuchIndex => ""
  | unfitKey => ""

inductive Refused where
  | error (e : Error)
  | fault (f : Fault)
  deriving Inhabited

namespace Refused

def ofCause (c : Cause) : Refused := error (.because c)

def during (stage : Stage) : Refused → Refused
  | error e => error (.during stage e)
  | fault f => fault f

end Refused

def Term.sides (t : Term) : Except Fault (Term × Term) :=
  match t.sides? with
  | some sides => .ok sides
  | none => .error (.notBinary t.render)

end Discharge
