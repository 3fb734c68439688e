import Discharge.Digest.Sha256
import Discharge.Library
import Discharge.Search.Attempt
import Discharge.Time.Duration

/-!
What the outcome of an attempt depends on, as texts, and their digests. Theorems and symbols are
listed in the order of their lines, so that it does not matter in which order they were found.
-/

namespace Discharge.Cache

def theoremLine (t : Theorem) : Text :=
  t.module ++ "." ++ t.name ++ ": " ++ t.assertion.render

def theoremsText (theorems : List Theorem) : Text :=
  Text.intercalate "\n" (Text.sorted (theorems.map theoremLine))

def flagText (b : Bool) : Text := if b then "true" else "false"

def symbolsText (symbols : List (Text × Kind)) (integerSorts : Bool) : Text :=
  "integer_sorts=" ++ flagText integerSorts ++ "\n" ++
    Text.intercalate "\n" (Text.sorted (symbols.map fun (name, k) => name ++ ": " ++ k.name))

/-- All that decides the outcome of a condition, given the digests of what its module sees. -/
def keyText (module : Text) (c : Condition) (theorems symbols : Text) (config : Search.Config) :
    Text :=
  "module=" ++ module ++ "\n" ++
  "vc=" ++ toString c.id ++ " " ++ c.sequent.render ++ "\n" ++
  "theorems=" ++ theorems ++ "\n" ++
  "symbols=" ++ symbols ++ "\n" ++
  "timeout=" ++ Time.durationText config.timeout ++
    " allow_new_symbols=" ++ flagText config.allowNew ++ "\n"

def theoremsDigest (theorems : List Theorem) : Text :=
  Digest.hexDigest (theoremsText theorems)

def symbolsDigest (symbols : List (Text × Kind)) (integerSorts : Bool) : Text :=
  Digest.hexDigest (symbolsText symbols integerSorts)

def key (module : Text) (c : Condition) (theorems symbols : Text) (config : Search.Config) :
    Text :=
  Digest.hexDigest (keyText module c theorems symbols config)

end Discharge.Cache
