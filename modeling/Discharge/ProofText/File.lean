import Discharge.Files.Tree
import Discharge.Time.Calendar

namespace Discharge.ProofText

/-- The proof file of a module file has its path with another extension. -/
def filePath (source : Text) : Text := Path.stem source ++ ".proof"

def fileContent (module : Text) (seconds : Int) (body : Text) (zone : Time.Zone := .utc) : Text :=
  "Proofs for " ++ module ++ " generated " ++ Time.dateText zone seconds ++ "\n\n" ++ body ++ "\n"

def temporaryPath (path : Text) : Text := Path.directory path ++ "/.proof-*"

/-- Writes a proof file. The text goes to a temporary file beside it first, which then takes its
place, so that nobody sees a part of it. A directory is not replaced. -/
def writeFile (files : Tree) (path content : Text) : Except Error Tree :=
  let refuse (fault : FileFault) : Except Error Tree :=
    .error (.during .creatingProofFile (.because (.file "open" (temporaryPath path) fault)))
  match files.lookup (Path.directory path) with
  | .error fault => refuse fault
  | .ok (.file _) => refuse .notDirectory
  | .ok (.directory _) =>
    match files.write path content with
    | .ok files => .ok files
    | .error fault =>
      let fault := if fault = .isDirectory then .alreadyThere else fault
      .error (.during .renamingProofFile (.because (.rename (temporaryPath path) path fault)))

end Discharge.ProofText
