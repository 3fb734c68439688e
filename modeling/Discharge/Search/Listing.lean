import Discharge.Library.Loading
import Discharge.Search.Prover
import Discharge.Settings

namespace Discharge

def Search.Prover.listing (p : Prover) : Text :=
  toString p.rules.size ++ " rules for " ++ p.module ++ "\n\n" ++
    Text.join (p.rules.toList.map fun r => r.render ++ "\n\n") ++
    "non-quantified symbols: " ++ Text.intercalate " " p.helpers ++ "\n"

def Settings.listTheorems (s : Settings) (files : Tree) (path : Text) : Except Refused Text :=
  match Library.load { defaults := s.defaultImports } files path with
  | (.error r, _) => .error r
  | (.ok m, library) => (Search.Prover.new m.name [] library s.search).map Search.Prover.listing

end Discharge
