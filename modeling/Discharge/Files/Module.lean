import Discharge.Files.Path

namespace Discharge

def moduleExtensions : List Text := [".vc", ".yaml", ".yml"]

def isModuleFile (path : Text) : Bool := moduleExtensions.contains (Path.extension path)

/-- The name of a module that its file does not name. -/
def moduleNameOf (path : Text) : Text := Path.stem (Path.base path)

end Discharge
