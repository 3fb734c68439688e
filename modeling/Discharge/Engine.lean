import Discharge.Cache.Fingerprint
import Discharge.Cache.Store
import Discharge.Library.Loading
import Discharge.ProofText.File
import Discharge.ProofText.Summary
import Discharge.Report.Totals
import Discharge.Search.Prover

/-!
Engines prove module files one after another. An engine keeps the modules that it has loaded and, if
it is told to, the results that it may use again; it reads and writes a tree of files.
-/

namespace Discharge

open Search

structure Engine where
  run : Text := ""
  config : Config := {}
  writesProofs : Bool := true
  /-- The time in seconds that proof files are dated with, and the zone they give it in. -/
  clock : Int := 0
  zone : Time.Zone := .utc
  files : Tree
  library : Library := {}
  cache : Option Cache.Store := none
  metrics : Metrics := {}
  session : Session := {}
  isWatching : Bool := false
  events : List Event := []
  deriving Inhabited

structure Outcome where
  report : Option Report := none
  error : Option Error := none
  deriving Inhabited

namespace Engine

/-- The keys that the results of a module's conditions are remembered by. -/
def keys (e : Engine) (m : Module) : List Text :=
  let theorems := Cache.theoremsDigest (e.library.theorems m.name .transitive).theorems
  let symbols := Cache.symbolsDigest (e.library.kinds m.name) (e.library.hasIntegerSorts m.name)
  m.conditions.map fun c => Cache.key m.name c theorems symbols e.config

/-- The remembered result of a key, if it is one that nothing can change. -/
def remembered? (e : Engine) (key : Text) : Option Result := do
  let r ← (← e.cache).get? key
  if r.status.isTerminal then some { r with cached := true } else none

structure Task where
  condition : Condition
  key : Text
  known : Option Result
  deriving Inhabited

def Task.isOpen (t : Task) : Bool := t.known.isNone

def tasks (e : Engine) (m : Module) : List Task :=
  (m.conditions.zip (e.keys m)).map fun (c, key) => ⟨c, key, e.remembered? key⟩

def fill : List Task → List Result → List Result
  | [], _ => []
  | ⟨_, _, some r⟩ :: rest, new => r :: fill rest new
  | ⟨_, _, none⟩ :: rest, r :: new => r :: fill rest new
  | ⟨_, _, none⟩ :: rest, [] => fill rest []

def remember (e : Engine) (results : List (Text × Result)) : Engine :=
  { e with cache := e.cache.map fun s => results.foldl (fun s (key, r) => s.set key r) s }

def search (e : Engine) (tasks : List Task) (p : Prover) (interruption : Option Interruption) :
    List Result × Nat × Engine :=
  let (r, _) := p.start e.metrics { e.session with interruption }
  let e := e.remember (((tasks.filter Task.isOpen).map Task.key).zip r.results)
  (fill tasks r.results, milliseconds r.ticks,
    { e with
      metrics := r.metrics
      session := { r.session with interruption := none }
      events := e.events ++ r.events })

def report (e : Engine) (path : Text) (m : Module) (results : List Result) (elapsed : Nat) :
    Report where
  run := e.run
  file := path
  module := m.name
  results := some results
  proof := ProofText.fileContent m.name e.clock (ProofText.body results elapsed) e.zone
  summary := ProofText.summary results elapsed

def writeProof (e : Engine) (r : Report) : Outcome × Engine :=
  if !e.writesProofs then (⟨some r, none⟩, e)
  else
    let path := ProofText.filePath r.file
    let r := { r with proofFile := path, previous := (e.files.read? path).getD "" }
    match ProofText.writeFile e.files path r.proof with
    | .error error => (⟨some r, some error⟩, e)
    | .ok files => (⟨some r, none⟩, { e with files })

def proveModule (e : Engine) (path : Text) (m : Module) (interruption : Option Interruption) :
    Except Fault Outcome × Engine :=
  let tasks := e.tasks m
  match Prover.new m.name ((tasks.filter Task.isOpen).map Task.condition) e.library e.config with
  | .error (.fault f) => (.error f, e)
  | .error (.error error) => (.ok ⟨none, some (.during .preparingSearch error)⟩, e)
  | .ok p =>
    let (results, elapsed, e) := e.search tasks p interruption
    let (outcome, e) := e.writeProof (e.report path m results elapsed)
    let error := outcome.error.or (interruption.map fun i =>
      .during (.searching m.name) (.because (.interrupted i)))
    (.ok { outcome with error }, e)

def prove (e : Engine) (interruption : Option Interruption) (path : Text) :
    Except Fault Outcome × Engine :=
  let (loaded, library) := e.library.load e.files path
  let e := { e with library }
  match loaded with
  | .error (.fault f) => (.error f, e)
  | .error (.error error) => (.ok ⟨none, some (.during .loadingModule error)⟩, e)
  | .ok m => e.proveModule path m interruption

def cancel (e : Engine) : Engine := { e with session.cancelled := true }

/-- An engine of the same kind that has loaded nothing yet. It has the files and the remembered
results of this one. -/
def reopen (e : Engine) : Engine :=
  { e with
    library := { defaults := e.library.defaults }
    metrics := {}
    session := { e.session with cancelled := false, interruption := none }
    isWatching := false
    events := [] }

end Engine

end Discharge
