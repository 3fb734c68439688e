import Discharge.Command
import Discharge.Engine.Watching
import Discharge.Search.Listing
import Std.Time.DateTime.Timestamp

/-!
The command line. Files are read from below the current directory before a command is carried out,
and those that it changed are written when it has been.
-/

namespace Discharge

def Command.reads (c : Command) (path : Text) : Bool :=
  isModuleFile path || Path.extension path == ".proof" || path == Path.clean c.settingsPath

/-- The tree of a directory entry, whose path is `path`. Links are left out, and so are texts that
do not matter. -/
partial def Command.readTree (c : Command) (path : Text) (entry : IO.FS.DirEntry) :
    IO (Option Tree) := do
  match (← entry.path.symlinkMetadata).type with
  | .dir =>
    let mut entries := []
    for inner in ← entry.path.readDir do
      if let some t ← c.readTree (Path.join path inner.fileName) inner then
        entries := Tree.insertEntry inner.fileName t entries
    return some (.directory entries)
  | .file =>
    if !c.reads path then return some (.file "")
    return some (.file ⟨← IO.FS.readBinFile entry.path⟩)
  | _ => return none

def Command.files (c : Command) : IO Tree := do
  return (← c.readTree "." ⟨← IO.currentDir, "."⟩).getD .empty

def writeUpdates (earlier t : Tree) : IO Unit := do
  for (path, content) in earlier.updates t do
    IO.FS.writeBinFile path.toString content.bytes

def print (text : Text) : IO Unit := do
  let out ← IO.getStdout
  out.write text.bytes
  out.flush

def complain (text : Text) : IO Unit := do
  (← IO.getStderr).write ("error: " ++ text ++ "\n" : Text).bytes

def newRunName : IO Text := do
  return Text.intercalate "-" (← [8, 4, 4, 4, 12].mapM fun width => do
    let n ← IO.rand 0 (Nat.pow 16 width - 1)
    return Text.ofString (String.ofList (Text.hexDigits width n)))

def now : IO Int := return (← Std.Time.Timestamp.now).toSecondsSinceUnixEpoch.val

def Settings.engine (s : Settings) (files : Tree) : IO Engine := do
  return .ofSettings s (← newRunName) (← now) files

def Command.withSettings (c : Command) (f : Settings → Tree → IO UInt32) : IO UInt32 := do
  let files ← c.files
  match Settings.ofFile files c.settingsPath with
  | .error (.fault f) =>
    complain f.message
    return 2
  | .error (.error e) =>
    complain ("Failed to load configuration: " ++ e.message)
    return 1
  | .ok s => f (c.flags.foldl Settings.set s) files

def Engine.finishedCount (e : Engine) : Nat :=
  e.events.countP fun
    | .finished .. => true
    | _ => false

/-- Lets an engine work with ever more looks, until they suffice for every condition or the time for
the conditions is over. Each time it begins as it was. -/
partial def Engine.workUntil {α : Type} (e : Engine) (latest : Nat) (work : Engine → α × Engine)
    (looks : Nat) : IO (α × Engine) := do
  let began ← IO.monoNanosNow
  let (a, e') ← IO.lazyPure fun _ =>
    work { e with
      session.lookLimit := some looks
      session.exhausted := false
      events := [] }
  let ended ← IO.monoNanosNow
  let allowed := e.config.patience * 1000 * max 1 e'.finishedCount
  if e'.session.exhausted && ended - began < allowed && ended < latest then
    e.workUntil latest work (2 * looks)
  else return (a, e')

def Command.work {α : Type} (c : Command) (e : Engine) (work : Engine → α × Engine) :
    IO (α × Engine) := do
  e.workUntil ((← IO.monoNanosNow) + c.timeout.toNat) work 64

def logSteps (events : List Search.Event) : IO Unit := do
  for event in events do
    if let .step id rule fact := event then
      let line : Text := "[" ++ toString id ++ "] " ++ rule ++ ": " ++ fact ++ "\n"
      (← IO.getStderr).write line.bytes

def Command.prove (c : Command) (paths : List Text) : IO UInt32 :=
  c.withSettings fun s files => do
    let e ← s.engine files
    let d := { c.display with colours := ← (← IO.getStdout).isTty }
    match ← c.work e fun e => e.provePaths none paths d with
    | (.error f, _) =>
      complain f.message
      return 2
    | (.ok r, e) =>
      if c.verbose then logSteps e.events
      if let some error := r.error then complain error.message
      print r.text
      writeUpdates files e.files
      unless c.metricsPath.isEmpty do
        let text := Text.join (e.metrics.counters.map fun (name, n) =>
          name ++ " " ++ toString n ++ "\n")
        IO.FS.writeBinFile c.metricsPath.toString text.bytes
      return if r.failed || r.error.isSome then 1 else 0

def Command.listTheorems (c : Command) (path : Text) : IO UInt32 :=
  c.withSettings fun s files => do
    match s.listTheorems files path with
    | .ok text =>
      print text
      return 0
    | .error (.error e) =>
      complain e.message
      return 1
    | .error (.fault f) =>
      complain f.message
      return 2

def Command.writeSettings (c : Command) : IO UInt32 := do
  let files ← c.files
  match Settings.writeStandard files c.settingsPath with
  | .error e => complain e.message
  | .ok updated =>
    writeUpdates files updated
    print ("Configuration file created/updated: " ++ c.settingsPath ++ "\n")
  return 0

def isBelow (paths : List Text) (path : Text) : Bool :=
  paths.any fun p => p == "." || path == p || path.startsWith (p ++ "/")

partial def Command.watchOn (c : Command) (paths : List Text) (e : Engine) : IO UInt32 := do
  IO.sleep 500
  let files ← c.files
  let changes := FileChange.between e.files files
  let mut e := { e with files := files, clock := ← now }
  for (path, change) in changes do
    if isBelow paths path then
      let (outcome, e') ← c.work e fun e => e.react path [change]
      e := e'
      match outcome with
      | none => pure ()
      | some (.error f) => complain f.message
      | some (.ok o) => print (o.render (← (← IO.getStdout).isTty))
  writeUpdates files e.files
  c.watchOn paths e

def Command.watch (c : Command) (paths : List Text) : IO UInt32 :=
  c.withSettings fun s files => do
    match (← s.engine files).watch paths with
    | .error e =>
      complain ("Failed to watch: " ++ e.message)
      return 1
    | .ok e =>
      print ("Watching [" ++ Text.intercalate " " paths ++
        "] for changes, press Ctrl+C to stop\n")
      c.watchOn (paths.map Path.clean) e

def Command.run (c : Command) : Command.Request → IO UInt32
  | .help => do
    IO.print Command.usage
    return 0
  | .prove paths => c.prove paths
  | .watch paths => c.watch paths
  | .listTheorems path => c.listTheorems path
  | .writeSettings => c.writeSettings

end Discharge

def main (args : List String) : IO UInt32 := do
  match Discharge.Command.read args with
  | .error misuse =>
    Discharge.complain misuse.message
    return 1
  | .ok c =>
    match c.request with
    | .error misuse =>
      Discharge.complain misuse.message
      return 1
    | .ok request => c.run request
