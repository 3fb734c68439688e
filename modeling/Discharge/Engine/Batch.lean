import Discharge.Engine
import Discharge.Files.Module

namespace Discharge

structure Worker (σ : Type) where
  files : σ → Tree
  interruption : σ → Option Interruption
  prove : Text → σ → Except Fault Outcome × σ

structure Batch where
  reports : List Report := []
  errors : List Error := []
  deriving Inhabited

namespace Batch

def add (b : Batch) (path : Text) (o : Outcome) : Batch where
  reports := b.reports ++ o.report.toList
  errors := b.errors ++ o.error.toList.map (.during (.inFile path))

end Batch

def moduleFiles (files : Tree) (path : Text) : Except Error (List Text) :=
  match files.lookup path with
  | .error fault => .error (.during (.accessing path) (.because (.file "stat" path fault)))
  | .ok (.file _) => .ok (if isModuleFile path then [path] else [])
  | .ok (.directory entries) => .ok ((Tree.pathsOf path entries).filter isModuleFile)

namespace Worker

variable {σ : Type}

/-- Proves files in turn until one may not be begun; that error then stands for all. -/
def proveFiles (w : Worker σ) : List Text → Batch → σ → Except Fault Batch × σ
  | [], b, s => (.ok b, s)
  | path :: rest, b, s =>
    match w.interruption s with
    | some i => (.ok { b with errors := [.because (.interrupted i)] }, s)
    | none =>
      match w.prove path s with
      | (.error f, s) => (.error f, s)
      | (.ok o, s) => w.proveFiles rest (b.add path o) s

def provePath (w : Worker σ) (path : Text) (s : σ) : Except Fault Batch × σ :=
  match moduleFiles (w.files s) path with
  | .error e => (.ok ⟨[], [e]⟩, s)
  | .ok files => w.proveFiles files {} s

/-- Proves what paths stand for. An error after an interruption ends it, and stands for all. -/
def provePaths (w : Worker σ) : List Text → Batch → σ → Except Fault Batch × σ
  | [], b, s => (.ok b, s)
  | path :: rest, b, s =>
    match w.provePath path s with
    | (.error f, s) => (.error f, s)
    | (.ok found, s) =>
      let reports := b.reports ++ found.reports
      if (w.interruption s).isSome && !found.errors.isEmpty then (.ok ⟨reports, found.errors⟩, s)
      else w.provePaths rest ⟨reports, b.errors ++ found.errors⟩ s

end Worker

def Engine.worker (interruption : Option Interruption) : Worker Engine where
  files := Engine.files
  interruption _ := interruption
  prove path e := e.prove interruption path

end Discharge
