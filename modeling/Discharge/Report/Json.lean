import Discharge.Report.Totals
import Discharge.Text.Quoted

namespace Discharge.Report

inductive JsonValue where
  | null
  | flag (b : Bool)
  | number (n : Int)
  | text (s : Text)
  | list (items : List JsonValue)
  | record (fields : List (Text × JsonValue))
  deriving Inhabited

namespace JsonValue

def escaped (c : Char) : List Char :=
  if c == '"' || c == '\\' then ['\\', c]
  else match c.toNat with
    | 0x08 => ['\\', 'b']
    | 0x0C => ['\\', 'f']
    | 0x0A => ['\\', 'n']
    | 0x0D => ['\\', 'r']
    | 0x09 => ['\\', 't']
    | n =>
      if n < 0x20 || c == '<' || c == '>' || c == '&' || n == 0x2028 || n == 0x2029 then
        '\\' :: 'u' :: Text.hexDigits 4 n
      else [c]

def quoted (s : Text) : Text := String.ofList ('"' :: s.chars.flatMap escaped ++ ['"'])

def newline (depth : Nat) : Text := "\n" ++ String.ofList (List.replicate (2 * depth) ' ')

def enclose (opening closing : Text) (depth : Nat) (items : List Text) : Text :=
  if items.isEmpty then opening ++ closing
  else opening ++ newline (depth + 1) ++ Text.intercalate ("," ++ newline (depth + 1)) items ++
    newline depth ++ closing

mutual

def render (depth : Nat) : JsonValue → Text
  | null => "null"
  | flag b => if b then "true" else "false"
  | number n => toString n
  | text s => quoted s
  | list items => enclose "[" "]" depth (renderItems (depth + 1) items)
  | record fields => enclose "\x7b" "\x7d" depth (renderFields (depth + 1) fields)

def renderItems (depth : Nat) : List JsonValue → List Text
  | [] => []
  | v :: rest => v.render depth :: renderItems depth rest

def renderFields (depth : Nat) : List (Text × JsonValue) → List Text
  | [] => []
  | (name, v) :: rest => (quoted name ++ ": " ++ v.render depth) :: renderFields depth rest

end

def whenTrue (name : Text) (b : Bool) : List (Text × JsonValue) :=
  if b then [(name, flag true)] else []

def unlessEmpty (name s : Text) : List (Text × JsonValue) :=
  if s.isEmpty then [] else [(name, text s)]

end JsonValue

open JsonValue

def locationJson (l : Location) : JsonValue :=
  record [("file", text l.file), ("line", number l.line), ("column", number l.column)]

def resultJson (r : Result) : JsonValue :=
  record (List.flatten [
    [("id", number r.id), ("explanation", text r.explanation),
      ("location", locationJson r.location), ("status", text r.status.name)],
    whenTrue "skipped" r.skipped, whenTrue "cached" r.cached,
    [("steps", number r.steps), ("duration", number r.duration)],
    unlessEmpty "trace" r.trace])

def toJson (r : Report) : JsonValue :=
  let results := match r.results with
    | none => null
    | some results => list (results.map resultJson)
  record (List.flatten [
    [("run_id", text r.run), ("file", text r.file), ("module", text r.module)],
    unlessEmpty "proof_file" r.proofFile, [("results", results)]])

def renderJson (reports : List Report) : Text :=
  (list (reports.map toJson)).render 0

end Discharge.Report
