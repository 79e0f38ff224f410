import Resumable.Tool.Batch
import Resumable.Tool.Report

/-!
# The command line

    instrument FILE.. -o DIR [--classpath DIR].. [--allow-blocking] [--allow-monitors] [-f]
    check FILE.. [--json]
    dump FILE [--json]

Options may stand anywhere, and `-v` and `--debug` go with every command. The value of an option is
the next word, or follows it behind `=`. Behind `--` no word is an option.
-/

namespace Resumable

/-- An option without a value. -/
inductive Flag where
  | verbose
  | debug
  | allowBlocking
  | allowMonitors
  | force
  | json
  deriving DecidableEq, Repr

/-- An option with a value. -/
inductive Setting where
  | target
  | classpath
  deriving DecidableEq, Repr

/-- A word of the command line. -/
inductive Word where
  | flag (f : Flag)
  | setting (s : Setting) (value : String)
  | plain (text : String)
  deriving DecidableEq, Repr

/-- Why a command line makes no sense. -/
inductive UsageError where
  | noCommand
  | unknownCommand (word : String)
  | unexpected (word : String)
  | noValue (option : String)
  | missing (what : String)
  deriving DecidableEq, Repr

def UsageError.message : UsageError → String
  | .noCommand => "a command is required: instrument, check or dump"
  | .unknownCommand word => s!"unrecognized command '{word}'"
  | .unexpected word => s!"unexpected argument '{word}' found"
  | .noValue option => s!"a value is required for '{option}' but none was supplied"
  | .missing what => s!"the following required arguments were not provided: {what}"

/-- What a command line asks for. -/
inductive Command where
  | instrument (batch : Batch)
  | check (inputs : List Path) (asJson : Bool)
  | dump (input : Path) (asJson : Bool)
  deriving Repr

namespace Flag

def ofWord? : String → Option Flag
  | "-v" | "--verbose" => some verbose
  | "--debug" => some debug
  | "--allow-blocking" => some allowBlocking
  | "--allow-monitors" => some allowMonitors
  | "-f" | "--force" => some force
  | "--json" => some json
  | _ => none

def text : Flag → String
  | verbose => "--verbose"
  | debug => "--debug"
  | allowBlocking => "--allow-blocking"
  | allowMonitors => "--allow-monitors"
  | force => "--force"
  | json => "--json"

end Flag

def Setting.ofWord? : String → Option Setting
  | "-o" | "--out-dir" => some .target
  | "--classpath" => some .classpath
  | _ => none

/-- Cuts a word at its first equals sign. -/
def cutAtEquals (word : String) : String × Option String :=
  let name := word.toList.takeWhile (· != '=')
  (String.ofList name, if name.length < word.length then
    some (String.ofList (word.toList.drop (name.length + 1))) else none)

/-- Tells the options from the other words. `open?` is an option that waits for its value. -/
def words : (open? : Option (String × Setting)) → List String → Except UsageError (List Word)
  | none, [] => .ok []
  | some (option, _), [] => .error (.noValue option)
  | some (_, s), value :: rest => return .setting s value :: (← words none rest)
  | none, word :: rest =>
    if word = "--" then .ok (rest.map .plain)
    else if word = "-" || word.toList.head? != some '-' then
      return .plain word :: (← words none rest)
    else
      let (name, value?) := cutAtEquals word
      match Flag.ofWord? word, Setting.ofWord? name, value? with
      | some f, _, _ => return .flag f :: (← words none rest)
      | none, some s, some value => return .setting s value :: (← words none rest)
      | none, some s, none => words (some (word, s)) rest
      | none, none, _ => .error (.unexpected word)

namespace Word

def plain? : Word → Option String
  | .plain text => some text
  | _ => none

def value? (s : Setting) : Word → Option String
  | .setting s' value => if s = s' then some value else none
  | _ => none

/-- Refuses options that the command has no use for. -/
def onlyFlags (flags : List Flag) (ws : List Word) : Except UsageError Unit :=
  ws.forM fun
    | .flag f =>
      if (.verbose :: .debug :: flags).contains f then .ok () else .error (.unexpected f.text)
    | .setting _ value => .error (.unexpected value)
    | .plain _ => .ok ()

end Word

namespace Command

/-- The paths of a command that needs at least one. -/
def inputs (texts : List String) : Except UsageError (List Path) :=
  if texts.isEmpty then .error (.missing "<INPUTS>...") else .ok (texts.map Path.ofText)

/-- The batch that the words describe. -/
def batch (ws : List Word) (texts : List String) : Except UsageError Batch := do
  let target ← match ws.filterMap (Word.value? .target) with
    | [target] => pure target
    | [] => throw (.missing "--out-dir <OUT_DIR>")
    | _ :: extra :: _ => throw (.unexpected extra)
  if ws.contains (.flag .json) then throw (.unexpected Flag.json.text)
  return {
    inputs := ← inputs texts
    target := .ofText target
    classpath := (ws.filterMap (Word.value? .classpath)).map Path.ofText
    options := {
      allowBlocking := ws.contains (.flag .allowBlocking)
      allowMonitors := ws.contains (.flag .allowMonitors)
      verbose := ws.contains (.flag .verbose)
      debug := ws.contains (.flag .debug)
      force := ws.contains (.flag .force) } }

/-- The command that a command line spells. -/
def ofArguments (arguments : List String) : Except UsageError Command := do
  let ws ← words none arguments
  let asJson := ws.contains (.flag .json)
  match ws.filterMap Word.plain? with
  | [] => throw .noCommand
  | "instrument" :: texts => return .instrument (← batch ws texts)
  | "check" :: texts =>
    Word.onlyFlags [.json] ws
    return .check (← inputs texts) asJson
  | "dump" :: texts =>
    Word.onlyFlags [.json] ws
    match texts with
    | [] => throw (.missing "<FILE>")
    | [text] => return .dump (.ofText text) asJson
    | _ :: extra :: _ => throw (.unexpected extra)
  | word :: _ => throw (.unknownCommand word)

/-- All paths that a command reads from. -/
def sources : Command → List Path
  | .instrument b => b.inputs ++ b.classpath
  | .check inputs _ => inputs
  | .dump input _ => [input]

end Command

/-- What a command comes to: what is printed, what is told beside it, and the files to write. -/
structure Outcome where
  output : String := ""
  /-- Lines for the reader, not part of the output. -/
  remarks : List String := []
  files : List (Place × Node) := []
  /-- Why the command fails, if it does. -/
  failure : Option String := none
  deriving Repr, Inhabited

namespace Command

/-- Everything in a tree that is not the same in an older one, in the order in which it came. -/
def changes (t old : FileTree) : List (Place × Node) :=
  (t.nodes.filter fun (place, node) => old.node? place != some node).reverse

def runBatch (b : Batch) (t : FileTree) : Outcome :=
  let (ending, s) := b.run t
  let notices := s.database.notices.map fun (level, text) => s!"{level.name}: {text}"
  let files := changes s.tree t
  match ending with
  | .error e => { remarks := notices, files, failure := some e.message }
  | .ok () =>
    { output := s.report.summary ++ "\n"
      remarks := notices ++ s.report.failed.map fun (_, e) => s!"error: {e.message}"
      files
      failure := s.report.complaint? }

/-- Runs a command on a tree. -/
def run (t : FileTree) : Command → Outcome
  | .instrument b => runBatch b t
  | .check inputs asJson =>
    match checkUnits t inputs with
    | .error e => { failure := some e.message }
    | .ok statuses =>
      { output := if asJson then (statusJson statuses).compact ++ "\n" else statusText statuses }
  | .dump input asJson =>
    match showUnit t input asJson with
    | .error e => { failure := some e.message }
    | .ok text => { output := text ++ "\n" }

end Command

end Resumable
