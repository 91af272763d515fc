import PulseSyntax.Command.Run

namespace PulseSyntax.CommandLine

def usage : String :=
  "Usage: pulse tokens [--stdin] [--json] [FILE]\n" ++
  "       pulse parse [--stdin] [--json] [--strict-style] [--max-depth N] [FILE or directory]\n"

/-- The cause of an error of the file system, whose number may come negated. -/
def cause : IO.Error → ReadError
  | .noFileOrDirectory .. => .missing
  | .inappropriateType _ 21 _ => .isDirectory
  | .inappropriateType .. => .notDirectory
  | .permissionDenied .. => .denied
  | .invalidArgument _ 36 _ | .invalidArgument _ 4294967260 _ => .longName
  | e => .other (toString e)

def decoded (bytes : ByteArray) : Except ReadError String :=
  match String.fromUTF8? bytes with
  | some text => .ok text
  | none => .error .notText

def attempt (read : IO ByteArray) : IO (Except ReadError String) := do
  try return decoded (← read) catch e => return .error (cause e)

partial def readAll (stream : IO.FS.Stream) (before : ByteArray) : IO ByteArray := do
  let chunk ← stream.read 65536
  if chunk.isEmpty then return before else readAll stream (before ++ chunk)

def isDirectory (entry : IO.FS.DirEntry) : IO Bool := do
  try return (← entry.path.symlinkMetadata).type == .dir catch _ => return false

/-- The components below a directory and the directories on the way to them, sorted by name. One
    that cannot be listed counts as empty. -/
partial def directory (path : String) : IO FileTree := do
  let listed ← try (← IO.FS.realPath path).readDir catch _ => pure #[]
  let sorted := listed.toList.mergeSort fun a b => decide (a.fileName ≤ b.fileName)
  let entries ← sorted.mapM fun entry => do
    let name := entry.fileName
    let below := Path.join path name
    if ← isDirectory entry then return [(name, ← directory below)]
    else if Path.isComponent name then
      return [(name, FileTree.file (← attempt (IO.FS.readBinFile below)))]
    else return []
  return .directory entries.flatten

/-- What a path leads to; the entries of a directory only where they are asked for. -/
def find (listed : Bool) (path : String) : IO (Except ReadError FileTree) := do
  match ← attempt (IO.FS.readBinFile path) with
  | .error .isDirectory => return .ok (← if listed then directory path else pure (.directory []))
  | .error .missing => return .error .missing
  | .error .notDirectory => return .error .notDirectory
  | .error .longName => return .error .longName
  | content => return .ok (.file content)

/-- Runs a command on the input it names; the code is that of success or failure. -/
def execute (command : Command) : IO UInt32 := do
  let started ← IO.monoNanosNow
  let colored ← (← IO.getStderr).isTty
  let o ← match command.path? with
    | some path => do pure (command.run colored (.ok "") (← find command.listsDirectory path))
    | none => do
      let stdin ← attempt (do readAll (← IO.getStdin) .empty)
      pure (command.run colored stdin (.error .missing))
  IO.print o.out
  IO.eprint o.err
  if let some summary := o.summary then
    let micros := ((← IO.monoNanosNow) - started) / 1000
    IO.eprint (summary.text colored (elapsedText micros))
  return if o.ok then 0 else 1

end PulseSyntax.CommandLine

open PulseSyntax in
def main (args : List String) : IO UInt32 := do
  match Arguments.command args with
  | .ok command => CommandLine.execute command
  | .error .help =>
    IO.print CommandLine.usage
    return 0
  | .error .usage =>
    IO.eprint CommandLine.usage
    return 2
