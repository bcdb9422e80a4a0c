import GzLang.Command.Compile
import GzLang.Command.Interface
import Std.Time.DateTime.Timestamp

/-!
# The program

The commands work on a disk that is read from the working directory first; what they changed is
written back afterwards. The first argument may name another command than the compiler:
`interpret` or `interface`.
-/

namespace GzLang.Main

/-- Read a directory with all below it; hidden names are left out. -/
partial def readTree (path : String) (d : Disk) : IO Disk := do
  let here ← IO.FS.realPath (if path.isEmpty then "." else path)
  (← here.readDir).foldlM (fun d e => do
    let name := Disk.join path e.fileName
    if e.fileName.startsWith "." && e.fileName ≠ ".gz" then return d
    if ← e.path.isDir then readTree name (d.place name .directory)
    else
      let bytes ← IO.FS.readBinFile name
      return d.place name (.file (Content.ofBytes (bytes.toList.map UInt8.toNat)))) d

def textAt? (d : Disk) (path : String) : Option String :=
  match d.content path with
  | .ok (.text s) => some s
  | _ => none

def writeChanges (before after : Disk) : IO Unit :=
  after.forM fun (path, node) => do
    match node with
    | .directory => IO.FS.createDirAll path
    | .file (.text s) => if textAt? before path ≠ some s then IO.FS.writeFile path s
    | .file _ => return ()

def commandOf : List String → Job Command.Exit
  | "interpret" :: args => Command.interpret true args
  | "interface" :: args => Command.compileInterface args
  | args => Command.compile {} args

end GzLang.Main

def main (args : List String) : IO UInt32 := do
  let disk ← GzLang.Main.readTree "" []
  let now ← Std.Time.Timestamp.now
  let clock := Float.ofInt now.toMillisecondsSinceUnixEpoch.val / 1000
  let (result, w) := (GzLang.Main.commandOf args).perform { disk, clock }
  GzLang.Main.writeChanges disk w.disk
  IO.print w.out
  w.log.forM fun line => IO.eprintln line
  IO.eprint w.err
  match result with
  | .ok exit => return (exit.getD 0).toUInt32
  | .error f =>
    IO.eprintln f.report
    return 1
