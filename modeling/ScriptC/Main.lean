import ScriptC.Command.Run

/-!
The command line.
-/

namespace ScriptC

def FileFault.ofError : IO.Error → FileFault
  | .noFileOrDirectory .. => .missing
  | .inappropriateType _ 20 _ => .notDirectory
  | .inappropriateType .. => .isDirectory
  | .invalidArgument _ 36 _ => .nameTooLong
  | .invalidArgument .. => .malformedName
  | e => .other (toString e)

def disk : FileSystem IO where
  read path := do
    match ← (IO.FS.Handle.mk path .read).toBaseIO with
    | .error e => return .error ⟨.opening, path, .ofError e⟩
    | .ok handle =>
      match ← handle.readBinToEnd.toBaseIO with
      | .error e => return .error ⟨.reading, path, .ofError e⟩
      | .ok bytes => return .ok bytes.toList
  write path text := do
    match ← (IO.FS.Handle.mk path .write).toBaseIO with
    | .error e => return .error ⟨.opening, path, .ofError e⟩
    | .ok handle =>
      match ← (handle.putStr text).toBaseIO with
      | .error e => return .error ⟨.writing, path, .ofError e⟩
      | .ok () => return .ok ()

end ScriptC

open ScriptC in
def main (words : List String) : IO UInt32 := do
  let names := Settings.variableNames
  let values ← names.mapM fun name => return (name, ← IO.getEnv name)
  let report ← Command.run disk (fun name => (values.lookup name).join) words
  (← IO.getStdout).putStr report.stdout
  (← IO.getStderr).putStr report.stderr
  return report.exit.toUInt32
