import AdaptiveRate.CommandLine.Run

open AdaptiveRate AdaptiveRate.CommandLine

def readConfigFile (path : String) : IO (Except FileFault ByteArray) := do
  try
    return .ok (← IO.FS.readBinFile path)
  catch
    | .noFileOrDirectory .. => return .error .missing
    | .inappropriateType .. => return .error .directory
    | e => return .error (.other (toString e))

def main (args : List String) : IO UInt32 := do
  let (content, filter) ← match Request.read args with
    | .run i =>
      let content ← match i.config with
        | some path => readConfigFile path
        | none => pure (.error .missing)
      pure (content, if i.verbose then Level.debug else Level.warn)
    | _ => pure (.error .missing, Level.warn)
  let exit := CommandLine.run (fun _ ↦ content) args
  for r in LogRecord.passing filter exit.log do
    IO.eprintln r.line
  IO.print exit.stdout
  IO.eprint exit.stderr
  return .ofNat exit.code
