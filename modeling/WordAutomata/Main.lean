import WordAutomata.Tool.Run

open WordAutomata

/-- Whether a path can be opened but not read. -/
def isFolder (path : String) : IO Bool := do
  let opened ← (IO.FS.Handle.mk path .read).toBaseIO
  match opened with
  | .error _ => return false
  | .ok handle => match ← (handle.read 1).toBaseIO with
    | .error _ => return true
    | .ok _ => return false

/-- The part of the file system that some paths lead through. -/
def gather (paths : List String) : IO Directory := do
  let mut d : Directory := ⟨[], []⟩
  for path in paths do
    let mut place := Directory.start path
    for part in Directory.parts path do
      place := Directory.advance place part
      if ← isFolder place then d := { d with folders := place :: d.folders }
      else match ← (IO.FS.readBinFile place).toBaseIO with
        | .ok data => d := d.put place data.data
        | .error _ => pure ()
  return d

/-- Looks up the files that the arguments name, runs the command, and stores what has changed. -/
def main (args : List String) : IO UInt32 := do
  let before ← gather args
  let (outcome, after) := Tool.run before args
  for (place, data) in after.files do
    if before.get? place ≠ some data then IO.FS.writeBinFile place ⟨data⟩
  (← IO.getStdout).write ⟨outcome.stdout.toArray⟩
  match outcome.ending with
  | .failed f => IO.eprint f.report
  | .misused => IO.eprint Tool.usage
  | .faulty f => IO.eprintln f.message
  | .success => pure ()
  return UInt32.ofNat outcome.code
