import Conjunct.Command.Program

/-!
# Entry point

The files that a run uses are brought into a storage, the run is carried out on it, and the files
that it has changed are written back. Which files are used depends on what is in some of them, so
they are brought in by rounds: the settings, then the query and the schema, then the relations.
-/

namespace Conjunct

/-- Bring what is at a path into a storage, with the directories on the way to it. -/
def bringIn (storage : Storage) (path : Path) : IO Storage := do
  let here ← IO.currentDir
  let mut storage := storage
  let mut lead := if path.isAbsolute then "/" else ""
  for name in path.names do
    lead := Path.join lead name
    let target := here / lead
    if ← target.isDir then
      storage := (storage.addDirectory lead).toOption.getD storage
    else if (← target.pathExists) && (storage.find lead).toOption.isNone then
      let bytes ← IO.FS.readBinFile target
      storage := (storage.addFile lead bytes).toOption.getD storage
  return storage

/-- Bring in all files that an invocation uses. -/
def bringInAll (i : Invocation) : IO Storage := do
  let here ← IO.currentDir
  let mut storage := Storage.withWorking (here.toString.splitOn "/" |>.filter (· ≠ ""))
  for _ in [0, 1, 2] do
    for path in Program.paths storage i do
      storage ← bringIn storage path
  return storage

/-- Write the files back that a run has changed. -/
def writeBack (before after : Storage) : IO Unit := do
  for (place, bytes) in before.changedSince after do
    IO.FS.writeBinFile ("/" ++ Text.joined "/" place) bytes

/-- Pass on what a run has printed and reported. -/
def finish (o : Outcome) : IO UInt32 := do
  IO.print o.printed
  IO.eprint o.reported
  return UInt32.ofNat o.code

end Conjunct

open Conjunct in
/-- The entry point of the program. -/
def main (args : List String) : IO UInt32 := do
  match Arguments.read args with
  | .error e => finish (Program.refuse (Storage.withWorking []) e)
  | .ok i =>
    let storage ← bringInAll i
    let start ← IO.monoMsNow
    let (failure?, s) ← IO.lazyPure fun () => (Program.attempt i).run (Program.session storage)
    let elapsed := (← IO.monoMsNow) - start
    writeBack storage s.storage
    finish (Program.conclude failure? s elapsed)
