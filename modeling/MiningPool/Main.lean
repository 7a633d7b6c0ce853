import MiningPool.CommandLine
import MiningPool.Setup

/-!
# The program

Does what the command line says. A pool that is to serve does so for the miner on standard input and output.
-/

namespace MiningPool

open Net

namespace Program

/-- What is found at a path. What is there but cannot be read counts as a directory. -/
def fileAt (path : String) : IO Settings.File := do
  try
    return .contents (← IO.FS.readBinFile path).toList
  catch
    | .noFileOrDirectory .. => return .missing
    | _ => return .directory

/-- Where the miner on standard input is said to be. -/
def peer : Socket := ⟨.v4 0x7F000001#32, 0#16⟩

/-- Writes what a miner received between two worlds. -/
def writeNews (output : IO.FS.Stream) (before after : World) (id : Nat) : IO Unit := do
  output.write ⟨(World.receivedBetween before after id).toArray⟩
  output.flush

/-- Passes on what the miner sends until it sends no more or its connection is over. -/
partial def serve (input output : IO.FS.Stream) (start id : Nat) (w : World) : IO Unit := do
  let chunk ← input.read 4096
  let now := (← IO.monoNanosNow) - start
  let later := w.advanceTo Source.derived now
  let next := if chunk.isEmpty then later.finish Source.derived id
    else (later.send Source.derived id chunk.toList).2
  writeNews output w next id
  if (next.find? id).any (·.isOpen) then serve input output start id next

/-- Sets the pool up, lets the miner on standard input in and serves it. -/
def run (s : Settings) : IO UInt32 := do
  let start ← IO.monoNanosNow
  match World.setUp s with
  | .error missing =>
    IO.eprintln missing.message
    return 101
  | .ok w =>
    match w.accept Source.derived peer none with
    | (.error why, _) => IO.eprintln why.label
    | (.ok id, w) => serve (← IO.getStdin) (← IO.getStdout) start id w
    return 0

end Program
end MiningPool

open MiningPool

/-- Does what the command line says. -/
def main (args : List String) : IO UInt32 := do
  let path := CommandLine.path args
  let file ← Program.fileAt path
  match CommandLine.action args fun _ => file with
  | .showVersion =>
    IO.println CommandLine.versionText
    return 0
  | .refuse why =>
    IO.eprintln why.message
    return 1
  | .serve s =>
    for w in s.warnings do
      IO.eprintln w.message
    Program.run s
