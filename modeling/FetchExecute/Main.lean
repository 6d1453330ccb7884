import FetchExecute.Console.Application

/-!
# The command line

Carries out the console process: prints what it prints, as it goes, and hands it
the lines of standard input one at a time.
-/

namespace FetchExecute.CommandLine

open Console

/-- The bytes up to the next newline, or to the end of input. -/
partial def readLine (input : IO.FS.Stream) (begun : ByteArray) : IO ByteArray := do
  let byte ← input.read 1
  if byte.isEmpty then return begun
  let begun := begun ++ byte
  if byte.toList = [newline] then return begun
  readLine input begun

def print (output : List Output) : IO Unit := do
  let stdout ← IO.getStdout
  for part in output do
    stdout.putStr part.text
  stdout.flush

partial def perform (turn : Turn Stage Exit) : IO Exit := do
  print turn.output
  match turn with
  | .done _ exit => return exit
  | .wait _ stage =>
    let line ← readLine (← IO.getStdin) ByteArray.empty
    if line.isEmpty then
      let (output, exit) := process.close stage
      print output
      return exit
    perform (process.receive stage (.ofBytes line.toList))

end FetchExecute.CommandLine

def main (args : List String) : IO UInt32 := do
  let exit ← FetchExecute.CommandLine.perform (FetchExecute.Console.opening args)
  for line in exit.errors do
    IO.eprintln line
  return exit.code.toUInt32
