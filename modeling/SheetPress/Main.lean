import SheetPress.Shell.Loop

/-!
# The command line

Reads arguments and lines, and prints what the shell makes of them.
-/

set_option autoImplicit false

namespace SheetPress.Shell

def bytesOf (s : String) : Text := s.toUTF8.toList.map fun b => Char.ofNat b.toNat

def toBytes (t : Text) : ByteArray := ⟨(t.map fun c => c.toNat.toUInt8).toArray⟩

def exitCode : Option Fault → UInt32
  | none => 0
  | some (.leave c) => c.toNat.toUInt32
  | some _ => 1

partial def loop (input output : IO.FS.Stream) (r : Nat) (s : Session) : IO UInt32 := do
  output.write (toBytes ">>> ".toList)
  output.flush
  let line ← input.getLine
  let (printed, outcome) := runLine r s (if line.isEmpty then none else some (bytesOf line))
  output.write (toBytes printed)
  match outcome with
  | .running s => loop input output r s
  | .closed _ => return 0
  | .failed f _ => return exitCode (some f)

end SheetPress.Shell

open SheetPress Shell in
def main (args : List String) : IO UInt32 := do
  let output ← IO.getStdout
  match Task.ofArguments {} (args.map bytesOf) with
  | .finish t =>
    output.write (toBytes t.printed.flatten)
    return exitCode t.fault
  | .shell s =>
    match start s with
    | (.error f, _) => return exitCode (some f)
    | (.ok r, s) =>
      output.write (toBytes welcome)
      loop (← IO.getStdin) output r s
