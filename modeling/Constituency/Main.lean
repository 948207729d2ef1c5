/-
The program: the command line run on the real file system.
-/
import Constituency.Command.Run

namespace Constituency

/-- The cause of a failed system call. -/
def FileFault.ofSystem : IO.Error → FileFault
  | .noFileOrDirectory _ code details | .interrupted _ code details | .alreadyExists _ code details
  | .invalidArgument _ code details | .permissionDenied _ code details | .resourceExhausted _ code details
  | .inappropriateType _ code details | .noSuchThing _ code details | .otherError code details
  | .resourceBusy code details | .resourceVanished code details | .unsupportedOperation code details
  | .hardwareFault code details | .unsatisfiedConstraints code details | .illegalOperation code details
  | .protocolError code details | .timeExpired code details => .system details code.toNat
  | .unexpectedEof => .system "Unexpected end of file" 0
  | .userError text => .system text 0

def attempt {α : Type} (action : IO α) : IO (Except FileFault α) := do
  try return .ok (← action)
  catch e => return .error (.ofSystem e)

def appendFile (name text : String) : IO Unit := do
  let handle ← IO.FS.Handle.mk name .append
  handle.putStr text

/-- All bytes up to the end of a stream. -/
partial def readAll (stream : IO.FS.Stream) (bytes : ByteArray) : IO ByteArray := do
  let more ← stream.read 65536
  if more.isEmpty then return bytes else readAll stream (bytes ++ more)

def systemHost : Host IO where
  input := do readAll (← IO.getStdin) .empty
  read name := attempt (IO.FS.readBinFile name)
  create name := attempt (IO.FS.writeFile name "")
  write := appendFile
  print text := do (← IO.getStdout).putStr text

end Constituency

def main (args : List String) : IO UInt32 := do
  let ending ← (Constituency.Invocation.ofArgs args).execute Constituency.systemHost
  if let some line := ending.report then IO.eprintln line
  return ending.code.toUInt32
