import BrokerWire.Probe

/-!
# The probe as a command

The settings are environment variables. The connection is the caller's: the bytes from the broker
come in on standard input, and the bytes for the broker go to the file that is named as the only
argument, such as a named pipe.
-/

open BrokerWire

/-- All bytes of a stream behind those already read. -/
partial def readAll (stream : IO.FS.Stream) (done : ByteArray) : IO ByteArray := do
  let chunk ← stream.read 65536
  if chunk.isEmpty then return done
  readAll stream (done ++ chunk)

/-- Runs the probe. -/
def main (args : List String) : IO UInt32 := do
  let broker ← IO.getEnv "THORWIRE_BROKER"
  let topics ← IO.getEnv "THORWIRE_TOPICS"
  let clientId ← IO.getEnv "THORWIRE_CLIENT_ID"
  let reply ← readAll (← IO.getStdin) .empty
  let outcome := Probe.run (.ofVariables broker topics clientId) reply.data.toList
  if let some path := args.head? then
    IO.FS.writeBinFile path ⟨outcome.request.toArray⟩
  IO.print outcome.output
  IO.eprint outcome.errorOutput
  return outcome.exitCode
