import FiniteAutomata.Demonstration
import Std.Time.Format

/-!
The command line: an optional settings file as the argument, and the log level in the environment.
-/
namespace FiniteAutomata

def readFile? (path : String) : IO Settings.File := do
  try
    return some (← IO.FS.readBinFile path)
  catch _ =>
    return none

def timestamp : IO String := do
  let now ← Std.Time.Timestamp.now
  let moment := Std.Time.DateTime.ofTimestamp now Std.Time.TimeZone.ZoneRules.UTC
  return moment.format "uuuu-MM-dd'T'HH:mm:ss.SSSSSS'Z'"

def printLine (line : String) : IO Unit := do
  let level := line.takeWhile (· != ' ')
  let padding := if level.toString.length < 5 then " " else ""
  IO.println ((← timestamp) ++ " " ++ padding ++ line)

end FiniteAutomata

def main (arguments : List String) : IO UInt32 := do
  let file ← arguments.head?.mapM FiniteAutomata.readFile?
  let outcome := FiniteAutomata.Demonstration.run file (← IO.getEnv "NAUTOMATON_LOG")
  outcome.lines.forM FiniteAutomata.printLine
  if let some error := outcome.error then
    IO.eprintln ("Error: " ++ error)
  return outcome.exitCode.toUInt32
