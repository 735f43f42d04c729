import OrderedCompletion.Console.Dialogue

/-! The console on standard input and output. -/

namespace OrderedCompletion.Console

/-- Reads a file as text. The codes of failures are negated numbers of the system. -/
def readText (path : String) : IO (Except FileError String) := do
  if path.contains (Char.ofNat 0) then return .error .nulInName
  try
    match String.fromUTF8? (← IO.FS.readBinFile path) with
    | some text => return .ok text
    | none => return .error .notText
  catch
    | .noFileOrDirectory .. => return .error .notFound
    | .inappropriateType _ code _ => return .error (if code = -20 then .notDirectory else .isDirectory)
    | e@(.invalidArgument _ code _) =>
      return .error (if code = -36 then .nameTooLong else .other (toString e))
    | e => return .error (.other (toString e))

/-- Answers a line; the file that it names is read beforehand. -/
def answerIn (c : Console) (line : String) : IO (Reply × Console) := do
  match Command.ofLine line with
  | .load path =>
    let content ← readText path
    return c.execute (fun _ => content) (.load path)
  | command => return c.execute (fun _ => .error .notFound) command

/-- Goes on with the dialogue until the input ends or the user quits. -/
partial def dialogue (input output : IO.FS.Stream) (c : Console) : IO Unit := do
  output.putStr prompt
  output.flush
  let line ← input.getLine
  if line.isEmpty then
    output.putStrLn ""
  else
    let (reply, c) ← answerIn c line
    if let some said := reply.written then
      output.putStr said
      dialogue input output c

end OrderedCompletion.Console

def main : IO UInt32 := do
  let output ← IO.getStdout
  output.putStr OrderedCompletion.Console.banner
  try
    OrderedCompletion.Console.dialogue (← IO.getStdin) output {}
    return 0
  catch e =>
    IO.eprintln ("Error: " ++ toString e)
    return 1
