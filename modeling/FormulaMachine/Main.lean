import FormulaMachine.Session
import FormulaMachine.Text.Underline

/-!
The prompt.
-/
namespace FormulaMachine

def bold (text : String) : String := "\x1b[1m" ++ text ++ "\x1b[0m"

/-- What a reply shows. An error in a line is marked in that line. -/
def Reply.shown : Reply → List String
  | quit => []
  | lines texts => texts
  | usage hint => [bold hint]
  | failed source e =>
    (if e.isCompileError then [Text.underline source e.column] else []) ++ [bold e.message]

/-- Takes lines until there are no more, or one asks to leave. Blank lines ask for nothing. -/
partial def converse (input : IO.FS.Stream) (s : Session) : IO Unit := do
  IO.print "> "
  (← IO.getStdout).flush
  let read ← input.getLine
  if read.isEmpty then return
  match Text.trim read.toList with
  | [] => converse input s
  | line =>
    let (reply, s) := s.enter (String.ofList line)
    if let .quit := reply then return
    reply.shown.forM (IO.println ·)
    converse input s

end FormulaMachine

/-- Every session has a random source of its own. -/
def main : IO Unit := do
  let bytes ← IO.getRandomBytes 8
  let seed := bytes.foldl (fun n b => n * 256 + b.toUInt64) 0
  IO.println "Formula calculator. Type :quit to leave."
  FormulaMachine.converse (← IO.getStdin) { random := .ofSeed seed, seeded := .ofSeed }
