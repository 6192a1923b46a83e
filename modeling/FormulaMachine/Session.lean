import FormulaMachine.Formula.Compiler

/-!
Sessions at a prompt: expressions, assignments and commands, one line at a time.
-/
namespace FormulaMachine

inductive Reply
  | quit
  | lines (lines : List String)
  | usage (text : String)
  | failed (source : String) (e : Error)

/-- The bound variables, in order of their first assignment. Each seed has a random source, which is
`seeded`. -/
structure Session where
  bindings : List (String × Float) := []
  random : RandomSource
  seeded : UInt64 → RandomSource

/-- Whether a table is to stop, asked before each of its rows. -/
def Interrupts : Type := Nat → Bool

/-- An interrupt that is there from the start stays to the end. -/
instance : Coe Bool Interrupts := ⟨fun interrupted _ => interrupted⟩

/-- The text of a value, with a mark where a NaN was met. -/
def Evaluation.text (r : Evaluation) : String :=
  Decimal.text r.value ++ if r.sawNaN then " (NaN)" else ""

namespace Session

def names (s : Session) : List String := s.bindings.map (·.1)

def values (s : Session) : List Float := s.bindings.map (·.2)

/-- Compiles a source over the given variables and no others. -/
def compile (names : List String) (source : String) : Except Reply Formula :=
  match Compiler.compile { vars := names, discover := true } source with
  | .error e => .error (.failed source e)
  | .ok f =>
    match f.vars.drop names.length with
    | [] => .ok f
    | unbound => .error (.usage ("UNBOUND: " ++ ", ".intercalate unbound))

def evaluate (s : Session) (source : String) : Except Reply Evaluation × Session :=
  match compile s.names source with
  | .error reply => (.error reply, s)
  | .ok f =>
    match f.run s.values s.random with
    | (.error e, random) => (.error (.failed source e), { s with random })
    | (.ok r, random) => (.ok r, { s with random })

/-- A name can be assigned to if, as a formula, it is just a variable of that name. -/
def isAssignable (name : String) : Bool :=
  match Compiler.compile { discover := true } name with
  | .ok f => f.vars == [name]
  | .error _ => false

/-- Gives a name a value, in its place or as the last one. -/
def bind (bindings : List (String × Float)) (name : String) (value : Float) :
    List (String × Float) :=
  match bindings with
  | [] => [(name, value)]
  | b :: bs => if b.1 == name then (name, value) :: bs else b :: bind bs name value

def assign (s : Session) (name source : String) : Reply × Session :=
  if isAssignable name then
    match s.evaluate source with
    | (.error reply, s) => (reply, s)
    | (.ok r, s) =>
      (.lines [s!"{name} = {r.text}"], { s with bindings := bind s.bindings name r.value })
  else (.usage s!"NOT A VARIABLE NAME: {name}", s)

def listBindings (s : Session) : Reply :=
  .lines (s.bindings.map fun (name, value) => s!"{name} = {Decimal.text value}")

def seed (s : Session) (text : List Char) : Reply × Session :=
  match Decimal.readWord? text with
  | some seed => (.lines [], { s with random := s.seeded seed })
  | none => (.usage ":seed <integer>", s)

def listCode (s : Session) (source : String) : Reply :=
  match compile s.names source with
  | .ok f => .lines f.listing
  | .error reply => reply

/-- A table to make: `steps` steps, and the expression for each row. -/
structure Table where
  name : String
  start : Float
  stop : Float
  steps : Nat
  source : String

namespace Table

/-- The first word of a text, and what follows it. -/
def word? (cs : List Char) : Option (List Char × List Char) :=
  let cs := Text.trimStart cs
  match cs.takeWhile (!Text.isBlank ·) with
  | [] => none
  | word => some (word, cs.dropWhile (!Text.isBlank ·))

def read? (cs : List Char) : Option Table := do
  let (name, cs) ← word? cs
  let (start, cs) ← word? cs
  let (stop, cs) ← word? cs
  let (steps, cs) ← word? cs
  let source := Text.trim cs
  if source.isEmpty then none
  let start ← Decimal.readSigned? start
  let stop ← Decimal.readSigned? stop
  let steps ← Decimal.readWord? steps
  if steps = 0 then none
  return { name := String.ofList name, start, stop, steps := steps.toNat,
           source := String.ofList source }

/-- The place of the swept variable among the bound ones. -/
def place? (t : Table) (s : Session) : Option Nat := s.names.idxOf? t.name

/-- The names that the expression may use: those that are bound, and the swept one if it is not. -/
def names (t : Table) (s : Session) : List String :=
  let extra := if (t.place? s).isSome then none else some t.name
  s.names ++ extra.toList

/-- A copy of the bound values, with one more for a variable that is not bound, and the place in it
where each row puts its own value. -/
def slot (t : Table) (s : Session) : Nat × List Float :=
  match t.place? s with
  | some place => (place, s.values)
  | none =>
    let values := s.values ++ [t.start]
    (values.length - 1, values)

/-- The value that row `k` is for. -/
def value (t : Table) (k : Nat) : Float :=
  t.start + (t.stop - t.start) * (UInt64.ofNat k).toFloat / (UInt64.ofNat t.steps).toFloat

/-- The value of a row stands in twelve columns or more, on the right. -/
def line (x : Float) (r : Evaluation) : String :=
  let x := Decimal.text x
  String.ofList (List.replicate (12 - x.length) ' ') ++ x ++ " " ++ r.text

/-- The lines from row `k` on, of which there are `left`. The value of a row is put in its place
among the values of the row before. -/
def rows (t : Table) (f : Formula) (place : Nat) (interrupted : Interrupts) (values : List Float)
    (random : RandomSource) (k : Nat) : Nat → Except Error (List String) × RandomSource
  | 0 => (.ok [], random)
  | left + 1 =>
    if interrupted k then (.ok ["BREAK"], random)
    else
      let x := t.value k
      let values := values.set place x
      match f.run values random with
      | (.error e, random) => (.error e, random)
      | (.ok r, random) =>
        match t.rows f place interrupted values random (k + 1) left with
        | (.error e, random) => (.error e, random)
        | (.ok lines, random) => (.ok (line x r :: lines), random)

end Table

/-- Evaluates an expression at equal steps from one value of a variable to another. -/
def tabulate (s : Session) (text : List Char) (interrupted : Interrupts) : Reply × Session :=
  match Table.read? text with
  | none => (.usage ":table <name> <from> <to> <steps> <expression>", s)
  | some t =>
    match compile (t.names s) t.source with
    | .error reply => (reply, s)
    | .ok f =>
      let (place, values) := t.slot s
      match t.rows f place interrupted values s.random 0 (t.steps + 1) with
      | (.error e, random) => (.failed t.source e, { s with random })
      | (.ok lines, random) => (.lines lines, { s with random })

/-- A command is a word right after the colon, with an argument after a blank. -/
def command (s : Session) (cs : List Char) (interrupted : Interrupts) : Reply × Session :=
  let name := String.ofList (cs.takeWhile (!Text.isBlank ·))
  let argument := Text.trim (cs.dropWhile (!Text.isBlank ·))
  match name with
  | "quit" | "q" => (.quit, s)
  | "vars" => (s.listBindings, s)
  | "seed" => s.seed argument
  | "code" => (s.listCode (String.ofList argument), s)
  | "table" => s.tabulate argument interrupted
  | _ => (.usage s!"UNKNOWN COMMAND :{name}", s)

/-- The text before the first `:=`, and the text after it. -/
def splitAssignment? : List Char → Option (List Char × List Char)
  | ':' :: '=' :: cs => some ([], cs)
  | [] => none
  | c :: cs => (splitAssignment? cs).map fun (name, source) => (c :: name, source)

/-- Takes one line. -/
def enter (s : Session) (line : String) (interrupted : Interrupts := false) : Reply × Session :=
  match line.toList with
  | ':' :: cs => s.command cs interrupted
  | cs =>
    match splitAssignment? cs with
    | some (name, source) =>
      s.assign (String.ofList (Text.trim name)) (String.ofList (Text.trim source))
    | none =>
      match s.evaluate line with
      | (.error reply, s) => (reply, s)
      | (.ok r, s) => (.lines [r.text], s)

end Session
end FormulaMachine
