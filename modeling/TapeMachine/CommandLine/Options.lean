import TapeMachine.Text.Numeral
import TapeMachine.Text.Quoted

/-!
# Options of the command line

An option is written `--long` or `-s`. One that takes a value has it behind an equals sign, behind
its short letter, or as the next argument. Short options without a value may stand together behind
one dash. After a lone `--` nothing is an option any more. Only `--input` may be given more than
once with a value, and only `--verbose` without one.

The options that ask for help or for the version, `--help`, `-h`, `--version` and `-V`, are left
out: they print a text and end with the exit code 0, and are refused here like any unknown option.
-/

namespace TapeMachine.CommandLine

/-- The options without a value. -/
inductive Switch where
  | config
  | trace
  | json
  | list
  | verbose
  deriving DecidableEq, Repr

/-- The options with a value. -/
inductive Setting where
  | name
  | input
  | head
  | maxSteps
  deriving DecidableEq, Repr

/-- An option of either kind. -/
inductive OptionName where
  | switch (s : Switch)
  | setting (s : Setting)
  deriving DecidableEq, Repr

/-- The option of a long name. -/
def longOption? : String → Option OptionName
  | "config" => some (.switch .config)
  | "trace" => some (.switch .trace)
  | "json" => some (.switch .json)
  | "list" => some (.switch .list)
  | "verbose" => some (.switch .verbose)
  | "name" => some (.setting .name)
  | "input" => some (.setting .input)
  | "head" => some (.setting .head)
  | "max-steps" => some (.setting .maxSteps)
  | _ => none

/-- The long name of an option. -/
def OptionName.long : OptionName → String
  | switch .config => "config"
  | switch .trace => "trace"
  | switch .json => "json"
  | switch .list => "list"
  | switch .verbose => "verbose"
  | setting .name => "name"
  | setting .input => "input"
  | setting .head => "head"
  | setting .maxSteps => "max-steps"

/-- Every option is found by its long name. -/
theorem longOption?_long (o : OptionName) : longOption? o.long = some o := by
  rcases o with s | s <;> cases s <;> rfl

/-- The option of a letter. -/
def shortOption? : Char → Option OptionName
  | 'c' => some (.switch .config)
  | 't' => some (.switch .trace)
  | 'l' => some (.switch .list)
  | 'v' => some (.switch .verbose)
  | 'n' => some (.setting .name)
  | 'i' => some (.setting .input)
  | _ => none

/-- Why arguments are refused. -/
inductive UsageError where
  | unknownOption (arg : String)
  | repeatedOption (o : OptionName)
  | missingValue (s : Setting)
  | valueNotTaken (s : Switch)
  | invalidNumber (s : Setting) (value : String)
  | unexpectedArgument (arg : String)
  /-- Both a file and the name of a program are given. -/
  | fileAndName
  deriving DecidableEq, Repr

/-- The refusal in words. -/
def UsageError.message : UsageError → String
  | unknownOption arg => "unknown option: " ++ Text.quote arg
  | repeatedOption o => "option given more than once: --" ++ o.long
  | missingValue s => "option without a value: --" ++ (OptionName.setting s).long
  | valueNotTaken s => "option that takes no value: --" ++ (OptionName.switch s).long
  | invalidNumber s value =>
    "invalid number for --" ++ (OptionName.setting s).long ++ ": " ++ Text.quote value
  | unexpectedArgument arg => "unexpected argument: " ++ Text.quote arg
  | fileAndName => "a file and --name cannot be given together"

/-- What the arguments ask for. -/
structure Options where
  /-- The definition file to load. -/
  file : Option String
  /-- The program of the catalogue to run. -/
  name : Option String
  /-- The tapes to run instead of the inputs of the program. -/
  inputs : List String
  /-- Where the head begins on these tapes. -/
  head : Option Int
  /-- The greatest number of moves of a run; zero is no limit. -/
  maxSteps : Option Nat
  config : Bool
  trace : Bool
  json : Bool
  list : Bool
  verbosity : Nat
  deriving DecidableEq, Repr

/-- No arguments. -/
def Options.none : Options :=
  ⟨.none, .none, [], .none, .none, false, false, false, false, 0⟩

/-- A number of moves as an argument: digits, with a plus sign or without. -/
def readMaxSteps? (value : String) : Option Nat :=
  let digits := match value.toList with
    | '+' :: ds => ds
    | ds => ds
  (Text.numeral? digits).bind fun n ↦ if n ≤ maxCount then some n else .none

/-- A head position as an argument: digits, with a sign or without. -/
def readHead? (value : String) : Option Int :=
  let (negative, digits) := match value.toList with
    | '+' :: ds => (false, ds)
    | '-' :: ds => (true, ds)
    | ds => (false, ds)
  (Text.numeral? digits).bind fun _ ↦
    let n := Text.signed negative digits
    if minPosition ≤ n ∧ n ≤ maxPosition then some n else .none

namespace Options

/-- The options with a switch turned on, which must have been off. -/
def turnOn (o : Options) : Switch → Except UsageError Options
  | .config =>
    if o.config then .error (.repeatedOption (.switch .config)) else .ok { o with config := true }
  | .trace =>
    if o.trace then .error (.repeatedOption (.switch .trace)) else .ok { o with trace := true }
  | .json =>
    if o.json then .error (.repeatedOption (.switch .json)) else .ok { o with json := true }
  | .list =>
    if o.list then .error (.repeatedOption (.switch .list)) else .ok { o with list := true }
  | .verbose => .ok { o with verbosity := o.verbosity + 1 }

/-- The options with a value, where none must have been given. -/
def set (o : Options) (s : Setting) (value : String) : Except UsageError Options :=
  match s with
  | .name =>
    if o.name.isSome then .error (.repeatedOption (.setting s))
    else .ok { o with name := some value }
  | .input => .ok { o with inputs := o.inputs ++ [value] }
  | .head =>
    if o.head.isSome then .error (.repeatedOption (.setting s))
    else match readHead? value with
      | some n => .ok { o with head := some n }
      | .none => .error (.invalidNumber s value)
  | .maxSteps =>
    if o.maxSteps.isSome then .error (.repeatedOption (.setting s))
    else match readMaxSteps? value with
      | some n => .ok { o with maxSteps := some n }
      | .none => .error (.invalidNumber s value)

/-- The options with an argument that is no option: the file, if none was given. -/
def addArgument (o : Options) (arg : String) : Except UsageError Options :=
  if o.file.isSome then .error (.unexpectedArgument arg) else .ok { o with file := some arg }

/-- The options after a long option, and the setting that waits for its value. -/
def addLong (o : Options) (arg : String) (name : List Char) :
    Except UsageError (Options × Option Setting) :=
  let value? := match name.dropWhile (· ≠ '=') with
    | [] => .none
    | _ :: value => some (String.ofList value)
  match longOption? (String.ofList (name.takeWhile (· ≠ '='))), value? with
  | .none, _ => .error (.unknownOption arg)
  | some (.switch s), some _ => .error (.valueNotTaken s)
  | some (.switch s), .none => do return (← o.turnOn s, .none)
  | some (.setting s), some value => do return (← o.set s value, .none)
  | some (.setting s), .none => .ok (o, some s)

/-- The options after the letters behind a dash, and the setting that waits for its value. -/
def addShort (o : Options) (arg : String) :
    List Char → Except UsageError (Options × Option Setting)
  | [] => .ok (o, .none)
  | letter :: rest =>
    match shortOption? letter with
    | .none => .error (.unknownOption arg)
    | some (.switch s) => do addShort (← o.turnOn s) arg rest
    | some (.setting s) =>
      match rest with
      | [] => .ok (o, some s)
      | '=' :: value => do return (← o.set s (String.ofList value), .none)
      | value => do return (← o.set s (String.ofList value), .none)

/-- An argument can be the value of a setting that waits for one. What begins with a dash is an
option, but a lone dash is none, and a head position may be negative. -/
def isValue (s : Setting) (arg : String) : Bool :=
  match arg.toList with
  | '-' :: [] => true
  | '-' :: _ => s = .head && (readHead? arg).isSome
  | _ => true

/-- The options after further arguments, `waiting` being a setting whose value comes next. -/
def addAll (o : Options) (waiting : Option Setting) : List String → Except UsageError Options
  | [] =>
    match waiting with
    | some s => .error (.missingValue s)
    | .none => .ok o
  | arg :: rest =>
    match waiting with
    | some s =>
      if isValue s arg then do addAll (← o.set s arg) .none rest
      else .error (.missingValue s)
    | .none =>
      match arg.toList with
      | ['-', '-'] => rest.foldlM addArgument o
      | '-' :: '-' :: name => do
        let (o, waiting) ← o.addLong arg name
        addAll o waiting rest
      | '-' :: letter :: letters => do
        let (o, waiting) ← o.addShort arg (letter :: letters)
        addAll o waiting rest
      | _ => do addAll (← o.addArgument arg) .none rest

/-- The options that arguments ask for. -/
def ofArguments (args : List String) : Except UsageError Options := do
  let o ← none.addAll .none args
  if o.file.isSome ∧ o.name.isSome then throw .fileAndName else return o

end Options

end TapeMachine.CommandLine
