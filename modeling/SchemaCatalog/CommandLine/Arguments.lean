/-!
# Command lines

A command line names one of three commands, the path of a corpus and options. Options may stand
anywhere behind the command, `--verbose` before it as well; a value stands behind its option or
behind an equals sign, and never begins with a dash unless the equals sign is there. Short
switches may share one dash. Behind two dashes alone everything is positional. Every option but
`--exclude` may be given once at each of its places.

`Command.ofArguments` reads arguments from left to right and fails at the first one that cannot
be right; what is missing is noticed at the end.
-/

namespace SchemaCatalog.CommandLine

/-- Where a corpus lies and how it is read. -/
structure CorpusArguments where
  path : String
  base : Option String
  /-- The name of catalogs of methods. -/
  methodsFile : String
  /-- The name of the catalog of errors. -/
  errorsFile : String
  exclude : List String
  /-- Whether documents may be fetched from the network. -/
  remote : Bool
  deriving Repr

/-- Where a result goes and how it looks. -/
structure OutputArguments where
  /-- The file to write, the standard output if there is none. -/
  output : Option String
  /-- Whether the result is spread over lines. -/
  pretty : Bool
  deriving Repr

/-- What to do. -/
inductive Command where
  /-- Write the model of a corpus. -/
  | parse (corpus : CorpusArguments) (output : OutputArguments)
  /-- Write the resolved documents of a corpus, or one of them. -/
  | resolve (corpus : CorpusArguments) (document : Option String) (output : OutputArguments)
  /-- Write what is wrong with a corpus. -/
  | check (corpus : CorpusArguments) (format : String) (strict quiet : Bool)
  deriving Repr

/-- What a command line asks for if it is no command. -/
inductive Usage where
  | wrong
  | help
  | version
  deriving DecidableEq, Repr

/-- The commands without their arguments. -/
inductive Verb where
  | parse
  | resolve
  | check
  deriving DecidableEq, Repr

/-- The verb with a name. -/
def Verb.ofName? : String → Option Verb
  | "parse" => some .parse
  | "resolve" => some .resolve
  | "check" => some .check
  | _ => none

/-- How an option is given. -/
inductive Arity where
  /-- Alone, at most once. -/
  | switch
  /-- With a value, at most once. -/
  | single
  /-- With a value that is the path of a file, at most once. -/
  | path
  /-- With a value, any number of times. -/
  | many
  deriving DecidableEq, Repr

/-- The options of a verb by long name. -/
def Verb.options (v : Verb) : List (String × Arity) :=
  [("verbose", .switch), ("base-uri", .single), ("methods-file", .single),
    ("errors-file", .single), ("exclude", .many), ("remote", .switch)] ++
  match v with
  | .parse => [("output", .path), ("pretty", .switch)]
  | .resolve => [("document", .single), ("output", .path), ("pretty", .switch)]
  | .check => [("format", .single), ("strict", .switch), ("quiet", .switch)]

/-- The long name of a switch with a short one. -/
def Verb.short? (v : Verb) : Char → Option String
  | 'v' => some "verbose"
  | 'q' => if v = .check then some "quiet" else none
  | _ => none

/-- Arguments read so far. -/
structure Settings where
  /-- The options with their values, empty for switches, in order. -/
  options : List (String × String) := []
  positional : List String := []

namespace Settings

/-- All values of an option. -/
def values (s : Settings) (name : String) : List String :=
  (s.options.filter (·.1 == name)).map Prod.snd

/-- The value of an option. -/
def value? (s : Settings) (name : String) : Option String := (s.values name).head?

/-- Whether a switch is on. -/
def has (s : Settings) (name : String) : Bool := s.options.any (·.1 == name)

/-- The settings with one more option, if it may be given again. -/
def add (s : Settings) (name value : String) (arity : Arity) : Except Usage Settings :=
  if arity ≠ .many ∧ s.has name then .error .wrong
  else if arity = .path ∧ value.isEmpty then .error .wrong
  else .ok { s with options := s.options ++ [(name, value)] }

/-- The settings with the path of a corpus, of which there is one and not empty. -/
def addPath (s : Settings) (path : String) : Except Usage Settings :=
  if path.isEmpty ∨ !s.positional.isEmpty then .error .wrong
  else .ok { s with positional := [path] }

end Settings

/-- The settings with the short switches of one argument. -/
def readShort (v : Verb) : List Char → Settings → Except Usage Settings
  | [], s => .ok s
  | 'h' :: _, _ => .error .help
  | c :: cs, s =>
    match v.short? c with
    | none => .error .wrong
    | some name => do readShort v cs (← s.add name "" .switch)

/-- The name of a long option and the value behind its equals sign. -/
def splitEquals (cs : List Char) : String × Option String :=
  match cs.dropWhile (· != '=') with
  | '=' :: value => (String.ofList (cs.takeWhile (· != '=')), some (String.ofList value))
  | _ => (String.ofList cs, none)

/-- Whether an argument can be the value of the option before it. -/
def isValue (arg : String) : Bool := arg == "-" || arg.toList.head? != some '-'

/-- The settings of the arguments behind a verb. -/
def readArguments (v : Verb) : List String → Settings → Except Usage Settings
  | [], s => .ok s
  | arg :: args, s =>
    match arg.toList with
    | ['-', '-'] => args.foldlM Settings.addPath s
    | '-' :: '-' :: cs =>
      match splitEquals cs with
      | ("help", none) => .error .help
      | (name, given) =>
        match (v.options.find? (·.1 == name)).map Prod.snd, given, args with
        | none, _, _ => .error .wrong
        | some .switch, some _, _ => .error .wrong
        | some .switch, none, args => do readArguments v args (← s.add name "" .switch)
        | some arity, some value, args => do readArguments v args (← s.add name value arity)
        | some arity, none, value :: args =>
          if isValue value then do readArguments v args (← s.add name value arity)
          else .error .wrong
        | some _, none, [] => .error .wrong
    | '-' :: c :: cs => do readArguments v args (← readShort v (c :: cs) s)
    | _ => do readArguments v args (← s.addPath arg)

/-- The command of settings. -/
def Command.ofSettings (v : Verb) (s : Settings) : Except Usage Command :=
  match s.positional with
  | path :: _ =>
    let corpus : CorpusArguments := {
      path
      base := s.value? "base-uri"
      methodsFile := (s.value? "methods-file").getD "methods.json"
      errorsFile := (s.value? "errors-file").getD "errors.json"
      exclude := s.values "exclude"
      remote := s.has "remote" }
    let output : OutputArguments := { output := s.value? "output", pretty := s.has "pretty" }
    .ok <| match v with
      | .parse => .parse corpus output
      | .resolve => .resolve corpus (s.value? "document") output
      | .check => .check corpus ((s.value? "format").getD "text") (s.has "strict") (s.has "quiet")
  | [] => .error .wrong

/-- The short switches before a verb; `seen` tells whether `--verbose` was given. -/
def readLeading (seen : Bool) : List Char → Except Usage Bool
  | [] => .ok seen
  | 'h' :: _ => .error .help
  | 'V' :: _ => .error .version
  | 'v' :: cs => if seen then .error .wrong else readLeading true cs
  | _ => .error .wrong

/-- Whether help is asked for what exists: the program, one of its commands or help itself. -/
def isHelpTopic : List String → Bool
  | [] => true
  | [topic] => (Verb.ofName? topic).isSome || topic == "help"
  | _ => false

/-- The command of arguments, of which `--verbose` may have been read. -/
def Command.ofArgumentsFrom (seen : Bool) : List String → Except Usage Command
  | [] => .error .wrong
  | arg :: args =>
    match arg.toList with
    | '-' :: '-' :: cs =>
      match String.ofList cs with
      | "verbose" => if seen then .error .wrong else Command.ofArgumentsFrom true args
      | "help" => .error .help
      | "version" => .error .version
      | _ => .error .wrong
    | '-' :: c :: cs => do Command.ofArgumentsFrom (← readLeading seen (c :: cs)) args
    | _ =>
      match Verb.ofName? arg with
      | some v => do Command.ofSettings v (← readArguments v args {})
      | none => .error (if arg = "help" && isHelpTopic args then .help else .wrong)

/-- The command of arguments. -/
def Command.ofArguments (args : List String) : Except Usage Command :=
  Command.ofArgumentsFrom false args

end SchemaCatalog.CommandLine
