import DoublingHeap.Text

/-! # Command lines

A command line is a run of words: options, the name of a command, and the operands of the command.
Words are read from left to right. Options that concern all commands may stand before or after the
name; what is said after it counts. No option may be given twice on one side of the name. After `--`
all words are operands. `Arguments.parse` gives the `Arguments`, or says how the reading ended
(`Stop`). -/

namespace DoublingHeap.Command

/-- The commands with their operands and options. -/
inductive Action where
  /-- List the blocks of the heap at an address of a file. -/
  | inspect (file : String) (address : Nat) (json : Bool)
  /-- Show the object that an identifier names. -/
  | get (file : String) (address : Nat) (id : String)
  /-- Name the program and its version. -/
  | version
deriving DecidableEq, Repr

/-- What a command line asks for. -/
structure Arguments where
  action : Action
  config : Option String
  offsetWidth : Option Nat
  lengthWidth : Option Nat
  verbose : Bool
deriving DecidableEq, Repr

/-- How the reading of a command line ends without arguments. -/
inductive Stop where
  /-- The command line is not understood. -/
  | misuse
  /-- Help is asked for. -/
  | help
  /-- The version is asked for by an option. -/
  | version
deriving DecidableEq, Repr

/-- Where words are read: before the name of a command, or after it. -/
inductive Scope where
  | top
  | inspect
  | get
  | version
deriving DecidableEq, Repr

/-- The options. -/
inductive Flag where
  | config
  | offsetWidth
  | lengthWidth
  | verbose
  | address
  | json
  | id
  | help
  | version
deriving DecidableEq, Repr

namespace Flag

/-- The long name of an option. -/
def longName : Flag → String
  | config => "config"
  | offsetWidth => "size-of-offsets"
  | lengthWidth => "size-of-lengths"
  | verbose => "verbose"
  | address => "address"
  | json => "json"
  | id => "id"
  | help => "help"
  | version => "version"

/-- The letter of an option, if it has one. -/
def letter? : Flag → Option Char
  | verbose => some 'v'
  | address => some 'a'
  | help => some 'h'
  | version => some 'V'
  | _ => none

/-- Whether a value follows the option. -/
def takesValue : Flag → Bool
  | config | offsetWidth | lengthWidth | address | id => true
  | verbose | json | help | version => false

end Flag

/-- The command of a name. -/
def Scope.ofName? : String → Option Scope
  | "inspect" => some .inspect
  | "get" => some .get
  | "version" => some .version
  | _ => none

/-- The options that may be given in a scope. -/
def Scope.flags : Scope → List Flag
  | .top => [.config, .offsetWidth, .lengthWidth, .verbose, .help, .version]
  | .inspect => [.config, .offsetWidth, .lengthWidth, .verbose, .help, .address, .json]
  | .get => [.config, .offsetWidth, .lengthWidth, .verbose, .help, .address, .id]
  | .version => [.config, .offsetWidth, .lengthWidth, .verbose, .help]

/-- The option of a long name. -/
def Scope.flagNamed? (scope : Scope) (name : String) : Option Flag :=
  scope.flags.find? (·.longName == name)

/-- The option of a letter. -/
def Scope.flagLettered? (scope : Scope) (c : Char) : Option Flag :=
  scope.flags.find? (·.letter? == some c)

/-- What has been given so far in a scope. -/
structure Given where
  config : Option String := none
  offsetWidth : Option Nat := none
  lengthWidth : Option Nat := none
  verbose : Bool := false
  address : Option Nat := none
  json : Bool := false
  id : Option String := none
  file : Option String := none
deriving DecidableEq, Repr

namespace Given

/-- A text that is not empty. -/
def nonempty? (text : String) : Option String := if text.isEmpty then none else some text

/-- The value of an option for which no value was given before. -/
def once {α : Type} (before value : Option α) : Except Stop (Option α) :=
  match before, value with
  | none, some a => .ok (some a)
  | _, _ => .error .misuse

/-- An option without a value. -/
def mark (given : Given) : Flag → Except Stop Given
  | .verbose => if given.verbose then .error .misuse else .ok { given with verbose := true }
  | .json => if given.json then .error .misuse else .ok { given with json := true }
  | .help => .error .help
  | .version => .error .version
  | _ => .error .misuse

/-- An option with its value. Paths are not empty, widths are below 256. -/
def assign (given : Given) (flag : Flag) (value : String) : Except Stop Given :=
  match flag with
  | .config => return { given with config := ← once given.config (nonempty? value) }
  | .offsetWidth =>
    return { given with offsetWidth := ← once given.offsetWidth (Text.Numeral.width? value) }
  | .lengthWidth =>
    return { given with lengthWidth := ← once given.lengthWidth (Text.Numeral.width? value) }
  | .address => return { given with address := ← once given.address (Text.Numeral.address? value) }
  | .id => return { given with id := ← once given.id (some value) }
  | _ => .error .misuse

/-- An operand: the file, in the commands that have one. -/
def operand (given : Given) (scope : Scope) (word : String) : Except Stop Given :=
  if scope = .inspect ∨ scope = .get then
    return { given with file := ← once given.file (nonempty? word) }
  else .error .misuse

end Given

/-- What a word in front of `--` is. -/
inductive Word where
  /-- The word `--`. -/
  | separator
  /-- A long option, with its value if one is attached. -/
  | long (name : String) (value : Option String)
  /-- Letters of options, the last of which may have its value attached. -/
  | letters (cs : List Char)
  /-- Anything else. -/
  | plain

/-- The part of a text before the first equals sign, and the part after it if there is one. -/
def splitEquals (cs : List Char) : String × Option String :=
  match cs.dropWhile (· != '=') with
  | [] => (String.ofList cs, none)
  | _ :: value => (String.ofList (cs.takeWhile (· != '=')), some (String.ofList value))

/-- What a word is, by the hyphens in front of it. A hyphen alone is no option. -/
def Word.classify (word : String) : Word :=
  match word.toList with
  | ['-', '-'] => .separator
  | '-' :: '-' :: cs => let (name, value) := splitEquals cs; .long name value
  | ['-'] => .plain
  | '-' :: cs => .letters cs
  | _ => .plain

/-- Takes in letters of options. The rest of the word after a letter whose option takes a value is
the value, without an equals sign in front; if there is no rest the value is the next word, and the
option waits for it. -/
def letters (scope : Scope) : List Char → Given → Except Stop (Given × Option Flag)
  | [], given => return (given, none)
  | c :: cs, given =>
    match scope.flagLettered? c with
    | none => .error .misuse
    | some flag =>
      if flag.takesValue then
        match cs with
        | [] => return (given, some flag)
        | '=' :: value => return (← given.assign flag (String.ofList value), none)
        | value => return (← given.assign flag (String.ofList value), none)
      else do letters scope cs (← given.mark flag)

/-- Takes in one word that is no operand: the options after it, and the option that waits for its
value in the next word. A plain word is left. -/
def option? (scope : Scope) (given : Given) : Word → Option (Except Stop (Given × Option Flag))
  | .long name value => some <|
    match scope.flagNamed? name with
    | none => .error .misuse
    | some flag =>
      match flag.takesValue, value with
      | true, some v => return (← given.assign flag v, none)
      | true, none => return (given, some flag)
      | false, none => return (← given.mark flag, none)
      | false, some _ => .error .misuse
  | .letters cs => some (letters scope cs given)
  | .separator | .plain => none

/-- Operands only, after `--`. -/
def operands (scope : Scope) : List String → Given → Except Stop Given
  | [], given => return given
  | word :: rest, given => do operands scope rest (← given.operand scope word)

/-- Reads the words after the name of a command. If an option waits for its value, the next word is
the value, unless it looks like an option. -/
def readCommand (scope : Scope) : List String → Option Flag → Given → Except Stop Given
  | [], none, given => return given
  | [], some _, _ => .error .misuse
  | word :: rest, some flag, given =>
    match Word.classify word with
    | .plain => do readCommand scope rest none (← given.assign flag word)
    | _ => .error .misuse
  | word :: rest, none, given =>
    match option? scope given (Word.classify word) with
    | some step => do
      let (given, waiting) ← step
      readCommand scope rest waiting given
    | none =>
      match Word.classify word with
      | .separator => operands scope rest given
      | _ => do readCommand scope rest none (← given.operand scope word)

/-- What the words after `help` ask for: help, or help on one command. -/
def readHelp : List String → Stop
  | [] => .help
  | ["help"] => .help
  | [name] => if (Scope.ofName? name).isSome then .help else .misuse
  | _ => .misuse

/-- Reads the words up to the name of a command, and then those after it. -/
def readTop : List String → Option Flag → Given → Except Stop (Given × Scope × Given)
  | [], _, _ => .error .misuse
  | word :: rest, some flag, given =>
    match Word.classify word with
    | .plain => do readTop rest none (← given.assign flag word)
    | _ => .error .misuse
  | word :: rest, none, given =>
    match option? .top given (Word.classify word) with
    | some step => do
      let (given, waiting) ← step
      readTop rest waiting given
    | none =>
      match Scope.ofName? word with
      | some scope => return (given, scope, ← readCommand scope rest none {})
      | none => .error (if word = "help" then readHelp rest else .misuse)

/-- The command with what has been given for it. -/
def action? (scope : Scope) (given : Given) : Option Action :=
  match scope with
  | .top => none
  | .inspect => return .inspect (← given.file) (← given.address) given.json
  | .get => return .get (← given.file) (← given.address) (← given.id)
  | .version => some .version

/-- What a command line asks for. -/
def Arguments.parse (words : List String) : Except Stop Arguments := do
  let (before, scope, after) ← readTop words none {}
  match action? scope after with
  | none => .error .misuse
  | some action => return {
      action
      config := after.config.or before.config
      offsetWidth := after.offsetWidth.or before.offsetWidth
      lengthWidth := after.lengthWidth.or before.lengthWidth
      verbose := before.verbose || after.verbose }

end DoublingHeap.Command
