import CacheServer.Settings

/-!
Reading settings from the arguments of a program. An option is written `--name value`,
`--name=value`, `-l value`, `-lvalue` or `-l=value`. A value that is an argument of its own is
judged only when the next option or flag comes, or at the end; so an argument that is unknown is
reported before it.
-/

namespace CacheServer

/-- Why a program does not start with the arguments it is given. -/
inductive OptionsError where
  /-- The help is asked for. -/
  | help
  /-- The version is asked for. -/
  | version
  /-- An argument is neither an option, nor a flag, nor a value. -/
  | unknownArgument (argument : String)
  /-- An option has no value. -/
  | missingValue (setting : Setting)
  /-- A flag has a value. -/
  | unwantedValue (argument : String)
  /-- An option is given twice. -/
  | repeated (setting : Setting)
  /-- The text given for a setting stands for no value of it. -/
  | badValue (setting : Setting) (text : String)
deriving DecidableEq, Repr

def OptionsError.message : OptionsError → String
  | .help => "usage: [--host HOST] [-p|--port PORT] [-e|--eviction RULE] [-c|--capacity COUNT]"
  | .version => "1"
  | .unknownArgument argument => "unexpected argument '" ++ argument ++ "'"
  | .missingValue setting => "a value is required for '--" ++ setting.long ++ "'"
  | .unwantedValue argument => "unexpected value in '" ++ argument ++ "'"
  | .repeated setting => "'--" ++ setting.long ++ "' cannot be used multiple times"
  | .badValue setting text => "invalid value '" ++ text ++ "' for '--" ++ setting.long ++ "'"

namespace Options

/-- The two flags, which end the reading. -/
inductive Flag where
  | help
  | version
deriving DecidableEq, Repr

namespace Flag

def long : Flag → String
  | help => "help"
  | version => "version"

def letter : Flag → Char
  | help => 'h'
  | version => 'V'

/-- What a flag asks for, as the outcome of the reading. -/
def error : Flag → OptionsError
  | help => .help
  | version => .version

end Flag

/-- What an argument names. -/
inductive Name where
  | setting (s : Setting)
  | flag (f : Flag)
deriving DecidableEq, Repr

/-- The setting or flag of a long name. -/
def Name.ofLong? (name : String) : Option Name :=
  match Setting.all.find? (·.long == name) with
  | some s => some (.setting s)
  | none => ([Flag.help, Flag.version].find? (·.long == name)).map .flag

/-- The setting or flag of a letter. -/
def Name.ofLetter? (c : Char) : Option Name :=
  match Setting.all.find? (·.letter? == some c) with
  | some s => some (.setting s)
  | none => ([Flag.help, Flag.version].find? (·.letter == c)).map .flag

/-- The form of an argument. -/
inductive Form where
  /-- Two dashes: no options follow. -/
  | endOfOptions
  /-- Two dashes and a name, and the text after the first equals sign, if there is one. -/
  | long (name : String) (value : Option String)
  /-- A dash and a letter, and the text after it, without the equals sign in front; none if no text
  follows. -/
  | short (letter : Char) (value : Option String)
  /-- All else, also a dash alone. -/
  | plain
deriving DecidableEq, Repr

/-- The form of an argument. -/
def Form.of (argument : String) : Form :=
  match argument.toList with
  | ['-', '-'] => .endOfOptions
  | '-' :: '-' :: cs =>
    let value := match cs.dropWhile (· != '=') with
      | _ :: value => some (String.ofList value)
      | [] => none
    .long (String.ofList (cs.takeWhile (· != '='))) value
  | '-' :: c :: cs =>
    let value := match cs with
      | [] => none
      | '=' :: value => some (String.ofList value)
      | value => some (String.ofList value)
    .short c value
  | _ => .plain

/-- The state of a reading from the first argument to the last. -/
structure Reading where
  /-- The settings whose values have been judged. -/
  given : PartialSettings
  /-- The setting whose option was read last, and its value if that has been read. -/
  pending : Option (Setting × Option String)
  /-- Whether the end of the options has been read. -/
  ended : Bool
deriving DecidableEq, Repr

namespace Reading

/-- No argument has been read. -/
def start : Reading := ⟨.empty, none, false⟩

/-- Gives a setting a value. It must not have one from an option before it. -/
def take (r : Reading) (setting : Setting) (text : String) : Except OptionsError Reading :=
  if r.given.has setting then .error (.repeated setting)
  else
    match r.given.assign? setting text with
    | some given => .ok { r with given := given }
    | none => .error (.badValue setting text)

/-- Judges the option that was read last. -/
def settle (r : Reading) : Except OptionsError Reading :=
  match r.pending with
  | none => .ok r
  | some (setting, none) => .error (.missingValue setting)
  | some (setting, some text) => { r with pending := none }.take setting text

/-- Meets an option or a flag, with the value that stands in the same argument. -/
def meet (r : Reading) (argument : String) :
    Option Name → Option String → Except OptionsError Reading
  | none, _ => .error (.unknownArgument argument)
  | some (.setting s), none => do return { ← r.settle with pending := some (s, none) }
  | some (.setting s), some text => do (← r.settle).take s text
  | some (.flag f), _ => do
    let _ ← r.settle
    .error f.error

/-- Meets a text that is neither an option nor a flag: the value that is waited for, if one is. -/
def meetPlain (r : Reading) (argument : String) : Except OptionsError Reading :=
  match r.pending with
  | some (setting, none) => .ok { r with pending := some (setting, some argument) }
  | _ => .error (.unknownArgument argument)

/-- Reads one argument. After the end of the options none is expected. -/
def step (r : Reading) (argument : String) : Except OptionsError Reading :=
  if r.ended then .error (.unknownArgument argument)
  else
    match Form.of argument with
    | .endOfOptions => .ok { r with ended := true }
    | .long name value =>
      match Name.ofLong? name, value with
      | some (.flag _), some _ => .error (.unwantedValue argument)
      | name, value => r.meet argument name value
    | .short letter value => r.meet argument (Name.ofLetter? letter) value
    | .plain => r.meetPlain argument

end Reading

/-- Gives a setting the value of its variable, if no option gave it one and the variable is set. -/
def addVariable (environment : String → Option String) (p : PartialSettings) (setting : Setting) :
    Except OptionsError PartialSettings :=
  if p.has setting then .ok p
  else
    match environment setting.variableName with
    | none => .ok p
    | some text =>
      match p.assign? setting text with
      | some p => .ok p
      | none => .error (.badValue setting text)

/-- The settings for the given arguments. The environment leads from variables to their values. -/
def read (environment : String → Option String) (arguments : List String) :
    Except OptionsError Settings := do
  let r ← arguments.foldlM Reading.step .start
  let r ← r.settle
  let p ← Setting.all.foldlM (addVariable environment) r.given
  return p.complete

end Options

end CacheServer
