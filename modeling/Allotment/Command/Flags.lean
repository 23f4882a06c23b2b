import Allotment.Text.Numeral

namespace Allotment.Command

/-!
# Command-line flags

Flags come before the other arguments, after one or two hyphens.  A switch may be followed by an
equals sign and a truth value; any other flag has a value, after an equals sign or as the next
argument.  Two hyphens alone end the flags.

* `Flag.parse` — reads the flags at the front of some arguments and gives the arguments after them;
* `FlagError` — what is wrong with a flag; asking for help ends the reading in the same way.
-/

/-- What a flag takes. -/
inductive FlagKind where
  | switch
  | number
  | text

/-- The value of a flag. -/
inductive FlagValue where
  | switch (on : Bool)
  | number (n : Int64)
  | text (s : String)

/-- Why the reading of flags ended early. -/
inductive FlagError where
  | help
  | badSyntax (arg : String)
  | unknown (name : String)
  | missingValue (name : String)
  | badSwitch (value name : String)
  | badNumber (value name : String) (fault : Decimal.Fault)

/-- What is wrong with the text of a flag's value, in words. -/
def faultWords : Decimal.Fault → String
  | .malformed => "parse error"
  | .outOfRange => "value out of range"

/-- The message of a flag error; asking for help is none. -/
def FlagError.message? : FlagError → Option String
  | .help => none
  | .badSyntax arg => some ("bad flag syntax: " ++ arg)
  | .unknown name => some ("flag provided but not defined: -" ++ name)
  | .missingValue name => some ("flag needs an argument: -" ++ name)
  | .badSwitch value name =>
    some ("invalid boolean value " ++ Text.quotedString value ++ " for -" ++ name ++
      ": parse error")
  | .badNumber value name fault =>
    some ("invalid value " ++ Text.quotedString value ++ " for flag -" ++ name ++ ": " ++
      faultWords fault)

/-- What an argument is where flags are expected. -/
inductive Argument where
  /-- Not a flag. -/
  | plain
  /-- The end of the flags. -/
  | stop
  | malformed
  | flag (name : String) (value : Option String)

/-- The name of a flag and its value after an equals sign, which cannot come first. -/
def splitValue : List Char → Argument
  | [] => .malformed
  | '-' :: _ => .malformed
  | '=' :: _ => .malformed
  | cs =>
    let name := cs.takeWhile (· != '=')
    match cs.dropWhile (· != '=') with
    | [] => .flag (String.ofList name) none
    | _ :: value => .flag (String.ofList name) (some (String.ofList value))

/-- Reads one argument where flags are expected. -/
def Argument.ofString (arg : String) : Argument :=
  match arg.toList with
  | ['-'] => .plain
  | ['-', '-'] => .stop
  | '-' :: '-' :: t => splitValue t
  | '-' :: t => splitValue t
  | _ => .plain

/-- The spellings of the truth values. -/
def switchWord? (s : String) : Option Bool :=
  if ["1", "t", "T", "TRUE", "true", "True"].contains s then some true
  else if ["0", "f", "F", "FALSE", "false", "False"].contains s then some false
  else none

/-- The value of a flag that is given by a text. -/
def FlagKind.read (kind : FlagKind) (name value : String) : Except FlagError FlagValue :=
  match kind with
  | .switch =>
    match switchWord? value with
    | some on => .ok (.switch on)
    | none => .error (.badSwitch value name)
  | .number =>
    match Numeral.readInt (Text.ofString value) with
    | .ok n => .ok (.number n)
    | .error fault => .error (.badNumber value name fault)
  | .text => .ok (.text value)

/-- The values of some flags, the last one given first. -/
abbrev Settings := List (String × FlagValue)

/-- The value of a number flag. -/
def Settings.number (s : Settings) (name : String) (default : Int64) : Int64 :=
  match s.lookup name with
  | some (.number n) => n
  | _ => default

/-- The value of a switch. -/
def Settings.switch (s : Settings) (name : String) : Bool :=
  match s.lookup name with
  | some (.switch on) => on
  | _ => false

/-- The value of a text flag. -/
def Settings.text (s : Settings) (name : String) (default : String) : String :=
  match s.lookup name with
  | some (.text t) => t
  | _ => default

/-- Reads the flags at the front of some arguments; `read` holds the flags read before. -/
def parseFlags (flags : List (String × FlagKind)) (read : Settings) (args : List String) :
    Except FlagError (Settings × List String) :=
  match args with
  | [] => .ok (read, [])
  | arg :: rest =>
    match Argument.ofString arg with
    | .plain => .ok (read, arg :: rest)
    | .stop => .ok (read, rest)
    | .malformed => .error (.badSyntax arg)
    | .flag name value =>
      match flags.lookup name, value, rest with
      | none, _, _ => .error (if name == "h" || name == "help" then .help else .unknown name)
      | some kind, some value, rest => do
        let v ← kind.read name value
        parseFlags flags ((name, v) :: read) rest
      | some .switch, none, rest => parseFlags flags ((name, .switch true) :: read) rest
      | some _, none, [] => .error (.missingValue name)
      | some kind, none, value :: rest => do
        let v ← kind.read name value
        parseFlags flags ((name, v) :: read) rest
termination_by args.length
decreasing_by all_goals grind

end Allotment.Command
