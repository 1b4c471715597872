import ArrayLang.Text.Quoted

/-!
# Flags

A flag starts with one or two dashes.  Its value follows an equals sign or, for a text, may be the
next argument.  The first argument that is no flag ends the flags, and so does a double dash.
-/

namespace ArrayLang.Command

/-- What the flags ask for. -/
structure Options where
  config : String := ""
  lang : String := ""
  emit : Bool := false
  noColor : Bool := false
  debug : Bool := false
  deriving DecidableEq, Repr

/-- A flag that takes a text. -/
inductive TextFlag where
  | config
  | lang
  deriving DecidableEq, Repr

/-- A flag that is on or off. -/
inductive Switch where
  | emit
  | noColor
  | debug
  deriving DecidableEq, Repr

/-- A flag. -/
inductive Flag where
  | text (f : TextFlag)
  | switch (f : Switch)
  deriving DecidableEq, Repr

/-- Why the arguments cannot be used. -/
inductive FlagError where
  /-- Help is asked for. -/
  | help
  | malformed (arg : String)
  | unknown (name : String)
  | noValue (name : String)
  | badSwitch (name value : String)
  deriving DecidableEq, Repr

/-- An error in words; help is none. -/
def FlagError.message : FlagError → String
  | help => ""
  | malformed arg => s!"bad flag syntax: {arg}\n"
  | unknown name => s!"flag provided but not defined: -{name}\n"
  | noValue name => s!"flag needs an argument: -{name}\n"
  | badSwitch name value =>
    s!"invalid boolean value {Text.quote value} for -{name}: parse error\n"

/-- The flag with a name. -/
def Flag.ofName? (name : String) : Option Flag :=
  if name = "config" then some (.text .config)
  else if name = "lang" then some (.text .lang)
  else if name = "emit" then some (.switch .emit)
  else if name = "no-color" then some (.switch .noColor)
  else if name = "debug" then some (.switch .debug)
  else none

/-- Set a flag that takes a text. -/
def Options.setText (o : Options) (value : String) : TextFlag → Options
  | .config => { o with config := value }
  | .lang => { o with lang := value }

/-- Set a flag that is on or off. -/
def Options.setSwitch (o : Options) (value : Bool) : Switch → Options
  | .emit => { o with emit := value }
  | .noColor => { o with noColor := value }
  | .debug => { o with debug := value }

/-- The truth value that a text stands for. -/
def switchValue? (text : String) : Option Bool :=
  if text ∈ ["1", "t", "T", "TRUE", "true", "True"] then some true
  else if text ∈ ["0", "f", "F", "FALSE", "false", "False"] then some false
  else none

/-- What an argument is. -/
inductive Arg where
  /-- Not a flag. -/
  | plain
  /-- A double dash. -/
  | endOfFlags
  | malformed
  | flag (name : String) (value : Option String)
  deriving DecidableEq, Repr

/-- A name, and a value if there is an equals sign behind the first character. -/
def splitValue (first : Char) (rest : List Char) : Arg :=
  let name := String.ofList (first :: rest.takeWhile (· ≠ '='))
  match rest.dropWhile (· ≠ '=') with
  | [] => .flag name none
  | _ :: value => .flag name (some (String.ofList value))

/-- What an argument is after its dashes. -/
def afterDashes : List Char → Arg
  | [] => .malformed
  | c :: rest => if c = '-' ∨ c = '=' then .malformed else splitValue c rest

/-- What an argument is. -/
def classify (arg : String) : Arg :=
  match arg.toList with
  | ['-', '-'] => .endOfFlags
  | '-' :: '-' :: rest => afterDashes rest
  | '-' :: c :: rest => afterDashes (c :: rest)
  | _ => .plain

/-- Read flags from the arguments.  The results are what they ask for and the other arguments. -/
def readFlags (o : Options) : List String → Except FlagError (Options × List String)
  | [] => .ok (o, [])
  | arg :: rest =>
    match classify arg with
    | .plain => .ok (o, arg :: rest)
    | .endOfFlags => .ok (o, rest)
    | .malformed => .error (.malformed arg)
    | .flag name value =>
      match Flag.ofName? name with
      | none => .error (if name = "help" ∨ name = "h" then .help else .unknown name)
      | some (.switch f) =>
        let text := value.getD "true"
        match switchValue? text with
        | none => .error (.badSwitch name text)
        | some on => readFlags (o.setSwitch on f) rest
      | some (.text f) =>
        match value, rest with
        | some value, rest => readFlags (o.setText value f) rest
        | none, value :: rest => readFlags (o.setText value f) rest
        | none, [] => .error (.noValue name)

end ArrayLang.Command
