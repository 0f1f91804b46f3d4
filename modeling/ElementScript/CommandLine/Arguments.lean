import ElementScript.Files.Path

/-!
# Command line arguments

The program has three commands. Arguments are taken from left to right, and the first one that
cannot be used, or that asks for help, decides; only then is it checked that nothing is missing.
-/

namespace ElementScript

/-- What the program is asked to do. -/
inductive Command where
  /-- Compile one script, from a file or from standard input. -/
  | translate (file? : Option Path) (fromInput json : Bool)
  /-- Try to compile all scripts below a directory. -/
  | check (dir : Path)
  /-- Load components and print them. -/
  | bundle (names : List Text) (dir? config? : Option Path)
  deriving Repr, DecidableEq

/-- The pages of help. -/
inductive HelpPage where
  | program
  | translate
  | check
  | bundle
  | help
  deriving Repr, DecidableEq

/-- What the arguments amount to. -/
inductive Invocation where
  | run (command : Command)
  | help (page : HelpPage)
  /-- The arguments make no sense. -/
  | misuse
  deriving Repr, DecidableEq

/-- The arguments that a command takes. -/
structure ArgumentSpec where
  /-- Names of flags, with their dashes. -/
  flags : List Text
  /-- Names of options, which take a path as value. -/
  options : List Text
  /-- The number of values besides those of options, if it is limited. -/
  maxValues? : Option Nat
  /-- Whether these values are paths, and so not empty. -/
  arePaths : Bool

/-- The arguments of a command, taken apart. -/
structure Arguments where
  flags : List Text
  options : List (Text × Path)
  values : List Text
  deriving Repr, DecidableEq

namespace Arguments

/-- What comes of taking arguments apart. -/
inductive Outcome where
  | taken (arguments : Arguments)
  | help
  | misuse

/-- Whether an argument is a dash and more, and so no value. -/
def isDashed : Text → Bool
  | '-' :: _ :: _ => true
  | _ => false

/-- An argument with two dashes in front: its name, and the value after an equals sign. -/
def splitName (arg : Text) : Text × Option Text :=
  match arg.dropWhile (· != '=') with
  | [] => (arg, none)
  | _ :: value => (arg.takeWhile (· != '='), some value)

/-- Add a value, unless that is one too many or an empty path. -/
def addValue? (spec : ArgumentSpec) (a : Arguments) (value : Text) : Option Arguments :=
  if spec.maxValues?.any (· ≤ a.values.length) || (spec.arePaths && value.isEmpty) then none
  else some { a with values := a.values ++ [value] }

/-- Add the value of an option, unless it is empty or the option has one. -/
def addOption? (a : Arguments) (name : Text) (value : Path) : Option Arguments :=
  if value.isEmpty || (a.options.lookup name).isSome then none
  else some { a with options := a.options ++ [(name, value)] }

/-- Take arguments apart, after those in `a`. With `literal`, all of them are values. -/
def takeFrom (spec : ArgumentSpec) (a : Arguments) (literal : Bool) : List Text → Outcome
  | [] => .taken a
  | arg :: args =>
    if literal || !isDashed arg then
      match addValue? spec a arg with
      | some a => takeFrom spec a literal args
      | none => .misuse
    else if arg = "--".toList then takeFrom spec a true args
    else if "--".toList.isPrefixOf arg then
      match splitName arg with
      | (name, none) =>
        if name = "--help".toList then .help
        else if name ∈ spec.flags then
          if name ∈ a.flags then .misuse
          else takeFrom spec { a with flags := name :: a.flags } literal args
        else if name ∈ spec.options then
          match args with
          | value :: args =>
            if isDashed value then .misuse
            else match addOption? a name value with
              | some a => takeFrom spec a literal args
              | none => .misuse
          | [] => .misuse
        else .misuse
      | (name, some value) =>
        if name ∈ spec.options then
          match addOption? a name value with
          | some a => takeFrom spec a literal args
          | none => .misuse
        else .misuse
    else if arg.take 2 = "-h".toList then .help
    else .misuse

/-- Take the arguments of a command apart. -/
def take (spec : ArgumentSpec) (args : List Text) : Outcome := takeFrom spec ⟨[], [], []⟩ false args

end Arguments

namespace Invocation

/-- The invocation that the arguments of a command make, by a reading of what they are. -/
def ofArguments (page : HelpPage) (spec : ArgumentSpec) (command? : Arguments → Option Command)
    (args : List Text) : Invocation :=
  match Arguments.take spec args with
  | .misuse => misuse
  | .help => help page
  | .taken a => (command? a).elim misuse run

/-- `translate`: a file, unless standard input is to be read. -/
def translate : List Text → Invocation :=
  ofArguments .translate ⟨["--stdin".toList, "--json".toList], [], some 1, true⟩ fun a =>
    let fromInput := decide ("--stdin".toList ∈ a.flags)
    if a.values.isEmpty && !fromInput then none
    else some (.translate a.values.head? fromInput (decide ("--json".toList ∈ a.flags)))

/-- `check`: a directory. -/
def check : List Text → Invocation :=
  ofArguments .check ⟨[], [], some 1, true⟩ fun a => a.values.head?.map .check

/-- `bundle`: names of components. -/
def bundle : List Text → Invocation :=
  ofArguments .bundle ⟨[], ["--dir".toList, "--config".toList], none, false⟩ fun a =>
    let option (name : String) : Option Path := a.options.lookup name.toList
    if a.values.isEmpty then none
    else some (.bundle a.values (option "--dir") (option "--config"))

/-- The pages of help, by the names of commands. -/
def helpPages : List (Text × HelpPage) :=
  [("translate".toList, .translate), ("check".toList, .check), ("bundle".toList, .bundle),
    ("help".toList, .help)]

/-- `help`: perhaps the name of a command. -/
def helpOn : List Text → Invocation
  | [] => help .program
  | [name] => (helpPages.lookup name).elim misuse help
  | _ => misuse

/-- What the arguments of the program amount to. -/
def ofArgs : List Text → Invocation
  | [] => misuse
  | arg :: args =>
    if arg = "translate".toList then translate args
    else if arg = "check".toList then check args
    else if arg = "bundle".toList then bundle args
    else if arg = "help".toList then helpOn args
    else if arg = "--help".toList ∨ arg.take 2 = "-h".toList then help .program
    else misuse

end Invocation

end ElementScript
