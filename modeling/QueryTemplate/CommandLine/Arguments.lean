import QueryTemplate.Statement.Basic
import QueryTemplate.Text.Path

/-! # Command-line arguments

A command is named in front of its operands and options. Options may stand anywhere behind the
name and none may be given twice; the value of an option is joined to it by an equals sign or is
the next argument, and only in the first case may it start with a dash. Two dashes end the
options. Short options can be joined behind one dash.
-/

namespace QueryTemplate

inductive Command where
  | compile (files : List Path) (schema : Option Path) (isPretty : Bool) (markers : Markers)
  | check (files : List Path) (schema : Option Path)
  | shape (query : Text) (isPretty : Bool)
deriving DecidableEq, Repr

inductive CommandOption where
  | verbose
  | schema
  | pretty
  | bindMarker
  | substituteMarker
deriving DecidableEq, Repr

namespace CommandOption

/-- The name of the option behind two dashes. -/
def long : CommandOption → Text
  | verbose => "verbose".toList
  | schema => "schema".toList
  | pretty => "pretty".toList
  | bindMarker => "bind-marker".toList
  | substituteMarker => "substitute-marker".toList

/-- The letter of the option behind one dash. -/
def short? : CommandOption → Option Char
  | verbose => some 'v'
  | schema => some 's'
  | pretty => some 'p'
  | bindMarker | substituteMarker => none

def hasValue : CommandOption → Bool
  | verbose | pretty => false
  | schema | bindMarker | substituteMarker => true

end CommandOption

/-- The options given, each with its value if it has one, and the operands. -/
structure Arguments where
  options : List (CommandOption × Option Text)
  operands : List Text
deriving DecidableEq, Repr

namespace Arguments

def withOption (option : CommandOption) (value : Option Text) (args : Arguments) : Arguments :=
  { args with options := (option, value) :: args.options }

def withOperand (operand : Text) (args : Arguments) : Arguments :=
  { args with operands := operand :: args.operands }

/-- Whether an argument starts with a dash and is more than that. -/
def isDashed : Text → Bool
  | '-' :: _ :: _ => true
  | _ => false

/-- The options that letters behind one dash give, and the option, if any, whose value is the
next argument. What follows the letter of an option with a value is its value. -/
def shorts? (known : List CommandOption) :
    Text → Option (List (CommandOption × Option Text) × Option CommandOption)
  | [] => some ([], none)
  | c :: rest =>
    match known.find? (·.short? == some c) with
    | none => none
    | some option =>
      if option.hasValue then
        match rest with
        | [] => some ([], some option)
        | '=' :: value => some ([(option, some value)], none)
        | value => some ([(option, some value)], none)
      else
        (shorts? known rest).map fun (options, last) => ((option, none) :: options, last)

/-- The options and operands among arguments, where only `known` options are accepted. -/
def parse? (known : List CommandOption) : List Text → Option Arguments
  | [] => some ⟨[], []⟩
  | arg :: rest =>
    if arg = ['-', '-'] then some ⟨[], rest⟩
    else if !isDashed arg then (parse? known rest).map (withOperand arg)
    else
      match Text.dropLead? ['-', '-'] arg with
      | some long =>
        let (name, value) : Text × Option Text :=
          match Text.splitFirst? '=' long with
          | some (name, value) => (name, some value)
          | none => (long, none)
        match known.find? (·.long == name) with
        | none => none
        | some option =>
          match option.hasValue, value with
          | true, some value => (parse? known rest).map (withOption option (some value))
          | true, none =>
            match rest with
            | [] => none
            | value :: rest =>
              if isDashed value then none
              else (parse? known rest).map (withOption option (some value))
          | false, none => (parse? known rest).map (withOption option none)
          | false, some _ => none
      | none =>
        match shorts? known arg.tail with
        | none => none
        | some (options, none) =>
          (parse? known rest).map fun args => { args with options := options ++ args.options }
        | some (options, some last) =>
          match rest with
          | [] => none
          | value :: rest =>
            if isDashed value then none
            else (parse? known rest).map fun args =>
              { args with options := options ++ (last, some value) :: args.options }

def isDistinct (args : Arguments) : Bool := (args.options.map (·.1)).Nodup

def has (args : Arguments) (option : CommandOption) : Bool :=
  args.options.any (·.1 == option)

def value? (args : Arguments) (option : CommandOption) : Option Text :=
  (args.options.lookup option).join

end Arguments

namespace Command

/-- The options that a command knows by its name. -/
def options? (name : Text) : Option (List CommandOption) :=
  if name = "compile".toList then
    some [.verbose, .schema, .pretty, .bindMarker, .substituteMarker]
  else if name = "check".toList then some [.verbose, .schema]
  else if name = "shape".toList then some [.verbose, .pretty]
  else none

/-- The command of the given name with the given arguments. The path of a file is not empty. -/
def ofArguments? (name : Text) (args : Arguments) : Option Command :=
  let files := args.operands.map Path.ofText
  let schema := (args.value? .schema).map Path.ofText
  if name = "shape".toList then
    match args.operands with
    | [query] => some (shape query (args.has .pretty))
    | _ => none
  else if [] ∈ args.operands ∨ args.value? .schema = some [] then none
  else if name = "check".toList then some (check files schema)
  else
    some (compile files schema (args.has .pretty)
      ⟨(args.value? .bindMarker).getD Markers.standard.bind,
        (args.value? .substituteMarker).getD Markers.standard.substitute⟩)

/-- The command that the arguments of the program give, if they give one. Its name may have
options in front of it, but nothing may end the options there. -/
def parse? (args : List Text) : Option Command := do
  let lead := args.takeWhile Arguments.isDashed
  match args.dropWhile Arguments.isDashed with
  | [] => none
  | name :: rest =>
    let before ← Arguments.parse? [.verbose] lead
    let behind ← Arguments.parse? (← options? name) rest
    if ['-', '-'] ∉ lead ∧ before.isDistinct ∧ behind.isDistinct then ofArguments? name behind
    else none

end Command

end QueryTemplate
