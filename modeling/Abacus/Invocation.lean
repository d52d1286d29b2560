import Abacus.Decimal.Read
import Abacus.Session.Evaluator

/-!
# Invocation

The command line of the calculator: the three numeric settings as options, each written either
as `--name value` or `--name=value`, an optional `--verbose` (or `-v`) that changes nothing
written, and at most one script given as an argument. With no script argument the script is
read from standard input. A value of an option is an optional `+` and decimal digits; the
number of fraction digits and of places is below `2 ^ 64`, the largest denominator below
`2 ^ 32`. An argument after `--` is the script even if it starts with `-`.
-/
namespace Abacus

open Session

/-- What a command line asks for: the settings, and the script if it is given as an
argument. -/
structure Invocation where
  settings : Settings
  script : Option String
  deriving DecidableEq, Repr

namespace Invocation

/-- The standard settings and no script argument. -/
def standard : Invocation := ⟨Settings.standard, none⟩

/-- The options that take a value: their names, and the bound their value stays below. -/
def optionBound? : String → Option Nat
  | "fraction-digits" => some (Nat.pow 2 64)
  | "max-denominator" => some (Nat.pow 2 32)
  | "display-digits" => some (Nat.pow 2 64)
  | _ => none

/-- Sets the option `name` to `value`. -/
def setOption (inv : Invocation) (name : String) (value : Nat) : Invocation :=
  match name with
  | "fraction-digits" => { inv with settings.fractionDigits := value }
  | "max-denominator" => { inv with settings.maxDenominator := value }
  | _ => { inv with settings.displayDigits := value }

/-- Reads the value of the option `name` and sets it. -/
def withOption (inv : Invocation) (name value : String) : Except String Invocation :=
  match optionBound? name with
  | none => .error s!"error: unexpected argument '--{name}' found"
  | some bound =>
    match Decimal.readNatBelow? bound value with
    | some n => .ok (inv.setOption name n)
    | none => .error s!"error: invalid value '{value}' for '--{name}'"

/-- Takes the script argument, refusing a second one. -/
def withScript (inv : Invocation) (text : String) : Except String Invocation :=
  match inv.script with
  | none => .ok { inv with script := some text }
  | some _ => .error s!"error: unexpected argument '{text}' found"

/-- Reads the arguments after those already read into `inv`; `rest` holds only scripts. -/
def readArgs (inv : Invocation) : List String → Except String Invocation
  | [] => .ok inv
  | "--" :: rest => rest.foldlM withScript inv
  | "-v" :: rest | "--verbose" :: rest => readArgs inv rest
  | arg :: rest =>
    match arg.toList with
    | '-' :: '-' :: option =>
      match (option.splitOn '=') with
      | [name] =>
        let name := String.ofList name
        match optionBound? name, rest with
        | some _, value :: rest' => do readArgs (← inv.withOption name value) rest'
        | some _, [] => .error s!"error: a value is required for '--{name}' but none was supplied"
        | none, _ => .error s!"error: unexpected argument '{arg}' found"
      | name :: _ =>
        let value := String.ofList (option.drop (name.length + 1))
        do readArgs (← inv.withOption (String.ofList name) value) rest
      | [] => .error s!"error: unexpected argument '{arg}' found"
    | '-' :: _ :: _ => .error s!"error: unexpected argument '{arg}' found"
    | _ => do readArgs (← inv.withScript arg) rest

/-- The invocation a command line asks for, or the report of what is wrong with it. -/
def ofArgs (args : List String) : Except String Invocation := standard.readArgs args

end Invocation

end Abacus
