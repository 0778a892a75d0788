import ByteRegex.Regex

/-!
# Command line

The arguments of the program, what they ask for, and what the program answers. An argument is a
list of bytes. Limits may be set anywhere among the arguments of a subcommand, each of them once,
and `--` ends the options. Arguments are judged from left to right, so a call for help
counts unless a fault stands before it.
-/

namespace ByteRegex.CommandLine

abbrev Argument := List UInt8

def argument (text : String) : Argument := text.toUTF8.toList

def plusSign : UInt8 := 43

def minusSign : UInt8 := 45

def equalsSign : UInt8 := 61

/-! ## Numbers -/

def unsigned? (text : Argument) : Option Nat :=
  let digits := if text.head? = some plusSign then text.tail else text
  if digits ≠ [] ∧ digits.all (Bound.IsDigit ·) then some (Bound.value digits) else none

def number? (max : Nat) (text : Argument) : Option Nat := (unsigned? text).filter (· ≤ max)

/-- A number from 0 to `max`, where zero may also have a minus sign. -/
def signed? (max : Nat) (text : Argument) : Option Nat :=
  if text.head? = some minusSign then
    if text.tail.head? = some plusSign then none else number? 0 text.tail
  else number? max text

/-! ## Options -/

inductive LimitOption where
  | maxRepeat
  | maxStates
  | nestLimit
deriving DecidableEq

namespace LimitOption

def all : List LimitOption := [maxRepeat, maxStates, nestLimit]

def flag : LimitOption → Argument
  | maxRepeat => argument "--max-repeat"
  | maxStates => argument "--max-states"
  | nestLimit => argument "--nest-limit"

def set? (value : Argument) (limits : Limits) : LimitOption → Option Limits
  | maxRepeat => (signed? Limits.wordMax value).map fun n => { limits with maxRepeat := .ofNat n }
  | maxStates =>
    (number? (UInt64.size - 1) value).map fun n => { limits with maxStates := .ofNat n }
  | nestLimit => (signed? Limits.wordMax value).map fun n => { limits with nestLimit := .ofNat n }

end LimitOption

inductive Flag where
  | operand
  | help
  | set (option : LimitOption) (value : Argument)
  /-- The value is the next argument. -/
  | expects (option : LimitOption)
  | unknown

/-- A hyphen alone is an operand. -/
def looksLikeOption (a : Argument) : Bool := a.head? = some minusSign && a.length ≠ 1

/-- A short option takes effect whatever is written behind it. -/
def IsShort (option : String) (a : Argument) : Prop := argument option <+: a

instance (option : String) (a : Argument) : Decidable (IsShort option a) :=
  inferInstanceAs (Decidable (_ <+: _))

def AsksForHelp (a : Argument) : Prop := a = argument "--help" ∨ IsShort "-h" a

instance (a : Argument) : Decidable (AsksForHelp a) := inferInstanceAs (Decidable (_ ∨ _))

def AsksForVersion (a : Argument) : Prop := a = argument "--version" ∨ IsShort "-V" a

instance (a : Argument) : Decidable (AsksForVersion a) := inferInstanceAs (Decidable (_ ∨ _))

def Flag.ofArgument (a : Argument) : Flag :=
  if !looksLikeOption a then operand
  else if AsksForHelp a then help
  else
    let name := a.takeWhile (· ≠ equalsSign)
    match LimitOption.all.find? fun o => o.flag = name with
    | none => unknown
    | some o =>
      match a.dropWhile (· ≠ equalsSign) with
      | [] => expects o
      | _ :: value => set o value

/-! ## Requests -/

inductive Request where
  | version
  | help
  | test (limits : Limits) (pattern : Argument) (inputs : List Argument)
  | draw (limits : Limits) (pattern : Argument)

/-! ## Arguments of a subcommand -/

structure Reading where
  limits : Limits := {}
  /-- The options that have been set. -/
  given : List LimitOption := []
  /-- The operands, newest first. -/
  operands : List Argument := []

def Reading.set? (o : LimitOption) (value : Argument) (r : Reading) : Option Reading :=
  if o ∈ r.given then none
  else (o.set? value r.limits).map fun limits => { r with limits, given := o :: r.given }

inductive Subcommand where
  | test
  | draw

namespace Subcommand

def all : List Subcommand := [test, draw]

def name : Subcommand → Argument
  | test => argument "match"
  | draw => argument "dot"

/-- Takes one more operand. A drawing has no operand but its pattern. -/
def operand? (s : Subcommand) (r : Reading) (a : Argument) : Option Reading :=
  match s, r.operands with
  | draw, _ :: _ => none
  | _, operands => some { r with operands := a :: operands }

def request? (s : Subcommand) (r : Reading) : Option Request :=
  match s, r.operands.reverse with
  | test, pattern :: input :: inputs => some (.test r.limits pattern (input :: inputs))
  | draw, [pattern] => some (.draw r.limits pattern)
  | _, _ => none

def read? (s : Subcommand) : List Argument → Reading → Option Request
  | [], r => s.request? r
  | a :: rest, r =>
    if a = argument "--" then (rest.foldlM s.operand? r).bind s.request?
    else
      match Flag.ofArgument a with
      | .operand => (s.operand? r a).bind (s.read? rest)
      | .help => some .help
      | .set o value => (r.set? o value).bind (s.read? rest)
      | .expects o =>
        match rest with
        | [] => none
        | value :: rest =>
          if looksLikeOption value then none else (r.set? o value).bind (s.read? rest)
      | .unknown => none

end Subcommand

/-! ## Arguments of the program -/

def helpName : Argument := argument "help"

def Request.helpOn? : List Argument → Option Request
  | [] => some help
  | [topic] => if topic ∈ helpName :: Subcommand.all.map Subcommand.name then some help else none
  | _ => none

def Request.ofArguments? : List Argument → Option Request
  | [] => none
  | a :: rest =>
    if AsksForVersion a then some version
    else if AsksForHelp a then some help
    else if a = helpName then helpOn? rest
    else (Subcommand.all.find? fun s => s.name = a).bind fun s => s.read? rest {}

/-! ## Answers -/

inductive Answer where
  | printed (text : String)
  /-- The pattern was rejected. -/
  | rejected (message : String)
  /-- The arguments make no request. -/
  | misused

namespace Answer

def exitCode : Answer → Nat
  | printed _ => 0
  | rejected _ => 1
  | misused => 2

def stdout : Answer → String
  | printed text => text
  | _ => ""

end Answer

def versionText : String := "regex-thompson-backtrack 0.1.0\n"

def usageText : String :=
  "Usage: match [LIMITS] PATTERN INPUT...\n" ++
  "       dot [LIMITS] PATTERN\n" ++
  "Limits: --max-repeat N, --max-states N, --nest-limit N\n"

def withRegex (limits : Limits) (pattern : Argument) (print : Regex → String) : Answer :=
  match Regex.compile limits pattern with
  | .ok r => .printed (print r)
  | .error e =>
    .rejected s!"error: failed to compile pattern `{Escaped.bytes pattern}`: {e.message}\n"

def Request.answer : Request → Answer
  | version => .printed versionText
  | help => .printed usageText
  | test limits pattern inputs => withRegex limits pattern fun r =>
    String.join (inputs.map fun input => toString (r.isMatch input) ++ "\n")
  | draw limits pattern => withRegex limits pattern Regex.dot

def run (args : List Argument) : Answer :=
  match Request.ofArguments? args with
  | none => .misused
  | some request => request.answer

end ByteRegex.CommandLine
