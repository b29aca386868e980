/-
# Why a compilation fails

An error is a cause together with the place it was found.  Causes carry what the
wording needs (names of types, texts of candidates); `CompileError.message` is
the only place where they are worded.

Everything but `internal` is found while the tree is built.  Internal faults are
limits of the code format and broken promises between the passes.

A stream of events can also end the program before any error is found: its
operands are counted in machine words, and the count may overflow (`Stop`).
-/
import ExprCompiler.Event

namespace ExprCompiler

/-- Operands or results of types that do not fit.  Texts are names of types,
members and operators. -/
inductive Mismatch
  | binaryOperator (symbol left right : String)
  | unaryOperator (symbol operand : String)
  | notConvertible (source target : String)
  | conditionNotBool (found : String)
  | branches (whenTrue whenFalse : String)
  | notCollection (type : String)
  | notSearchable (probe element : String)
  | listItem (item probe : String)
  | mustBeCalled (name : String)
  | notMethod (name : String)
  | noOverload (name : String) (arguments : List String)
  | noValue
  deriving DecidableEq, Repr, Inhabited

/-- Two candidates that fit equally well. -/
inductive Ambiguity
  | overload (name first second : String)
  | operator (symbol first second : String)
  | conversion (source target first second : String)
  deriving DecidableEq, Repr, Inhabited

/-- Event streams that describe no tree. -/
inductive Malformation
  | wrongArity (tag : Tag) (found : Nat)
  | missingOperands (tag : Tag) (available : Nat)
  | emptyList
  | emptyExpression
  | leftOver (count : Nat)
  deriving DecidableEq, Repr, Inhabited

/-- Limits of the code format and broken promises between passes. -/
inductive Fault
  | noRoot
  | poolFull
  | tooManyTemporaries
  | tooManyArguments
  | labelNeverMarked (label : Nat)
  | branchToUnknownLabel (start label : Nat)
  | unknownLabel (label : Nat)
  | branchCount (emitted planned : Nat)
  | branchTooFar
  | shortBranchMisses (start target : Nat)
  | labelsDiffer (emitted planned : List Nat)
  | sizeDiffers (emitted planned : Nat)
  | enumWithoutUnderlying (type : String)
  | noCandidates (name : String)
  deriving DecidableEq, Repr, Inhabited

/-- Why a compilation fails, and where. -/
inductive CompileError
  | mismatch (cause : Mismatch) (span : Span)
  | ambiguous (cause : Ambiguity) (span : Span)
  | undefined (name scope : String) (span : Span)
  | invalidCast (source target : String) (span : Span)
  | malformed (cause : Malformation) (span : Span)
  | internal (cause : Fault)
  deriving DecidableEq, Repr, Inhabited

/-- Why a stream of events has no result. -/
inductive Stop
  /-- An error is found and reported. -/
  | refused (error : CompileError)
  /-- The operands of an event are too many to count: the program stops there, and
  nothing is reported. -/
  | overflow
  deriving DecidableEq, Repr, Inhabited

/-! ## Wording -/

/-- A name in single quotes. -/
def quoteName (name : String) : String := "'" ++ name ++ "'"

def Mismatch.message : Mismatch → String
  | binaryOperator symbol left right =>
    "operator " ++ quoteName symbol ++ " cannot be applied to " ++ quoteName left
      ++ " and " ++ quoteName right
  | unaryOperator symbol operand =>
    "operator " ++ quoteName symbol ++ " cannot be applied to " ++ quoteName operand
  | notConvertible source target =>
    "cannot implicitly convert " ++ quoteName source ++ " to " ++ quoteName target
  | conditionNotBool found => "condition must be 'bool', found " ++ quoteName found
  | branches whenTrue whenFalse =>
    "branch types " ++ quoteName whenTrue ++ " and " ++ quoteName whenFalse
      ++ " are neither convertible"
  | notCollection type => quoteName type ++ " is not a collection"
  | notSearchable probe element =>
    "cannot search for " ++ quoteName probe ++ " in a collection of " ++ quoteName element
  | listItem item probe =>
    "'in' item of type " ++ quoteName item ++ " cannot be compared with " ++ quoteName probe
  | mustBeCalled name => quoteName name ++ " is a method and must be called"
  | notMethod name => quoteName name ++ " is not a method"
  | noOverload name arguments =>
    "no overload of " ++ quoteName name ++ " accepts ("
      ++ String.intercalate ", " arguments ++ ")"
  | noValue => "expression does not produce a value"

/-- What the candidates compete for. -/
def Ambiguity.subject : Ambiguity → String
  | overload name _ _ => name
  | operator symbol _ _ => "operator " ++ quoteName symbol
  | conversion source target _ _ =>
    "conversion from " ++ quoteName source ++ " to " ++ quoteName target

/-- The candidates. -/
def Ambiguity.candidates : Ambiguity → String
  | overload _ first second | operator _ first second | conversion _ _ first second =>
    first ++ " and " ++ second

def Malformation.message : Malformation → String
  | wrongArity tag found =>
    tag.describe ++ " expects " ++ toString tag.arity ++ " children, got " ++ toString found
  | missingOperands tag available =>
    tag.describe ++ " needs " ++ toString tag.arity ++ " operands, " ++ toString available
      ++ " available"
  | emptyList => "'in' list has no items"
  | emptyExpression => "empty expression"
  | leftOver count => toString count ++ " operands left without an operator"

/-- A bracketed list of numbers. -/
def numberList (numbers : List Nat) : String :=
  "[" ++ String.intercalate ", " (numbers.map toString) ++ "]"

def Fault.message : Fault → String
  | noRoot => "expression tree does not end in a root"
  | poolFull => "constant pool exceeds 65535 entries"
  | tooManyTemporaries => "too many temporary locals"
  | tooManyArguments => "call has more than 255 arguments"
  | labelNeverMarked label => "label " ++ toString label ++ " never marked"
  | branchToUnknownLabel start label =>
    "branch at " ++ toString start ++ " targets unknown label " ++ toString label
  | unknownLabel label => "unknown label " ++ toString label
  | branchCount emitted planned =>
    "emitted " ++ toString emitted ++ " branches but " ++ toString planned ++ " were planned"
  | branchTooFar => "branch offset exceeds 32 bits"
  | shortBranchMisses start target =>
    "short branch at " ++ toString start ++ " cannot reach " ++ toString target
  | labelsDiffer emitted planned =>
    "label offsets " ++ numberList emitted ++ " differ from the relaxed layout "
      ++ numberList planned
  | sizeDiffers emitted planned =>
    "emitted " ++ toString emitted ++ " bytes, expected " ++ toString planned
  | enumWithoutUnderlying type => "enum " ++ quoteName type ++ " has no underlying type"
  | noCandidates name => "no viable candidates for " ++ quoteName name

namespace CompileError

/-- Where the error was found; internal faults have no place. -/
def span : CompileError → Span
  | mismatch _ s | ambiguous _ s | undefined _ _ s | invalidCast _ _ s | malformed _ s => s
  | internal _ => .unknown

/-- The sort of error, for people. -/
def sort : CompileError → String
  | mismatch .. => "type mismatch"
  | ambiguous .. => "ambiguous match"
  | undefined .. => "undefined name"
  | invalidCast .. => "invalid explicit cast"
  | malformed .. => "malformed reduction"
  | internal .. => "internal error"

/-- The full wording, with the place in front. -/
def message : CompileError → String
  | mismatch cause s => "at " ++ s.text ++ ": " ++ cause.message
  | ambiguous cause s =>
    "at " ++ s.text ++ ": ambiguous match for " ++ quoteName cause.subject ++ ": could be "
      ++ cause.candidates
  | undefined name scope s =>
    "at " ++ s.text ++ ": " ++ quoteName name ++ " is not defined in " ++ scope
  | invalidCast source target s =>
    "at " ++ s.text ++ ": cannot cast " ++ quoteName source ++ " to " ++ quoteName target
  | malformed cause s => "at " ++ s.text ++ ": malformed reduction: " ++ cause.message
  | internal cause => "internal compiler error: " ++ cause.message

end CompileError

end ExprCompiler
