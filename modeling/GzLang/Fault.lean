import GzLang.Text.Quoted
import GzLang.Value.Basic

/-!
# Faults

Why an operation stops. A fault is a cause, with what its message needs; `Fault.message` is the
one place where the wording stands.
-/

namespace GzLang

inductive FileFault where
  | noSuchFile
  | exists_
  | notADirectory
  | isADirectory
  | directoryNotEmpty
  | isADatabase
  | notADatabase
  deriving DecidableEq, Repr

inductive Fault where
  /-- An arithmetic operation on kinds that do not go together. -/
  | operands (op : String) (left right : Kind)
  | concatenation (left right : Kind)
  /-- A text or list repeated by something that is no integer. -/
  | repetition (count : Kind)
  | order (op : String) (left right : Kind)
  | divisionByZero
  | floatDivisionByZero
  | quotientTooLarge
  | powerTooLarge
  | zeroToNegativePower
  | integerTooLarge
  | countTooLarge
  | textTooLong
  | outOfMemory
  | notAnInteger (text : String)
  | literalTooLong (digits : Nat)
  | integerTooLong
  /-- A text cut in more parts than there are names for. -/
  | tooManyParts (expected : Nat)
  | tooFewParts (expected found : Nat)
  | tooDeep
  /-- A list without the element asked for. -/
  | noElement
  | missingKey (key : String)
  /-- A value that has no such operation. -/
  | noOperation (kind : Kind) (name : String)
  | noLength (kind : Kind)
  /-- A value where a text is needed. -/
  | notText (kind : Kind)
  /-- A value of a kind that the operation does not take. -/
  | wrongKind (detail : String)
  | unknownCategory (name : String)
  | file (cause : FileFault) (path : String)
  /-- A byte that does not belong where it stands in a text file. -/
  | undecodable (byte : Option Nat) (start stop : Nat) (reason : String)
  | notStorable (column : Nat) (kind : Kind)
  | integerNotStorable
  | databaseClosed
  | malformedDocument (reason : String) (line column position : Nat)
  | badPattern (reason : String)
  | badTimestamp (text : String)
  /-- A command that ended with a status other than zero. -/
  | commandFailed (command : String) (status : Nat)
  | noSource
  /-- A text that a routine gave up with. -/
  | raised (text : String)
  deriving Repr

def FileFault.message : FileFault → String
  | .noSuchFile => "[Errno 2] No such file or directory: "
  | .exists_ => "[Errno 17] File exists: "
  | .notADirectory => "[Errno 20] Not a directory: "
  | .isADirectory => "[Errno 21] Is a directory: "
  | .directoryNotEmpty => "[Errno 39] Directory not empty: "
  | .isADatabase => "file is a database: "
  | .notADatabase => "file is not a database: "

def quote (s : String) : String :=
  String.ofList (Text.quoted s.toList)

def Fault.message : Fault → String
  | .operands op l r =>
    "unsupported operand type(s) for " ++ op ++ ": '" ++ l.name ++ "' and '" ++ r.name ++ "'"
  | .concatenation l r =>
    "can only concatenate " ++ l.name ++ " (not \"" ++ r.name ++ "\") to " ++ l.name
  | .repetition k => "can't multiply sequence by non-int of type '" ++ k.name ++ "'"
  | .order op l r =>
    "'" ++ op ++ "' not supported between instances of '" ++ l.name ++ "' and '" ++ r.name ++ "'"
  | .divisionByZero => "division by zero"
  | .floatDivisionByZero => "float division by zero"
  | .quotientTooLarge => "integer division result too large for a float"
  | .powerTooLarge => "(34, 'Numerical result out of range')"
  | .zeroToNegativePower => "0.0 cannot be raised to a negative power"
  | .integerTooLarge => "int too large to convert to float"
  | .countTooLarge => "cannot fit 'int' into an index-sized integer"
  | .textTooLong => "repeated string is too long"
  | .outOfMemory => ""
  | .notAnInteger s =>
    "invalid literal for int() with base 10: " ++ String.ofList ((Text.quoted s.toList).take 200)
  | .literalTooLong n =>
    "Exceeds the limit (4300 digits) for integer string conversion: value has " ++ toString n ++
      " digits; use sys.set_int_max_str_digits() to increase the limit"
  | .integerTooLong =>
    "Exceeds the limit (4300 digits) for integer string conversion; " ++
      "use sys.set_int_max_str_digits() to increase the limit"
  | .tooManyParts n => "too many values to unpack (expected " ++ toString n ++ ")"
  | .tooFewParts n got =>
    "not enough values to unpack (expected " ++ toString n ++ ", got " ++ toString got ++ ")"
  | .tooDeep => "maximum recursion depth exceeded"
  | .noElement => "list index out of range"
  | .missingKey k => quote k
  | .noOperation k name => "'" ++ k.name ++ "' object has no attribute '" ++ name ++ "'"
  | .noLength k => "object of type '" ++ k.name ++ "' has no len()"
  | .notText k => "expected string or bytes-like object, got '" ++ k.name ++ "'"
  | .wrongKind detail => detail
  | .unknownCategory name => "Unknown memory category: " ++ name
  | .file cause path => cause.message ++ quote path
  | .undecodable byte start stop reason =>
    match byte with
    | some b =>
      "'utf-8' codec can't decode byte 0x" ++ String.ofList (Text.hexPadded 2 b) ++
        " in position " ++ toString start ++ ": " ++ reason
    | none =>
      "'utf-8' codec can't decode bytes in position " ++ toString start ++ "-" ++
        toString stop ++ ": " ++ reason
  | .notStorable column kind =>
    "Error binding parameter " ++ toString column ++ ": type '" ++ kind.name ++ "' is not supported"
  | .databaseClosed => "Cannot operate on a closed database."
  | .integerNotStorable => "Python int too large to convert to SQLite INTEGER"
  | .malformedDocument reason line column position =>
    reason ++ ": line " ++ toString line ++ " column " ++ toString column ++ " (char " ++
      toString position ++ ")"
  | .badPattern reason => reason
  | .badTimestamp text => "Invalid isoformat string: " ++ quote text
  | .commandFailed command status =>
    "Command " ++ quote command ++ " returned non-zero exit status " ++ toString status ++ "."
  | .noSource => "could not get source code"
  | .raised text => text

def Fault.label : Fault → String
  | .operands .. | .concatenation .. | .repetition .. | .order .. => "TypeError"
  | .noLength .. | .notText .. | .wrongKind .. => "TypeError"
  | .divisionByZero | .floatDivisionByZero | .zeroToNegativePower => "ZeroDivisionError"
  | .quotientTooLarge | .powerTooLarge | .integerTooLarge | .countTooLarge | .textTooLong =>
    "OverflowError"
  | .outOfMemory => "MemoryError"
  | .notAnInteger .. | .literalTooLong .. | .integerTooLong | .tooManyParts .. | .tooFewParts ..
  | .unknownCategory .. | .badTimestamp .. | .raised .. => "ValueError"
  | .tooDeep => "RecursionError"
  | .noElement => "IndexError"
  | .missingKey .. => "KeyError"
  | .noOperation .. => "AttributeError"
  | .file .noSuchFile _ => "FileNotFoundError"
  | .file .exists_ _ => "FileExistsError"
  | .file .notADirectory _ => "NotADirectoryError"
  | .file .isADirectory _ => "IsADirectoryError"
  | .file .directoryNotEmpty _ => "OSError"
  | .file .isADatabase _ => "UnicodeDecodeError"
  | .file .notADatabase _ => "DatabaseError"
  | .notStorable .. | .databaseClosed => "ProgrammingError"
  | .integerNotStorable => "OverflowError"
  | .undecodable .. => "UnicodeDecodeError"
  | .malformedDocument .. => "JSONDecodeError"
  | .badPattern .. => "error"
  | .commandFailed .. => "CalledProcessError"
  | .noSource => "OSError"

/-- The line that reports a fault. A fault of depth is reported by its name alone. -/
def Fault.report (f : Fault) : String :=
  match f with
  | .tooDeep => f.label
  | _ => if f.message.isEmpty then f.label else f.label ++ ": " ++ f.message

/-- Whether a fault says that a document is not there or is not well formed. -/
def Fault.isNoDocument : Fault → Bool
  | .file .noSuchFile _ => true
  | .malformedDocument .. => true
  | _ => false

end GzLang
