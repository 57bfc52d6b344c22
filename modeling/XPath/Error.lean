import XPath.Name
import XPath.Text.Numeral
import XPath.Text.Replace

/-!
# Errors

Every error has a code, which is an expanded name, and a message. The codes that evaluation raises by
itself form `ErrorCode`; each has a message template with numbered places, and `Error.format` fills
these places one after the other. Functions supplied from outside may raise any other name.
-/

namespace XPath

inductive ErrorCode where
  | FOAR0001
  | FOAR0002
  | FOCH0002
  | FORG0001
  | FORG0006
  | XPTY0004
  | XPTY0018
  | XPTY0019
  | XPTY0020
  | XPDY0002
  | XPST0003
  | XPST0008
  | XPST0017
  | XPST0081
  | unknown
deriving DecidableEq

namespace ErrorCode

/-- The local part of the code. -/
def localName : ErrorCode → String
  | FOAR0001 => "FOAR0001"
  | FOAR0002 => "FOAR0002"
  | FOCH0002 => "FOCH0002"
  | FORG0001 => "FORG0001"
  | FORG0006 => "FORG0006"
  | XPTY0004 => "XPTY0004"
  | XPTY0018 => "XPTY0018"
  | XPTY0019 => "XPTY0019"
  | XPTY0020 => "XPTY0020"
  | XPDY0002 => "XPDY0002"
  | XPST0003 => "XPST0003"
  | XPST0008 => "XPST0008"
  | XPST0017 => "XPST0017"
  | XPST0081 => "XPST0081"
  | unknown => "UNKNOWN"

/-- The codes that stand for a cause of their own. -/
def all : List ErrorCode :=
  [FOAR0001, FOAR0002, FOCH0002, FORG0001, FORG0006, XPTY0004, XPTY0018, XPTY0019, XPTY0020,
    XPDY0002, XPST0003, XPST0008, XPST0017, XPST0081]

/-- The code as it is written, with the conventional prefix. -/
def text (c : ErrorCode) : String :=
  "err:" ++ c.localName

/-- Reads a written code. Anything else is `unknown`. -/
def ofText (s : String) : ErrorCode :=
  (all.find? fun c => c.text == s).getD unknown

def name (c : ErrorCode) : ExpandedName :=
  ⟨some errorNamespace, c.localName⟩

/-- Message template. The place numbered `i` is an `i` in braces. -/
def template : ErrorCode → String
  | FOAR0001 => "division by zero in \x7b0\x7d"
  | FOAR0002 => "numeric overflow in \x7b0\x7d"
  | FOCH0002 => "unknown collation URI: \x7b0\x7d"
  | FORG0001 => "cannot convert '\x7b0\x7d' to \x7b1\x7d"
  | FORG0006 => "effective boolean value is not defined for \x7b0\x7d"
  | XPTY0004 => "\x7b0\x7d"
  | XPTY0018 => "result of path step mixes nodes and atomic values"
  | XPTY0019 => "intermediate path step returned \x7b0\x7d, expected a node"
  | XPTY0020 => "axis \x7b0\x7d requires a node as context item"
  | XPDY0002 => "\x7b0\x7d is undefined"
  | XPST0003 => "malformed expression: \x7b0\x7d"
  | XPST0008 => "variable $\x7b0\x7d is not declared"
  | XPST0017 => "unknown function \x7b0\x7d"
  | XPST0081 => "namespace prefix '\x7b0\x7d' is not declared"
  | unknown => "\x7b0\x7d"

/-- Static errors are found before any evaluation. -/
def isStatic : ErrorCode → Bool
  | XPST0003 | XPST0008 | XPST0017 | XPST0081 => true
  | _ => false

end ErrorCode

/-- The place numbered `i` of a template. -/
def placeholder (i : Nat) : List Char :=
  '\x7b' :: Text.natDigits i ++ ['\x7d']

/-- Fills the places from number `i` on, one argument after the other. A place that an argument
brings along is filled by the arguments after it. -/
def fillFrom : Nat → List String → List Char → List Char
  | _, [], msg => msg
  | i, arg :: args, msg =>
    fillFrom (i + 1) args (Text.replaceAll (placeholder i) arg.toList msg)

def fillTemplate (template : String) (args : List String) : String :=
  String.ofList (fillFrom 0 args template.toList)

/-- An error with the error it was caused by, if there is one. -/
inductive Error where
  | mk (code : ExpandedName) (message : String) (cause : Option Error)

namespace Error

def code : Error → ExpandedName
  | mk c _ _ => c

def message : Error → String
  | mk _ m _ => m

def cause : Error → Option Error
  | mk _ _ s => s

def ofName (code : ExpandedName) (message : String) : Error :=
  mk code message none

def ofCode (code : ErrorCode) (message : String) : Error :=
  ofName code.name message

/-- The error of a code with its template filled. -/
def format (code : ErrorCode) (args : List String) : Error :=
  ofCode code (fillTemplate code.template args)

def withCause (e : Error) (cause : Error) : Error :=
  mk e.code e.message (some cause)

/-- Which of the known codes the error has. -/
def errorCode (e : Error) : ErrorCode :=
  if e.code.uri = some errorNamespace then ErrorCode.ofText ("err:" ++ e.code.localName)
  else .unknown

/-- The code as it is shown: with the conventional prefix inside the error namespace. -/
def codeText (e : Error) : String :=
  if e.code.uri = some errorNamespace then "err:" ++ e.code.localName else e.code.text

def isStatic (e : Error) : Bool :=
  e.errorCode.isStatic

def causeCode (e : Error) : Option ErrorCode :=
  e.cause.map errorCode

def text (e : Error) : String :=
  "error: " ++ e.message ++ " (" ++ e.codeText ++ ")"

end Error

end XPath
