import Bijou.Library.Automaton
import Bijou.Library.CString

/-! The character scanners of compiler.c. The stream is what `fgetc` returns, one char a call: the
bytes of the file, then `(char) EOF` for ever. A `Place` is a call of `fgetc` in the source, and
each loop of a scanner is a mode of it. What is read is a list here, however long; the scanners of
`Buffered` return the same, and also see whether it fits the memory that it is stored in. -/

namespace Bijou

open CString Incremental

abbrev newline : Byte := 10
abbrev quote : Byte := 34
abbrev hash : Byte := 35
abbrev minus : Byte := 45
abbrev semicolon : Byte := 59
abbrev letterK : Byte := 75
abbrev eof : Byte := 255

inductive Place where
  | charBlank
  | charComment
  | nextBody
  | nextQuote
  | lineBlank
  | lineBody (string : List Byte)
  | lineQuote
  | lineComment
  | argsBlank
  | argsBody
  | argsComment
  | expectBody
  deriving DecidableEq

instance : Inhabited Place := ⟨.charBlank⟩

inductive CompileError where
  | unknownDirective (string : List Byte)
  | unknownOpcode (string : List Byte)
  | unexpectedEof
  | eofInString (string : List Byte)
  | unterminatedString (string : List Byte)
  | malformedArgument (arg : List Byte)
  | malformedConstant (line : List Byte)
  | pointerObject
  | unknownType (type : BitVec 32) (line : List Byte)
  | expected (str s : List Byte)
  | nullCompare
  deriving DecidableEq

namespace CompileError

/-- The message on stderr; the last error is the crash of `strcmp` and prints nothing. -/
def text : CompileError → List Byte
  | unknownDirective string => bytes "Don't know \"" ++ cstr string ++ bytes "\"\n"
  | unknownOpcode string => bytes "Don't know opcode \"" ++ cstr string ++ bytes "\"\n"
  | unexpectedEof => bytes "Unexpected EOF!\n"
  | eofInString string => bytes "Unexpected EOF while reading string: " ++ cstr string ++ [newline]
  | unterminatedString string => bytes "Unterminated string: " ++ cstr string ++ [newline]
  | malformedArgument arg => bytes "Malformed argument: " ++ cstr arg ++ [newline]
  | malformedConstant line => bytes "Error: malformed constant: " ++ cstr line ++ [newline]
  | pointerObject => bytes "Error: trying to save a pointer object\n"
  | unknownType type line =>
    bytes "Unknown type: " ++ signed type.toInt ++ bytes " (" ++ cstr line ++ bytes ")\n"
  | expected str s => bytes "Expected \"" ++ str ++ bytes "\", but got \"" ++ cstr s ++ bytes "\"\n"
  | nullCompare => []

end CompileError

abbrev Scan := Reader Byte Place CompileError

inductive CharMode where
  | blank
  | comment

def charStep (ignoreWs : Bool) : CharMode → Byte → Verdict CharMode CompileError Byte
  | .blank, c =>
    if ignoreWs && isspace c then .go .blank
    else if c = semicolon then .go .comment
    else .stop c
  | .comment, c => if c = newline then .go .blank else .go .comment

def CharMode.place : CharMode → Place
  | .blank => .charBlank
  | .comment => .charComment

def readChar (ignoreWs : Bool) : Scan Byte := scan CharMode.place (charStep ignoreWs) .blank

inductive NextMode where
  | body (string : List Byte)
  | quote (string : List Byte)

-- the closing quote is stored one past the end, where the next character or the NUL overwrites it;
-- whether that place can be written to is checked by `NextMode.inside`
def nextStep : NextMode → Byte → Verdict NextMode CompileError (List Byte)
  | .body string, c =>
    if isspace c then .stop string
    else if c = eof then .exit .unexpectedEof
    else if c = quote then .go (.quote (string ++ [c]))
    else .go (.body (string ++ [c]))
  | .quote string, c => if c = quote then .go (.body string) else .go (.quote (string ++ [c]))

def NextMode.place : NextMode → Place
  | .body _ => .nextBody
  | .quote _ => .nextQuote

def readNext : Scan (List Byte) := do
  let c ← readChar true
  scan NextMode.place nextStep (.body [c])

inductive LineMode where
  | blank
  | body (string : List Byte)
  | quote (string : List Byte)
  | comment (string : List Byte)

def lineStep : LineMode → Byte → Verdict LineMode CompileError (List Byte)
  | .blank, c => if isspace c then .go .blank else .go (.body [c])
  | .body string, c =>
    if c = newline then .stop (string ++ [0])
    else if c = semicolon then .go (.comment (string.dropLast ++ [0]))
    else if c = quote then .go (.quote (string ++ [c]))
    else .go (.body (string ++ [c]))
  | .quote string, c =>
    if c = quote then .go (.body (string ++ [0]))
    else if c = eof then .exit (.eofInString string)
    else if c = newline then .exit (.unterminatedString string)
    else .go (.quote (string ++ [c]))
  | .comment string, c => if c = newline then .stop string else .go (.comment string)

def LineMode.place : LineMode → Place
  | .blank => .lineBlank
  | .body string => .lineBody string
  | .quote _ => .lineQuote
  | .comment _ => .lineComment

def readLine : Scan (List Byte) := scan LineMode.place lineStep .blank

/-- Whether the rest of the line is blank. A character that is not a blank is put back by
`ungetc`, which does nothing for the one that equals EOF. -/
def blankStep : Unit → Byte → Verdict Unit CompileError Bool
  | (), c =>
    if isspace c && c != newline then .go ()
    else if c = newline then .stop true
    else if c = eof then .stop false
    else .back false

def skipBlank : Scan Bool := scan (fun _ => .argsBlank) blankStep ()

inductive ArgMode where
  | body (arg : List Byte)
  | comment

def argStep : ArgMode → Byte → Verdict ArgMode CompileError (Option (List Byte))
  | .body arg, c =>
    if isspace c then .stop (some arg)
    else if c = semicolon then .go .comment
    else .go (.body (arg ++ [c]))
  | .comment, c => if c = newline then .stop none else .go .comment

def ArgMode.place : ArgMode → Place
  | .body _ => .argsBody
  | .comment => .argsComment

def readArg : Scan (Option (List Byte)) := scan ArgMode.place argStep (.body [])

def expect (str : List Byte) : Scan Unit :=
  if str = [] then pure ()
  else do
    let c ← readChar true
    let s ← forN (fun _ => next .expectBody) 1 (str.length - 1)
    if cstr (c :: s) = str then pure () else fail (.expected str (c :: s))

end Bijou
