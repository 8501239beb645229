import FilterGuard.Text.Letter
import FilterGuard.Token
import FilterGuard.Token.Word

/-!
# Reading tokens

The text is read from the left. Blanks separate tokens and are dropped; what
starts a token decides how far it goes. A scanner says how many characters
follow the first one, so the reader passes over that many and goes on.
-/

namespace FilterGuard.Token
open Text

def byteLength : List Char → Nat
  | [] => 0
  | c :: cs => c.utf8Size + byteLength cs

/-- The rest of an identifier: letters, numerals, underscores, and points in
front of a letter or an underscore. -/
def nameTail : List Char → List Char
  | [] => []
  | c :: cs =>
    if isWordChar c || c = '_' then c :: nameTail cs
    else if c = '.' && cs.head?.any fun d => isLetter d || d = '_' then c :: nameTail cs
    else []

def startsName (c : Char) : Bool :=
  isLetter c || c = '_' || c = '$'

/-- A quoted text behind its opening quote, and its length with the closing one. -/
def quoted (position : Nat) (cs : List Char) : Except ExprError (String × Nat) :=
  match Quoted.read cs with
  | some (value, n) => .ok (String.ofList value, n)
  | none => .error (.unterminatedString position)

/-- A literal word that starts with `c`. -/
def scanWord (position : Nat) (c : Char) (cs : List Char) : Except ExprError (TokenKind × Nat) :=
  let tail := cs.takeWhile Word.isWordTail
  match Word.classify (c :: tail) with
  | .ok value => .ok (.literal value, tail.length)
  | .error form => .error (.invalidLiteral (String.ofList (c :: tail)) form position)

/-- Whether a globally unique identifier stands at the front and the word ends with it. -/
def startsWithGuid (cs : List Char) : Bool :=
  match Word.afterGuid cs with
  | some rest => !rest.head?.any isWordChar
  | none => false

/-- An identifier that starts with `c`, or a literal that starts like one. -/
def scanName (position : Nat) (c : Char) (cs : List Char) : Except ExprError (TokenKind × Nat) :=
  if startsWithGuid (c :: cs) then
    .ok (.literal (.guid (String.ofList ((c :: cs).take Word.guidLength))), Word.guidLength - 1)
  else
    let tail := nameTail cs
    let name := String.ofList (c :: tail)
    match cs.drop tail.length with
    | '\'' :: body => do
      let (value, n) ← quoted (position + byteLength (c :: tail)) body
      let value ← Word.named name value position
      return (.literal value, tail.length + 1 + n)
    | _ =>
      if name = "INF" ∨ name = "NaN" then .ok (.literal (.double name), tail.length)
      else .ok (.identifier name, tail.length)

/-- The token that starts with `c`, and how many characters of `cs` belong to it. -/
def scan (position : Nat) (c : Char) (cs : List Char) : Except ExprError (TokenKind × Nat) :=
  if c = '(' then .ok (.openParen, 0)
  else if c = ')' then .ok (.closeParen, 0)
  else if c = ',' then .ok (.comma, 0)
  else if c = ':' then .ok (.colon, 0)
  else if c = '/' then .ok (.slash, 0)
  else if c = '\'' then do
    let (value, n) ← quoted position cs
    return (.literal (.string value), n)
  else if c = '-' then
    if cs.take 3 = ['I', 'N', 'F'] then .ok (.literal (.double "-INF"), 3)
    else if cs.head?.any Char.isDigit then scanWord position c cs
    else .ok (.minus, 0)
  else if c.isDigit then scanWord position c cs
  else if startsName c then scanName position c cs
  else .error (.unexpectedCharacter c position)

/-- The tokens behind the next `skip` characters, which belong to a token that
has been read. -/
def readFrom (skip position : Nat) : List Char → Except ExprError (List Token)
  | [] => .ok []
  | c :: cs =>
    match skip with
    | n + 1 => readFrom n (position + c.utf8Size) cs
    | 0 =>
      if isBlank c then readFrom 0 (position + c.utf8Size) cs
      else do
        let (kind, n) ← scan position c cs
        let more ← readFrom n (position + c.utf8Size) cs
        return ⟨kind, String.ofList (c :: cs.take n), position⟩ :: more

def read (text : String) : Except ExprError (List Token) :=
  readFrom 0 0 text.toList

end FilterGuard.Token
