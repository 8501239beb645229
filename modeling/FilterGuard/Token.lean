import FilterGuard.Literal
import FilterGuard.Text.Fold

/-!
# Tokens

A token has a kind, the text it was read from, and the byte offset of that text.
-/

namespace FilterGuard

inductive TokenKind where
  /-- A property, a keyword, a function or a variable. -/
  | identifier (name : String)
  | literal (value : Literal)
  | openParen
  | closeParen
  | comma
  | colon
  | slash
  /-- A minus that does not belong to a number. -/
  | minus
  deriving DecidableEq, Repr

structure Token where
  kind : TokenKind
  text : String
  position : Nat
  deriving DecidableEq, Repr

def Token.identifier? (t : Token) : Option String :=
  match t.kind with
  | .identifier name => some name
  | _ => none

/-- Keywords are identifiers, in any case. -/
def Token.isKeyword (t : Token) (word : String) : Bool :=
  match t.kind with
  | .identifier name => Text.sameName name word
  | _ => false

end FilterGuard
