import MaskEnum.Error
set_option autoImplicit false

/-!
# Tokens of the declaration language

A token is a lexeme with the position of its first character. The end of a text is not a token: a
token list carries it beside the tokens, as the position where the text ends.

## Main definitions

* `MaskEnum.Mark` — the punctuation and operator marks, with their `spelling`.
* `MaskEnum.Lexeme` — what a token says; `Lexeme.text` is its spelling, for attributes and doc
  comments the text they hold.
* `MaskEnum.Token`, `MaskEnum.TokenList` — placed lexemes.
-/

namespace MaskEnum

/-- A punctuation or operator mark. -/
inductive Mark where
  | lbrace | rbrace | lparen | rparen | lbracket | rbracket
  | comma | semi | colon | pathsep | eq | bang
  | pipe | plus | amp | caret | slash | star | shl | shr | minus
  deriving DecidableEq, Repr, Inhabited

namespace Mark

/-- The characters of a mark. -/
def spelling : Mark → List Char
  | lbrace => ['\x7b'] | rbrace => ['\x7d'] | lparen => ['('] | rparen => [')']
  | lbracket => ['['] | rbracket => [']'] | comma => [','] | semi => [';'] | colon => [':']
  | pathsep => [':', ':'] | eq => ['='] | bang => ['!'] | pipe => ['|'] | plus => ['+']
  | amp => ['&'] | caret => ['^'] | slash => ['/'] | star => ['*'] | shl => ['<', '<']
  | shr => ['>', '>'] | minus => ['-']

/-- All marks, the longer ones first, so that the first one that matches is the longest. -/
def all : List Mark :=
  [pathsep, shl, shr, lbrace, rbrace, lparen, rparen, lbracket, rbracket, comma, semi, colon, eq,
    bang, pipe, plus, amp, caret, slash, star, minus]

/-- The mark that closes a bracket. -/
def closer? : Mark → Option Mark
  | lbrace => some rbrace
  | lparen => some rparen
  | lbracket => some rbracket
  | _ => none

/-- The operator that a mark stands for in an initializer. -/
def operator? : Mark → Option Operator
  | pipe => some .or | plus => some .add | amp => some .and | caret => some .xor
  | slash => some .div | star => some .mul | shl => some .shl | shr => some .shr
  | minus => some .sub
  | _ => none

end Mark

/-- What a token says. -/
inductive Lexeme where
  | ident (name : String)
  | int (digits : String)
  | attr (text : String)
  | doc (text : String)
  | mark (m : Mark)
  deriving DecidableEq, Repr

/-- The text of a lexeme. -/
def Lexeme.text : Lexeme → String
  | ident name => name
  | int digits => digits
  | attr text => text
  | doc text => text
  | mark m => String.ofList m.spelling

/-- A lexeme and the position of its first character. -/
structure Token where
  lexeme : Lexeme
  position : Position
  deriving DecidableEq, Repr

/-- The operator that a token stands for in an initializer. -/
def Token.operator? (t : Token) : Option Operator :=
  match t.lexeme with
  | .mark m => m.operator?
  | _ => none

/-- The tokens of a text and the position of its end. -/
structure TokenList where
  tokens : List Token
  stop : Position
  deriving DecidableEq, Repr

end MaskEnum
