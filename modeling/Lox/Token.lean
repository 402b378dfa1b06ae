import Lox.Number

/-!
# Tokens

A token is a symbol, a keyword, an identifier, a string or a number, with the
line it was found on.  Its text in the source, the lexeme, is a function of
its kind.  The end of the source is not a token: a token list goes with the
line on which the source ends.
-/

namespace Lox

/-- The punctuation and operator tokens. -/
inductive Symbol where
  | leftParen
  | rightParen
  | leftBrace
  | rightBrace
  | comma
  | dot
  | minus
  | plus
  | semicolon
  | slash
  | star
  | bang
  | bangEqual
  | equal
  | equalEqual
  | greater
  | greaterEqual
  | less
  | lessEqual
  deriving Repr, DecidableEq

/-- The reserved words. -/
inductive Keyword where
  | kwAnd
  | kwClass
  | kwElse
  | kwFalse
  | kwFor
  | kwFun
  | kwIf
  | kwNil
  | kwOr
  | kwPrint
  | kwReturn
  | kwSuper
  | kwThis
  | kwTrue
  | kwVar
  | kwWhile
  deriving Repr, DecidableEq

namespace Symbol

/-- How the symbol is spelled. -/
def lexeme : Symbol → String
  | leftParen => "("
  | rightParen => ")"
  | leftBrace => "\x7b"
  | rightBrace => "\x7d"
  | comma => ","
  | dot => "."
  | minus => "-"
  | plus => "+"
  | semicolon => ";"
  | slash => "/"
  | star => "*"
  | bang => "!"
  | bangEqual => "!="
  | equal => "="
  | equalEqual => "=="
  | greater => ">"
  | greaterEqual => ">="
  | less => "<"
  | lessEqual => "<="

/-- The name of the symbol in token listings. -/
def name : Symbol → String
  | leftParen => "LEFT_PAREN"
  | rightParen => "RIGHT_PAREN"
  | leftBrace => "LEFT_BRACE"
  | rightBrace => "RIGHT_BRACE"
  | comma => "COMMA"
  | dot => "DOT"
  | minus => "MINUS"
  | plus => "PLUS"
  | semicolon => "SEMICOLON"
  | slash => "SLASH"
  | star => "STAR"
  | bang => "BANG"
  | bangEqual => "BANG_EQUAL"
  | equal => "EQUAL"
  | equalEqual => "EQUAL_EQUAL"
  | greater => "GREATER"
  | greaterEqual => "GREATER_EQUAL"
  | less => "LESS"
  | lessEqual => "LESS_EQUAL"

end Symbol

namespace Keyword

/-- Every keyword. -/
def all : List Keyword :=
  [kwAnd, kwClass, kwElse, kwFalse, kwFor, kwFun, kwIf, kwNil, kwOr, kwPrint,
    kwReturn, kwSuper, kwThis, kwTrue, kwVar, kwWhile]

/-- How the keyword is spelled. -/
def lexeme : Keyword → String
  | kwAnd => "and"
  | kwClass => "class"
  | kwElse => "else"
  | kwFalse => "false"
  | kwFor => "for"
  | kwFun => "fun"
  | kwIf => "if"
  | kwNil => "nil"
  | kwOr => "or"
  | kwPrint => "print"
  | kwReturn => "return"
  | kwSuper => "super"
  | kwThis => "this"
  | kwTrue => "true"
  | kwVar => "var"
  | kwWhile => "while"

/-- The name of the keyword in token listings. -/
def name : Keyword → String
  | kwAnd => "AND"
  | kwClass => "CLASS"
  | kwElse => "ELSE"
  | kwFalse => "FALSE"
  | kwFor => "FOR"
  | kwFun => "FUN"
  | kwIf => "IF"
  | kwNil => "NIL"
  | kwOr => "OR"
  | kwPrint => "PRINT"
  | kwReturn => "RETURN"
  | kwSuper => "SUPER"
  | kwThis => "THIS"
  | kwTrue => "TRUE"
  | kwVar => "VAR"
  | kwWhile => "WHILE"

/-- The keyword with a given spelling. -/
def ofLexeme? (word : String) : Option Keyword :=
  all.find? fun keyword => keyword.lexeme == word

end Keyword

namespace Token

/-- What a token is, with its payload. -/
inductive Kind where
  | symbol (s : Symbol)
  | keyword (k : Keyword)
  | identifier (name : String)
  | string (content : String)
  | number (spelling : String) (value : Float)
  deriving Repr

/-- The text of the token in the source. -/
def Kind.lexeme : Kind → String
  | symbol s => s.lexeme
  | keyword k => k.lexeme
  | identifier name => name
  | string content => "\"" ++ content ++ "\""
  | number spelling _ => spelling

/-- The name of the kind in token listings. -/
def Kind.name : Kind → String
  | symbol s => s.name
  | keyword k => k.name
  | identifier _ => "IDENTIFIER"
  | string _ => "STRING"
  | number _ _ => "NUMBER"

/-- The literal that a token listing shows for the kind. -/
def Kind.literal : Kind → String
  | string content => content
  | number _ value => Number.tokenText value
  | _ => "null"

end Token

/-- A token and the line it ends on. -/
structure Token where
  kind : Token.Kind
  line : Nat
  deriving Repr

namespace Token

/-- The text of the token in the source. -/
def lexeme (t : Token) : String :=
  t.kind.lexeme

/-- The line of a token listing: name, lexeme and literal. -/
def text (t : Token) : String :=
  s!"{t.kind.name} {t.lexeme} {t.kind.literal}"

/-- The line of a token listing for the end of the source. -/
def endText : String :=
  "EOF  null"

end Token

end Lox
