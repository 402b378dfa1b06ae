/-!
# Diagnostics

What can be wrong with a source text before it runs.  A diagnostic is found
by the lexer, by the parser or by the scope rules; it has a line, and for the
last two also a place: a lexeme or the end of the source.  `Diagnostic.message`
is the one place where the wording is fixed.
-/

namespace Lox

/-- Why a piece of text is no token. -/
inductive LexicalFault where
  | unexpected (character : Char)
  | unterminatedString
  deriving Repr, DecidableEq

/-- The two words for what a function declaration declares. -/
inductive Routine where
  | function
  | method
  deriving Repr, DecidableEq

/-- What the parser missed, or would not accept. -/
inductive ParseFault where
  | endOfExpression
  | expression
  | groupClose
  | propertyName
  | superDot
  | superMethodName
  | argumentsClose
  | tooManyArguments
  | assignmentTarget
  | className
  | superclassName
  | classOpen
  | classClose
  | routineName (routine : Routine)
  | parametersOpen (routine : Routine)
  | parameterName
  | tooManyParameters
  | parametersClose
  | bodyOpen (routine : Routine)
  | blockClose
  | variableName
  | variableEnd
  | forOpen
  | forConditionEnd
  | forClose
  | ifOpen
  | ifClose
  | whileOpen
  | whileClose
  | printEnd
  | returnEnd
  | expressionEnd
  deriving Repr, DecidableEq

/-- Which rule about names, `return`, `this` and `super` was broken. -/
inductive ScopeFault where
  | duplicate
  | ownInitializer
  | returnOutside
  | returnFromInitializer
  | thisOutside
  | superOutside
  | superWithoutSuperclass
  | superInStatic
  | inheritsItself
  deriving Repr, DecidableEq

/-- Where in its line a diagnostic points. -/
inductive Place where
  | lexeme (text : String)
  | sourceEnd
  deriving Repr, DecidableEq

/-- A finding that keeps a source from running. -/
inductive Diagnostic where
  | lexical (line : Nat) (fault : LexicalFault)
  | parse (line : Nat) (place : Place) (fault : ParseFault)
  | scope (line : Nat) (place : Place) (fault : ScopeFault)
  deriving Repr, DecidableEq

/-- The most parameters a function may have, and the most arguments a call
may have. -/
def maxArity : Nat := 255

/-- The wording of a fault of the lexer. -/
def LexicalFault.message : LexicalFault → String
  | unexpected character => s!"Unexpected character: {character}"
  | unterminatedString => "Unterminated string."

/-- The word for what is declared. -/
def Routine.word : Routine → String
  | function => "function"
  | method => "method"

/-- The wording of a fault of the parser. -/
def ParseFault.message : ParseFault → String
  | endOfExpression => "Expect end of expression."
  | expression => "Expect expression."
  | groupClose => "Expect ')' after expression."
  | propertyName => "Expect property name after '.'."
  | superDot => "Expect '.' after 'super'."
  | superMethodName => "Expect superclass method name."
  | argumentsClose => "Expect ')' after arguments."
  | tooManyArguments => s!"Can't have more than {maxArity} arguments."
  | assignmentTarget => "Invalid assignment target."
  | className => "Expect class name."
  | superclassName => "Expect superclass name."
  | classOpen => "Expect '\x7b' before class body."
  | classClose => "Expect '\x7d' after class body."
  | routineName routine => s!"Expect {routine.word} name."
  | parametersOpen routine => s!"Expect '(' after {routine.word} name."
  | parameterName => "Expect parameter name."
  | tooManyParameters => s!"Can't have more than {maxArity} parameters."
  | parametersClose => "Expect ')' after parameters."
  | bodyOpen routine => "Expect '\x7b' before " ++ routine.word ++ " body."
  | blockClose => "Expect '\x7d' after block."
  | variableName => "Expect variable name."
  | variableEnd => "Expect ';' after variable declaration."
  | forOpen => "Expect '(' after 'for'."
  | forConditionEnd => "Expect ';' after loop condition."
  | forClose => "Expect ')' after for clauses."
  | ifOpen => "Expect '(' after 'if'."
  | ifClose => "Expect ')' after if condition."
  | whileOpen => "Expect '(' after 'while'."
  | whileClose => "Expect ')' after condition."
  | printEnd => "Expect ';' after value."
  | returnEnd => "Expect ';' after return value."
  | expressionEnd => "Expect ';' after expression."

/-- The wording of a broken scope rule. -/
def ScopeFault.message : ScopeFault → String
  | duplicate => "Already a variable with this name in this scope."
  | ownInitializer => "Can't read local variable in its own initializer."
  | returnOutside => "Can't return from top-level code."
  | returnFromInitializer => "Can't return a value from an initializer."
  | thisOutside => "Can't use 'this' outside of a class."
  | superOutside => "Can't use 'super' outside of a class."
  | superWithoutSuperclass => "Can't use 'super' in a class with no superclass."
  | superInStatic => "Can't use 'super' in a static method."
  | inheritsItself => "A class can't inherit from itself."

/-- The place as it stands between `Error` and the colon. -/
def Place.text : Place → String
  | lexeme text => s!" at '{text}'"
  | sourceEnd => " at end"

namespace Diagnostic

/-- The line a diagnostic points at. -/
def line : Diagnostic → Nat
  | lexical line _ => line
  | parse line _ _ => line
  | scope line _ _ => line

/-- The wording of a diagnostic. -/
def message : Diagnostic → String
  | lexical line fault => s!"[line {line}] Error: {fault.message}"
  | parse line place fault =>
    s!"[line {line}] Error{place.text}: {fault.message}"
  | scope line place fault =>
    s!"[line {line}] Error{place.text}: {fault.message}"

end Diagnostic

end Lox
