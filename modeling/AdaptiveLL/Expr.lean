/-
The bodies of parser rules.
-/

namespace AdaptiveLL

/-- The body of a parser rule, or a part of one. -/
inductive Expr where
  /-- The token spelled by a text. -/
  | literal (text : String)
  /-- A token by its symbolic name. -/
  | token (name : String)
  /-- A call of a rule; the precedence matters to left-recursive rules only. -/
  | rule (name : String) (precedence : Int)
  | seq (items : List Expr)
  | choice (alternatives : List Expr)
  | optional (body : Expr)
  | star (body : Expr)
  | plus (body : Expr)
  /-- Any token but the end of the input. -/
  | wildcard
  /-- The end of the input. -/
  | eof
  | empty
  /-- An action of the host program, known by its text. -/
  | action (text : String)
  /-- A predicate of the host program, known by its text. -/
  | predicate (text : String)
  /-- A name for the token that the body matches. -/
  | label (name : String) (body : Expr)
  /-- An alternative of a left-recursive rule that groups to the right. -/
  | rightAssoc (body : Expr)
  /-- Passes if the invocation's precedence is at most this level. -/
  | precedence (level : Int)
  /-- The operators of a left-recursive rule, applied any number of times. -/
  | operatorLoop (body : Expr)

structure Rule where
  name : String
  body : Expr
  /-- Whether the body is the operator form of a left-recursive one. -/
  leftRecursive : Bool := false

namespace Expr

/-- The alternatives of a choice; anything else is its only alternative. -/
def alternatives : Expr → List Expr
  | .choice alternatives => alternatives
  | e => [e]

mutual

/-- What follows each other in an alternative, nested sequences laid open. -/
def elements : Expr → List Expr
  | .seq items => elementsOfAll items
  | .rightAssoc body => body.elements
  | e => [e]

def elementsOfAll : List Expr → List Expr
  | [] => []
  | e :: rest => e.elements ++ elementsOfAll rest

end

mutual

/-- An expression and all its parts, each before its own parts. -/
def subterms : Expr → List Expr
  | .seq items => .seq items :: subtermsOfAll items
  | .choice alternatives => .choice alternatives :: subtermsOfAll alternatives
  | .optional body => .optional body :: body.subterms
  | .star body => .star body :: body.subterms
  | .plus body => .plus body :: body.subterms
  | .label name body => .label name body :: body.subterms
  | .rightAssoc body => .rightAssoc body :: body.subterms
  | .operatorLoop body => .operatorLoop body :: body.subterms
  | e => [e]

def subtermsOfAll : List Expr → List Expr
  | [] => []
  | e :: rest => e.subterms ++ subtermsOfAll rest

end

/-- Whether an expression names one token. -/
def isTokenName : Expr → Bool
  | .literal _ => true
  | .token _ => true
  | _ => false

/-- Whether some alternatives are one choice between tokens, which needs no
decision. -/
def formTokenChoice (alternatives : List Expr) : Bool :=
  1 < alternatives.length && alternatives.all isTokenName

def isTokenChoice : Expr → Bool
  | .choice alternatives => formTokenChoice alternatives
  | _ => false

/-- Whether an expression always matches exactly one token. -/
def isOneToken : Expr → Bool
  | .literal _ => true
  | .token _ => true
  | .eof => true
  | .wildcard => true
  | e => e.isTokenChoice

/-- Whether an expression is an action or a predicate of the host program. -/
def isSemantic : Expr → Bool
  | .action _ => true
  | .predicate _ => true
  | _ => false

/-- Whether an expression calls a rule, with whatever precedence. -/
def isCallOf (rule : String) : Expr → Bool
  | .rule name _ => name == rule
  | _ => false

end Expr

end AdaptiveLL
