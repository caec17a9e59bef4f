/-
What can be wrong with the definition of a grammar.
-/
import AdaptiveLL.Network
import AdaptiveLL.Expr.Operator
import AdaptiveLL.Pattern.Fragment

namespace AdaptiveLL

/-- Why a definition is no grammar. -/
inductive GrammarDefect where
  | noRules (grammar : String)
  | duplicateRule (rule grammar : String)
  | undefinedRule (rule caller : String)
  | undefinedToken (name rule : String)
  | emptyToken (name : String)
  | emptyChoice (rule : String)
  /-- These rules can call each other in a circle before a token is read. -/
  | leftCycle (rules : List String)
  /-- A loop of the rule can go round without reading anything. -/
  | emptyClosure (rule : String)
  /-- A label may only name a single token. -/
  | misplacedLabel (label rule : String)
  | operators (rule : String) (defect : OperatorDefect)
  | fragments (defect : FragmentDefect)
  | network (defect : NetworkDefect)
deriving DecidableEq

namespace GrammarDefect

def message : GrammarDefect → String
  | .noRules grammar => "grammar `" ++ grammar ++ "` defines no parser rules"
  | .duplicateRule rule grammar =>
    "rule `" ++ rule ++ "` is defined twice in grammar `" ++ grammar ++ "`"
  | .undefinedRule rule caller =>
    "reference to undefined rule `" ++ rule ++ "` from `" ++ caller ++ "`"
  | .undefinedToken name rule =>
    "reference to undefined token `" ++ name ++ "` from rule `" ++ rule ++ "`"
  | .emptyToken name => "lexer rule `" ++ name ++ "` can match the empty string"
  | .emptyChoice rule => "rule `" ++ rule ++ "` has an empty set of alternatives"
  | .leftCycle rules => "rules " ++ ", ".intercalate rules ++ " are mutually left-recursive"
  | .emptyClosure rule =>
    "rule `" ++ rule ++ "` contains a closure whose body can match the empty string"
  | .misplacedLabel label rule =>
    "label `" ++ label ++ "` in rule `" ++ rule ++ "` must be on a single token or token set"
  | .operators rule (.selfAlternative number) =>
    "alternative " ++ toString number ++ " of rule `" ++ rule
      ++ "` is only a reference to the rule itself"
  | .operators rule .noPrimary =>
    "left-recursive rule `" ++ rule ++ "` has no non-recursive alternative"
  | .fragments (.undefined name) => "reference to undefined lexer fragment `" ++ name ++ "`"
  | .fragments (.recursive name) => "lexer fragment `" ++ name ++ "` refers to itself"
  | .network defect => defect.message

def code : GrammarDefect → String
  | .noRules _ => "grammar::no_rules"
  | .duplicateRule _ _ => "grammar::duplicate_rule"
  | .undefinedRule _ _ => "grammar::undefined_rule"
  | .undefinedToken _ _ => "grammar::undefined_token"
  | .emptyToken _ => "grammar::empty_token"
  | .emptyChoice _ => "grammar::empty_choice"
  | .leftCycle _ => "grammar::indirect_left_recursion"
  | .emptyClosure _ => "grammar::empty_closure"
  | .misplacedLabel _ _ => "grammar::invalid_label"
  | .operators _ (.selfAlternative _) => "grammar::empty_recursive_alternative"
  | .operators _ .noPrimary => "grammar::no_primary"
  | .fragments (.undefined _) => "grammar::undefined_fragment"
  | .fragments (.recursive _) => "grammar::recursive_fragment"
  | .network defect => defect.code

/-- Advice on how to remove a defect, where there is any. -/
def help? : GrammarDefect → Option String
  | .leftCycle _ => some "only direct left recursion (`e : e '+' e | ...`) is rewritten"
  | _ => none

end GrammarDefect

end AdaptiveLL
