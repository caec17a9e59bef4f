/-
How a rule body lies in a graph.

An expression occupies a range of states with one entry and one exit.  Everything
about the states of the range is fixed by the expression, except what leaves the
exit: that belongs to whatever comes next.
-/
import AdaptiveLL.Grammar.Wiring
import Mathlib.Data.List.Forall2

namespace AdaptiveLL

/-- What a path through the network can see of a state. -/
structure Shape where
  role : StateRole
  rule : RuleIndex
  transitions : List Transition
deriving DecidableEq

def State.shape (s : State) : Shape :=
  ⟨s.role, s.rule, s.transitions⟩

/-- Neither the end of a rule nor the head of a loop. -/
def StateRole.Plain (role : StateRole) : Prop :=
  role ≠ .ruleStop ∧ ∀ operators, role ≠ .starLoopEntry operators

instance : DecidablePred StateRole.Plain := fun role =>
  inferInstanceAs (Decidable (role ≠ .ruleStop ∧ ∀ operators, role ≠ .starLoopEntry operators))

namespace Graph

def shape? (g : Graph) (id : StateId) : Option Shape :=
  (g.state? id).map State.shape

def LeadsOn (g : Graph) (rule : RuleIndex) (id : StateId) (ts : List Transition) : Prop :=
  ∃ role, role ≠ .ruleStop ∧ g.shape? id = some ⟨role, rule, ts⟩

theorem state?_of_shape? {g : Graph} {id : StateId} {shape : Shape}
    (h : g.shape? id = some shape) : ∃ s, g.state? id = some s ∧ s.shape = shape := by
  simpa [shape?, Option.map_eq_some_iff] using h

theorem shape?_of_state? {g : Graph} {id : StateId} {s : State} (h : g.state? id = some s) :
    g.shape? id = some ⟨s.role, s.rule, s.transitions⟩ := by
  rw [shape?, h]
  rfl

theorem lt_of_state? {g : Graph} {id : Nat} {s : State} (hs : g.state? id = some s) :
    id < g.states.size :=
  (Array.getElem?_eq_some_iff.mp hs).1

theorem exists_state {g : Graph} {id : Nat} (hid : id < g.states.size) :
    ∃ s, g.state? id = some s :=
  ⟨_, Array.getElem?_eq_getElem hid⟩

theorem isStop_iff {g : Graph} {id : StateId} :
    g.isStop id = true ↔ ∃ s, g.state? id = some s ∧ s.isStop = true := by
  rw [isStop, Option.any_eq_true]

theorem LeadsOn.of_shape {g : Graph} {rule : RuleIndex} {role : StateRole} {id : StateId}
    {ts : List Transition} (h : g.shape? id = some ⟨role, rule, ts⟩) (hrole : role ≠ .ruleStop) :
    g.LeadsOn rule id ts :=
  ⟨role, hrole, h⟩

theorem LeadsOn.state {g : Graph} {rule : RuleIndex} {id : StateId} {ts : List Transition}
    (h : g.LeadsOn rule id ts) :
    ∃ s, g.state? id = some s ∧ s.isStop = false ∧ s.transitions = ts := by
  obtain ⟨role, hrole, hshape⟩ := h
  obtain ⟨s, hs, heq⟩ := state?_of_shape? hshape
  simp only [State.shape, Shape.mk.injEq] at heq
  exact ⟨s, hs, by simpa [State.isStop, heq.1] using hrole, heq.2.2⟩

/-- The state leads on by one empty transition and is not the head of a loop. -/
def LeadsTo (g : Graph) (rule : RuleIndex) (id : StateId) (target : Nat) : Prop :=
  ∃ role : StateRole, role.Plain ∧ g.shape? id = some ⟨role, rule, [.epsilon target]⟩

theorem LeadsTo.leadsOn {g : Graph} {rule : RuleIndex} {id : StateId} {target : Nat}
    (h : g.LeadsTo rule id target) : g.LeadsOn rule id [.epsilon target] :=
  h.imp fun _ h => ⟨h.1.1, h.2⟩

def Stops (g : Graph) (rule : RuleIndex) (id : StateId) : Prop :=
  g.shape? id = some ⟨.ruleStop, rule, []⟩

theorem Stops.state {g : Graph} {rule : RuleIndex} {id : StateId} (h : g.Stops rule id) :
    ∃ s, g.state? id = some s ∧ s.isStop = true := by
  obtain ⟨s, hs, heq⟩ := state?_of_shape? h
  simp only [State.shape, Shape.mk.injEq] at heq
  exact ⟨s, hs, by simp [State.isStop, heq.1]⟩

theorem Stops.transitions {g : Graph} {rule : RuleIndex} {id : StateId} {s : State}
    (h : g.Stops rule id) (hs : g.state? id = some s) : s.transitions = [] := by
  have heq := (shape?_of_state? hs).symm.trans h
  simp only [Option.some.injEq, Shape.mk.injEq] at heq
  exact heq.2.2

end Graph

namespace Expr

/-- The alternatives that the body of a loop or an option lends to it. -/
def lent : Expr → List Expr
  | .choice alternatives =>
    if formTokenChoice alternatives || alternatives.length ≤ 1 then [.choice alternatives]
    else alternatives
  | e => [e]

end Expr

inductive TokenFor (v : Vocabulary) : Expr → TokenType → Prop where
  | literal {text t} (ht : v.typeOfLiteral? text = some t) : TokenFor v (.literal text) t
  | token {name t} (ht : v.typeOfName? name = some t) : TokenFor v (.token name) t
  | eof : TokenFor v .eof .eof

/-- The transition to `exit` that an expression without parts stands for. -/
inductive EdgeFor (g : Graph) (v : Vocabulary) (rule : RuleIndex) (exit : StateId) :
    Expr → Transition → Prop where
  | token {e t} (ht : TokenFor v e t) : EdgeFor g v rule exit e (.atom exit t)
  | tokens {alternatives types} (hform : Expr.formTokenChoice alternatives = true)
      (htypes : List.Forall₂ (TokenFor v) alternatives types) :
      EdgeFor g v rule exit (.choice alternatives) (.set exit (.ofList types))
  | wildcard : EdgeFor g v rule exit .wildcard (.wildcard exit)
  | empty : EdgeFor g v rule exit .empty (.epsilon exit)
  | nothing : EdgeFor g v rule exit (.seq []) (.epsilon exit)
  | action {text index} : EdgeFor g v rule exit (.action text) (.action exit rule index)
  | predicate {text index} : EdgeFor g v rule exit (.predicate text) (.predicate exit rule index)
  | precedence {level} : EdgeFor g v rule exit (.precedence level) (.precedence exit level)
  | call {name level callee span} (hcallee : g.ruleIndex? name = some callee)
      (hspan : g.rule? callee = some span) :
      EdgeFor g v rule exit (.rule name level) (.call span.start callee exit level)

/-- An expression with the states it occupies: those from `lo` up to `hi`. -/
structure Part where
  expr : Expr
  entry : Nat
  exit : Nat
  lo : Nat
  hi : Nat

/-- The branches of a block: its entry leads to that of each branch, and the exit of
each branch to the exit of the block. -/
structure Branches (g : Graph) (rule : RuleIndex) (role : StateRole)
    (entry exit lo hi : Nat) (parts : List Part) : Prop where
  entry_shape : g.shape? entry = some ⟨role, rule, parts.map fun x => .epsilon x.entry⟩
  leave : ∀ x ∈ parts, g.LeadsTo rule x.exit exit
  entry_mem : lo ≤ entry ∧ entry < hi
  exit_mem : lo ≤ exit ∧ exit < hi
  inside : ∀ x ∈ parts, lo ≤ x.lo ∧ x.hi ≤ hi
  cover : ∀ id : Nat, lo ≤ id → id < hi →
    id = entry ∨ id = exit ∨ ∃ x ∈ parts, x.lo ≤ id ∧ id < x.hi

/-- A loop that decides at its head whether to go round its body once more. -/
inductive HeadLoop : (e body : Expr) → (operators : Bool) → Prop where
  | star {body} : HeadLoop (.star body) body false
  | operators {body} : HeadLoop (.operatorLoop body) body true

/-- The expression lies between `entry` and `exit`, on the states from `lo` up to
`hi`. -/
inductive Laid (g : Graph) (v : Vocabulary) (rule : RuleIndex) :
    Expr → (entry exit lo hi : Nat) → Prop where
  | edge {e t entry} (hedge : EdgeFor g v rule (entry + 1) e t)
      (hentry : g.shape? entry = some ⟨.basic, rule, [t]⟩) :
      Laid g v rule e entry (entry + 1) entry (entry + 2)
  | only {e entry exit lo hi} (hlaid : Laid g v rule e entry exit lo hi) :
      Laid g v rule (.seq [e]) entry exit lo hi
  | chain {e next rest entry mid mid' exit lo cut hi}
      (hfirst : Laid g v rule e entry mid lo cut)
      (hrest : Laid g v rule (.seq (next :: rest)) mid' exit cut hi)
      (hmid : g.LeadsTo rule mid mid') :
      Laid g v rule (.seq (e :: next :: rest)) entry exit lo hi
  | single {e entry exit lo hi} (hlaid : Laid g v rule e entry exit lo hi) :
      Laid g v rule (.choice [e]) entry exit lo hi
  | choice {alternatives entry exit lo hi} (parts : List Part)
      (hparts : parts.map Part.expr = alternatives)
      (hform : Expr.formTokenChoice alternatives = false) (hmany : 1 < alternatives.length)
      (hbranches : Branches g rule .blockStart entry exit lo hi parts)
      (hlaid : ∀ x ∈ parts, Laid g v rule x.expr x.entry x.exit x.lo x.hi) :
      Laid g v rule (.choice alternatives) entry exit lo hi
  | optional {body entry exit lo hi} (parts : List Part)
      (hparts : parts.map Part.expr = body.lent ++ [.empty])
      (hbranches : Branches g rule .blockStart entry exit lo hi parts)
      (hlaid : ∀ x ∈ parts, Laid g v rule x.expr x.entry x.exit x.lo x.hi) :
      Laid g v rule (.optional body) entry exit lo hi
  | loop {e body operators block blockEnd lo hi} (parts : List Part)
      (he : HeadLoop e body operators)
      (hparts : parts.map Part.expr = body.lent)
      (hbranches : Branches g rule .starBlockStart block blockEnd (lo + 1) hi parts)
      (hlaid : ∀ x ∈ parts, Laid g v rule x.expr x.entry x.exit x.lo x.hi)
      (hentry : g.shape? lo =
        some ⟨.starLoopEntry operators, rule, [.epsilon block, .epsilon (hi + 1)]⟩)
      (hend : g.LeadsTo rule blockEnd hi)
      (hback : g.shape? hi = some ⟨.starLoopBack, rule, [.epsilon lo]⟩)
      (hexit : ∃ ts, g.shape? (hi + 1) = some ⟨.loopEnd, rule, ts⟩) :
      Laid g v rule e lo (hi + 1) lo (hi + 2)
  | plus {body block blockEnd lo hi} (parts : List Part)
      (hparts : parts.map Part.expr = body.lent)
      (hbranches : Branches g rule .plusBlockStart block blockEnd lo hi parts)
      (hlaid : ∀ x ∈ parts, Laid g v rule x.expr x.entry x.exit x.lo x.hi)
      (hend : g.LeadsTo rule blockEnd hi)
      (hback : g.shape? hi =
        some ⟨.plusLoopBack, rule, [.epsilon block, .epsilon (hi + 1)]⟩)
      (hexit : ∃ ts, g.shape? (hi + 1) = some ⟨.loopEnd, rule, ts⟩) :
      Laid g v rule (.plus body) block (hi + 1) lo (hi + 2)
  | label {name body entry exit lo hi} (hlaid : Laid g v rule body entry exit lo hi) :
      Laid g v rule (.label name body) entry exit lo hi
  | rightAssoc {body entry exit lo hi} (hlaid : Laid g v rule body entry exit lo hi) :
      Laid g v rule (.rightAssoc body) entry exit lo hi

end AdaptiveLL
