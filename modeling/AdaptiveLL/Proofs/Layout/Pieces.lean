/-
What holds of all wiring because it holds of the pieces.

Rule bodies are wired from a few pieces: a state is added, two states are joined, an
edge or a call is made, a text is noted.  A property of wiring that these have, and
that is kept when one work follows the other, is one of the wiring of every rule
body.
-/
import AdaptiveLL.Grammar.Wiring

namespace AdaptiveLL

/-- A property of wiring that the pieces have and that putting them together keeps.
Wiring gives up for reasons of its own, never with a defect that the check of a
graph finds. -/
structure Wiring.Piecewise (Q : {α : Type} → Wiring α → Prop) : Prop where
  pure : ∀ {α : Type} (a : α), Q (pure a : Wiring α)
  bind : ∀ {α β : Type} {w : Wiring α} {f : α → Wiring β}, Q w → (∀ a, Q (f a)) → Q (w >>= f)
  throw : ∀ {α : Type} {d : GrammarDefect}, (∀ defect, d ≠ .network defect) →
    Q (throw d : Wiring α)
  get : Q (get : Wiring Graph)
  newState : ∀ (scope : WiringScope) (role : StateRole), Q (scope.newState role)
  connect : ∀ source target : StateId, Q (WiringScope.connect source target)
  edge : ∀ (scope : WiringScope) {make : StateId → Transition},
    (∀ id, (make id).target = id ∨ (make id).isEpsilon = true) → Q (scope.edge make)
  call : ∀ (source start follow : StateId) (rule : RuleIndex) (level : Int),
    Q (modify fun g => g.addTransition source (.call start rule follow level))
  predicate : ∀ text : String, Q (modifyGet fun g => g.addPredicate text)
  action : ∀ text : String, Q (modifyGet fun g => g.addAction text)
  label : ∀ (id : StateId) (name : String), Q (modify fun g => g.setLabel id name)

namespace Wiring.Piecewise

variable {Q : {α : Type} → Wiring α → Prop} {α β : Type} {scope : WiringScope}

theorem mapM (h : Piecewise Q) {f : α → Wiring β} (xs : List α) (hf : ∀ x ∈ xs, Q (f x)) :
    Q (xs.mapM f) := by
  induction xs with
  | nil =>
    rw [List.mapM_nil]
    exact h.pure []
  | cons x xs ih =>
    rw [List.mapM_cons]
    obtain ⟨hx, hxs⟩ := List.forall_mem_cons.mp hf
    exact h.bind hx fun y => h.bind (ih hxs) fun ys => h.pure _

theorem forIn (h : Piecewise Q) {f : α → β → Wiring (ForInStep β)} (xs : List α)
    (hf : ∀ x ∈ xs, ∀ b, Q (f x b)) (b : β) : Q (forIn xs b f) := by
  induction xs generalizing b with
  | nil =>
    rw [List.forIn_nil]
    exact h.pure b
  | cons x xs ih =>
    rw [List.forIn_cons]
    obtain ⟨hx, hxs⟩ := List.forall_mem_cons.mp hf
    apply h.bind (hx b)
    intro result
    cases result with
    | done b => exact h.pure b
    | yield b => exact ih hxs b

theorem forM (h : Piecewise Q) {f : α → Wiring Unit} (xs : List α) (hf : ∀ x ∈ xs, Q (f x)) :
    Q (xs.forM f) := by
  induction xs with
  | nil => exact h.pure ()
  | cons x xs ih =>
    obtain ⟨hx, hxs⟩ := List.forall_mem_cons.mp hf
    exact h.bind hx fun _ => ih hxs

/-- A token type is found, or the name of the token is reported. -/
theorem tokenType (h : Piecewise Q) (e : Expr) :
    Q (liftM (scope.tokenType e) : Wiring TokenType) := by
  unfold WiringScope.tokenType
  split
  · split
    · exact h.pure _
    · exact h.throw nofun
  · split
    · exact h.pure _
    · exact h.throw nofun
  · exact h.pure _
  · exact h.throw nofun

theorem tokenEdge (h : Piecewise Q) (e : Expr) : Q (scope.tokenEdge e) :=
  h.bind (h.tokenType e) fun _ => h.edge scope fun _ => .inl rfl

theorem callEdge (h : Piecewise Q) (name : String) (level : Int) :
    Q (scope.callEdge name level) := by
  apply h.bind h.get
  intro g
  split
  · exact h.throw nofun
  · exact h.bind (h.newState scope _) fun _ => h.bind (h.newState scope _) fun _ =>
      h.bind (h.call ..) fun _ => h.pure _

theorem block (h : Piecewise Q) (role : StateRole) {ws : List (Wiring Segment)}
    (hws : ∀ w ∈ ws, Q w) : Q (scope.block role ws) := by
  apply h.bind (h.newState scope role)
  intro entry
  apply h.bind (h.newState scope _)
  intro exit
  refine h.bind (h.forIn ws (fun w hw _ => ?_) _) fun _ => h.pure _
  exact h.bind (hws w hw) fun seg => h.bind (h.connect _ _) fun _ => h.bind (h.connect _ _) fun _ =>
    h.pure _

theorem starLoop (h : Piecewise Q) (operators : Bool) {ws : List (Wiring Segment)}
    (hws : ∀ w ∈ ws, Q w) : Q (scope.starLoop operators ws) :=
  h.bind (h.newState scope _) fun _ => h.bind (h.block _ hws) fun _ =>
    h.bind (h.newState scope _) fun _ => h.bind (h.newState scope _) fun _ =>
      h.bind (h.connect _ _) fun _ => h.bind (h.connect _ _) fun _ =>
        h.bind (h.connect _ _) fun _ => h.bind (h.connect _ _) fun _ => h.pure _

theorem plusLoop (h : Piecewise Q) {ws : List (Wiring Segment)} (hws : ∀ w ∈ ws, Q w) :
    Q (scope.plusLoop ws) :=
  h.bind (h.block _ hws) fun _ => h.bind (h.newState scope _) fun _ =>
    h.bind (h.newState scope _) fun _ => h.bind (h.connect _ _) fun _ =>
      h.bind (h.connect _ _) fun _ => h.bind (h.connect _ _) fun _ => h.pure _

theorem chain (h : Piecewise Q) (segs : List Segment) : Q (scope.chain segs) := by
  induction segs with
  | nil => exact h.edge scope fun _ => .inl rfl
  | cons s rest ih =>
    cases rest with
    | nil => exact h.pure s
    | cons next rest => exact h.bind (h.connect _ _) fun _ => h.bind ih fun _ => h.pure _

theorem choice (h : Piecewise Q) (es : List Expr) {ws : List (Wiring Segment)}
    (hws : ∀ w ∈ ws, Q w) : Q (scope.choice es ws) := by
  unfold WiringScope.choice
  split
  · exact h.bind (h.mapM es fun e _ => h.tokenType e) fun _ => h.edge scope fun _ => .inl rfl
  · split
    · exact h.throw nofun
    · exact hws _ List.mem_cons_self
    · exact h.block _ hws

theorem labelled (h : Piecewise Q) (name : String) (e : Expr) {w : Wiring Segment} (hw : Q w) :
    Q (scope.labelled name e w) := by
  unfold WiringScope.labelled
  split
  · exact h.throw nofun
  · exact h.bind hw fun seg => h.bind (h.label _ _) fun _ => h.pure _

/-- The wiring of an expression has the property, and so does that of the
alternatives it lends. -/
def Holds (Q : {α : Type} → Wiring α → Prop) (w : WiredExpr) : Prop :=
  Q w.whole ∧ ∀ alternative ∈ w.alternatives, Q alternative

theorem Holds.single {w : Wiring Segment} (hw : Q w) : Holds Q (.single w) :=
  ⟨hw, List.forall_mem_singleton.mpr hw⟩

theorem choiceParts (h : Piecewise Q) (es : List Expr) {ws : List (Wiring Segment)}
    (hws : ∀ w ∈ ws, Q w) : Holds Q (scope.choiceParts es ws) := by
  unfold WiringScope.choiceParts
  dsimp only
  split
  · exact .single (h.choice es hws)
  · exact ⟨h.choice es hws, hws⟩

mutual

theorem wire (h : Piecewise Q) (scope : WiringScope) : ∀ e : Expr, Holds Q (scope.wire e)
  | .literal _ | .token _ | .eof => .single (h.tokenEdge _)
  | .wildcard | .empty | .precedence _ => .single (h.edge scope fun _ => .inl rfl)
  | .action text => .single (h.bind (h.action text) fun _ => h.edge scope fun _ => .inl rfl)
  | .predicate text => .single (h.bind (h.predicate text) fun _ => h.edge scope fun _ => .inl rfl)
  | .rule name level => .single (h.callEdge name level)
  | .seq items => .single (h.bind (h.mapM _ (h.wireAll scope items)) h.chain)
  | .choice alternatives => h.choiceParts alternatives (h.wireAll scope alternatives)
  | .optional body => .single (h.block _ (List.forall_mem_append.mpr
      ⟨(h.wire scope body).2, List.forall_mem_singleton.mpr (h.edge scope fun _ => .inl rfl)⟩))
  | .star body => .single (h.starLoop false (h.wire scope body).2)
  | .operatorLoop body => .single (h.starLoop true (h.wire scope body).2)
  | .plus body => .single (h.plusLoop (h.wire scope body).2)
  | .label name body => .single (h.labelled name body (h.wire scope body).1)
  | .rightAssoc body => .single (h.wire scope body).1

theorem wireAll (h : Piecewise Q) (scope : WiringScope) :
    ∀ es : List Expr, ∀ w ∈ scope.wireAll es, Q w
  | [] => nofun
  | e :: es => List.forall_mem_cons.mpr ⟨(h.wire scope e).1, h.wireAll scope es⟩

end

theorem wireRule (h : Piecewise Q) (v : Vocabulary) (index : RuleIndex) (r : Rule) :
    Q (wireRule v index r) := by
  apply h.bind (h.wire _ r.body).1
  intro seg
  apply h.bind h.get
  intro g
  split
  · exact h.pure ()
  · exact h.bind (h.connect _ _) fun _ => h.connect _ _

/-- Wiring the bodies of all rules has the property. -/
theorem wireRules (h : Piecewise Q) (rules : List Rule) (v : Vocabulary) :
    Q (rules.zipIdx.forM fun p => AdaptiveLL.wireRule v p.2 p.1) :=
  h.forM _ fun _ _ => h.wireRule v _ _

end Wiring.Piecewise

end AdaptiveLL
