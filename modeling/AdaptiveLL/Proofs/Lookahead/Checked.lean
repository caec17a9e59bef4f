/-
When a checked graph is in order.

The check of a graph sees to it that transitions lead to states, and calls to the
start of a rule.  It does not look at which rule a state belongs to, nor at
recursion.  A graph whose transitions keep to their rule, and whose rules do not
call themselves before they read a token, is in order once it is checked.
-/
import AdaptiveLL.Proofs.Build
import AdaptiveLL.Proofs.Lookahead

namespace AdaptiveLL

/-- What reads nothing and is no call stays in the rule of its state, a call comes
back to it, and no transition leaves the stop state of a rule. -/
structure Graph.KeepsRules (g : Graph) : Prop where
  target_rule : ∀ {id : Nat} {s s' : State} {t : Transition}, g.state? id = some s →
    t ∈ s.transitions → t.isEpsilon = true → t.call? = none → g.state? t.target = some s' →
      s'.rule = s.rule
  follow_rule : ∀ {id : Nat} {s s' : State} {start follow : StateId} {callee : RuleIndex}
    {level : Int}, g.state? id = some s → .call start callee follow level ∈ s.transitions →
      g.state? follow = some s' → s'.rule = s.rule
  stop : ∀ {id : Nat} {s : State}, g.state? id = some s → s.isStop = true → s.transitions = []

/-- No rule can be called again before its call has read a token. -/
def Graph.CallsOnce (g : Graph) : Prop :=
  ∀ {id id' : Nat} {s s' : State} {start start' follow follow' : StateId} {callee : RuleIndex}
    {level level' : Int} {top : List StateId}, g.state? id = some s →
      .call start callee follow level ∈ s.transitions → Moves g ⟨start, []⟩ ⟨id', top⟩ →
        g.state? id' = some s' → s'.isStop = false →
          .call start' callee follow' level' ∉ s'.transitions

def Transition.level? : Transition → Option Int
  | .precedence _ level => some level
  | _ => none

def Graph.Unleveled (g : Graph) : Prop :=
  ∀ s ∈ g.states.toList, ∀ t ∈ s.transitions, t.level? = none

instance (g : Graph) : Decidable g.Unleveled :=
  inferInstanceAs (Decidable (∀ s ∈ g.states.toList, ∀ t ∈ s.transitions, t.level? = none))

def Graph.network (g : Graph) (maxType : TokenType) (h : (g.toNetwork maxType).isOk = true) :
    Network :=
  match g.toNetwork maxType, h with
  | .ok n, _ => n

theorem Graph.toNetwork_network {g : Graph} {maxType : TokenType}
    (h : (g.toNetwork maxType).isOk = true) : g.toNetwork maxType = .ok (g.network maxType h) := by
  unfold network
  split
  assumption

/-- Where no rule is called, none is called again. -/
theorem Graph.callsOnce_of_calls {g : Graph} (h : g.calls = []) : g.CallsOnce := by
  intro id id' s s' start start' follow follow' callee level level' top hs ht
  have hcall := Graph.mem_calls hs ht
  rw [h] at hcall
  cases hcall

section

variable {g : Graph} {n : Network} {maxType : TokenType}

/-- In a checked graph every state passes its check. -/
theorem Graph.checkState_of_check (h : g.check = .ok ()) {id : Nat} {s : State}
    (hs : g.state? id = some s) : Graph.checkExits id s = .ok () ∧
      s.transitions.forM (g.checkTransition id) = .ok () := by
  have hmem : (s, id) ∈ g.states.toList.zipIdx := by
    rw [List.mem_zipIdx_iff_getElem?, Array.getElem?_toList]
    exact hs
  have hstate := Except.forM_eq_ok.mp h _ hmem
  dsimp only at hstate
  cases hexits : Graph.checkExits id s with
  | error => simp [hexits, bind, Except.bind] at hstate
  | ok =>
    rw [hexits] at hstate
    exact ⟨rfl, hstate⟩

theorem Graph.checkTransition_of_check (h : g.check = .ok ()) {id : Nat} {s : State}
    (hs : g.state? id = some s) {t : Transition} (ht : t ∈ s.transitions) :
    g.checkTransition id t = .ok () :=
  Except.forM_eq_ok.mp (Graph.checkState_of_check h hs).2 t ht

/-- In a checked graph there is a way on from every state that ends no rule. -/
theorem Graph.exits_of_check (h : g.check = .ok ()) {id : Nat} {s : State}
    (hs : g.state? id = some s) (hrun : s.isStop = false) : s.transitions ≠ [] := by
  intro hnil
  have hexits := (Graph.checkState_of_check h hs).1
  simp only [Graph.checkExits, hnil, hrun, List.isEmpty_nil, Bool.not_true, Bool.or_self,
    Bool.false_eq_true, ↓reduceIte] at hexits
  split at hexits <;> cases hexits

theorem Graph.check_of_toNetwork (h : g.toNetwork maxType = .ok n) : n.toGraph.check = .ok () := by
  rw [(Graph.toNetwork_ok h).1]
  unfold Graph.toNetwork at h
  cases hcheck : Graph.check { g with maxType } with
  | error => simp [hcheck, bind, Except.bind] at h
  | ok => rfl

/-- A transition that passes its check leads to a state. -/
theorem Graph.target_of_checkTransition {id : StateId} {t : Transition}
    (h : g.checkTransition id t = .ok ()) : ∃ s', g.state? t.target = some s' := by
  unfold checkTransition at h
  cases hs' : g.state? t.target with
  | none => simp [hs'] at h
  | some s' => exact ⟨s', rfl⟩

/-- A call that passes its check leads to the start of its rule and comes back to a
state. -/
theorem Graph.call_of_checkTransition {id start follow : StateId} {callee : RuleIndex} {level : Int}
    (h : g.checkTransition id (.call start callee follow level) = .ok ()) :
    (∃ s', g.state? start = some s' ∧ s'.rule = callee) ∧ ∃ s', g.state? follow = some s' := by
  obtain ⟨s', hs'⟩ : ∃ s', g.state? start = some s' := Graph.target_of_checkTransition h
  simp only [checkTransition, Transition.target, Transition.call?, hs'] at h
  split at h
  · cases h
  · rename_i hstart
    split at h
    · cases h
    · rename_i hfollow
      simp only [Bool.or_eq_true, bne_iff_ne, ne_eq, not_or, not_not] at hstart
      exact ⟨⟨s', hs', hstart.2⟩, Graph.exists_state (Nat.lt_of_not_le hfollow)⟩

theorem Graph.target_of_check (h : g.check = .ok ()) {id : Nat} {s : State}
    (hs : g.state? id = some s) {t : Transition} (ht : t ∈ s.transitions) :
    ∃ s', g.state? t.target = some s' :=
  Graph.target_of_checkTransition (Graph.checkTransition_of_check h hs ht)

theorem Graph.call_of_check (h : g.check = .ok ()) {id : Nat} {s : State}
    (hs : g.state? id = some s) {start follow : StateId} {callee : RuleIndex} {level : Int}
    (ht : .call start callee follow level ∈ s.transitions) :
    (∃ s', g.state? start = some s' ∧ s'.rule = callee) ∧ ∃ s', g.state? follow = some s' :=
  Graph.call_of_checkTransition (Graph.checkTransition_of_check h hs ht)

/-- Transitions that read nothing lead to states, and calls come back to states. -/
structure Graph.Sealed (g : Graph) : Prop where
  target_state : ∀ {id : Nat} {s : State} {t : Transition}, g.state? id = some s →
    t ∈ s.transitions → t.isEpsilon = true → t.target < g.states.size
  follow_state :
    ∀ {id : Nat} {s : State} {start follow : StateId} {callee : RuleIndex} {level : Int},
    g.state? id = some s → .call start callee follow level ∈ s.transitions → follow < g.states.size

/-- All transitions of a graph pass their check, whatever exits its states have. -/
def Graph.TransitionsPass (g : Graph) : Prop :=
  ∀ (id : Nat) (s : State), g.state? id = some s → ∀ t ∈ s.transitions,
    g.checkTransition id t = .ok ()

theorem Graph.TransitionsPass.sealed (h : g.TransitionsPass) : g.Sealed where
  target_state hs ht _ := by
    obtain ⟨s', hs'⟩ := Graph.target_of_checkTransition (h _ _ hs _ ht)
    exact Graph.lt_of_state? hs'
  follow_state hs ht := by
    obtain ⟨_, s', hs'⟩ := Graph.call_of_checkTransition (h _ _ hs _ ht)
    exact Graph.lt_of_state? hs'

theorem Graph.transitionsPass_of_check (h : g.check = .ok ()) : g.TransitionsPass :=
  fun _ _ hs _ ht => Graph.checkTransition_of_check h hs ht

theorem Graph.sealed_of_check (h : g.check = .ok ()) : g.Sealed :=
  (Graph.transitionsPass_of_check h).sealed

/-- A checked graph is in order if its transitions keep to their rule and its rules
do not call themselves before they read a token. -/
theorem Graph.orderly_of_toNetwork (h : g.toNetwork maxType = .ok n)
    (hkeeps : n.toGraph.KeepsRules) (honce : n.toGraph.CallsOnce) : n.Orderly where
  target_state := by
    intro id s t hs ht hsilent hcall
    obtain ⟨s', hs'⟩ := Graph.target_of_check (Graph.check_of_toNetwork h) hs ht
    exact ⟨s', hs', hkeeps.target_rule hs ht hsilent hcall hs'⟩
  follow_state := by
    intro id s start follow callee level hs ht
    obtain ⟨_, s', hs'⟩ := Graph.call_of_check (Graph.check_of_toNetwork h) hs ht
    exact ⟨s', hs', hkeeps.follow_rule hs ht hs'⟩
  start_state := by
    intro id s start follow callee level hs ht
    exact (Graph.call_of_check (Graph.check_of_toNetwork h) hs ht).1
  calls_once := honce
  next_eq := (Graph.toNetwork_ok h).2

end

namespace Network.Runs

variable {n : Network} {v : Vocabulary} {rules : List Rule}

/-- The network of a grammar keeps the rules apart. -/
theorem keepsRules (hruns : n.Runs v rules) : n.toGraph.KeepsRules where
  target_rule := by
    intro id s s' t hs ht _ hcall hs'
    obtain ⟨s'', hs'', hrule⟩ := hruns.laid.target_state hs ht hcall
    obtain rfl := Option.some.inj (hs'.symm.trans hs'')
    exact hrule
  follow_rule := by
    intro id s s' start follow callee level hs ht hs'
    obtain ⟨s'', hs'', hrule⟩ := hruns.laid.follow_state hs ht
    obtain rfl := Option.some.inj (hs'.symm.trans hs'')
    exact hrule
  stop := by
    intro id s hs hstop
    rw [List.eq_nil_iff_forall_not_mem]
    intro t ht
    obtain ⟨_, _, _, _, _, hrun, _⟩ := hruns.laid.form_of_mem hs ht
    exact absurd (hrun.symm.trans hstop) (by simp)

end Network.Runs

end AdaptiveLL
