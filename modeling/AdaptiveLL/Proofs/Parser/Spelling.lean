/-
What the nodes of a repaired tree spell.

The parts of a node are what a path through its rule reads and calls, if no mismatch
ended the invocation: a token that was dropped leaves an error leaf and no more, and
one that was put in stands for the transition that missed it.  Only the loop over
the operators of a rule puts a node into another one, so this holds of all rules
without such a loop.
-/
import AdaptiveLL.Proofs.Lookahead.Exact
import AdaptiveLL.Proofs.Lookahead
import AdaptiveLL.Proofs.Parser.Begin

namespace AdaptiveLL

/-- The parts, from left to right, are what a path from one state to another reads
and calls, dropped tokens apart. -/
inductive Spells (n : Network) : StateId → List ParseTree → StateId → Prop where
  | done {id} : Spells n id [] id
  | dropped {id tok parts stop} (htok : tok.isPlaceholder = false)
      (hrest : Spells n id parts stop) : Spells n id (.error tok :: parts) stop
  | pass {id s t parts stop} (hs : n.state? id = some s) (ht : t ∈ s.transitions)
      (hsilent : t.isEpsilon = true) (hcall : t.call? = none)
      (hrest : Spells n t.target parts stop) : Spells n id parts stop
  | read {id s t tok parts stop} (hs : n.state? id = some s) (ht : t ∈ s.transitions)
      (ha : t.accepts n.maxType tok.type = true) (hrest : Spells n t.target parts stop) :
      Spells n id (.leaf tok :: parts) stop
  | put {id s t tok parts stop} (hs : n.state? id = some s) (ht : t ∈ s.transitions)
      (hreads : t.isEpsilon = false) (htok : tok.isPlaceholder = true)
      (hrest : Spells n t.target parts stop) : Spells n id (.error tok :: parts) stop
  | call {id s start rule follow level part parts stop} (hs : n.state? id = some s)
      (ht : .call start rule follow level ∈ s.transitions)
      (hpart : part.ruleName? = some (n.ruleName rule)) (hrest : Spells n follow parts stop) :
      Spells n id (part :: parts) stop

theorem Spells.trans {n : Network} {id mid stop : StateId} {parts more : List ParseTree}
    (h : Spells n id parts mid) (h' : Spells n mid more stop) :
    Spells n id (parts ++ more) stop := by
  induction h with
  | done => exact h'
  | dropped htok _ ih => exact .dropped htok (ih h')
  | pass hs ht hsilent hcall _ ih => exact .pass hs ht hsilent hcall (ih h')
  | read hs ht ha _ ih => exact .read hs ht ha (ih h')
  | put hs ht hreads htok _ ih => exact .put hs ht hreads htok (ih h')
  | call hs ht hpart _ ih => exact .call hs ht hpart (ih h')

namespace ParseTree

mutual

def subtrees : ParseTree → List ParseTree
  | .node rule alt failed children => .node rule alt failed children :: subtreesOfAll children
  | .leaf token => [.leaf token]
  | .error token => [.error token]

def subtreesOfAll : List ParseTree → List ParseTree
  | [] => []
  | t :: rest => t.subtrees ++ subtreesOfAll rest

end

theorem mem_subtreesOfAll {x : ParseTree} {ts : List ParseTree} :
    x ∈ subtreesOfAll ts ↔ ∃ t ∈ ts, x ∈ t.subtrees := by
  induction ts with
  | nil => simp [subtreesOfAll]
  | cons t rest ih => simp [subtreesOfAll, ih]

end ParseTree

/-- The rule has no loop over operators. -/
def Network.Loopless (n : Network) (rule : RuleIndex) : Prop :=
  ∀ id s, n.state? id = some s → s.rule = rule → s.role ≠ .starLoopEntry true

/-- Every node in the tree that met no mismatch, of a rule without a loop over
operators, spells a path of its rule. -/
def ParseTree.Spelled (n : Network) (tree : ParseTree) : Prop :=
  ∀ rule span alt children, n.rule? rule = some span → n.Loopless rule →
    .node span.name alt false children ∈ tree.subtrees → Spells n span.start children span.stop

theorem ParseTree.Spelled.leaf (n : Network) (t : Token) (skipped : Bool) :
    (t.leaf skipped).Spelled n := by
  intro rule span alt children _ _ hmem
  unfold Token.leaf at hmem
  split at hmem <;> simp [ParseTree.subtrees] at hmem

namespace Pending

/-- An invocation that met no mismatch has come to this state on a path that its
parts spell. -/
def OnPath (n : Network) (f : Pending) (id : StateId) : Prop :=
  f.failed = false → n.Loopless f.rule →
    ∃ span, n.rule? f.rule = some span ∧ Spells n span.start f.children id

/-- An invocation has the name of its rule, and the nodes in it are right. -/
structure Sound (n : Network) (f : Pending) : Prop where
  known : ∃ span, n.rule? f.rule = some span ∧ span.name = f.name
  parts : ∀ part ∈ f.children, part.Spelled n

def node (f : Pending) : ParseTree :=
  .node f.name f.alt f.failed f.children

variable {n : Network} {f : Pending} {id id' : StateId} {more : List ParseTree}

theorem OnPath.append (h : f.OnPath n id) (hmore : Spells n id more id') :
    ({ f with children := f.children ++ more } : Pending).OnPath n id' := fun hclear hloopless =>
  (h hclear hloopless).imp fun _ hpath => ⟨hpath.1, hpath.2.trans hmore⟩

theorem Sound.append (h : f.Sound n) (hmore : ∀ part ∈ more, part.Spelled n) :
    ({ f with children := f.children ++ more } : Pending).Sound n :=
  ⟨h.known, fun part hpart => (List.mem_append.mp hpart).elim (h.parts part) (hmore part)⟩

end Pending

/-- The callers of an invocation come to where they go on when they get a node of
its name. -/
inductive Waits (n : Network) : Entry → List Pending → Prop where
  | outermost {i} : Waits n i []
  | call {i caller outer} (hback : ∀ part : ParseTree, part.ruleName? = some i.name →
        ({ caller with children := caller.children ++ [part] } : Pending).OnPath n i.follow)
      (hcaller : Waits n caller.toEntry outer) : Waits n i (caller :: outer)

theorem Waits.congr {n : Network} {i j : Entry} {outer : List Pending} (h : Waits n i outer)
    (hname : j.name = i.name) (hfollow : j.follow = i.follow) : Waits n j outer := by
  cases h with
  | outermost => exact .outermost
  | call hback hcaller => exact .call (by rwa [hname, hfollow]) hcaller

/-- The nodes that a run has built and is building are right. -/
structure View.Spelled (n : Network) (x : View) : Prop where
  sound : ∀ f ∈ x.frames, f.Sound n
  path : (⟨x.current, x.children⟩ : Pending).OnPath n x.state
  waits : Waits n x.current x.outer

/-- Nothing but dropped tokens was added to the node that is being built. -/
def Drops (x y : Standing) : Prop :=
  ∃ tokens : List Token, y.children = x.children ++ tokens.map .error ∧
    ∀ tok ∈ tokens, tok.isPlaceholder = false

section Dropping

variable {ts : List Token} {x y z : Standing}

theorem Drops.refl (x : Standing) : Drops x x :=
  ⟨[], by simp, nofun⟩

theorem Drops.trans (h : Drops x y) (h' : Drops y z) : Drops x z := by
  obtain ⟨tokens, hchildren, htokens⟩ := h
  obtain ⟨tokens', hchildren', htokens'⟩ := h'
  refine ⟨tokens ++ tokens', by rw [hchildren', hchildren]; simp, fun tok htok => ?_⟩
  exact (List.mem_append.mp htok).elim (htokens tok) (htokens' tok)

theorem Drops.of_children (h : y.children = x.children) : Drops x y :=
  ⟨[], by simpa using h, nofun⟩

theorem Standing.report_children (ts : List Token) (x : Standing) :
    (x.report ts).children = x.children := by
  unfold Standing.report
  split <;> rfl

theorem Drops.eat (hnumbered : Numbered ts) (x : Standing) : Drops x (x.eat ts true) := by
  refine ⟨(ts[x.place]?).toList, rfl, fun tok htok => ?_⟩
  exact hnumbered.not_placeholder (Option.mem_toList.mp htok)

theorem Drops.force (hnumbered : Numbered ts) (x : Standing) (state : StateId) :
    Drops x (x.force ts state) := by
  unfold Standing.force
  split
  · exact .eat hnumbered x
  · exact .refl x

theorem Skips.drops {set : TypeSet} (hnumbered : Numbered ts) (h : Skips ts set x y) :
    Drops x y := by
  induction h with
  | stop => exact .refl _
  | more _ _ _ ih => exact (Drops.eat hnumbered _).trans ih

end Dropping

section Expecting

variable {g : Graph} {t : Transition} {maxType a : TokenType}

/-- Look-ahead from a state that reads takes up this state alone. -/
theorem Graph.state_of_lookVisits {id : Nat} {s : State} (hs : g.state? id = some s)
    (hrun : s.isStop = false) (ht : s.transitions = [t]) (hreads : t.isEpsilon = false)
    (stack : CallStack) : ∀ x ∈ g.lookVisits id stack, x.state = id := by
  refine forall_lookVisits rfl fun x hx y hy => ?_
  subst hx
  rw [Network.Orderly.lookNext_of_run hs hrun, ht] at hy
  cases t with
  | atom | set | wildcard => cases hy
  | _ => cases hreads

end Expecting

namespace Network.Runs

variable {n : Network} {v : Vocabulary} {rules : List Rule}

/-- At a state that reads, what can be read next is what its transition accepts. -/
theorem accepts_of_next (hruns : n.Runs v rules) {id : Nat} {s : State} {t : Transition}
    (hs : n.state? id = some s) (ht : s.transitions = [t]) (hreads : t.isEpsilon = false)
    {a : TokenType} (h : (n.next id).contains a = true) : t.accepts n.maxType a = true := by
  obtain ⟨_, _, _, _, _, hrun, _⟩ := hruns.laid.form_of_mem hs (ht ▸ List.mem_singleton_self t)
  rw [hruns.next_eq id (Graph.lt_of_state? hs), Graph.lookInRule, Graph.contains_lookFrom] at h
  obtain ⟨x, hx, hx'⟩ := h
  rw [Graph.lookTypes, Graph.state_of_lookVisits hs hrun ht hreads [] x hx] at hx'
  simp only [hs, hrun, Bool.false_eq_true, if_false, ht] at hx'
  rw [TypeSet.contains_foldl_union (f := fun types => types)] at hx'
  obtain ⟨types, htypes, hcontains⟩ := hx'.resolve_left (by simp)
  obtain ⟨_, hlabel, hsome⟩ := List.mem_filterMap.mp htypes
  obtain rfl := List.mem_singleton.mp hlabel
  exact Transition.accepts_of_label hsome hcontains

/-- A rule does not end at a state that reads, so it does not matter there what its
callers expect. -/
theorem expected_of_read (hruns : n.Runs v rules) {id : Nat} {s : State} {t : Transition}
    (hs : n.state? id = some s) (ht : s.transitions = [t]) (hreads : t.isEpsilon = false)
    (stack : CallStack) : n.expected id stack = n.next id := by
  have hinside : (n.next id).contains .epsilon = false := by
    rw [Bool.eq_false_iff]
    intro hepsilon
    have hrefused := hruns.readsTokens _ s hs t (ht ▸ List.mem_singleton_self t)
    exact absurd (hrefused.symm.trans (hruns.accepts_of_next hs ht hreads hepsilon)) (by simp)
  rw [Network.expected, hinside]
  rfl

/-- At a state that reads, what is expected is what its transition accepts. -/
theorem accepts_of_expected (hruns : n.Runs v rules) {id : Nat} {s : State} {t : Transition}
    (hs : n.state? id = some s) (ht : s.transitions = [t]) (hreads : t.isEpsilon = false)
    {stack : CallStack} {a : TokenType} (h : (n.expected id stack).contains a = true) :
    t.accepts n.maxType a = true := by
  rw [hruns.expected_of_read hs ht hreads] at h
  exact hruns.accepts_of_next hs ht hreads h

/-- Rules of one name have one number. -/
theorem rule_unique (hruns : n.Runs v rules) {i j : RuleIndex} {span span' : RuleSpan}
    (hi : n.rule? i = some span) (hj : n.rule? j = some span') (hname : span.name = span'.name) :
    i = j := by
  obtain ⟨r, hr, hr'⟩ := hruns.laid.name_eq hi
  obtain ⟨q, hq, hq'⟩ := hruns.laid.name_eq hj
  have hmap {k : Nat} {r : Rule} (h : rules[k]? = some r) :
      (rules.map Rule.name)[k]? = some r.name := by
    rw [List.getElem?_map, h]
    rfl
  have hlt : i < (rules.map Rule.name).length := (List.getElem?_eq_some_iff.mp (hmap hr)).1
  refine (List.getElem?_inj hlt hruns.nodup).mp ?_
  rw [hmap hr, hmap hq, hr', hq', hname]

end Network.Runs

section Spelling

variable {n : Network} {v : Vocabulary} {rules : List Rule} {f : Pending}

/-- A node is right if its parts are, and it spells a path to the end of its rule. -/
theorem Pending.Sound.node_spelled (hruns : n.Runs v rules) (h : f.Sound n)
    (hpath : f.failed = false → n.Loopless f.rule → ∃ span, n.rule? f.rule = some span ∧
      Spells n span.start f.children span.stop) : f.node.Spelled n := by
  intro rule span alt children hspan hloopless hmem
  rw [Pending.node, ParseTree.subtrees, List.mem_cons, ParseTree.mem_subtreesOfAll] at hmem
  rcases hmem with heq | ⟨part, hpart, hmem⟩
  · obtain ⟨hname, _, hclear, rfl⟩ := ParseTree.node.inj heq
    obtain ⟨span', hspan', hname'⟩ := h.known
    obtain rfl := hruns.rule_unique hspan' hspan (hname'.trans hname.symm)
    obtain rfl := Option.some.inj (hspan'.symm.trans hspan)
    obtain ⟨_, hspan'', hspells⟩ := hpath hclear.symm hloopless
    obtain rfl := Option.some.inj (hspan''.symm.trans hspan)
    exact hspells
  · exact h.parts part hpart rule span alt children hspan hloopless hmem

end Spelling

end AdaptiveLL
