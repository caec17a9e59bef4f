/-
The tree that a run of a rule of operators builds.

In every invocation of the rule the operand that was read so far is a grouped tree:
its operator passed the precedence of the invocation, and the operator ahead can
take it as its left operand.  That is so because an invocation is left only where
the operator ahead does not pass its precedence; if it did, the rest of the input
could be read by another round of the loop, and a decision takes the least
alternative from which it can.
-/
import AdaptiveLL.Proofs.Operator.Reading
import AdaptiveLL.Proofs.Parser.Advance
import AdaptiveLL.Proofs.Parser.Track

namespace AdaptiveLL

/-- The parts of a node of the rule show a tree of operators. -/
inductive PartsShow (name : String) : List ParseTree → OperatorTree → Prop where
  | primary {t} : PartsShow name [.leaf t] (.primary t)
  | binary {alt alt' lefts rights left op right} (hl : PartsShow name lefts left)
      (hr : PartsShow name rights right) :
      PartsShow name [.node name alt false lefts, .leaf op, .node name alt' false rights]
        (.binary left op right)

/-- A node of the rule shows a tree of operators. -/
def ParseTree.Shows (name : String) (node : ParseTree) (tree : OperatorTree) : Prop :=
  ∃ alt parts, node = .node name alt false parts ∧ PartsShow name parts tree

namespace OperatorTree

/-- The precedence lets the operator at the root pass. -/
def Passes (v : Vocabulary) (as : List Arm) (p : Int) (tree : OperatorTree) : Prop :=
  ∀ op, tree.root? = some op → ∀ i right, Arm.IsOperator v as op.type i right → p ≤ Arm.level as i

/-- The operator ahead, if there is one, can take the tree as its left operand. -/
def Before (v : Vocabulary) (as : List Arm) (w : List TokenType) (tree : OperatorTree) : Prop :=
  ∀ a, w.head? = some a → ∀ i right, Arm.IsOperator v as a i right → tree.Under v as i (!right)

end OperatorTree

/-- A grouped tree of tokens that were read. -/
structure OperatorTree.Built (v : Vocabulary) (as : List Arm) (tree : OperatorTree) : Prop where
  grouped : tree.Grouped v as
  real : ∀ t ∈ tree.tokens, t.isPlaceholder = false

/-- The precedence does not let the operator ahead pass. -/
def Holds (v : Vocabulary) (as : List Arm) (p : Int) (w : List TokenType) : Prop :=
  ∀ a, w.head? = some a → ∀ i right, Arm.IsOperator v as a i right → Arm.level as i < p

/-- What an invocation of this precedence has read is an operand. -/
structure Operand.Read (v : Vocabulary) (as : List Arm) (name : String) (p : Int)
    (parts : List ParseTree) (tree : OperatorTree) : Prop where
  shows : PartsShow name parts tree
  built : tree.Built v as
  passes : tree.Passes v as p

/-- The node is the left operand of the operator ahead. -/
structure Operand.Left (v : Vocabulary) (as : List Arm) (name : String) (w : List TokenType)
    (node : ParseTree) (tree : OperatorTree) : Prop where
  shows : node.Shows name tree
  built : tree.Built v as
  before : tree.Before v as w

/-- The node and the operator behind it wait for a right operand. -/
structure Operand.Waits (v : Vocabulary) (as : List Arm) (name : String) (p : Int)
    (node : ParseTree) (op : Token) (i : Nat) (right : Bool) (tree : OperatorTree) : Prop where
  operator : Arm.IsOperator v as op.type i right
  shows : node.Shows name tree
  built : tree.Built v as
  under : tree.Under v as i (!right)
  real : op.isPlaceholder = false
  passes : p ≤ Arm.level as i

namespace Landmarks

/-- How far an invocation of the rule has come, with what is ahead. -/
inductive Stage (o : Landmarks) (n : Network) (v : Vocabulary) (as : List Arm) (name : String)
    (w : List TokenType) (p : Int) : Nat → List ParseTree → Prop where
  | opening {id} (hid : n.Hops o.rule id o.primary) (hw : OperatorInput v as w) :
      Stage o n v as name w p id []
  | operand {id parts tree} (hid : n.Hops o.rule id o.knot)
      (hread : Operand.Read v as name p parts tree) (hbefore : tree.Before v as w)
      (hw : OperatorTail v as w) : Stage o n v as name w p id parts
  | turning {id targets node tree} (hid : n.Turns v as o.rule o.span.start o.knot targets id)
      (hleft : Operand.Left v as name w node tree) (hw : OperatorTail v as w) :
      Stage o n v as name w p id [node]
  | checking {id t i right node tree} (ht : Arm.IsOperator v as t i right)
      (hid : n.Rung as o.rule o.span.start o.knot t i right id)
      (hleft : Operand.Left v as name w node tree) (hw : OperatorTail v as w) :
      Stage o n v as name w p id [node]
  | reading {id read t i right node tree} (ht : Arm.IsOperator v as t i right)
      (hid : n.Hops o.rule id read)
      (hread : n.ReadsOperator o.rule o.span.start o.knot t (Arm.nextLevel as i right) read)
      (hpasses : p ≤ Arm.level as i) (hleft : Operand.Left v as name w node tree)
      (hw : OperatorTail v as w) : Stage o n v as name w p id [node]
  | calling {id call op i right node tree} (hid : n.Hops o.rule id call)
      (hcall : n.CallsOperand o.rule o.span.start o.knot (Arm.nextLevel as i right) call)
      (hwaits : Operand.Waits v as name p node op i right tree) (hw : OperatorInput v as w) :
      Stage o n v as name w p id [node, .leaf op]
  | leaving {id parts tree} (hid : n.Hops o.rule id o.span.stop)
      (hread : Operand.Read v as name p parts tree) (hholds : Holds v as p w)
      (hw : OperatorTail v as w) : Stage o n v as name w p id parts

/-- The invocations that are pending below one of the rule: others of the rule,
which wait for a right operand, and the outermost one. -/
inductive Held (o : Landmarks) (n : Network) (v : Vocabulary) (as : List Arm)
    (name topName : String) : Entry → List Pending → Prop where
  | outermost {i caller} (hfollow : i.follow = o.follow) (hp : i.precedence = 0)
      (hname : caller.name = topName) (hsound : caller.failed = false)
      (hchildren : caller.children = []) : Held o n v as name topName i [caller]
  | operand {i caller outer node op k right tree} (hfollow : n.Hops o.rule i.follow o.knot)
      (hp : i.precedence = Arm.nextLevel as k right) (hname : caller.name = name)
      (hsound : caller.failed = false) (hchildren : caller.children = [node, .leaf op])
      (hwaits : Operand.Waits v as name caller.precedence node op k right tree)
      (houter : Held o n v as name topName caller.toEntry outer) :
      Held o n v as name topName i (caller :: outer)

end Landmarks

/-- The types of the tokens that a run has still to read. -/
def View.types (ts : List Token) (x : View) : List TokenType :=
  (upcoming ts x.place).map Token.type

/-- A run over operators: in the rule of operators, or in the outermost one before
the operand, between it and the end of the input, or behind that. -/
inductive View.Climbs (o : Landmarks) (n : Network) (v : Vocabulary) (as : List Arm)
    (name topName : String) (ts : List Token) (x : View) : Prop where
  | within (hname : x.current.name = name) (hsound : x.current.failed = false)
      (hheld : o.Held n v as name topName x.current x.outer)
      (hstage : o.Stage n v as name (x.types ts) x.current.precedence x.state x.children)
  | before (hname : x.current.name = topName) (hsound : x.current.failed = false)
      (houter : x.outer = []) (hid : n.Hops o.top x.state o.call) (hparts : x.children = [])
      (hw : OperatorInput v as (x.types ts))
  | between {node tree} (hname : x.current.name = topName) (hsound : x.current.failed = false)
      (houter : x.outer = []) (hid : n.Hops o.top x.state o.read) (hparts : x.children = [node])
      (hshows : node.Shows name tree) (hbuilt : tree.Built v as)
  | behind {node tree last} (hname : x.current.name = topName) (hsound : x.current.failed = false)
      (houter : x.outer = []) (hid : n.Hops o.top x.state o.topSpan.stop)
      (hparts : x.children = [node, .leaf last]) (hshows : node.Shows name tree)
      (hbuilt : tree.Built v as) (hlast : last.isEof = true)

section Trees

variable {v : Vocabulary} {as : List Arm} {name : String} {p : Int} {w : List TokenType}
  {node : ParseTree} {parts : List ParseTree} {op : Token} {i : Nat} {right : Bool}
  {tree tree' : OperatorTree}

theorem Operand.Read.primary {t : Token} (ht : Arm.IsPrimary v as t.type)
    (hreal : t.isPlaceholder = false) : Operand.Read v as name p [.leaf t] (.primary t) where
  shows := .primary
  built := ⟨.primary ht, List.forall_mem_singleton.mpr hreal⟩
  passes _ hroot := nomatch hroot

theorem OperatorTree.before_primary (t : Token) : (OperatorTree.primary t).Before v as w :=
  fun _ _ _ _ _ _ hroot => nomatch hroot

theorem OperatorTree.Passes.root (hdistinct : Arm.Distinct v as)
    (hop : Arm.IsOperator v as op.type i right) (hp : p ≤ Arm.level as i) :
    (OperatorTree.binary tree op tree').Passes v as p := by
  intro top hroot j b hj
  obtain rfl := Option.some.inj hroot
  exact (hop.unique hdistinct hj).1 ▸ hp

/-- What passes the precedence of the right operand stands under the operator. -/
theorem OperatorTree.Passes.under (h : tree.Passes v as (Arm.nextLevel as i right)) :
    tree.Under v as i right := by
  intro top hroot j b hj
  have hle := h top hroot j b hj
  cases right <;> simp only [Arm.nextLevel, Arm.level, if_true, Bool.false_eq_true, if_false] at hle
  · left
    omega
  · simp only [and_true]
    omega

/-- With its right operand, an operator is an operand of its invocation. -/
theorem Operand.Waits.read {alt : Nat} (hdistinct : Arm.Distinct v as)
    (h : Operand.Waits v as name p node op i right tree)
    (hread : Operand.Read v as name (Arm.nextLevel as i right) parts tree') :
    Operand.Read v as name p [node, .leaf op, .node name alt false parts]
      (.binary tree op tree') where
  shows := by
    obtain ⟨_, _, rfl, hshows⟩ := h.shows
    exact .binary hshows hread.shows
  built := by
    refine ⟨.binary h.operator h.built.grouped hread.built.grouped h.under hread.passes.under, ?_⟩
    exact List.forall_mem_append.mpr ⟨h.built.real,
      List.forall_mem_cons.mpr ⟨h.real, hread.built.real⟩⟩
  passes := .root hdistinct h.operator h.passes

/-- What the right operand's invocation left takes the whole as its left operand. -/
theorem Holds.before (hdistinct : Arm.Distinct v as) (hop : Arm.IsOperator v as op.type i right)
    (h : Holds v as (Arm.nextLevel as i right) w) :
    (OperatorTree.binary tree op tree').Before v as w := by
  intro a ha j b hj top hroot k b' hk
  obtain rfl := Option.some.inj hroot
  obtain ⟨rfl, rfl⟩ := hop.unique hdistinct hk
  have hlt := h a ha j b hj
  cases right <;> simp only [Arm.nextLevel, Arm.level, if_true, Bool.false_eq_true, if_false] at hlt
  · rcases Nat.lt_or_ge i j with hij | hij
    · exact .inl hij
    · obtain rfl : i = j := by omega
      rw [← hop.groups_eq hj]
      exact .inr ⟨rfl, rfl⟩
  · left
    omega

end Trees

section Steps

variable {interp : Interpreter} {n : Network} {o : Landmarks} {v : Vocabulary} {as : List Arm}
  {name topName : String} {ts : List Token} {x y : View} {i j : Entry} {outer : List Pending}

theorem Landmarks.Held.congr (h : o.Held n v as name topName i outer)
    (hfollow : j.follow = i.follow)
    (hp : j.precedence = i.precedence) : o.Held n v as name topName j outer := by
  cases h with
  | outermost hfollow' hp' hname hsound hchildren =>
    exact .outermost (hfollow.trans hfollow') (hp.trans hp') hname hsound hchildren
  | operand hfollow' hp' hname hsound hchildren hwaits houter =>
    exact .operand (hfollow ▸ hfollow') (hp.trans hp') hname hsound hchildren hwaits houter

theorem Landmarks.Held.stacked (h : o.Held n v as name topName i outer) :
    o.Stacked n i.precedence (callers i outer) := by
  induction h with
  | outermost hfollow hp =>
    rw [callers, hp, hfollow]
    exact .outermost
  | operand hfollow _ _ _ _ _ _ ih => exact .inner hfollow ih

theorem Graph.Hops.cases {g : Graph} {rule : RuleIndex} {id target : Nat}
    (h : g.Hops rule id target) :
    id = target ∨ ∃ mid, g.LeadsTo rule id mid ∧ g.Hops rule mid target :=
  Relation.ReflTransGen.cases_head h

def View.Sighted (ts : List Token) (x : View) : Prop :=
  ∃ t, ts[x.place]? = some t ∧ t.isVisible = true

theorem View.Sighted.visible (h : x.Sighted ts) {tok : Token} (htok : ts[x.place]? = some tok) :
    tok.isVisible = true := by
  obtain ⟨t, ht, hvisible⟩ := h
  exact Option.some.inj (ht.symm.trans htok) ▸ hvisible

theorem View.Sighted.head?_types (h : x.Sighted ts) {tok : Token} (htok : ts[x.place]? = some tok) :
    (x.types ts).head? = some tok.type := by
  rw [View.types, upcoming_of_isVisible htok (h.visible htok)]
  rfl

/-- Tokens are read while more than one is ahead. -/
theorem View.Sighted.types_read (h : x.Sighted ts) (hends : Ended ts) {tok : Token}
    (htok : ts[x.place]? = some tok) (hplace : y.place = nextPlace ts x.place) {a : TokenType}
    {w : List TokenType} (htypes : x.types ts = a :: w) (hne : w ≠ []) :
    tok.type = a ∧ y.types ts = w := by
  have hrun : tok.isEof = false := by
    by_contra heof
    rw [View.types, hends.upcoming_of_isEof htok (by simpa using heof)] at htypes
    exact hne (List.cons.inj htypes).2.symm
  have hahead := (hends.upcoming_of_run htok (h.visible htok) hrun).1
  rw [View.types, hahead, ← hplace] at htypes
  exact List.cons.inj htypes

theorem OperatorTail.ne_nil {w : List TokenType} (h : OperatorTail v as w) : w ≠ [] := by
  cases h <;> simp

namespace View.Climbs

/-- In the rule of operators, an empty transition leads to another stage. -/
theorem goto (hname : x.current.name = name) (hsound : x.current.failed = false)
    (hheld : o.Held n v as name topName x.current x.outer) (mark : Nat) {target : Nat}
    (hstage : o.Stage n v as name (x.types ts) x.current.precedence target x.children) :
    ((x.setAlt mark).goto target).Climbs o n v as name topName ts :=
  .within hname hsound (hheld.congr rfl rfl) hstage

/-- A first operand is read. -/
theorem opening (h : o.Of interp.network v as) (hends : Ended ts)
    (hnumbered : Numbered ts) (hsight : x.Sighted ts) (hname : x.current.name = name)
    (hsound : x.current.failed = false)
    (hheld : o.Held interp.network v as name topName x.current x.outer)
    (hid : interp.network.Hops o.rule x.state o.primary) (hparts : x.children = [])
    (hw : OperatorInput v as (x.types ts)) (hstep : Advances interp ts x y) :
    y.Climbs o interp.network v as name topName ts := by
  rcases hid.cases with heq | ⟨mid, hlead, hmid⟩
  · obtain ⟨t, hleads, hreads, haccepts, hknot⟩ := h.ladder.reads
    obtain ⟨tok, z, htok, ha, rfl, hplace, hchildren⟩ := hstep.of_reads (heq ▸ hleads) hreads
    obtain ⟨b, w, htypes, _, htail⟩ := hw
    obtain ⟨_, hrest⟩ := hsight.types_read (y := x.onto z) hends htok hplace htypes htail.ne_nil
    rw [hparts] at hchildren
    refine .within hname hsound hheld ?_
    change o.Stage interp.network v as name ((x.onto z).types ts) x.current.precedence
      t.target z.children
    rw [hchildren, hrest]
    exact .operand hknot (.primary ((haccepts _).mp ha) (hnumbered.not_placeholder htok))
      (OperatorTree.before_primary tok) htail
  · obtain ⟨mark, rfl⟩ := hstep.of_leadsTo hlead
    exact goto hname hsound hheld mark (hparts ▸ .opening hmid hw)

/-- At the operators, the run goes to one of them. -/
theorem turning {targets : List Nat} {node : ParseTree} {tree : OperatorTree}
    (hname : x.current.name = name) (hsound : x.current.failed = false)
    (hheld : o.Held interp.network v as name topName x.current x.outer)
    (hid : interp.network.Turns v as o.rule o.span.start o.knot targets x.state)
    (hparts : x.children = [node]) (hleft : Operand.Left v as name (x.types ts) node tree)
    (hw : OperatorTail v as (x.types ts)) (hstep : Advances interp ts x y) :
    y.Climbs o interp.network v as name topName ts := by
  obtain ⟨mark, target, htarget, rfl⟩ := hstep.of_epsilons hid.shape (by decide)
  obtain ⟨t, i, right, ht, hrung⟩ := hid.rung target htarget
  exact goto hname hsound hheld mark (hparts ▸ .checking ht hrung hleft hw)

/-- An operator that is tried passes the precedence. -/
theorem checking {t : TokenType} {i : Nat} {right : Bool} {node : ParseTree} {tree : OperatorTree}
    (hname : x.current.name = name) (hsound : x.current.failed = false)
    (hheld : o.Held interp.network v as name topName x.current x.outer)
    (ht : Arm.IsOperator v as t i right)
    (hid : interp.network.Rung as o.rule o.span.start o.knot t i right x.state)
    (hparts : x.children = [node]) (hleft : Operand.Left v as name (x.types ts) node tree)
    (hw : OperatorTail v as (x.types ts)) (hstep : Advances interp ts x y) :
    y.Climbs o interp.network v as name topName ts := by
  obtain ⟨target, read, hcheck, hto, hread⟩ := hid
  obtain ⟨hpasses, rfl⟩ := hstep.of_precedence hcheck
  refine .within hname hsound hheld ?_
  change o.Stage interp.network v as name (x.types ts) x.current.precedence target x.children
  exact hparts ▸ .reading ht hto hread hpasses hleft hw

/-- The operator is read, and waits for its right operand. -/
theorem reading (h : o.Of interp.network v as) (hends : Ended ts) (hnumbered : Numbered ts)
    (hsight : x.Sighted ts)
    {t : TokenType} {i : Nat} {right : Bool} {node : ParseTree} {tree : OperatorTree} {read : Nat}
    (hname : x.current.name = name) (hsound : x.current.failed = false)
    (hheld : o.Held interp.network v as name topName x.current x.outer)
    (ht : Arm.IsOperator v as t i right) (hid : interp.network.Hops o.rule x.state read)
    (hread :
      interp.network.ReadsOperator o.rule o.span.start o.knot t (Arm.nextLevel as i right) read)
    (hpasses : x.current.precedence ≤ Arm.level as i) (hparts : x.children = [node])
    (hleft : Operand.Left v as name (x.types ts) node tree) (hw : OperatorTail v as (x.types ts))
    (hstep : Advances interp ts x y) : y.Climbs o interp.network v as name topName ts := by
  rcases hid.cases with rfl | ⟨mid, hlead, hmid⟩
  · obtain ⟨target, call, hleads, hto, hcall⟩ := hread
    obtain ⟨op, z, hop, ha, rfl, hplace, hchildren⟩ := hstep.of_reads hleads rfl
    obtain rfl : t = op.type := eq_of_beq ha
    have hhead := hsight.head?_types hop
    obtain ⟨a, b, w, htypes, hb, htail⟩ : ∃ a b w, x.types ts = a :: b :: w ∧
        Arm.IsPrimary v as b ∧ OperatorTail v as w := by
      generalize x.types ts = w at hw hhead
      cases hw with
      | last => exact absurd (Option.some.inj hhead ▸ ht) (h.eof i right)
      | more _ hb hw => exact ⟨_, _, _, rfl, hb, hw⟩
    obtain ⟨_, hrest⟩ := hsight.types_read (y := x.onto z) hends hop hplace htypes (by simp)
    have hwaits : Operand.Waits v as name x.current.precedence node op i right tree :=
      ⟨ht, hleft.shows, hleft.built, hleft.before _ hhead i right ht,
        hnumbered.not_placeholder hop, hpasses⟩
    rw [hparts] at hchildren
    refine .within hname hsound hheld ?_
    change o.Stage interp.network v as name ((x.onto z).types ts) x.current.precedence
      target z.children
    rw [hchildren, hrest]
    exact .calling hto hcall hwaits ⟨b, w, rfl, hb, htail⟩
  · obtain ⟨mark, rfl⟩ := hstep.of_leadsTo hlead
    exact goto hname hsound hheld mark (hparts ▸ .reading ht hmid hread hpasses hleft hw)

/-- The right operand is called. -/
theorem calling (h : o.Of interp.network v as) (hrule : interp.network.ruleName o.rule = name)
    {op : Token} {i : Nat} {right : Bool} {node : ParseTree} {tree : OperatorTree} {call : Nat}
    (hname : x.current.name = name) (hsound : x.current.failed = false)
    (hheld : o.Held interp.network v as name topName x.current x.outer)
    (hid : interp.network.Hops o.rule x.state call)
    (hcall : interp.network.CallsOperand o.rule o.span.start o.knot (Arm.nextLevel as i right) call)
    (hparts : x.children = [node, .leaf op])
    (hwaits : Operand.Waits v as name x.current.precedence node op i right tree)
    (hw : OperatorInput v as (x.types ts)) (hstep : Advances interp ts x y) :
    y.Climbs o interp.network v as name topName ts := by
  rcases hid.cases with rfl | ⟨mid, hlead, hmid⟩
  · obtain ⟨follow, hleads, hback⟩ := hcall
    obtain rfl := hstep.of_call hleads
    exact .within hrule rfl (.operand hback rfl hname hsound hparts hwaits hheld)
      (.opening h.ladder.opens hw)
  · obtain ⟨mark, rfl⟩ := hstep.of_leadsTo hlead
    exact goto hname hsound hheld mark (hparts ▸ .calling hmid hcall hwaits hw)

theorem shows_node (hname : x.current.name = name) (hsound : x.current.failed = false)
    {tree : OperatorTree} (hshows : PartsShow name x.children tree) : x.node.Shows name tree :=
  ⟨x.current.alt, x.children, by rw [View.node, hname, hsound], hshows⟩

/-- The rule is left with an operand for its caller. -/
theorem leaving (h : o.Of interp.network v as) {tree : OperatorTree}
    (hname : x.current.name = name) (hsound : x.current.failed = false)
    (hheld : o.Held interp.network v as name topName x.current x.outer)
    (hid : interp.network.Hops o.rule x.state o.span.stop)
    (hread : Operand.Read v as name x.current.precedence x.children tree)
    (hholds : Holds v as x.current.precedence (x.types ts)) (hw : OperatorTail v as (x.types ts))
    (hstep : Advances interp ts x y) : y.Climbs o interp.network v as name topName ts := by
  rcases hid.cases with heq | ⟨mid, hlead, hmid⟩
  · obtain ⟨caller, outer, houter, rfl⟩ := hstep.of_stops (heq ▸ h.ladder.stops)
    rw [houter] at hheld
    cases hheld with
    | outermost hfollow _ hname' hsound' hchildren =>
      have hparts : (x.back caller []).children = [x.node] := by
        rw [View.back, hchildren]
        rfl
      have hid : interp.network.Hops o.top (x.back caller []).state o.read := by
        rw [View.back, hfollow]
        exact h.behind
      exact .between hname' hsound' rfl hid hparts (shows_node hname hsound hread.shows) hread.built
    | operand hfollow hp hname' hsound' hchildren hwaits houter' =>
      rw [hp] at hread hholds
      refine .within hname' hsound' houter' ?_
      change o.Stage interp.network v as name (x.types ts) caller.precedence x.current.follow
        (caller.children ++ [x.node])
      rw [hchildren, View.node, hname, hsound]
      exact .operand hfollow (hwaits.read h.distinct hread)
        (hholds.before h.distinct hwaits.operator) hw
  · obtain ⟨mark, rfl⟩ := hstep.of_leadsTo hlead
    exact goto hname hsound hheld mark (.leaving hmid hread hholds hw)

/-- Behind an operand that is not left, the operator ahead does not pass the
precedence. -/
theorem holds_of_chosen {rules : List Rule} {start : RuleIndex} {r₀ : Rule} {w : List TokenType}
    (hrooted : Rooted interp.network v rules start r₀)
    (hpermits : interp.network.Permits (some interp.hooks))
    (hx : x.OnTrack interp.network start ts w) (h : o.Of interp.network v as)
    (hheld : o.Held interp.network v as name topName x.current x.outer) {turn leave : Nat}
    {targets : List Nat}
    (hturns : interp.network.Turns v as o.rule o.span.start o.knot targets turn)
    (hentry : interp.network.shape? x.state =
      some ⟨.starLoopEntry true, o.rule, [.epsilon turn, .epsilon leave]⟩)
    (hw : OperatorTail v as (x.types ts)) {s : State} (hs : interp.network.state? x.state = some s)
    (hdecision : s.isDecision = true) (hchosen : Chosen interp ts s x 2) :
    Holds v as x.current.precedence (x.types ts) := by
  intro a ha i right hop
  by_contra hlevel
  have htypes : w = x.types ts :=
    hx.ahead_eq (hrooted.runs.not_past_of_decision hrooted.rule (p := x.spot) hs hdecision)
  obtain ⟨hrun, htransitions⟩ :=
    (Graph.LeadsOn.of_shape hentry (by decide)).eq hs
  have hround : Completes interp.network.toGraph { x.spot with state := turn } w := by
    rw [htypes]
    generalize x.types ts = w at ha hw
    cases hw with
    | last => exact absurd (Option.some.inj ha ▸ hop) (h.eof i right)
    | more _ hb hw =>
      obtain rfl := Option.some.inj ha
      exact h.completes_turn hturns hop hb (Int.not_lt.mp hlevel)
        (h.completes_tail hheld.stacked hw)
  have hle := (hx.chosen_least hrooted hpermits hs hdecision hchosen).2 1 _
    ⟨Nat.one_pos, s, .epsilon turn, hs, hrun, by rw [htransitions]; rfl, rfl, rfl⟩ hround
  omega

/-- Behind an operand, another operator takes it as its left operand, or the rule is
left. -/
theorem operand {rules : List Rule} {start : RuleIndex} {r₀ : Rule} {w : List TokenType}
    (hrooted : Rooted interp.network v rules start r₀)
    (hpermits : interp.network.Permits (some interp.hooks))
    (hx : x.OnTrack interp.network start ts w) (h : o.Of interp.network v as)
    {tree : OperatorTree}
    (hname : x.current.name = name) (hsound : x.current.failed = false)
    (hheld : o.Held interp.network v as name topName x.current x.outer)
    (hid : interp.network.Hops o.rule x.state o.knot)
    (hread : Operand.Read v as name x.current.precedence x.children tree)
    (hbefore : tree.Before v as (x.types ts)) (hw : OperatorTail v as (x.types ts))
    (hstep : Advances interp ts x y) : y.Climbs o interp.network v as name topName ts := by
  rcases hid.cases with heq | ⟨mid, hlead, hmid⟩
  · cases h.ladder.knot with
    | last hstop hnone =>
      exact leaving h hname hsound hheld (by rw [heq, hstop]; exact .refl) hread
        (fun _ _ _ _ ha => absurd ha (hnone _ _ _)) hw hstep
    | loop hentry hturns hend hleave =>
      obtain ⟨leaves, hend⟩ := hend
      rw [← heq] at hentry
      rcases hstep.of_operatorLoop hentry hturns.shape (by decide) hend with
        ⟨mark, rfl⟩ | ⟨mark, s, hs, hdecision, hchosen, rfl⟩
      · have hshows : (x.setAlt mark).node.Shows name tree :=
          shows_node (x := x.setAlt mark) hname hsound hread.shows
        exact .within hname rfl (hheld.congr rfl rfl)
          (.turning hturns ⟨hshows, hread.built, hbefore⟩ hw)
      · exact goto hname hsound hheld mark (.leaving hleave hread
          (holds_of_chosen hrooted hpermits hx h hheld hturns hentry hw hs hdecision hchosen) hw)
  · obtain ⟨mark, rfl⟩ := hstep.of_leadsTo hlead
    exact goto hname hsound hheld mark (.operand hmid hread hbefore hw)

/-- Every step in the rule of operators leads to another stage, or back to the
outermost rule. -/
theorem stage {rules : List Rule} {start : RuleIndex} {r₀ : Rule} {w : List TokenType}
    (hrooted : Rooted interp.network v rules start r₀)
    (hpermits : interp.network.Permits (some interp.hooks))
    (hx : x.OnTrack interp.network start ts w) (h : o.Of interp.network v as)
    (hrule : interp.network.ruleName o.rule = name) (hends : Ended ts)
    (hnumbered : Numbered ts) (hsight : x.Sighted ts) (hname : x.current.name = name)
    (hsound : x.current.failed = false)
    (hheld : o.Held interp.network v as name topName x.current x.outer)
    (hstage : o.Stage interp.network v as name (x.types ts) x.current.precedence x.state x.children)
    (hstep : Advances interp ts x y) : y.Climbs o interp.network v as name topName ts := by
  generalize hparts : x.children = parts at hstage
  generalize hstate : x.state = id at hstage
  cases hstage with
  | opening hid hw =>
    exact opening h hends hnumbered hsight hname hsound hheld (hstate ▸ hid) hparts hw hstep
  | operand hid hread hbefore hw =>
    exact operand hrooted hpermits hx h hname hsound hheld (hstate ▸ hid)
      (hparts ▸ hread) hbefore hw hstep
  | turning hid hleft hw => exact turning hname hsound hheld (hstate ▸ hid) hparts hleft hw hstep
  | checking ht hid hleft hw =>
    exact checking hname hsound hheld ht (hstate ▸ hid) hparts hleft hw hstep
  | reading ht hid hread hpasses hleft hw =>
    exact reading h hends hnumbered hsight hname hsound hheld ht (hstate ▸ hid) hread hpasses
      hparts hleft hw hstep
  | calling hid hcall hwaits hw =>
    exact calling h hrule hname hsound hheld (hstate ▸ hid) hcall hparts hwaits hw hstep
  | leaving hid hread hholds hw =>
    exact leaving h hname hsound hheld (hstate ▸ hid) (hparts ▸ hread) hholds hw hstep

/-- Every step of a run that can be completed goes on with the tree. -/
theorem next {rules : List Rule} {start : RuleIndex} {r₀ : Rule} {w : List TokenType}
    (hrooted : Rooted interp.network v rules start r₀)
    (hpermits : interp.network.Permits (some interp.hooks))
    (hx : x.OnTrack interp.network start ts w) (h : o.Of interp.network v as)
    (hrule : interp.network.ruleName o.rule = name) (hends : Ended ts) (hnumbered : Numbered ts)
    (hsight : x.Sighted ts)
    (hclimbs : x.Climbs o interp.network v as name topName ts) (hstep : Advances interp ts x y) :
    y.Climbs o interp.network v as name topName ts := by
  cases hclimbs with
  | within hname hsound hheld hstage =>
    exact stage hrooted hpermits hx h hrule hends hnumbered hsight hname hsound hheld hstage hstep
  | before hname hsound houter hid hparts hw =>
    rcases hid.cases with heq | ⟨mid, hlead, hmid⟩
    · obtain rfl := hstep.of_call (heq ▸ h.calls)
      refine .within hrule rfl ?_ (.opening h.ladder.opens hw)
      rw [View.call, houter]
      exact .outermost rfl rfl hname hsound hparts
    · obtain ⟨mark, rfl⟩ := hstep.of_leadsTo hlead
      exact .before hname hsound houter hmid hparts hw
  | between hname hsound houter hid hparts hshows hbuilt =>
    rcases hid.cases with heq | ⟨mid, hlead, hmid⟩
    · obtain ⟨target, hleads, hstop⟩ := h.reads
      obtain ⟨last, z, _, ha, rfl, _, hchildren⟩ := hstep.of_reads (heq ▸ hleads) rfl
      rw [hparts] at hchildren
      have heof : last.isEof = true := beq_iff_eq.mpr (eq_of_beq ha).symm
      exact .behind hname hsound houter hstop hchildren hshows hbuilt heof
    · obtain ⟨mark, rfl⟩ := hstep.of_leadsTo hlead
      exact .between hname hsound houter hmid hparts hshows hbuilt
  | behind hname hsound houter hid hparts hshows hbuilt hlast =>
    rcases hid.cases with heq | ⟨mid, hlead, hmid⟩
    · obtain ⟨caller, outer, hcaller, _⟩ := hstep.of_stops (heq ▸ h.stops)
      cases houter.symm.trans hcaller
    · obtain ⟨mark, rfl⟩ := hstep.of_leadsTo hlead
      exact .behind hname hsound houter hmid hparts hshows hbuilt hlast

end View.Climbs

/-- A step without a mismatch leads to a token that is seen. -/
theorem Advances.sighted {rules : List Rule} (hruns : interp.network.Runs v rules)
    (hends : Ended ts) (h : Advances interp ts x y) (hsight : x.Sighted ts) : y.Sighted ts := by
  rcases h.walks hruns with ⟨_, hplace⟩ | ⟨_, hread⟩
  · rw [View.Sighted, hplace]
    exact hsight
  · rw [View.Sighted, hread.place]
    exact hends.nextPlace_visible hsight

/-- So does a run of such steps. -/
theorem View.Climbs.tracks {rules : List Rule} {start : RuleIndex} {r₀ : Rule} {z : View}
    (hrooted : Rooted interp.network v rules start r₀)
    (hpermits : interp.network.Permits (some interp.hooks)) (h : o.Of interp.network v as)
    (hrule : interp.network.ruleName o.rule = name) (hends : Ended ts) (hnumbered : Numbered ts)
    (hsight : x.Sighted ts)
    (hclimbs : x.Climbs o interp.network v as name topName ts)
    (htracks : Relation.ReflTransGen (View.Tracks interp start ts) x z) :
    z.Climbs o interp.network v as name topName ts := by
  induction htracks using Relation.ReflTransGen.head_induction_on with
  | refl => exact hclimbs
  | head hstep _ ih =>
    obtain ⟨⟨w, hx⟩, hadvances⟩ := hstep
    exact ih (hadvances.sighted hrooted.runs hends hsight)
      (hclimbs.next hrooted hpermits hx h hrule hends hnumbered hsight hadvances)

/-- Before its landmark a run is not at the end of a rule. -/
theorem Graph.Hops.not_stop {g : Graph} {rule : RuleIndex} {id target : Nat}
    {transitions : List Transition} (h : g.Hops rule id target)
    (hleads : g.LeadsOn rule target transitions) : g.isStop id = false := by
  rcases h.cases with rfl | ⟨_, hlead, _⟩
  · obtain ⟨s, hs, hrun, _⟩ := hleads.state
    rw [Graph.isStop, hs]
    exact hrun
  · obtain ⟨s, hs, hrun, _⟩ := hlead.leadsOn.state
    rw [Graph.isStop, hs]
    exact hrun

/-- A run over operators that has ended has built the node of a grouped tree before
the end of the input. -/
theorem View.Climbs.finished (h : o.Of n v as) (hclimbs : x.Climbs o n v as name topName ts)
    (hstop : n.isStop x.state = true) (houter : x.outer = []) :
    ∃ alt node tree last, x.node = .node topName alt false [node, .leaf last] ∧
      node.Shows name tree ∧ tree.Built v as ∧ last.isEof = true := by
  cases hclimbs with
  | within _ _ hheld =>
    rw [houter] at hheld
    cases hheld
  | before _ _ _ hid =>
    exact absurd (hstop.symm.trans (hid.not_stop h.calls)) (by simp)
  | between _ _ _ hid =>
    obtain ⟨_, hleads, _⟩ := h.reads
    exact absurd (hstop.symm.trans (hid.not_stop hleads)) (by simp)
  | behind hname hsound _ _ hparts hshows hbuilt hlast =>
    refine ⟨x.current.alt, _, _, _, ?_, hshows, hbuilt, hlast⟩
    rw [View.node, hname, hsound, hparts]

end Steps

end AdaptiveLL
