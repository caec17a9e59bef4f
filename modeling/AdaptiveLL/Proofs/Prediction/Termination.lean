/-
A prediction comes to an end.

The loops of a prediction are described here as they run, with no bound on their
steps: a run is a derivation, and so it is finite.  On a checked network each loop
has a run, and the prediction gives its result.  A closure ends because paths are
bounded and no place is taken up twice; moving over the tokens ends because the end
of the input settles every decision.
-/
import AdaptiveLL.Proofs.Prediction.Choice
import AdaptiveLL.Proofs.Stream.Use

namespace AdaptiveLL

section Explore

variable {α κ : Type} [Ord κ] [Std.TransOrd κ] [Std.LawfulEqOrd κ] {key : α → κ}

/-- A run of an exploration: an item is dropped if its key was seen; else it is
taken up and what follows it goes in front of the work that is left, until none
is. -/
inductive Explores (next : α → Asking (List α)) : List α → Explored key → Array HookCall →
    List α → Array HookCall → Prop where
  | done {seen calls} : Explores next [] seen calls seen.items.reverse calls
  | drop {x work seen calls items calls'} (hold : seen.has x = true)
      (hrest : Explores next work seen calls items calls') :
      Explores next (x :: work) seen calls items calls'
  | take {x work seen calls found calls' items calls''} (hnew : seen.has x = false)
      (hnext : (next x).run calls = (.ok found, calls'))
      (hrest : Explores next (found ++ work) (seen.add x) calls' items calls'') :
      Explores next (x :: work) seen calls items calls''

theorem Asking.run_bind {β γ : Type} {w : Asking β} {f : β → Asking γ}
    {calls calls' : Array HookCall}
    {b : β} (h : w.run calls = (.ok b, calls')) : (w >>= f).run calls = (f b).run calls' := by
  simp only [bind, ExceptT.bind, ExceptT.run, StateT.bind, ExceptT.mk] at h ⊢
  rw [h]
  rfl

variable {next : α → Asking (List α)} {Inv : α → Prop} {keys : List κ} {most : Nat}

/-- An exploration that may take up every key, and whatever follows it, runs to its
end. -/
theorem exists_explores (hkeys : ∀ x, Inv x → key x ∈ keys)
    (hnext : ∀ x, Inv x → Asking.Returns (next x) fun found =>
      found.length ≤ most ∧ ∀ y ∈ found, Inv y)
    {steps : Nat} {work : List α} {seen : Explored key} (calls : Array HookCall)
    (hwork : ∀ x ∈ work, Inv x) (hseen : ∀ x ∈ seen.items, Inv x)
    (hsteps : work.length + (seen.unseen keys).length * most ≤ steps) :
    ∃ items calls', (explore key next steps work seen).run calls = (.ok items, calls') ∧
      Explores next work seen calls items calls' ∧ ∀ x ∈ items, Inv x := by
  have hitems : ∀ x ∈ seen.items.reverse, Inv x := fun x hx => hseen x (List.mem_reverse.mp hx)
  induction steps generalizing work seen calls with
  | zero =>
    obtain rfl : work = [] := List.eq_nil_of_length_eq_zero (by omega)
    exact ⟨_, calls, rfl, .done, hitems⟩
  | succ steps ih =>
    cases work with
    | nil => exact ⟨_, calls, rfl, .done, hitems⟩
    | cons x work =>
      obtain ⟨hx, hrest⟩ := List.forall_mem_cons.mp hwork
      rw [List.length_cons] at hsteps
      rw [explore]
      by_cases hold : seen.has x = true
      · rw [if_pos hold]
        obtain ⟨items, calls', hrun, hexplores, hinv⟩ := ih calls hrest hseen (by omega) hitems
        exact ⟨items, calls', hrun, .drop hold hexplores, hinv⟩
      · have hnew : seen.has x = false := by simpa using hold
        rw [if_neg hold]
        obtain ⟨found, calls', hfound, hlength, hinv⟩ := hnext x hx calls
        have hless := seen.unseen_add_lt hnew (hkeys x hx)
        have hbudget : ((seen.add x).unseen keys).length * most + most ≤
            (seen.unseen keys).length * most := by
          rw [← Nat.succ_mul]
          exact Nat.mul_le_mul_right most hless
        have hadd : ∀ y ∈ (seen.add x).items, Inv y := List.forall_mem_cons.mpr ⟨hx, hseen⟩
        have hwork' : ∀ y ∈ found ++ work, Inv y := List.forall_mem_append.mpr ⟨hinv, hrest⟩
        obtain ⟨items, calls'', hrun, hexplores, hall⟩ := ih calls' hwork' hadd
          (by rw [List.length_append]; omega) (fun y hy => hadd y (List.mem_reverse.mp hy))
        refine ⟨items, calls'', ?_, .take hnew hfound hexplores, hall⟩
        rw [Asking.run_bind hfound]
        exact hrun

end Explore

namespace Path

variable {n : Network} {host : Option Hooks} {outer : Nat} {t : TokenType}
  {starts paths found : List Path} {c : Path} {calls calls' : Array HookCall}

def Closes (n : Network) (host : Option Hooks) (outer : Nat) (paths : List Path)
    (calls : Array HookCall) (found : List Path) (calls' : Array HookCall) : Prop :=
  ∃ visited,
    Explores (successors n host outer) paths (.nothing : Explored key) calls visited calls' ∧
    found = visited.filter (isLive n)

def Reaches (n : Network) (outer : Nat) (t : TokenType) (paths found : List Path) : Prop :=
  ∃ reached calls, Closes n none outer (moved n t paths) #[] reached calls ∧
    found = keepEnded n t paths reached

/-- The places where the path is and where it can go back to exist. -/
def Exists (n : Network) (c : Path) : Prop :=
  ∀ id ∈ c.state :: c.stack.returnStates, id < n.states.size

/-- A closure on a sealed network runs to its end. -/
theorem exists_closes (hsealed : n.toGraph.Sealed) (host : Option Hooks) (outer : Nat)
    (hstarts : ∀ o ∈ starts, o.Bounded n starts) (calls : Array HookCall) :
    ∃ found calls', (closure n host outer starts).run calls = (.ok found, calls') ∧
      Closes n host outer starts calls found calls' ∧ ∀ c ∈ found, c.Bounded n starts := by
  have hsteps : starts.length + (({} : Explored Path.key).unseen (pathKeys n starts)).length *
      (n.transitionCount + 1) ≤ closureBound n starts := by
    refine le_trans (Nat.add_le_add_left (Nat.mul_le_mul_right _ ?_) _)
      (length_pathKeys_le n starts)
    exact List.length_filter_le _ _
  have hkeys (c : Path) (hc : c.Bounded n starts) : key c ∈ pathKeys n starts := hc.key_mem
  have hnext (c : Path) (hc : c.Bounded n starts) : Asking.Returns (c.successors n host outer)
      fun found => found.length ≤ n.transitionCount + 1 ∧ ∀ y ∈ found, y.Bounded n starts :=
    hc.returns_successors hsealed host
  obtain ⟨visited, calls', hrun, hexplores, hinv⟩ := exists_explores hkeys hnext calls hstarts
    (fun c hc => absurd hc List.not_mem_nil) hsteps
  refine ⟨visited.filter (isLive n), calls', ?_, ⟨visited, hexplores, rfl⟩, fun c hc => ?_⟩
  · rw [closure, Asking.run_bind hrun]
    rfl
  · exact hinv c (List.mem_filter.mp hc).1

/-- What some paths come to by reading a token exists, and is on their alternatives. -/
theorem exists_reaches (hcheck : n.toGraph.check = .ok ()) (outer : Nat) (t : TokenType)
    (hpaths : ∀ c ∈ paths, c.Exists n) :
    ∃ found, reach n outer t paths = .ok found ∧ Reaches n outer t paths found ∧
      ∀ c ∈ found, c.Exists n ∧ ∃ o ∈ paths, o.alt = c.alt := by
  have hfrom (d : Path) (hd : d ∈ moved n t paths) : d.Fresh n ∧ ∃ o ∈ paths, o.alt = d.alt := by
    obtain ⟨c, hc, hd⟩ := List.mem_flatMap.mp hd
    have hmem := (List.mem_filter.mp hc).1
    obtain ⟨s, tr, hs, htr, ha, rfl⟩ := mem_advance hd
    obtain ⟨s', hs'⟩ := Graph.target_of_check hcheck hs htr
    have hreturns := (List.forall_mem_cons.mp (hpaths c hmem)).2
    exact ⟨⟨List.forall_mem_cons.mpr ⟨Graph.lt_of_state? hs', hreturns⟩, rfl⟩, c, hmem, rfl⟩
  obtain ⟨reached, calls, hrun, hcloses, hbounded⟩ := exists_closes
    (Graph.sealed_of_check hcheck) none outer (fun d hd => (hfrom d hd).1.bounded hd) #[]
  refine ⟨_, reach_eq hrun, ⟨reached, calls, hcloses, rfl⟩, ?_⟩
  have hreached (c : Path) (hc : c ∈ reached) : c.Exists n ∧ ∃ o ∈ paths, o.alt = c.alt := by
    have hc := hbounded c hc
    obtain ⟨d, hd, halt⟩ := hc.alt
    obtain ⟨o, ho, halt'⟩ := (hfrom d hd).2
    exact ⟨hc.states, o, ho, halt'.trans halt⟩
  intro c hc
  rcases mem_keepEnded hc with hc | ⟨hmem, _⟩
  · exact hreached c hc
  · exact ⟨hpaths c hmem, c, hmem, rfl⟩

end Path

namespace Decision

/-- A run of moving paths over the tokens ahead, after `depth` tokens: until no path
can go on, one alternative is left, or the lowest one is at every place or at the
end of the input. -/
inductive Simulates (n : Network) (d : Decision) (first : Token) : Nat → List Path → TokenStream →
    Except PredictionFailure Prediction × TokenStream → Prop where
  | stuck {depth paths s reached}
      (hreach : Path.Reaches n d.stack.length (s.peek 1).1.type paths reached)
      (halts : Path.alts reached = []) :
      Simulates n d first depth paths s
        (d.stuck n first (s.peek 1).1 depth paths, (s.peek 1).2)
  | single {depth paths s reached alt}
      (hreach : Path.Reaches n d.stack.length (s.peek 1).1.type paths reached)
      (halts : Path.alts reached = [alt]) :
      Simulates n d first depth paths s (.ok ⟨alt, depth + 1, []⟩, (s.peek 1).2)
  | settled {depth paths s reached alt others}
      (hreach : Path.Reaches n d.stack.length (s.peek 1).1.type paths reached)
      (halts : Path.alts reached = alt :: others) (hseveral : others ≠ [])
      (hsettled : (s.peek 1).1.isEof = true ∨ Path.coversAll alt reached = true) :
      Simulates n d first depth paths s (.ok ⟨alt, depth + 1, alt :: others⟩, (s.peek 1).2)
  | next {depth paths s reached alt others result}
      (hreach : Path.Reaches n d.stack.length (s.peek 1).1.type paths reached)
      (halts : Path.alts reached = alt :: others) (hseveral : others ≠ [])
      (hrun : (s.peek 1).1.isEof = false) (hopen : Path.coversAll alt reached = false)
      (hrest : Simulates n d first (depth + 1) reached (s.peek 1).2.consume result) :
      Simulates n d first depth paths s result

/-- A run of a prediction: the first steps of the alternatives, their closure, the
tokens ahead, and back to where the stream was. -/
inductive Decides (n : Network) (hooks : Hooks) (d : Decision) (s : TokenStream)
    (calls : Array HookCall) :
    (Except PredictionFailure Prediction × TokenStream) × Array HookCall → Prop where
  | empty {state} (hs : n.state? d.state = some state) (hempty : state.transitions = []) :
      Decides n hooks d s calls ((.error (.defect (.emptyDecision d.state)), s), calls)
  | simulated {state steps calls₁ paths calls₂ result} (hs : n.state? d.state = some state)
      (hsome : state.transitions ≠ [])
      (hsteps : (d.firstSteps n hooks state.transitions).run calls = (.ok steps, calls₁))
      (hcloses : Path.Closes n (some hooks) d.stack.length steps calls₁ paths calls₂)
      (hsimulates : Simulates n d (s.index.2.peek 1).1 0 paths (s.index.2.peek 1).2 result) :
      Decides n hooks d s calls ((result.1, result.2.seek s.index.1), calls₂)

variable {n : Network} {d : Decision} {hooks : Hooks} {state : State} {ts : List Token} {i : Nat}

/-- The first steps are bounded, and on the alternatives of the decision. -/
theorem returns_firstSteps_bounded (hsealed : n.toGraph.Sealed) (hs : n.state? d.state = some state)
    (hexist : ∀ id ∈ d.state :: d.stack.returnStates, id < n.states.size) (hooks : Hooks) :
    Asking.Returns (d.firstSteps n hooks state.transitions) fun steps =>
      ∀ o ∈ steps, o.Bounded n steps ∧ 0 < o.alt ∧ o.alt ≤ state.transitions.length := by
  have hstep (x : Transition × Nat) (hx : x ∈ state.transitions.zipIdx) :
      Asking.Returns ((d.startPath (x.2 + 1)).follow n (some hooks) x.1) fun r =>
        ∀ o ∈ r, (∀ starts, o ∈ starts → o.Bounded n starts) ∧ 0 < o.alt ∧
          o.alt ≤ state.transitions.length := by
    have hget := List.mem_zipIdx_iff_getElem?.mp hx
    have hbounded : (d.startPath (x.2 + 1)).Bounded n [d.startPath (x.2 + 1)] :=
      Path.Fresh.bounded ⟨hexist, rfl⟩ List.mem_cons_self
    refine Outcome.ofAsking.returns_mono (fun r hr o ho => ?_)
      (Path.returns_follow n (some hooks) (d.startPath (x.2 + 1)) x.1)
    obtain ⟨halong, hpasses⟩ := hr.1 o ho
    have halt : o.alt = x.2 + 1 := (Path.alt_along halong).1
    have hlt := (List.getElem?_eq_some_iff.mp hget).1
    refine ⟨fun starts hmem => ?_, by omega, by omega⟩
    exact (hbounded.along hsealed hs (List.mem_of_getElem? hget) halong hpasses).restart hmem
  refine Outcome.ofAsking.returns_bind (Outcome.ofAsking.returns_mapM hstep) fun steps hsteps => ?_
  refine Outcome.ofAsking.returns_pure fun o ho => ?_
  obtain ⟨r, hr, hro⟩ := List.mem_filterMap.mp ho
  obtain ⟨j, hj, rfl⟩ := List.getElem_of_mem hr
  have hx := hsteps.get (hsteps.length_eq ▸ hj) hj
  obtain ⟨hbounded, halt⟩ := hx o hro
  exact ⟨hbounded _ ho, halt⟩

/-- What a simulation on a checked network gives. -/
structure Simulated (n : Network) (paths : List Path) (most : Nat)
    (r : Except PredictionFailure Prediction) : Prop where
  lookahead : ∀ p, r = .ok p → p.lookahead ≤ most
  alt : ∀ p, r = .ok p → ∃ c ∈ paths, c.alt = p.alt
  sound : ∀ defect, r ≠ .error (.defect defect)

theorem simulated_stuck {first offending : Token} {depth most : Nat} {paths : List Path}
    (hdepth : depth < most) :
    Simulated n paths most (d.stuck n first offending depth paths) := by
  refine ⟨fun p hp => ?_, fun p hp => ?_, stuck_spec.2⟩
  · unfold stuck at hp
    split at hp
    · obtain rfl := Except.ok.inj hp
      exact Nat.max_le.mpr ⟨hdepth.le, by omega⟩
    · cases hp
  · obtain ⟨c, hc, halt, _⟩ := stuck_spec.1 p hp
    exact ⟨c, hc, halt⟩

theorem simulated_ok {paths : List Path} {p : Prediction} {most : Nat} (hle : p.lookahead ≤ most)
    (halt : ∃ c ∈ paths, c.alt = p.alt) : Simulated n paths most (.ok p) where
  lookahead _ hq := Except.ok.inj hq ▸ hle
  alt _ hq := Except.ok.inj hq ▸ halt
  sound _ h := nomatch h

/-- Moving paths over the tokens ahead runs to its end, within as many rounds as
there are tokens to come. -/
theorem simulates (hcheck : n.toGraph.check = .ok ()) (first : Token) {rounds : Nat} (depth : Nat)
    {paths : List Path} {s : TokenStream} (hpaths : ∀ c ∈ paths, c.Exists n) (hat : s.At ts i)
    (hrounds : (upcoming ts i).length ≤ rounds) :
    Simulates n d first depth paths s (d.simulate n first rounds depth paths s) ∧
      Simulated n paths (depth + (upcoming ts i).length)
        (d.simulate n first rounds depth paths s).1 := by
  obtain ⟨t, ht, htoken⟩ := hat.token
  have hpos : 0 < (upcoming ts i).length := by
    rcases htoken with ⟨_, heq⟩ | ⟨_, heq, _⟩ <;> simp [heq]
  induction rounds generalizing depth paths s i t with
  | zero => omega
  | succ rounds ih =>
    obtain ⟨hpeek, hat'⟩ := hat.peek_one
    obtain rfl := Option.some.inj (ht.symm.trans hpeek)
    obtain ⟨reached, hreach, hreaches, hreached⟩ :=
      Path.exists_reaches hcheck d.stack.length (s.peek 1).1.type hpaths
    have hfrom {alt : Nat} (h : ∃ c ∈ reached, c.alt = alt) : ∃ c ∈ paths, c.alt = alt := by
      obtain ⟨c, hc, rfl⟩ := h
      exact (hreached c hc).2
    rw [simulate]
    dsimp only
    rw [hreach]
    dsimp only
    cases halts : Path.alts reached with
    | nil => exact ⟨.stuck hreaches halts, simulated_stuck (by omega)⟩
    | cons alt others =>
      have hlowest := hfrom (Path.exists_of_alts_eq halts)
      cases others with
      | nil =>
        exact ⟨.single hreaches halts, simulated_ok (Nat.add_le_add_left hpos depth) hlowest⟩
      | cons other others =>
        dsimp only
        by_cases hsettled : (s.peek 1).1.isEof = true ∨ Path.coversAll alt reached = true
        · rw [if_pos (by simpa using hsettled)]
          exact ⟨.settled hreaches halts (List.cons_ne_nil _ _) hsettled,
            simulated_ok (Nat.add_le_add_left hpos depth) hlowest⟩
        · rw [if_neg (by simpa using hsettled)]
          obtain ⟨hrun, hopen⟩ := not_or.mp hsettled
          have hrun : (s.peek 1).1.isEof = false := by simpa using hrun
          obtain ⟨_, hupcoming, _⟩ := htoken.resolve_left (by simp [hrun])
          have hlength := congrArg List.length hupcoming
          rw [List.length_cons] at hlength
          obtain ⟨t', ht', htoken'⟩ := hat'.consume.token
          have hpos' : 0 < (upcoming ts (nextPlace ts i)).length := by
            rcases htoken' with ⟨_, heq⟩ | ⟨_, heq, _⟩ <;> simp [heq]
          obtain ⟨hsimulates, hsimulated⟩ := ih (depth + 1) (fun c hc => (hreached c hc).1)
            hat'.consume (by omega) t' ht' htoken' hpos'
          refine ⟨.next hreaches halts (List.cons_ne_nil _ _) hrun (by simpa using hopen)
            hsimulates, ?_, fun p hp => hfrom (hsimulated.alt p hp), hsimulated.sound⟩
          intro p hp
          have hle := hsimulated.lookahead p hp
          omega

/-- What a prediction on a checked network gives: it runs to its end, looks at no
more tokens than are to come, finds no defect where there are transitions, and takes
one of these. -/
theorem decides (hcheck : n.toGraph.check = .ok ())
    (hexist : ∀ id ∈ d.state :: d.stack.returnStates, id < n.states.size) (hooks : Hooks)
    (calls : Array HookCall) {s : TokenStream} (hat : s.At ts i) :
    Decides n hooks d s calls (d.decide n hooks s calls) ∧
      (∀ p, (d.decide n hooks s calls).1.1 = .ok p → p.lookahead ≤ (upcoming ts i).length) ∧
      ∀ state, n.state? d.state = some state → state.transitions ≠ [] →
        (∀ p, (d.decide n hooks s calls).1.1 = .ok p →
          0 < p.alt ∧ p.alt ≤ state.transitions.length) ∧
        ∀ defect, (d.decide n hooks s calls).1.1 ≠ .error (.defect defect) := by
  obtain ⟨state, hs⟩ := Graph.exists_state (hexist _ List.mem_cons_self)
  have hstate (state' : State) (hs' : n.state? d.state = some state') : state' = state :=
    Option.some.inj (hs'.symm.trans hs)
  by_cases hempty : state.transitions = []
  · have hdecide : d.decide n hooks s calls =
        ((.error (.defect (.emptyDecision d.state)), s), calls) := by
      unfold decide
      rw [Graph.getState_of_state? hs]
      simp [hempty]
    rw [hdecide]
    refine ⟨.empty hs hempty, fun p hp => (nomatch hp), fun state' hs' hsome => ?_⟩
    exact absurd hempty (hstate state' hs' ▸ hsome)
  · have hsealed := Graph.sealed_of_check hcheck
    obtain ⟨steps, calls₁, hsteps, hfirst⟩ :=
      returns_firstSteps_bounded hsealed hs hexist hooks calls
    obtain ⟨paths, calls₂, hrun, hcloses, hbounded⟩ := Path.exists_closes hsealed (some hooks)
      d.stack.length (fun o ho => (hfirst o ho).1) calls₁
    have hat' := hat.index.2.peek_one.2
    have hlength : (upcoming ts i).length ≤ (s.index.2.peek 1).2.horizon + 1 := by
      have hle := hat'.shows.length_le
      have hfilter : (upcoming ts i).length ≤ ts.length :=
        (List.length_filter_le _ _).trans (by simp)
      omega
    obtain ⟨hsimulates, hsimulated⟩ := simulates (d := d) hcheck
      (s.index.2.peek 1).1 0 (fun c hc => (hbounded c hc).states) hat' hlength
    have hstart : (d.start n hooks state.transitions).run calls = (.ok paths, calls₂) := by
      rw [start, Asking.run_bind hsteps]
      exact hrun
    have hdecide : d.decide n hooks s calls =
        (((d.simulate n (s.index.2.peek 1).1 ((s.index.2.peek 1).2.horizon + 1) 0 paths
            (s.index.2.peek 1).2).1,
          (d.simulate n (s.index.2.peek 1).1 ((s.index.2.peek 1).2.horizon + 1) 0 paths
            (s.index.2.peek 1).2).2.seek s.index.1), calls₂) := by
      unfold decide
      rw [Graph.getState_of_state? hs]
      dsimp only
      rw [if_neg (by simpa using hempty), hstart]
    rw [hdecide]
    refine ⟨.simulated hs hempty hsteps hcloses hsimulates, fun p hp => ?_,
      fun state' hs' _ => ⟨fun p hp => ?_, hsimulated.sound⟩⟩
    · have hle := hsimulated.lookahead p hp
      rwa [Nat.zero_add] at hle
    · obtain ⟨c, hc, halt⟩ := hsimulated.alt p hp
      obtain ⟨o, ho, halt'⟩ := (hbounded c hc).alt
      rw [hstate state' hs', ← halt, ← halt']
      exact (hfirst o ho).2

end Decision

/-- The main-channel tokens from a place on, without the end of the input. -/
def mainAhead (ts : List Token) (i : Nat) : List Token :=
  (ts.drop i).filter fun t => t.channel == .main && !t.isEof

/-- To come are the main-channel tokens and the end of the input. -/
theorem TokenStream.At.length_upcoming {s : TokenStream} {ts : List Token} {i : Nat}
    (h : s.At ts i) : (upcoming ts i).length = (mainAhead ts i).length + 1 := by
  obtain ⟨before, last, heq, hlast, hbefore⟩ := h.upcoming_eq
  have hmain : mainAhead ts i = (upcoming ts i).filter fun t => t.channel == .main && !t.isEof := by
    rw [upcoming, List.filter_filter, mainAhead]
    refine List.filter_congr fun t _ => ?_
    cases heof : t.isEof <;> simp [Token.isVisible, heof]
  have hvisible : ∀ t ∈ before, (t.channel == .main && !t.isEof) = true := by
    intro t ht
    have hmem : t ∈ upcoming ts i := heq ▸ List.mem_append_left _ ht
    have hv := (List.mem_filter.mp hmem).2
    simpa [Token.isVisible, hbefore t ht] using hv
  rw [hmain, heq, List.filter_append, List.filter_eq_self.mpr hvisible,
    List.filter_cons_of_neg (by simp [hlast])]
  simp

/-- A prediction on a checked network, at any state and under any stack of existing
states, whatever the host program answers and whatever was done with the stream
before, comes to an end.  The stream answers afterwards as if nothing had been
predicted, and no more tokens were looked at than are to come on the main channel,
with the end of the input. -/
theorem Graph.decide_ends {g : Graph} {maxType : TokenType} {n : Network}
    (h : g.toNetwork maxType = .ok n) {d : Decision}
    (hexist : ∀ id ∈ d.state :: d.stack.returnStates, id < n.states.size) (hooks : Hooks)
    (calls : Array HookCall) (source : TokenSource) (past : List StreamUse) :
    let s := (TokenStream.ofSource source).after past
    Decision.Decides n hooks d s calls (d.decide n hooks s calls) ∧
      (∀ later, TokenStream.SameAnswers ((d.decide n hooks s calls).1.2.after later)
        (s.after later)) ∧
      ∀ ts p, Supplies source 0 ts → (d.decide n hooks s calls).1.1 = .ok p →
        p.lookahead ≤ (mainAhead ts s.index.1).length + 1 := by
  intro s
  obtain ⟨ts, hts, _⟩ := TokenStream.exists_at_ofSource source
  obtain ⟨i, hat⟩ := TokenStream.exists_at_after hts past
  have hcheck := check_of_toNetwork h
  obtain ⟨hdecides, hlookahead, _⟩ := Decision.decides hcheck hexist hooks calls hat
  refine ⟨hdecides, fun later => ?_, fun ts' p hts' hp => ?_⟩
  · exact (d.decide_at n hooks calls hat).sameAnswers_after hat later
  · rw [hts'.unique hts, hat.index.1, ← hat.length_upcoming]
    exact hlookahead p hp

/-- A rule that calls itself before it reads a token, with a way round that reads
nothing. -/
def winding : Graph where
  states := #[⟨.ruleStart, 0, [.epsilon 2], none⟩, ⟨.ruleStop, 0, [], none⟩,
    ⟨.blockStart, 0, [.call 0 0 3 0, .epsilon 3], none⟩, ⟨.basic, 0, [.atom 1 1, .epsilon 2], none⟩]
  rules := #[⟨"a", 0, 1, true⟩]

def pastFirst : TokenStream :=
  (TokenStream.ofSource (.ofList (.replicate 4 (.make 1 "x" 0 0 1 0)))).after [.consume]

theorem decide_ends_winding :
    let n := winding.network 1 (by decide +kernel)
    let d : Decision := ⟨2, [⟨3, 0⟩], 0⟩
    Decision.Decides n .permissive d pastFirst #[] (d.decide n .permissive pastFirst #[]) ∧
      (∀ later, TokenStream.SameAnswers ((d.decide n .permissive pastFirst #[]).1.2.after later)
        (pastFirst.after later)) ∧
      ∃ ts p, (d.decide n .permissive pastFirst #[]).1.1 = .ok p ∧ p.conflicting = [1, 2] ∧
        p.lookahead ≤ (mainAhead ts pastFirst.index.1).length + 1 := by
  intro n d
  have hnetwork : winding.toNetwork 1 = .ok n := Graph.toNetwork_network (by decide +kernel)
  have hends := Graph.decide_ends hnetwork (d := d) (by decide +kernel) .permissive #[]
    (.ofList (.replicate 4 (.make 1 "x" 0 0 1 0))) [.consume]
  obtain ⟨ts, hts, _⟩ :=
    TokenStream.exists_at_ofSource (.ofList (.replicate 4 (.make 1 "x" 0 0 1 0)))
  have houtcome : (d.decide n .permissive pastFirst #[]).1.1 = .ok ⟨1, 3, [1, 2]⟩ := by
    decide +kernel
  rw [← pastFirst] at hends
  exact ⟨hends.1, hends.2.1, ts, _, houtcome, rfl, hends.2.2 ts _ hts houtcome⟩

end AdaptiveLL
