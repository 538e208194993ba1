import RelayLogic.Proofs.Cycle

/-! Names resolved one after another with one account of visits. What a resolution does to the account
is what its steps do, whether it fails or not. One that succeeds leaves only variables visited that
lead into no cycle. One that fails may leave some on a cycle, and they are not looked into again; so a
cycle is sure to be found as long as no failure has visited anything on the way to it. -/
namespace RelayLogic

/-- A relation of ledgers that admits all that a step may do: nothing, one step after another, a visit
of a name of some kind, and a new number. -/
structure Ledger.Admits (kind : String → Prop) (R : Ledger → Ledger → Prop) : Prop where
  refl : ∀ l, R l l
  trans : ∀ {l k m}, R l k → R k m → R l m
  visit : ∀ l {name}, kind name → R l (l.visited name)
  nextId : ∀ l, R l { l with lastId := l.lastId + 1 }

namespace Resolution

variable {α β : Type} {kind : String → Prop} {R : Ledger → Ledger → Prop}

/-- A step that takes every ledger to one in the relation, whatever becomes of it. -/
def Moves (R : Ledger → Ledger → Prop) (x : Resolution α) : Prop := ∀ l, R l (x l).2

theorem Moves.pure (admits : Ledger.Admits kind R) (a : α) :
    (Pure.pure a : Resolution α).Moves R := admits.refl

theorem Moves.fail (admits : Ledger.Admits kind R) (e : SemanticError) :
    (Resolution.fail e : Resolution α).Moves R := admits.refl

theorem Moves.visit (admits : Ledger.Admits kind R) {name : String} (here : kind name) :
    (Resolution.visit name).Moves R := fun l => admits.visit l here

theorem Moves.nextId (admits : Ledger.Admits kind R) : nextId.Moves R := admits.nextId

/-- What follows may rely on what came before it. -/
theorem Moves.bind (admits : Ledger.Admits kind R) {x : Resolution α} {f : α → Resolution β}
    (first : x.Moves R) (later : ∀ a l k, x l = (.ok a, k) → (f a).Moves R) :
    (x >>= f).Moves R := by
  intro l
  have here := first l
  rw [bind_apply]
  cases outcome : x l with
  | mk result k =>
      rw [outcome] at here
      cases result with
      | error e => exact here
      | ok a => exact admits.trans here (later a l k outcome k)

end Resolution

namespace Program

variable {p : Program} {root : Variable}

/-- A name of a variable to which references lead, if only through others. -/
def Below (p : Program) (root : Variable) (name : String) : Prop :=
  ∃ w, w.name = name ∧ Relation.TransGen p.Refers root w

section

variable {R : Ledger → Ledger → Prop} (admits : Ledger.Admits (p.Below root) R)

include admits

theorem moves_copyFor (v : Variable) (equation : Expression) : (copyFor v equation).Moves R := by
  unfold copyFor
  split
  · exact .pure admits _
  · dsimp only
    split
    · exact .bind admits (.nextId admits) fun id _ _ _ => .pure admits _
    · exact .pure admits _

theorem moves_expandTerms {expand : List Variable → Expression → Resolution Expression}
    {path : List Variable} {ts : List Term} (each : ∀ t ∈ ts, (p.expandTerm expand path t).Moves R) :
    (p.expandTerms expand path ts).Moves R := by
  induction ts with
  | nil => exact .pure admits []
  | cons t ts ih =>
      have here := each t List.mem_cons_self
      have there := ih fun u member => each u (List.mem_cons_of_mem t member)
      exact .bind admits here fun u _ _ _ =>
        .bind admits there fun us _ _ _ => .pure admits (u :: us)

theorem moves_expandTerm {expand : List Variable → Expression → Resolution Expression}
    {head : Variable} {path : List Variable} {t : Term} (reached : p.Reaches root head)
    (mentions : p.Mentions head t.leaves)
    (inside : ∀ {head path e}, p.Reaches root head → p.Mentions head e.leaves →
      (expand path e).Moves R) :
    (p.expandTerm expand path t).Moves R := by
  cases t with
  | empty inverted => exact .pure admits _
  | group inverted g =>
      exact .bind admits (inside reached mentions) fun g' _ _ _ => .pure admits _
  | leaf inverted v =>
      simp only [expandTerm]
      cases found : p.equation? v with
      | none => exact .pure admits _
      | some equation =>
          have defined : p.equation? v ≠ none := by
            rw [found]
            exact Option.some_ne_none _
          have refers : p.Refers head v := mentions v (List.mem_singleton_self v) defined
          have below : Relation.TransGen p.Refers root v := Relation.TransGen.tail' reached refers
          dsimp only
          split
          · exact .fail admits _
          · refine .bind admits (.visit admits ⟨v, rfl, below⟩) fun visits _ _ _ => ?_
            split
            · exact .pure admits _
            · refine .bind admits (moves_copyFor admits v equation) fun copy _ _ copied => ?_
              have mentions' : p.Mentions v copy.leaves := by
                intro w leaf defined
                rw [(leaves_of_copyFor copied).1] at leaf
                exact ⟨equation, found, leaf, defined⟩
              exact .bind admits (inside below.to_reflTransGen mentions') fun g _ _ _ =>
                .pure admits _

/-- Expanding a tree of `head` visits only what references lead to from the root. -/
theorem moves_expand {levels : Nat} {head : Variable} {path : List Variable} {e : Expression}
    (reached : p.Reaches root head) (mentions : p.Mentions head e.leaves) :
    (p.expand root levels path e).Moves R := by
  induction levels generalizing head path e with
  | zero => exact .fail admits _
  | succ levels ih =>
      refine .bind admits (moves_expandTerms admits fun t member => ?_) fun terms _ _ _ =>
        .pure admits _
      apply moves_expandTerm admits reached
      · intro w leaf
        exact mentions w (e.leaves_eq ▸ Term.mem_leavesOfList.2 ⟨t, member, leaf⟩)
      · exact ih

/-- A resolution does to the ledger only what its steps do, whether it fails or not. -/
theorem moves_resolve {name : String} (declared : p.symbols.find? name = some root) :
    (p.resolve name).Moves R := by
  have known : p.symbols.lookup name = .ok root := by simp only [SymbolTable.lookup, declared]
  unfold resolve
  rw [known]
  cases found : p.equation? root with
  | none =>
      simp only [found]
      exact .fail admits _
  | some equation =>
      simp only [found]
      refine .bind admits (moves_expand admits .refl ?_) fun t _ _ _ => .pure admits _
      intro w leaf defined
      exact ⟨equation, found, leaf, defined⟩

end

/-- Resolving a name visits only what references lead to from its variable. -/
theorem below_of_visited {name : String} (declared : p.symbols.find? name = some root) {l : Ledger}
    {other : String} (visited : other ∈ (p.resolve name l).2.visits) :
    other ∈ l.visits ∨ p.Below root other := by
  have admits : Ledger.Admits (p.Below root) fun l k =>
      ∀ other ∈ k.visits, other ∈ l.visits ∨ p.Below root other := by
    constructor
    · intro l other before
      exact .inl before
    · intro l k m first second other there
      rcases second other there with between | below
      · exact first other between
      · exact .inr below
    · intro l name below other there
      rcases List.mem_cons.1 there with rfl | before
      · exact .inr below
      · exact .inl before
    · intro l other before
      exact .inl before
  exact moves_resolve admits declared l other visited

/-- The account of visits after names were resolved one after another, whatever became of them. -/
def ledgerAfter (p : Program) : List String → Ledger → Ledger
  | [], l => l
  | name :: rest, l => p.ledgerAfter rest (p.resolve name l).2

section

variable {clear : Variable → Prop}

/-- A name that fails leaves only clear variables visited if it visits no others on its way. -/
theorem Marks.failed (closed : p.Closed) {name : String} {f : SemanticError} {l k : Ledger}
    (before : p.Marks clear [] l) (failed : p.resolve name l = (.error f, k))
    (harmless : ∀ u, p.symbols.find? name = some u → ∀ w, w.name ∈ k.visits →
      Relation.TransGen p.Refers u w → clear w) : p.Marks clear [] k := by
  intro w defined visited
  cases declared : p.symbols.find? name with
  | none =>
      have h := resolve_eq_error.1 failed
      simp only [declared] at h
      rw [h.2] at visited
      exact before w defined visited
  | some u =>
      have left : w.name ∈ (p.resolve name l).2.visits := by rwa [failed]
      rcases below_of_visited declared left with earlier | ⟨w', same, below⟩
      · exact before w defined earlier
      · obtain ⟨v, -, e, -, -, defined'⟩ := Relation.TransGen.tail'_iff.1 below
        obtain rfl := closed.eq_of_name defined' defined same
        exact .inr (harmless u declared w' visited below)

/-- Whatever is resolved, only clear variables are left visited, if no name that fails visits others
on its way. -/
theorem Marks.ledgerAfter (closed : p.Closed) (inherited : p.Inherited clear) {names : List String}
    {l : Ledger} (before : p.Marks clear [] l)
    (harmless : ∀ earlier name later f k, names = earlier ++ name :: later →
      p.resolve name (p.ledgerAfter earlier l) = (.error f, k) →
      ∀ u, p.symbols.find? name = some u → ∀ w, w.name ∈ k.visits →
        Relation.TransGen p.Refers u w → clear w) :
    p.Marks clear [] (p.ledgerAfter names l) := by
  induction names generalizing l with
  | nil => exact before
  | cons name rest ih =>
      have between : p.Marks clear [] (p.resolve name l).2 := by
        cases outcome : p.resolve name l with
        | mk result k =>
            cases result with
            | error f => exact before.failed closed outcome (harmless [] name rest f k rfl outcome)
            | ok t =>
                obtain ⟨_, _, -, -, -, after⟩ := marks_of_resolve closed inherited outcome before
                exact after
      apply ih between
      intro earlier other later f k same failed
      exact harmless (name :: earlier) other later f k (congrArg (name :: ·) same) failed

end

/-- After names were resolved with one account of visits, whether they failed or not, a name that
leads into a cycle is still refused, unless a name that failed had visited something to which this
one leads too and from which a cycle can be reached: that is not looked into again. -/
theorem resolve_ledgerAfter (closed : p.Closed) (names : List String) (lastId : Nat) {v : Variable}
    (declared : v ∈ p.symbols.declared) (cycle : p.LeadsIntoCycle v)
    (apart : ∀ earlier u later f k, names = earlier ++ u.name :: later → u ∈ p.symbols.declared →
      p.resolve u.name (p.ledgerAfter earlier ⟨[], lastId⟩) = (.error f, k) →
      ∀ w, w.name ∈ k.visits → Relation.TransGen p.Refers u w → Relation.TransGen p.Refers v w →
        ¬p.LeadsIntoCycle w) :
    let outcome := (p.resolve v.name (p.ledgerAfter names ⟨[], lastId⟩)).1
    outcome = .error (.nestingTooDeep v.name) ∨ ∃ x, outcome = .error (.cyclicDependency x) := by
  intro outcome
  have found := SymbolTable.find?_eq_some_iff.2 ⟨declared, rfl⟩
  -- Only what can be reached from `v` matters: cycles elsewhere may be left visited.
  let clear (w : Variable) : Prop := Relation.TransGen p.Refers v w → ¬p.LeadsIntoCycle w
  have inherited : p.Inherited clear := by
    intro w equation defined cleared reached
    apply inherited_not_leadsIntoCycle w equation defined
    intro x leaf defined'
    exact cleared x leaf defined' (reached.tail ⟨equation, defined, leaf, defined'⟩)
  have unvisited : p.Marks clear [] ⟨[], lastId⟩ := by
    intro w _ visited
    cases visited
  have marks : p.Marks clear [] (p.ledgerAfter names ⟨[], lastId⟩) := by
    apply unvisited.ledgerAfter closed inherited
    intro earlier name later f k same failed u found w visited below reached
    obtain ⟨member, rfl⟩ := SymbolTable.mem_of_find? found
    exact apart earlier u later f k same member failed w visited below reached
  cases resolved : outcome with
  | ok t =>
      obtain ⟨v', e, found', defined, cleared, -⟩ :=
        marks_of_resolve closed inherited (Prod.ext resolved rfl) marks
      cases found.symm.trans found'
      refine absurd cycle (inherited_not_leadsIntoCycle v e defined ?_)
      intro w leaf defined'
      exact cleared w leaf defined' (.single ⟨e, defined, leaf, defined'⟩)
  | error f =>
      obtain ⟨w, ⟨equation, defined, -⟩, -⟩ := exists_refers_of_leadsIntoCycle cycle
      rcases cycle_of_resolve found defined (Prod.ext resolved rfl) with rfl | ⟨x, rfl, -⟩
      · exact .inl rfl
      · exact .inr ⟨x.name, rfl⟩

/-- The program of `f = g & a; g = f | a; x = !y; y = x | a; out = y & a;`, which has two cycles. -/
def loops : Program :=
  let a := Variable.plain "a" .input 0
  let f := Variable.plain "f" .flag 0
  let g := Variable.plain "g" .flag 1
  let x := Variable.plain "x" .flag 2
  let y := Variable.plain "y" .flag 3
  let out := Variable.plain "out" .output 0
  ⟨⟨[a, f, g, x, y, out], by decide⟩,
    [(f, ⟨1, .and, [.leaf false g, .leaf false a], some f, .assign⟩),
      (g, ⟨2, .or, [.leaf false f, .leaf false a], some g, .assign⟩),
      (x, ⟨3, .none, [.leaf true y], some x, .assign⟩),
      (y, ⟨4, .or, [.leaf false x, .leaf false a], some y, .assign⟩),
      (out, ⟨5, .and, [.leaf false y, .leaf false a], some out, .assign⟩)], 5⟩

theorem closed_loops : loops.Closed := ⟨by decide, by decide⟩

theorem mem_of_refers_loops {v w : Variable} (refers : loops.Refers v w)
    (here : v.name ∈ ["x", "y", "out"]) : w.name ∈ ["x", "y"] := by
  obtain ⟨e, found, leaf, defined⟩ := refers
  obtain ⟨e', found'⟩ := Option.ne_none_iff_exists'.1 defined
  have each : ∀ entry ∈ loops.equations, ∀ other ∈ loops.equations,
      entry.1.name ∈ ["x", "y", "out"] → other.1 ∈ entry.2.leaves → other.1.name ∈ ["x", "y"] := by
    decide
  exact each _ (mem_of_equation? found) _ (mem_of_equation? found') here leaf

/-- The first cycle was found from `f` and has left `g` visited, but `out` leads to the second one
only. -/
theorem resolve_loops_apart :
    let out := Variable.plain "out" .output 0
    let names := ["f", "a"]
    loops.Closed ∧ out ∈ loops.symbols.declared ∧ loops.LeadsIntoCycle out ∧
      (loops.resolve "f" ⟨[], 5⟩).1 = .error (.cyclicDependency "f") ∧
      (loops.ledgerAfter names ⟨[], 5⟩).visits = ["g"] ∧
      ((loops.resolve "out" (loops.ledgerAfter names ⟨[], 5⟩)).1 = .error (.nestingTooDeep "out") ∨
        ∃ x, (loops.resolve "out" (loops.ledgerAfter names ⟨[], 5⟩)).1 =
          .error (.cyclicDependency x)) := by
  intro out names
  have declared : out ∈ loops.symbols.declared := by decide
  have cycle : loops.LeadsIntoCycle out := by
    let x := Variable.plain "x" .flag 2
    let y := Variable.plain "y" .flag 3
    have first : loops.Refers out y := ⟨_, rfl, by decide, by decide⟩
    have there : loops.Refers y x := ⟨_, rfl, by decide, by decide⟩
    have back : loops.Refers x y := ⟨_, rfl, by decide, by decide⟩
    exact ⟨y, .single first, .tail (.single there) back⟩
  have reached : ∀ w, Relation.TransGen loops.Refers out w → w.name ∈ ["x", "y"] := by
    intro w path
    induction path with
    | single refers => exact mem_of_refers_loops refers (by decide)
    | tail _ refers ih =>
        exact mem_of_refers_loops refers (List.mem_append_left ["out"] ih)
  refine ⟨closed_loops, declared, cycle, rfl, rfl, ?_⟩
  apply resolve_ledgerAfter closed_loops names 5 declared cycle
  intro earlier u later f k same _ failed w visited _ path
  -- Whatever was resolved before, all that is visited is `g`.
  have only : k.visits = ["g"] := by
    have left := congrArg (fun r => r.2.visits) failed
    rcases earlier with _ | ⟨first, _ | ⟨second, more⟩⟩
    · obtain ⟨named, -⟩ := List.cons.inj same
      rw [← named] at left
      exact left.symm
    · obtain ⟨rfl, rest⟩ := List.cons.inj same
      obtain ⟨named, -⟩ := List.cons.inj rest
      rw [← named] at left
      exact left.symm
    · obtain ⟨-, rest⟩ := List.cons.inj same
      obtain ⟨-, none⟩ := List.cons.inj rest
      exact absurd none.symm (List.append_ne_nil_of_right_ne_nil more (List.cons_ne_nil _ _))
  rw [only] at visited
  have named := List.mem_singleton.1 visited
  have there := reached w path
  rw [named] at there
  exact absurd there (by decide)

/-- A cycle that was found once is not found again: `g`, which is on it, is left as it stands. -/
theorem resolve_loops_again :
    let f := Variable.plain "f" .flag 0
    let again := loops.resolve "f" (loops.ledgerAfter ["f"] loops.ledger)
    loops.Closed ∧ f ∈ loops.symbols.declared ∧ loops.LeadsIntoCycle f ∧
      again.1 = .ok ⟨1, .and, [.leaf false (.plain "g" .flag 1), .leaf false (.plain "a" .input 0)],
        some f, .assign⟩ := by
  intro f again
  let g := Variable.plain "g" .flag 1
  have there : loops.Refers f g := ⟨_, rfl, by decide, by decide⟩
  have back : loops.Refers g f := ⟨_, rfl, by decide, by decide⟩
  have cycle : loops.LeadsIntoCycle f := ⟨f, .refl, .tail (.single there) back⟩
  exact ⟨closed_loops, by decide, cycle, rfl⟩

end Program

end RelayLogic
